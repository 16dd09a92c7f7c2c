import Relabel.Proofs.LinkedNames

set_option autoImplicit false

namespace Relabel

namespace Catalog

instance (count index : Nat) : Decidable (Addressable count index) := inferInstanceAs (Decidable (_ ∧ _))

def left {α : Type} : EStateM.Result Fault Catalog α → Catalog
  | .ok _ catalog | .error _ catalog => catalog

def hear (catalog : Catalog) (fact : Fact) : Catalog := left (learn fact catalog)

def heard (count : Nat) (facts : List Fact) : Catalog := facts.foldl hear (.empty count)

def retyped (target : Nat) (kind : MemberKind) (catalog : Catalog) : Catalog :=
  ⟨catalog.slots.modify target fun slot => { slot with memberKind := kind }⟩

def moved {α : Type} (change : Catalog → Catalog) : EStateM.Result Fault Catalog α → EStateM.Result Fault Catalog α
  | .ok a catalog => .ok a (change catalog)
  | .error e catalog => .error e (change catalog)

section

variable {α : Type} {target : Nat} {kind : MemberKind} {catalog : Catalog}

theorem left_moved (change : Catalog → Catalog) (result : EStateM.Result Fault Catalog α) :
    left (moved change result) = change (left result) := by
  cases result <;> rfl

theorem count_retyped : (catalog.retyped target kind).count = catalog.count := Array.size_modify

theorem slots_retyped (place : Nat) :
    (catalog.retyped target kind).slots[place]? =
      catalog.slots[place]?.map fun slot => if target = place then { slot with memberKind := kind } else slot := by
  change (catalog.slots.modify target _)[place]? = _
  rw [Array.getElem?_modify]
  by_cases here : target = place <;> simp [here]

theorem slot_retyped (name : Nat) :
    (catalog.retyped target kind).slot name =
      (catalog.slot name).map fun slot => if target = name then { slot with memberKind := kind } else slot := by
  by_cases zero : name = 0
  · simp [slot, zero, Except.map]
  · rw [slot, slot, if_neg zero, if_neg zero, slots_retyped, count_retyped]
    cases catalog.slots[name]? <;> rfl

theorem tag_retyped (name : Nat) : (catalog.retyped target kind).tag name = catalog.tag name := by
  rw [tag, tag, slot_retyped]
  cases catalog.slot name with
  | error e => rfl
  | ok slot => by_cases here : target = name <;> simp [Except.map, bind, Except.bind, here]

theorem retyped_own {slot : Slot} (held : catalog.slots[target]? = some slot) :
    catalog.retyped target slot.memberKind = catalog := by
  cases catalog with
  | mk slots =>
      apply congrArg Catalog.mk
      apply Array.ext_getElem?
      intro place
      rw [Array.getElem?_modify]
      by_cases here : target = place
      · subst here
        rw [if_pos rfl, held, Option.map_some]
      · rw [if_neg here]

end

structure Retypes {α : Type} (count target : Nat) (act : Learn α) (sets : Option MemberKind) : Prop where
  size : ∀ catalog, catalog.count = count → (left (act catalog)).count = count
  same : ∀ catalog kind, catalog.count = count →
    act (catalog.retyped target kind) = moved (retyped target (sets.getD kind)) (act catalog)

section

variable {α β : Type} {count target : Nat}

theorem retypes_bind {x : Learn α} {f : α → Learn β} (first : Retypes count target x none)
    (rest : ∀ a, Retypes count target (f a) none) : Retypes count target (x >>= f) none := by
  constructor
  · intro catalog size
    have still := first.size catalog size
    cases ran : x catalog with
    | ok a middle =>
        rw [ran] at still
        rw [bind_ok ran]
        exact (rest a).size middle still
    | error e middle =>
        rw [ran] at still
        rwa [bind_error ran]
  · intro catalog kind size
    have still := first.size catalog size
    have alike := first.same catalog kind size
    cases ran : x catalog with
    | ok a middle =>
        rw [ran] at still alike
        rw [bind_ok ran, bind_ok alike]
        exact (rest a).same middle kind still
    | error e middle =>
        rw [ran] at alike
        rw [bind_error ran, bind_error alike]
        rfl

theorem retypes_ask {question : Catalog → Except Fault α}
    (alike : ∀ catalog kind, question (catalog.retyped target kind) = question catalog) :
    Retypes count target (ask question) none := by
  constructor
  · intro catalog size
    rw [ask]
    cases question catalog <;> exact size
  · intro catalog kind _
    rw [ask, ask, alike]
    cases question catalog <;> rfl

theorem within_eq (index : Nat) (catalog : Catalog) :
    within index catalog = match catalog.slot index with
      | .ok _ => .ok () catalog
      | .error e => .error e catalog := by
  cases found : catalog.slot index with
  | ok slot =>
      have known : ask (·.slot index) catalog = .ok slot catalog := by rw [ask, found]
      rw [within, bind_ok known]
      rfl
  | error e =>
      have unknown : ask (·.slot index) catalog = .error e catalog := by rw [ask, found]
      rw [within, bind_error unknown]

theorem retypes_within {index : Nat} {f : Unit → Learn β} {sets : Option MemberKind}
    (rest : Addressable count index → Retypes count target (f ()) sets)
    (refused : ¬ Addressable count index → sets = none) : Retypes count target (within index >>= f) sets := by
  constructor
  · intro catalog size
    cases found : catalog.slot index with
    | ok slot =>
        have passed : within index catalog = .ok () catalog := by rw [within_eq, found]
        rw [bind_ok passed]
        exact (rest (size ▸ (slot_inv found).1)).size catalog size
    | error e =>
        have stopped : within index catalog = .error e catalog := by rw [within_eq, found]
        rwa [bind_error stopped]
  · intro catalog kind size
    cases found : catalog.slot index with
    | ok slot =>
        have passed : within index catalog = .ok () catalog := by rw [within_eq, found]
        have alike : within index (catalog.retyped target kind) = .ok () (catalog.retyped target kind) := by
          rw [within_eq, slot_retyped, found]
          rfl
        rw [bind_ok passed, bind_ok alike]
        exact (rest (size ▸ (slot_inv found).1)).same catalog kind size
    | error e =>
        have stopped : within index catalog = .error e catalog := by rw [within_eq, found]
        have alike : within index (catalog.retyped target kind) = .error e (catalog.retyped target kind) := by
          rw [within_eq, slot_retyped, found]
          rfl
        have outside : ¬ Addressable count index := by
          intro inside
          obtain ⟨slot, _, there⟩ := slot_found catalog index (size ▸ inside)
          rw [found] at there
          cases there
        rw [bind_error stopped, bind_error alike, refused outside]
        rfl

theorem modify_twice (slots : Array Slot) (index : Nat) (first second : Slot → Slot) :
    (slots.modify index first).modify index second = slots.modify index fun slot => second (first slot) := by
  apply Array.ext_getElem?
  intro place
  simp only [Array.getElem?_modify]
  by_cases here : index = place <;> simp [here, Function.comp_def]

theorem modify_apart (slots : Array Slot) {one other : Nat} (apart : one ≠ other) (first second : Slot → Slot) :
    (slots.modify one first).modify other second = (slots.modify other second).modify one first := by
  apply Array.ext_getElem?
  intro place
  simp only [Array.getElem?_modify]
  by_cases here : one = place
  · subst here
    simp [Ne.symm apart]
  · simp [here]

theorem update_size (index : Nat) (change : Slot → Slot) (catalog : Catalog) (size : catalog.count = count) :
    (left (update index change catalog)).count = count := size ▸ Array.size_modify

theorem retypes_update (index : Nat) {change : Slot → Slot}
    (kept : index = target → ∀ slot kind, change { slot with memberKind := kind } = { change slot with memberKind := kind }) :
    Retypes count target (update index change) none := by
  refine ⟨update_size index change, fun catalog kind _ => ?_⟩
  apply congrArg fun slots => EStateM.Result.ok () (Catalog.mk slots)
  by_cases here : index = target
  · subst here
    simp only [retyped, modify_twice, Option.getD_none]
    congr 1
    funext slot
    exact kept rfl slot kind
  · exact modify_apart catalog.slots (Ne.symm here) _ change

theorem retypes_set (index : Nat) {change : Slot → Slot} {sets : MemberKind}
    (whole : ∀ slot kind, change { slot with memberKind := kind } = change slot)
    (set : ∀ slot, (change slot).memberKind = sets) :
    Retypes count target (update index change) (if index = target then some sets else none) := by
  by_cases here : index = target
  · rw [if_pos here]
    subst here
    refine ⟨update_size index change, fun catalog kind _ => ?_⟩
    apply congrArg fun slots => EStateM.Result.ok () (Catalog.mk slots)
    simp only [retyped, modify_twice, whole, Option.getD_some]
    congr 1
    funext slot
    rw [← set slot]
  · rw [if_neg here]
    exact retypes_update index fun same => absurd same here

theorem retypes_use (index : Nat) (role : Role) : Retypes count target (use index role) none :=
  retypes_within (fun _ => retypes_update index fun _ _ _ => rfl) fun _ => rfl

end

end Catalog

open Catalog (Addressable)

def Fact.sets? (count target : Nat) : Fact → Option MemberKind
  | .member linked owner kind =>
      if linked = target ∧ Addressable count linked ∧ Addressable count owner ∧ kind ≠ .unknown then some kind else none
  | .dynamic linked => if linked = target ∧ Addressable count linked then some .method else none
  | .enclosing linked owner =>
      if linked = target ∧ Addressable count linked ∧ Addressable count owner then some .method else none
  | _ => none

namespace Catalog

theorem learn_retypes (count target : Nat) (fact : Fact) : Retypes count target (learn fact) (fact.sets? count target) := by
  cases fact with
  | entry index tag offset => exact retypes_within (fun _ => retypes_update index fun _ _ _ => rfl) fun _ => rfl
  | use index role => exact retypes_use index role
  | className classIndex name =>
      refine retypes_within (fun _ => ?_) fun _ => rfl
      exact retypes_bind (retypes_update classIndex fun _ _ _ => rfl) fun _ => retypes_use name _
  | member linked owner kind =>
      refine retypes_within (fun inside => retypes_within (fun owned => ?_) ?_) ?_
      · by_cases unknown : kind = .unknown
        · simp only [Fact.sets?, unknown, ne_eq, not_true_eq_false, and_false, if_false]
          exact retypes_update linked fun _ _ _ => rfl
        · simp only [Fact.sets?, unknown, inside, owned, ne_eq, not_false_eq_true, and_true]
          apply retypes_set <;> simp [MemberKind.update, unknown]
      · exact fun outside => by simp [Fact.sets?, outside]
      · exact fun outside => by simp [Fact.sets?, outside]
  | dynamic linked =>
      refine retypes_within (fun inside => ?_) fun outside => by simp [Fact.sets?, outside]
      simp only [Fact.sets?, inside, and_true]
      apply retypes_set <;> simp [MemberKind.update]
  | enclosing linked owner =>
      refine retypes_within (fun inside => retypes_within (fun owned => ?_) ?_) ?_
      · simp only [Fact.sets?, inside, owned, and_true]
        apply retypes_set <;> simp [MemberKind.update]
      · exact fun outside => by simp [Fact.sets?, outside]
      · exact fun outside => by simp [Fact.sets?, outside]
  | nameAndType index name descriptor =>
      refine retypes_within (fun _ => retypes_within (fun _ => retypes_within (fun _ => ?_) fun _ => rfl) fun _ => rfl)
        fun _ => rfl
      refine retypes_bind (retypes_update name fun _ _ _ => rfl) fun _ => ?_
      refine retypes_bind (retypes_update index fun _ _ _ => rfl) fun _ => ?_
      exact retypes_bind (retypes_use name _) fun _ => retypes_use descriptor _
  | declares name descriptor kind =>
      refine retypes_bind (retypes_use name _) fun _ => retypes_bind (retypes_update name fun _ slot _ => ?_) fun _ => ?_
      · by_cases own : slot.role = kind.ownRole <;> simp [own]
      · exact retypes_bind (retypes_use descriptor _) fun _ => retypes_update name fun _ _ _ => rfl
  | inner name classIndex =>
      refine retypes_within (fun _ => retypes_within (fun _ => ?_) fun _ => rfl) fun _ => rfl
      exact retypes_bind (retypes_update name fun _ _ _ => rfl) fun _ => retypes_use name _
  | addresses kind index => exact retypes_ask fun catalog _ => by rw [address, address, tag_retyped]
  | handle index kind linked => exact retypes_ask fun catalog _ => by rw [checkHandle, checkHandle, tag_retyped]

theorem hear_size (catalog : Catalog) (fact : Fact) : (catalog.hear fact).count = catalog.count :=
  (learn_retypes catalog.count 0 fact).size catalog rfl

theorem hear_retyped (target : Nat) (catalog : Catalog) (kind : MemberKind) (fact : Fact) :
    (catalog.retyped target kind).hear fact =
      (catalog.hear fact).retyped target ((fact.sets? catalog.count target).getD kind) := by
  rw [hear, (learn_retypes catalog.count target fact).same catalog kind rfl, left_moved]
  rfl

theorem hear_all_retyped (target : Nat) (facts : List Fact) (catalog : Catalog) (kind : MemberKind) :
    facts.foldl hear (catalog.retyped target kind) =
      (facts.foldl hear catalog).retyped target
        ((facts.filterMap (Fact.sets? catalog.count target)).getLast?.getD kind) := by
  induction facts generalizing catalog kind with
  | nil => rfl
  | cons fact rest ih =>
      rw [List.foldl_cons, List.foldl_cons, hear_retyped, ih, hear_size, List.filterMap_cons]
      cases fact.sets? catalog.count target with
      | none => rfl
      | some set => rw [List.getLast?_cons, Option.getD_some, Option.getD_some]

theorem hear_dynamic (catalog : Catalog) {target : Nat} (inside : Addressable catalog.count target) :
    catalog.hear (.dynamic target) = catalog.retyped target .method := by
  obtain ⟨slot, _, found⟩ := slot_found catalog target inside
  have passed : within target catalog = .ok () catalog := by rw [within_eq, found]
  rw [hear, learn, bind_ok passed]
  rfl

theorem heard_size (count : Nat) (facts : List Fact) : (heard count facts).count = count := by
  refine List.foldlRecOn facts hear ?_ fun catalog size fact _ => (hear_size catalog fact).trans size
  exact Array.size_replicate

theorem heard_called {count target : Nat} (before after : List Fact) (inside : Addressable count target) :
    heard count (before ++ .dynamic target :: after) =
      if after.filterMap (Fact.sets? count target) = [] then (heard count (before ++ after)).retyped target .method
      else heard count (before ++ after) := by
  have size := heard_size count before
  have reached : Addressable (heard count before).count target := by rwa [size]
  obtain ⟨slot, held, _⟩ := slot_found (heard count before) target reached
  -- Both runs start from the same catalog but for the kind at the target, which lasts until another
  -- is set.
  have called := hear_all_retyped target after (heard count before) .method
  have plain := hear_all_retyped target after (heard count before) slot.memberKind
  rw [retyped_own held] at plain
  rw [size] at called plain
  rw [heard, heard, List.foldl_append, List.foldl_append, List.foldl_cons]
  change after.foldl hear ((heard count before).hear _) = if _ then (after.foldl hear (heard count before)).retyped _ _
    else after.foldl hear (heard count before)
  rw [hear_dynamic _ reached, called]
  cases set : (after.filterMap (Fact.sets? count target)).getLast? with
  | none => rw [if_pos (List.getLast?_eq_none_iff.mp set), Option.getD_none]
  | some kind =>
      rw [if_neg fun none => by simp [none] at set, Option.getD_some]
      rw [set, Option.getD_some] at plain
      exact plain.symm

section

variable {target : Nat} {kind : MemberKind} (catalog : Catalog)

theorem member_retyped (place : Nat) :
    (catalog.retyped target kind).memberOf? place =
      (catalog.memberOf? place).map fun member => if target = place then { member with kind } else member := by
  rw [memberOf?, memberOf?, slots_retyped]
  cases catalog.slots[place]? with
  | none => rfl
  | some slot =>
      by_cases here : target = place <;>
        cases owner : slot.owner <;> cases descriptor : slot.descriptor <;> simp [here, owner, descriptor]

theorem links_retyped (name : Nat) :
    ((catalog.retyped target kind).slot name).map Slot.nameAndTypes = (catalog.slot name).map Slot.nameAndTypes := by
  rw [slot_retyped]
  cases catalog.slot name with
  | error e => rfl
  | ok slot => by_cases here : target = name <;> simp [Except.map, here]

theorem linked_member_eq (name : Nat) :
    catalog.linkedMember? name =
      ((catalog.slot name).map Slot.nameAndTypes).map fun links => links.current.bind catalog.memberOf? := by
  rw [linkedMember?]
  cases catalog.slot name <;> rfl

theorem linked_members_eq (name : Nat) :
    catalog.linkedMembers name =
      ((catalog.slot name).map Slot.nameAndTypes).map fun links =>
        (links.toList.filterMap catalog.memberOf?).eraseDups := by
  rw [linkedMembers]
  cases catalog.slot name <;> rfl

end

end Catalog

open Catalog (heard) in
/-- A dynamic call that shares its name and type with a member makes that member a method, unless
something later says what it is. All else stays, and so do the members that names are linked to if
it is a method already or has no owner. -/
theorem call_site_retypes_member {count target : Nat} {before after : List Fact} {plain called : Catalog}
    (inside : Addressable count target) (without : heard count (before ++ after) = plain)
    (between : heard count (before ++ .dynamic target :: after) = called) :
    (∀ place, called.memberOf? place = (plain.memberOf? place).map fun member =>
      if target = place ∧ after.filterMap (Fact.sets? count target) = [] then { member with kind := .method } else member) ∧
    (∀ name, (called.slot name).map Slot.nameAndTypes = (plain.slot name).map Slot.nameAndTypes) ∧
    ((∀ member, plain.memberOf? target = some member → after.filterMap (Fact.sets? count target) = [] → member.kind = .method) →
      ∀ name, called.linkedMember? name = plain.linkedMember? name ∧ called.linkedMembers name = plain.linkedMembers name) ∧
    ∀ member name slot, plain.memberOf? target = some member → after.filterMap (Fact.sets? count target) = [] →
      plain.slot name = .ok slot → slot.nameAndTypes.current = some target →
        plain.linkedMember? name = .ok (some member) ∧
        called.linkedMember? name = .ok (some { member with kind := .method }) := by
  rw [Catalog.heard_called before after inside, without] at between
  -- A catalog differs from the other only by the kind at the target, if nothing later sets one.
  have members : ∀ place, called.memberOf? place = (plain.memberOf? place).map fun member =>
      if target = place ∧ after.filterMap (Fact.sets? count target) = [] then { member with kind := .method } else member := by
    intro place
    by_cases last : after.filterMap (Fact.sets? count target) = []
    · rw [if_pos last] at between
      simp only [← between, Catalog.member_retyped, last, and_true]
    · rw [if_neg last] at between
      simp [← between, last]
  have links : ∀ name, (called.slot name).map Slot.nameAndTypes = (plain.slot name).map Slot.nameAndTypes := by
    intro name
    rw [← between]
    split
    · exact plain.links_retyped name
    · rfl
  refine ⟨members, links, ?_, ?_⟩
  · intro methods name
    have same : called.memberOf? = plain.memberOf? := by
      funext place
      rw [members]
      cases found : plain.memberOf? place with
      | none => rfl
      | some member =>
          rw [Option.map_some]
          split
          · rename_i here
            have kind := methods member (here.1 ▸ found) here.2
            rw [← kind]
          · rfl
    rw [called.linked_member_eq, plain.linked_member_eq, called.linked_members_eq, plain.linked_members_eq, links, same]
    exact ⟨rfl, rfl⟩
  · intro member name slot found last held current
    rw [called.linked_member_eq, plain.linked_member_eq, links, held]
    simp [Except.map, current, members, found, last]

theorem call_site_retypes_member_before :
    Addressable 7 5 ∧
      (Catalog.heard 7 [.nameAndType 5 1 2, .dynamic 5, .member 5 6 .field]).linkedMember? 1 = .ok (some ⟨.field, 6, 2⟩) := by
  have inside : Addressable 7 5 := by decide
  obtain ⟨_, _, unchanged, _⟩ := call_site_retypes_member inside
    (rfl : Catalog.heard 7 ([.nameAndType 5 1 2] ++ [.member 5 6 .field]) = _)
    (rfl : Catalog.heard 7 ([.nameAndType 5 1 2] ++ .dynamic 5 :: [.member 5 6 .field]) = _)
  refine ⟨inside, (unchanged (fun member found later => ?_) 1).1.trans rfl⟩
  exact absurd later (by decide)

def sharedCallClass : Bytes := referringClass [18, 0, 0, 0, 7, 17, 0, 0, 0, 7, 1, 0, 1, 74]

/-- A field that is referred to before the call is looked up as a method from then on. -/
theorem call_site_overrides_field :
    (Catalog.heard 7 [.nameAndType 5 1 2, .member 5 6 .field]).linkedMember? 1 = .ok (some ⟨.field, 6, 2⟩) ∧
      (Catalog.heard 7 [.nameAndType 5 1 2, .member 5 6 .field, .dynamic 5]).linkedMember? 1 = .ok (some ⟨.method, 6, 2⟩) ∧
      Overlooks sharedCallClass :=
  ⟨rfl, rfl, rfl, _, ⟨8, .fieldRef 4 7, .field, 4, 7, 3, 5, 6, .ofString "B", .ofString "f", .ofString "I", rfl, rfl, rfl, rfl,
    rfl, rfl, rfl⟩, rfl, rfl, by decide⟩

end Relabel
