import Relabel.Proofs.CallSites
import Relabel.Proofs.InnerNames

set_option autoImplicit false

namespace Relabel

open Catalog (Addressable)

namespace Fact

def ChecksFirst : Fact → Prop
  | .className .. | .declares .. => False
  | _ => True

def tied : Fact → List Nat
  | .member linked owner _ | .enclosing linked owner => [linked, owner]
  | .nameAndType index name descriptor => [index, name, descriptor]
  | .inner name classIndex => [name, classIndex]
  | _ => []

variable {fact : Fact} {place target : Nat}

theorem of_named_for (named : fact.namedFor? place = some target) :
    ∃ descriptor, fact = .nameAndType target place descriptor := by
  cases fact <;> simp_all [namedFor?]

theorem of_typed_for (typed : fact.typedFor? place = some target) :
    ∃ name, fact = .nameAndType place name target := by
  cases fact <;> simp_all [typedFor?]

theorem of_owner_for (owned : fact.ownerFor? place = some target) : ∃ kind, fact = .member place target kind := by
  cases fact <;> simp_all [ownerFor?]

theorem of_encloser_for (enclosed : fact.encloserFor? place = some target) : fact = .enclosing place target := by
  cases fact <;> simp_all [encloserFor?]

theorem of_inner_for (inner : fact.innerFor? place = some target) : fact = .inner place target := by
  cases fact <;> simp_all [innerFor?]

end Fact

def Links.Has (links : Links) (target : Nat) : Prop := target ∈ links.earlier ∨ links.current = some target

namespace Slot

structure Tied (count : Nat) (slot : Slot) : Prop where
  owner : ∀ classIndex, slot.owner = some classIndex → Addressable count classIndex
  descriptor : ∀ text, slot.descriptor = some text → Addressable count text
  nameAndTypes : ∀ target, slot.nameAndTypes.Has target → Addressable count target
  innerClasses : ∀ target, slot.innerClasses.Has target → Addressable count target

def ties (slot : Slot) : Slot :=
  { memberKind := slot.memberKind
    owner := slot.owner
    descriptor := slot.descriptor
    nameAndTypes := slot.nameAndTypes
    innerClasses := slot.innerClasses }

variable {place : Nat}

theorem named_of_ties {slot other : Slot} (same : slot.ties = other.ties) : slot.nameAndTypes = other.nameAndTypes := by
  have part := congrArg Slot.nameAndTypes same
  exact part

theorem inner_of_ties {slot other : Slot} (same : slot.ties = other.ties) : slot.innerClasses = other.innerClasses := by
  have part := congrArg Slot.innerClasses same
  exact part

theorem ties_after (slot : Slot) (fact : Fact) : (slot.ties.after place fact).ties = (slot.after place fact).ties := by
  cases fact <;> simp only [after, used, changed, ties] <;> split_ifs <;> rfl

theorem ties_after_all (facts : List Fact) (slot : Slot) :
    (facts.foldl (after place) slot.ties).ties = (facts.foldl (after place) slot).ties := by
  induction facts generalizing slot with
  | nil => rfl
  | cons fact rest ih => rw [List.foldl_cons, List.foldl_cons, ← ih, ties_after, ih]

theorem ties_alike (facts : List Fact) {held other : Option Slot} (same : held.map ties = other.map ties) :
    (held.map fun slot => (facts.foldl (after place) slot).ties) =
      other.map fun slot => (facts.foldl (after place) slot).ties := by
  have run : (fun slot => (facts.foldl (after place) slot).ties) =
      (fun slot => (facts.foldl (after place) slot).ties) ∘ ties := funext fun slot => (ties_after_all facts slot).symm
  rw [run, ← Option.map_map, ← Option.map_map, same]

theorem told_descriptor (facts : List Fact) :
    (told place facts).descriptor = (facts.filterMap (Fact.typedFor? place)).getLast? := by
  rw [told_last (·.descriptor) (Fact.typedFor? place) facts, Option.or_none]
  intro fact _ slot
  cases fact with
  | nameAndType index name descriptor =>
      by_cases here : index = place <;>
        simp [after, used, changed, apply_ite Slot.descriptor, Fact.typedFor?, here]
  | _ => simp [after, used, changed, apply_ite Slot.descriptor, Fact.typedFor?]

end Slot

namespace Catalog

section

variable {α β : Type} {count : Nat}

def Sure (count : Nat) (act : Learn α) : Prop :=
  ∀ catalog, catalog.count = count → ∃ a next, act catalog = .ok a next ∧ next.count = count

theorem sure_update (index : Nat) (change : Slot → Slot) : Sure count (update index change) :=
  fun catalog size => ⟨(), _, rfl, update_size index change catalog size⟩

theorem sure_bind {x : Learn α} {f : α → Learn β} (first : Sure count x) (second : ∀ a, Sure count (f a)) :
    Sure count (x >>= f) := by
  intro catalog size
  obtain ⟨a, middle, ranFirst, middleSize⟩ := first catalog size
  rw [bind_ok ranFirst]
  exact second a middle middleSize

theorem within_passes {catalog : Catalog} {index : Nat} (inside : Addressable catalog.count index) :
    within index catalog = .ok () catalog := by
  obtain ⟨slot, _, found⟩ := slot_found catalog index inside
  rw [within_eq, found]

theorem sure_within {index : Nat} {f : Unit → Learn β} (inside : Addressable count index) (rest : Sure count (f ())) :
    Sure count (within index >>= f) := by
  intro catalog size
  rw [bind_ok (within_passes (size ▸ inside))]
  exact rest catalog size

theorem sure_use {index : Nat} (inside : Addressable count index) (role : Role) : Sure count (use index role) :=
  sure_within inside (sure_update index _)

def Atomic (count : Nat) (act : Learn α) : Prop :=
  ∀ catalog e next, catalog.count = count → act catalog = .error e next → next = catalog

theorem atomic_sure {act : Learn α} (sure : Sure count act) : Atomic count act := by
  intro catalog e next size ran
  obtain ⟨a, other, passed, _⟩ := sure catalog size
  rw [passed] at ran
  cases ran

theorem atomic_ask (question : Catalog → Except Fault α) : Atomic count (ask question) := by
  intro catalog e next _ ran
  rw [ask] at ran
  cases answer : question catalog with
  | ok a =>
      rw [answer] at ran
      cases ran
  | error fault =>
      rw [answer] at ran
      cases ran
      rfl

theorem within_refuses {catalog : Catalog} {index : Nat} (outside : ¬ Addressable catalog.count index) :
    ∃ e, within index catalog = .error e catalog := by
  rw [within_eq]
  cases found : catalog.slot index with
  | ok slot => exact absurd (slot_inv found).1 outside
  | error e => exact ⟨e, rfl⟩

theorem atomic_within {index : Nat} {f : Unit → Learn β} (rest : Addressable count index → Atomic count (f ())) :
    Atomic count (within index >>= f) := by
  intro catalog e next size ran
  by_cases inside : Addressable catalog.count index
  · rw [bind_ok (within_passes inside)] at ran
    exact rest (size ▸ inside) catalog e next size ran
  · obtain ⟨fault, refused⟩ := within_refuses inside
    rw [bind_error refused] at ran
    cases ran
    rfl

def Untied (act : Learn α) : Prop :=
  ∀ catalog (place : Nat), (left (act catalog)).slots[place]?.map Slot.ties = catalog.slots[place]?.map Slot.ties

theorem untied_ask (question : Catalog → Except Fault α) : Untied (ask question) := by
  intro catalog place
  rw [ask]
  cases question catalog <;> rfl

theorem untied_bind {x : Learn α} {f : α → Learn β} (first : Untied x) (second : ∀ a, Untied (f a)) :
    Untied (x >>= f) := by
  intro catalog place
  have before := first catalog place
  cases ran : x catalog with
  | ok a middle =>
      rw [ran] at before
      rw [bind_ok ran, second a middle place]
      exact before
  | error e middle =>
      rw [ran] at before
      rw [bind_error ran]
      exact before

theorem untied_update (index : Nat) {change : Slot → Slot} (kept : ∀ slot, (change slot).ties = slot.ties) :
    Untied (update index change) := by
  intro catalog place
  change (catalog.slots.modify index change)[place]?.map _ = _
  rw [Array.getElem?_modify]
  by_cases here : index = place <;> simp [here, kept, Function.comp_def]

theorem untied_within (index : Nat) : Untied (within index) :=
  untied_bind (untied_ask _) fun _ => fun _ _ => rfl

theorem untied_use (index : Nat) (role : Role) : Untied (use index role) :=
  untied_bind (untied_within index) fun _ => untied_update index fun _ => rfl

end

theorem learn_atomic (count : Nat) {fact : Fact} (whole : fact.ChecksFirst) : Atomic count (learn fact) := by
  cases fact with
  | className | declares => exact absurd whole id
  | entry index tag offset => exact atomic_within fun _ => atomic_sure (sure_update index _)
  | use index role => exact atomic_within fun _ => atomic_sure (sure_update index _)
  | member linked owner kind => exact atomic_within fun _ => atomic_within fun _ => atomic_sure (sure_update linked _)
  | dynamic linked => exact atomic_within fun _ => atomic_sure (sure_update linked _)
  | nameAndType index name descriptor =>
      -- The uses at the end cannot be refused, since their indices have passed.
      refine atomic_within fun _ => atomic_within fun named => atomic_within fun described => atomic_sure ?_
      refine sure_bind (sure_update name _) fun _ => sure_bind (sure_update index _) fun _ => ?_
      exact sure_bind (sure_use named _) fun _ => sure_use described _
  | enclosing linked owner => exact atomic_within fun _ => atomic_within fun _ => atomic_sure (sure_update linked _)
  | inner name classIndex =>
      refine atomic_within fun named => atomic_within fun _ => atomic_sure ?_
      exact sure_bind (sure_update name _) fun _ => sure_use named _
  | addresses kind index => exact atomic_ask _
  | handle index kind target => exact atomic_ask _

theorem learn_refused {fact : Fact} {catalog next : Catalog} {e : Fault} (ran : learn fact catalog = .error e next)
    (place : Nat) : next.slots[place]?.map Slot.ties = catalog.slots[place]?.map Slot.ties := by
  have untied : ∀ {act : Learn Unit}, Untied act → act catalog = .error e next →
      next.slots[place]?.map Slot.ties = catalog.slots[place]?.map Slot.ties := by
    intro act steady stopped
    have same := steady catalog place
    rwa [stopped] at same
  cases fact with
  | className classIndex name =>
      refine untied (untied_bind (untied_within classIndex) fun _ => ?_) ran
      exact untied_bind (untied_update classIndex fun _ => rfl) fun _ => untied_use name _
  | declares name descriptor kind =>
      refine untied (untied_bind (untied_use name _) fun _ => untied_bind (untied_update name fun slot => ?_) fun _ => ?_) ran
      · by_cases own : slot.role = kind.ownRole <;> simp [own, Slot.ties]
      · exact untied_bind (untied_use descriptor _) fun _ => untied_update name fun _ => rfl
  | _ =>
      have same : next = catalog := learn_atomic catalog.count (by trivial) catalog e next rfl ran
      rw [same]

theorem learn_tied {fact : Fact} {catalog next : Catalog} {a : Unit} (ran : learn fact catalog = .ok a next) :
    ∀ index ∈ fact.tied, Addressable catalog.count index := by
  have second : ∀ {one other : Nat} {rest : Learn Unit}, (do within one; within other; rest) catalog = .ok a next →
      ∀ index ∈ [one, other], Addressable catalog.count index := by
    intro one other rest both
    obtain ⟨_, middle, ranOne, ranRest⟩ := bind_ok_inv both
    obtain ⟨first, rfl⟩ := within_inv ranOne
    obtain ⟨_, _, ranOther, _⟩ := bind_ok_inv ranRest
    simp [first, (within_inv ranOther).1]
  cases fact with
  | member linked owner kind => exact second ran
  | enclosing linked owner => exact second ran
  | inner name classIndex => exact second ran
  | nameAndType index name descriptor =>
      have front := second ran
      obtain ⟨_, middle, ranOne, ranRest⟩ := bind_ok_inv ran
      obtain ⟨_, rfl⟩ := within_inv ranOne
      have back := second ranRest
      simp_all [Fact.tied]
  | _ => exact fun _ member => absurd member List.not_mem_nil

def passed {α : Type} : EStateM.Result Fault Catalog α → Bool
  | .ok .. => true
  | .error .. => false

def acceptedAfter : Catalog → List Fact → List Fact
  | _, [] => []
  | catalog, fact :: rest =>
      if passed (learn fact catalog) then fact :: acceptedAfter (catalog.hear fact) rest
      else acceptedAfter (catalog.hear fact) rest

def accepted (count : Nat) (facts : List Fact) : List Fact := acceptedAfter (.empty count) facts

variable {count : Nat} {facts : List Fact}

theorem hear_ties (fact : Fact) (catalog : Catalog) (place : Nat) :
    (catalog.hear fact).slots[place]?.map Slot.ties =
      (if passed (learn fact catalog) then catalog.slots[place]?.map fun slot => slot.after place fact
        else catalog.slots[place]?).map Slot.ties := by
  rw [hear]
  cases ran : learn fact catalog with
  | ok a next =>
      rw [passed, if_pos rfl, ← learn_does fact catalog a next ran]
      rfl
  | error e next =>
      rw [passed, if_neg Bool.false_ne_true]
      exact learn_refused ran place

theorem hear_all_ties (facts : List Fact) (catalog : Catalog) (place : Nat) :
    (facts.foldl hear catalog).slots[place]?.map Slot.ties =
      catalog.slots[place]?.map fun slot => ((acceptedAfter catalog facts).foldl (Slot.after place) slot).ties := by
  induction facts generalizing catalog with
  | nil => rfl
  | cons fact rest ih =>
      rw [List.foldl_cons, ih, acceptedAfter, Slot.ties_alike _ (hear_ties fact catalog place)]
      by_cases made : passed (learn fact catalog)
      · rw [if_pos made, if_pos made, Option.map_map]
        rfl
      · rw [if_neg made, if_neg made]

theorem heard_slot (facts : List Fact) {place : Nat} (inside : place < count) :
    ∃ slot, (heard count facts).slots[place]? = some slot ∧ slot.ties = (Slot.told place (accepted count facts)).ties := by
  have blank : (Catalog.empty count).slots[place]? = some {} := by
    simp [Catalog.empty, inside]
  have ties := hear_all_ties facts (.empty count) place
  rw [blank, Option.map_some] at ties
  exact Option.map_eq_some_iff.mp ties

theorem accepted_tied {fact : Fact} (member : fact ∈ accepted count facts) :
    ∀ index ∈ fact.tied, Addressable count index := by
  have run : ∀ catalog : Catalog, catalog.count = count → fact ∈ acceptedAfter catalog facts →
      ∀ index ∈ fact.tied, Addressable count index := by
    clear member
    induction facts with
    | nil => exact fun _ _ none => absurd none List.not_mem_nil
    | cons first rest ih =>
        intro catalog size member
        have later := ih (catalog.hear first) ((hear_size catalog first).trans size)
        cases ran : learn first catalog with
        | ok a next =>
            rw [acceptedAfter, ran, passed, if_pos rfl, List.mem_cons] at member
            rcases member with rfl | member
            · exact size ▸ learn_tied ran
            · exact later member
        | error e next =>
            rw [acceptedAfter, ran, passed, if_neg Bool.false_ne_true] at member
            exact later member
  exact run (.empty count) Array.size_replicate member

theorem told_tied (place : Nat) : (Slot.told place (accepted count facts)).Tied count := by
  constructor
  · intro classIndex owned
    rw [Slot.told_owner, Option.or_eq_some_iff] at owned
    rcases owned with last | ⟨_, first⟩
    · obtain ⟨fact, member, stated⟩ := List.mem_filterMap.mp (List.mem_of_getLast? last)
      obtain ⟨kind, rfl⟩ := Fact.of_owner_for stated
      exact accepted_tied member classIndex (by simp [Fact.tied])
    · obtain ⟨fact, member, stated⟩ := List.mem_filterMap.mp (List.mem_of_head? first)
      obtain rfl := Fact.of_encloser_for stated
      exact accepted_tied member classIndex (by simp [Fact.tied])
  · intro text described
    rw [Slot.told_descriptor] at described
    obtain ⟨fact, member, stated⟩ := List.mem_filterMap.mp (List.mem_of_getLast? described)
    obtain ⟨name, rfl⟩ := Fact.of_typed_for stated
    exact accepted_tied member text (by simp [Fact.tied])
  · intro target held
    have linked := (Links.mem_to_list _ target).mpr held
    rw [Slot.mem_told_links] at linked
    obtain ⟨fact, member, stated⟩ := List.mem_filterMap.mp linked
    obtain ⟨descriptor, rfl⟩ := Fact.of_named_for stated
    exact accepted_tied member target (by simp [Fact.tied])
  · intro target held
    have inner := (Links.mem_to_list _ target).mpr held
    rw [Slot.mem_told_inner] at inner
    obtain ⟨fact, member, stated⟩ := List.mem_filterMap.mp inner
    obtain rfl := Fact.of_inner_for stated
    exact accepted_tied member target (by simp [Fact.tied])

theorem told_described {target name descriptor : Nat}
    (stated : Fact.nameAndType target name descriptor ∈ accepted count facts) :
    ∃ text, (Slot.told target (accepted count facts)).descriptor = some text := by
  have typed : descriptor ∈ (accepted count facts).filterMap (Fact.typedFor? target) :=
    List.mem_filterMap.mpr ⟨_, stated, by simp [Fact.typedFor?]⟩
  -- A later name and type at the same index gives it another type, never none.
  rw [Slot.told_descriptor]
  exact ⟨_, List.getLast?_eq_some_getLast (List.ne_nil_of_mem typed)⟩

theorem heard_ties {place : Nat} {slot : Slot} (found : (heard count facts).slots[place]? = some slot) :
    slot.ties = (Slot.told place (accepted count facts)).ties := by
  obtain ⟨inside, _⟩ := Array.getElem?_eq_some_iff.mp found
  have size : (heard count facts).slots.size = count := heard_size count facts
  obtain ⟨same, here, ties⟩ := heard_slot facts (size ▸ inside)
  rw [found] at here
  cases here
  exact ties

theorem heard_tied {place : Nat} {slot : Slot} (found : (heard count facts).slots[place]? = some slot) :
    slot.Tied count := by
  have tied : (Slot.told place (accepted count facts)).ties.Tied count := { told_tied place with }
  rw [← heard_ties found] at tied
  exact { tied with }

theorem linked_described {name target : Nat} {slot : Slot} (found : (heard count facts).slots[name]? = some slot)
    (held : slot.nameAndTypes.Has target) :
    ∃ linked descriptor, (heard count facts).slots[target]? = some linked ∧ linked.descriptor = some descriptor := by
  obtain ⟨linked, there, ties⟩ := heard_slot facts ((heard_tied found).nameAndTypes target held).2
  rw [Links.Has, Slot.named_of_ties (heard_ties found), ← Links.mem_to_list, Slot.mem_told_links] at held
  obtain ⟨fact, member, stated⟩ := List.mem_filterMap.mp held
  obtain ⟨descriptor, rfl⟩ := Fact.of_named_for stated
  obtain ⟨text, described⟩ := told_described member
  exact ⟨linked, text, there, (congrArg Slot.descriptor ties).trans described⟩

theorem member_described (catalog : Catalog) {target descriptor : Nat} {slot : Slot}
    (found : catalog.slots[target]? = some slot) (described : slot.descriptor = some descriptor) :
    catalog.memberOf? target = slot.owner.map fun owner => ⟨slot.memberKind, owner, descriptor⟩ := by
  cases owned : slot.owner <;> simp [memberOf?, found, owned, described]

def StandsFor (catalog : Catalog) (target : Nat) (member : LinkedMember) : Prop :=
  ∃ slot, catalog.slots[target]? = some slot ∧ slot.memberKind = member.kind ∧ slot.owner = some member.owner ∧
    slot.descriptor = some member.descriptor

theorem stands_for_iff (catalog : Catalog) (target : Nat) (member : LinkedMember) :
    catalog.StandsFor target member ↔ catalog.memberOf? target = some member := by
  simp only [StandsFor, memberOf?, Option.bind_eq_bind, Option.bind_eq_some_iff, pure, Option.some.injEq]
  constructor
  · rintro ⟨slot, found, kind, owned, described⟩
    exact ⟨slot, found, _, owned, _, described, by rw [kind]⟩
  · rintro ⟨slot, found, owner, owned, descriptor, described, rfl⟩
    exact ⟨slot, found, rfl, owned, described⟩

theorem heard_member {target : Nat} {member : LinkedMember} (found : (heard count facts).memberOf? target = some member) :
    Addressable count member.owner ∧ Addressable count member.descriptor := by
  obtain ⟨slot, stored, _, owned, described⟩ := (stands_for_iff _ target member).mpr found
  exact ⟨(heard_tied stored).owner _ owned, (heard_tied stored).descriptor _ described⟩

end Catalog

open Catalog (heard)

/-- Whatever was refused on the way, every index that ties one slot to another is that of a slot,
and every name and type that a name was linked to has a type. So members and inner classes can be
looked up without a further check, and what is found can be looked up in turn. A fact whose indices
are checked first leaves nothing behind when it is refused. -/
theorem cross_references_resolve {count : Nat} {facts : List Fact} {catalog : Catalog}
    (reached : heard count facts = catalog) :
    (∀ (place : Nat) (slot : Slot), catalog.slots[place]? = some slot → slot.Tied count) ∧
    (∀ (name : Nat) (slot : Slot) (target : Nat), catalog.slots[name]? = some slot → slot.nameAndTypes.Has target →
      ∃ linked, ∃ descriptor : Nat, catalog.slots[target]? = some linked ∧ linked.descriptor = some descriptor ∧
        catalog.memberOf? target = linked.owner.map fun owner => ⟨linked.memberKind, owner, descriptor⟩) ∧
    (∀ name, Addressable count name → ∃ current members classes,
      catalog.linkedMember? name = .ok current ∧ catalog.linkedMembers name = .ok members ∧
      catalog.innerClasses name = .ok classes ∧
      (∀ member, current = some member ∨ member ∈ members →
        Addressable count member.owner ∧ Addressable count member.descriptor) ∧
      ∀ classIndex ∈ classes, Addressable count classIndex) ∧
    ∀ fact e next, fact.ChecksFirst → Catalog.learn fact catalog = .error e next → next = catalog := by
  subst reached
  refine ⟨fun _ _ => Catalog.heard_tied, ?_, ?_, ?_⟩
  · intro name slot target found held
    obtain ⟨linked, descriptor, there, described⟩ := Catalog.linked_described found held
    exact ⟨linked, descriptor, there, described, Catalog.member_described _ there described⟩
  · -- The three look-ups of a name read one slot, and its ties all lead to slots.
    intro name inside
    have reach : Addressable (heard count facts).count name := (Catalog.heard_size count facts).symm ▸ inside
    obtain ⟨slot, stored, found⟩ := Catalog.slot_found _ name reach
    rw [Catalog.linkedMember?, Catalog.linkedMembers, Catalog.innerClasses, found]
    refine ⟨_, _, _, rfl, rfl, rfl, ?_, ?_⟩
    · rintro member (linked | listed)
      · obtain ⟨target, _, resolved⟩ := Option.bind_eq_some_iff.mp linked
        exact Catalog.heard_member resolved
      · obtain ⟨target, _, resolved⟩ := List.mem_filterMap.mp (List.mem_eraseDups.mp listed)
        exact Catalog.heard_member resolved
    · intro classIndex listed
      exact (Catalog.heard_tied stored).innerClasses classIndex ((Links.mem_to_list _ classIndex).mp listed)
  · exact fun fact e next whole ran => Catalog.learn_atomic _ whole _ e next rfl ran

def partlyRefused : List Fact :=
  [.nameAndType 5 1 2, .member 5 6 .field, .inner 3 6, .className 6 9, .declares 4 9 .method, .nameAndType 5 9 2,
    .member 5 0 .method]

theorem cross_references_resolve_partly :
    (heard 7 partlyRefused).className 6 = .ok 9 ∧
      (heard 7 partlyRefused).linkedMember? 1 = .ok (some ⟨.field, 6, 2⟩) ∧ Addressable 7 6 ∧ Addressable 7 2 ∧
      Catalog.learn (.member 5 0 .method) (heard 7 partlyRefused) = .error (.unusableIndex 0) (heard 7 partlyRefused) := by
  obtain ⟨_, _, found, unchanged⟩ := cross_references_resolve (rfl : heard 7 partlyRefused = _)
  obtain ⟨current, _, _, linked, _, _, closed, _⟩ := found 1 (by decide)
  have known : (heard 7 partlyRefused).linkedMember? 1 = .ok (some ⟨.field, 6, 2⟩) := rfl
  have same := Except.ok.inj (linked.symm.trans known)
  have refused : Catalog.learn (.member 5 0 .method) (heard 7 partlyRefused) = .error (.unusableIndex 0) _ := rfl
  refine ⟨rfl, known, (closed _ (.inl same)).1, (closed _ (.inl same)).2, ?_⟩
  rw [refused, unchanged (.member 5 0 .method) _ _ trivial refused]

end Relabel
