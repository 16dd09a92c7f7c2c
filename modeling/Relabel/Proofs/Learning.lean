import Relabel.Pool.Catalog
import Relabel.Proofs.Steps

set_option autoImplicit false

namespace Relabel

def Fact.entryIndex? : Fact → Option Nat
  | .entry index _ _ => some index
  | _ => none

theorem constant_facts_plain (constant : Constant) (index : Nat) :
    ∀ fact ∈ constant.facts index, fact.entryIndex? = none := by
  cases constant <;> simp [Constant.facts, Fact.entryIndex?]

theorem handle_facts_plain (entries : List Entry) :
    ∀ fact ∈ entries.filterMap Entry.handleFact?, fact.entryIndex? = none := by
  intro fact member
  obtain ⟨entry, _, handle⟩ := List.mem_filterMap.mp member
  cases held : entry.constant <;> simp only [Entry.handleFact?, held, reduceCtorEq] at handle
  cases handle
  rfl

namespace Catalog

def Addressable (count index : Nat) : Prop := 0 < index ∧ index < count

def All (inv : Nat → Slot → Prop) (catalog : Catalog) : Prop :=
  ∀ index slot, catalog.slots[index]? = some slot → inv index slot

def Keeps {α : Type} (count : Nat) (inv : Nat → Slot → Prop) (act : Learn α) : Prop :=
  ∀ catalog a next, catalog.count = count → All inv catalog → act catalog = .ok a next →
    next.count = count ∧ All inv next

variable {α β : Type} {count : Nat} {inv : Nat → Slot → Prop}

theorem slot_found (catalog : Catalog) (index : Nat) (addressable : Addressable catalog.count index) :
    ∃ slot, catalog.slots[index]? = some slot ∧ catalog.slot index = .ok slot := by
  have inside : index < catalog.slots.size := addressable.2
  have found : catalog.slots[index]? = some catalog.slots[index] := Array.getElem?_eq_getElem inside
  refine ⟨catalog.slots[index], found, ?_⟩
  rw [slot, if_neg (Nat.ne_of_gt addressable.1), found]

theorem slot_inv {catalog : Catalog} {index : Nat} {slot : Slot} (found : catalog.slot index = .ok slot) :
    Addressable catalog.count index ∧ catalog.slots[index]? = some slot := by
  by_cases zero : index = 0
  · rw [Catalog.slot, if_pos zero] at found
    cases found
  · rw [Catalog.slot, if_neg zero] at found
    cases stored : catalog.slots[index]? with
    | none =>
        rw [stored] at found
        cases found
    | some held =>
        rw [stored] at found
        cases found
        obtain ⟨inside, _⟩ := Array.getElem?_eq_some_iff.mp stored
        exact ⟨⟨Nat.pos_of_ne_zero zero, inside⟩, rfl⟩

theorem ask_inv {question : Catalog → Except Fault α} {catalog next : Catalog} {a : α}
    (ran : ask question catalog = .ok a next) : question catalog = .ok a ∧ next = catalog := by
  cases answer : question catalog with
  | ok b =>
      rw [ask, answer] at ran
      cases ran
      exact ⟨rfl, rfl⟩
  | error e =>
      rw [ask, answer] at ran
      cases ran

theorem within_inv {index : Nat} {catalog next : Catalog} {a : Unit} (ran : within index catalog = .ok a next) :
    Addressable catalog.count index ∧ next = catalog := by
  obtain ⟨slot, asked, _⟩ := map_ok_inv ran
  obtain ⟨found, same⟩ := ask_inv asked
  exact ⟨(slot_inv found).1, same⟩

theorem keeps_ask (question : Catalog → Except Fault α) : Keeps count inv (ask question) := by
  intro catalog a next size all ran
  obtain ⟨_, rfl⟩ := ask_inv ran
  exact ⟨size, all⟩

theorem keeps_bind {x : Learn α} {f : α → Learn β} (first : Keeps count inv x)
    (second : ∀ a, Keeps count inv (f a)) : Keeps count inv (x >>= f) := by
  intro catalog b next size all ran
  obtain ⟨a, middle, ranFirst, ranSecond⟩ := bind_ok_inv ran
  obtain ⟨middleSize, middleAll⟩ := first catalog a middle size all ranFirst
  exact second a middle b next middleSize middleAll ranSecond

theorem keeps_within {index : Nat} {f : Unit → Learn β}
    (rest : Addressable count index → Keeps count inv (f ())) : Keeps count inv (within index >>= f) := by
  intro catalog b next size all ran
  obtain ⟨_, middle, ranFirst, ranSecond⟩ := bind_ok_inv ran
  obtain ⟨addressable, rfl⟩ := within_inv ranFirst
  rw [size] at addressable
  exact rest addressable middle b next size all ranSecond

theorem keeps_update (index : Nat) (change : Slot → Slot) (kept : ∀ slot, inv index slot → inv index (change slot)) :
    Keeps count inv (update index change) := by
  intro catalog a next size all ran
  cases ran
  refine ⟨?_, ?_⟩
  · rw [← size]
    exact Array.size_modify
  · intro place slot found
    change (catalog.slots.modify index change)[place]? = some slot at found
    rw [Array.getElem?_modify] at found
    by_cases here : index = place
    · subst here
      rw [if_pos rfl] at found
      obtain ⟨held, stored, rfl⟩ := Option.map_eq_some_iff.mp found
      exact kept held (all index held stored)
    · rw [if_neg here] at found
      exact all place slot found

theorem use_inv {index : Nat} {role : Role} {catalog next : Catalog} {a : Unit}
    (ran : use index role catalog = .ok a next) : Addressable catalog.count index := by
  obtain ⟨_, same, ranWithin, _⟩ := bind_ok_inv ran
  exact (within_inv ranWithin).1

theorem keeps_last_use (index : Nat) (role : Role)
    (kept : ∀ slot : Slot, inv index slot → inv index { slot with role := slot.role.promote role }) :
    Keeps count inv (use index role) := keeps_within fun _ => keeps_update index _ kept

theorem keeps_use {index : Nat} {role : Role} {f : Unit → Learn β}
    (kept : ∀ slot : Slot, inv index slot → inv index { slot with role := slot.role.promote role })
    (rest : Addressable count index → Keeps count inv (f ())) : Keeps count inv (use index role >>= f) := by
  intro catalog b next size all ran
  obtain ⟨_, middle, ranFirst, ranSecond⟩ := bind_ok_inv ran
  have addressable := use_inv ranFirst
  rw [size] at addressable
  obtain ⟨middleSize, middleAll⟩ := keeps_last_use index role kept catalog _ middle size all ranFirst
  exact rest addressable middle b next middleSize middleAll ranSecond

theorem keeps_foreseen (index : Nat) {place : Nat} {change : Slot → Slot} {rest : Learn β}
    (checked : ∀ catalog b next, rest catalog = .ok b next → Addressable catalog.count index)
    (changed : Addressable count index → ∀ slot, inv place slot → inv place (change slot))
    (kept : Keeps count inv rest) : Keeps count inv (do update place change; rest) := by
  -- A change made before its index is checked is as good as one made after: only a step that passes
  -- the check succeeds.
  intro catalog b next size all ran
  obtain ⟨_, middle, ranUpdate, ranRest⟩ := bind_ok_inv ran
  have middleSize : middle.count = count := by
    cases ranUpdate
    rw [← size]
    exact Array.size_modify
  have addressable := checked middle b next ranRest
  rw [middleSize] at addressable
  obtain ⟨_, middleAll⟩ := keeps_update place change (changed addressable) catalog _ middle size all ranUpdate
  exact kept middle b next middleSize middleAll ranRest

theorem learn_all_append (first second : List Fact) (catalog : Catalog) :
    learnAll (first ++ second) catalog = (do learnAll first; learnAll second) catalog := by
  induction first generalizing catalog with
  | nil => rfl
  | cons fact rest ih =>
      cases step : learn fact catalog with
      | ok a middle =>
          have all : learnAll (fact :: rest) catalog = learnAll rest middle := by rw [learnAll, step]
          rw [List.cons_append, learnAll, step]
          dsimp only
          rw [ih middle]
          simp only [bind, EStateM.bind, all]
      | error e stop =>
          have all : learnAll (fact :: rest) catalog = .error e stop := by rw [learnAll, step]
          rw [List.cons_append, learnAll, step, bind_error all]

theorem learn_all_keeps (facts : List Fact) (each : ∀ fact ∈ facts, Keeps count inv (learn fact)) :
    Keeps count inv (learnAll facts) := by
  induction facts with
  | nil =>
      intro catalog a next size all ran
      cases ran
      exact ⟨size, all⟩
  | cons fact rest ih =>
      intro catalog a next size all ran
      rw [learnAll] at ran
      cases step : learn fact catalog with
      | error e stop =>
          rw [step] at ran
          cases ran
      | ok b middle =>
          rw [step] at ran
          obtain ⟨middleSize, middleAll⟩ := each fact (.head _) catalog b middle size all step
          exact ih (fun one member => each one (.tail _ member)) middle a next middleSize middleAll ran

def RecordedAt (index : Nat) (tag : Tag) (offset : Nat) (place : Nat) (slot : Slot) : Prop :=
  place = index → slot.tag = some tag ∧ slot.offset = offset.toUInt32

theorem learn_entry_records (index : Nat) (tag : Tag) (offset : Nat) (catalog next : Catalog) (a : Unit)
    (ran : learn (.entry index tag offset) catalog = .ok a next) :
    Addressable catalog.count index ∧ next.count = catalog.count ∧ All (RecordedAt index tag offset) next := by
  obtain ⟨_, same, ranWithin, ranUpdate⟩ := bind_ok_inv ran
  obtain ⟨addressable, rfl⟩ := within_inv ranWithin
  cases ranUpdate
  refine ⟨addressable, Array.size_modify, ?_⟩
  intro place slot found here
  subst here
  change (same.slots.modify place _)[place]? = some slot at found
  rw [Array.getElem?_modify, if_pos rfl] at found
  obtain ⟨held, _, rfl⟩ := Option.map_eq_some_iff.mp found
  exact ⟨rfl, rfl⟩

theorem learn_keeps_record (fact : Fact) (own : Nat) (tag : Tag) (position : Nat)
    (other : fact.entryIndex? ≠ some own) : Keeps count (RecordedAt own tag position) (learn fact) := by
  cases fact with
  | entry index _ offset =>
      refine keeps_within fun _ => keeps_update _ _ fun slot kept here => ?_
      exact absurd (congrArg some here) other
  | use index role => exact keeps_last_use _ _ fun _ kept => kept
  | className classIndex name =>
      refine keeps_within fun _ => keeps_bind (keeps_update _ _ fun _ kept => kept) fun _ => ?_
      exact keeps_last_use _ _ fun _ kept => kept
  | member nameAndType owner kind =>
      exact keeps_within fun _ => keeps_within fun _ => keeps_update _ _ fun _ kept => kept
  | dynamic nameAndType => exact keeps_within fun _ => keeps_update _ _ fun _ kept => kept
  | nameAndType index name descriptor =>
      refine keeps_within fun _ => keeps_within fun _ => keeps_within fun _ => ?_
      refine keeps_bind (keeps_update _ _ fun _ kept => kept) fun _ => ?_
      refine keeps_bind (keeps_update _ _ fun _ kept => kept) fun _ => ?_
      exact keeps_use (fun _ kept => kept) fun _ => keeps_last_use _ _ fun _ kept => kept
  | declares name descriptor kind =>
      refine keeps_use (fun _ kept => kept) fun _ => keeps_bind (keeps_update _ _ ?_) fun _ => ?_
      · intro slot kept
        by_cases decides : slot.role = kind.ownRole
        · rw [if_pos decides]
          exact kept
        · rw [if_neg decides]
          exact kept
      · exact keeps_use (fun _ kept => kept) fun _ => keeps_update _ _ fun _ kept => kept
  | enclosing nameAndType owner =>
      exact keeps_within fun _ => keeps_within fun _ => keeps_update _ _ fun _ kept => kept
  | inner name classIndex =>
      refine keeps_within fun _ => keeps_within fun _ => ?_
      exact keeps_bind (keeps_update _ _ fun _ kept => kept) fun _ => keeps_last_use _ _ fun _ kept => kept
  | addresses kind index => exact keeps_ask _
  | handle index kind target => exact keeps_ask _

theorem entries_facts_other (entries : List Entry) (index : Nat) (apart : ∀ entry ∈ entries, entry.index ≠ index) :
    ∀ fact ∈ entries.flatMap Entry.facts, fact.entryIndex? ≠ some index := by
  intro fact member
  obtain ⟨entry, inside, stated⟩ := List.mem_flatMap.mp member
  cases stated with
  | head => exact fun same => apart entry inside (Option.some.inj same)
  | tail _ stated =>
      rw [constant_facts_plain entry.constant entry.index fact stated]
      exact fun same => nomatch same

theorem learn_all_records (entries : List Entry) (more : List Fact)
    (increasing : entries.Pairwise fun earlier later => earlier.index < later.index)
    (plain : ∀ fact ∈ more, fact.entryIndex? = none) (catalog final : Catalog) (a : Unit)
    (ran : learnAll (entries.flatMap Entry.facts ++ more) catalog = .ok a final)
    (entry : Entry) (member : entry ∈ entries) :
    ∃ slot, final.slots[entry.index]? = some slot ∧ slot.tag = some entry.constant.tag ∧
      slot.offset = entry.offset.toUInt32 := by
  -- The fact of an entry is followed by facts of later entries and of the body, none of which
  -- speaks of the same slot's constant.
  obtain ⟨before, after, rfl⟩ := List.append_of_mem member
  have later : ∀ other ∈ after, other.index ≠ entry.index := by
    intro other inside
    have less := List.rel_of_pairwise_cons (List.pairwise_append.mp increasing).2.1 inside
    omega
  have split : (before ++ entry :: after).flatMap Entry.facts ++ more =
      before.flatMap Entry.facts ++ (.entry entry.index entry.constant.tag entry.offset ::
        (entry.constant.facts entry.index ++ (after.flatMap Entry.facts ++ more))) := by
    simp only [List.flatMap_append, List.flatMap_cons, Entry.facts, List.append_assoc, List.cons_append]
  rw [split, learn_all_append] at ran
  obtain ⟨_, reached, _, ranRest⟩ := bind_ok_inv ran
  rw [learnAll] at ranRest
  cases step : learn (.entry entry.index entry.constant.tag entry.offset) reached with
  | error e stop =>
      rw [step] at ranRest
      cases ranRest
  | ok b next =>
      rw [step] at ranRest
      obtain ⟨addressable, nextSize, recorded⟩ := learn_entry_records _ _ _ reached next b step
      have others : ∀ fact ∈ entry.constant.facts entry.index ++ (after.flatMap Entry.facts ++ more),
          fact.entryIndex? ≠ some entry.index := by
        intro fact stated
        rcases List.mem_append.mp stated with stated | stated
        · rw [constant_facts_plain _ _ fact stated]
          exact fun same => nomatch same
        · rcases List.mem_append.mp stated with stated | stated
          · exact entries_facts_other after entry.index later fact stated
          · rw [plain fact stated]
            exact fun same => nomatch same
      have kept : Keeps reached.count (RecordedAt entry.index entry.constant.tag entry.offset)
          (learnAll (entry.constant.facts entry.index ++ (after.flatMap Entry.facts ++ more))) :=
        learn_all_keeps _ fun fact stated => learn_keeps_record fact _ _ _ (others fact stated)
      obtain ⟨finalSize, finalAll⟩ := kept next a final nextSize recorded ranRest
      rw [← finalSize] at addressable
      obtain ⟨slot, found, _⟩ := slot_found final entry.index addressable
      exact ⟨slot, found, finalAll entry.index slot found rfl⟩

end Catalog

end Relabel
