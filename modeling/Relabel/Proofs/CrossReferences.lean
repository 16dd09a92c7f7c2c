import Relabel.Proofs.Learning

set_option autoImplicit false

namespace Relabel

namespace Links

theorem mem_to_list (links : Links) (target : Nat) :
    target ∈ links.toList ↔ target ∈ links.earlier ∨ links.current = some target := by
  cases held : links.current with
  | none => simp only [toList, held, reduceCtorEq, or_false]
  | some current =>
      simp only [toList, held, List.mem_append, List.mem_filter, List.mem_singleton, Option.some.injEq]
      by_cases same : target = current
      · simp [same]
      · simp [same, Ne.symm same]

theorem put_current (links : Links) (target : Nat) : (links.put target).current = some target := by
  cases held : links.current with
  | none => rw [put, held]
  | some current =>
      rw [put, held]
      dsimp only
      split <;> rfl

theorem mem_put (links : Links) (target other : Nat) :
    other ∈ (links.put target).toList ↔ other = target ∨ other ∈ links.toList := by
  rw [mem_to_list, mem_to_list, put_current]
  cases held : links.current with
  | none =>
      simp only [put, held]
      grind
  | some current =>
      by_cases known : current = target ∨ current ∈ links.earlier
      · simp only [put, held, if_pos known]
        grind
      · simp only [put, held, if_neg known]
        grind

end Links

open Catalog

structure Slot.Closed (count : Nat) (slot : Slot) : Prop where
  className : ∀ name, slot.className = some name → Addressable count name
  owner : ∀ classIndex, slot.owner = some classIndex → Addressable count classIndex
  descriptor : ∀ text, slot.descriptor = some text → Addressable count text
  nameAndTypes : ∀ target ∈ slot.nameAndTypes.toList, Addressable count target
  ownDescriptor : ∀ text, slot.ownDescriptor = some text → Addressable count text
  innerClasses : ∀ target ∈ slot.innerClasses.toList, Addressable count target
  declarations : ∀ declaration ∈ slot.declarations.toList, Addressable count declaration.descriptor

namespace Catalog

def SlotClosed (count : Nat) (_ : Nat) (slot : Slot) : Prop := slot.Closed count

theorem present_addressable (count index name : Nat) (held : present? index = some name)
    (addressable : Addressable count index) : Addressable count name := by
  by_cases zero : index = 0
  · rw [present?, if_pos zero] at held
    cases held
  · rw [present?, if_neg zero] at held
    cases held
    exact addressable

theorem learn_keeps_closed (count : Nat) (fact : Fact) : Keeps count (SlotClosed count) (learn fact) := by
  have roles : ∀ (index : Nat) (role : Role) (slot : Slot), SlotClosed count index slot →
      SlotClosed count index { slot with role := slot.role.promote role } := fun _ _ _ closed => { closed with }
  cases fact with
  | entry index tag offset => exact keeps_within fun _ => keeps_update _ _ fun _ closed => { closed with }
  | use index role => exact keeps_last_use _ _ (roles index role)
  | className classIndex name =>
      refine keeps_within fun _ => keeps_foreseen name (fun _ _ _ ran => use_inv ran) ?_ (keeps_last_use _ _ (roles name _))
      intro named slot closed
      exact { closed with className := fun text held => present_addressable count name text held named }
  | member nameAndType owner kind =>
      refine keeps_within fun _ => keeps_within fun owned => keeps_update _ _ fun slot closed => ?_
      exact { closed with owner := fun _ held => Option.some.inj held ▸ owned }
  | dynamic nameAndType => exact keeps_within fun _ => keeps_update _ _ fun _ closed => { closed with }
  | nameAndType index name descriptor =>
      refine keeps_within fun own => keeps_within fun _ => keeps_within fun described => ?_
      refine keeps_bind (keeps_update _ _ fun slot closed => ?_) fun _ =>
        keeps_bind (keeps_update _ _ fun slot closed => ?_) fun _ =>
          keeps_use (roles name _) fun _ => keeps_last_use _ _ (roles descriptor _)
      · refine { closed with nameAndTypes := fun target member => ?_ }
        rcases (Links.mem_put slot.nameAndTypes index target).mp member with rfl | held
        · exact own
        · exact closed.nameAndTypes target held
      · exact { closed with descriptor := fun _ held => Option.some.inj held ▸ described }
  | declares name descriptor kind =>
      refine keeps_use (roles name _) fun _ => keeps_foreseen descriptor ?_ ?_ ?_
      · intro catalog b next ran
        obtain ⟨_, _, ranUse, _⟩ := bind_ok_inv ran
        exact use_inv ranUse
      · intro described slot closed
        by_cases decides : slot.role = kind.ownRole
        · rw [if_pos decides]
          exact { closed with ownDescriptor := fun text held => present_addressable count descriptor text held described }
        · rw [if_neg decides]
          exact closed
      · refine keeps_use (roles descriptor _) fun described => keeps_update _ _ fun slot closed => ?_
        refine { closed with declarations := fun declaration member => ?_ }
        rw [Array.toList_push, List.mem_append, List.mem_singleton] at member
        rcases member with held | rfl
        · exact closed.declarations declaration held
        · exact described
  | enclosing nameAndType owner =>
      refine keeps_within fun _ => keeps_within fun owned => keeps_update _ _ fun slot closed => ?_
      refine { closed with owner := fun classIndex held => ?_ }
      cases known : slot.owner with
      | none =>
          rw [known] at held
          exact Option.some.inj held ▸ owned
      | some current =>
          rw [known] at held
          exact closed.owner classIndex (known.trans held)
  | inner name classIndex =>
      refine keeps_within fun _ => keeps_within fun own => ?_
      refine keeps_bind (keeps_update _ _ fun slot closed => ?_) fun _ => keeps_last_use _ _ (roles name _)
      refine { closed with innerClasses := fun target member => ?_ }
      rcases (Links.mem_put slot.innerClasses classIndex target).mp member with rfl | held
      · exact own
      · exact closed.innerClasses target held
  | addresses kind index => exact keeps_ask _
  | handle index kind target => exact keeps_ask _

theorem empty_closed (count : Nat) : All (SlotClosed count) (Catalog.empty count) := by
  intro index slot found
  have blank : slot = {} := by
    have inside := Array.mem_of_getElem? found
    exact (Array.mem_replicate.mp inside).2
  subst blank
  refine ⟨?_, ?_, ?_, ?_, ?_, ?_, ?_⟩ <;> intro _ held <;> cases held

theorem learn_all_closed (count : Nat) (facts : List Fact) (final : Catalog) (a : Unit)
    (ran : learnAll facts (.empty count) = .ok a final) :
    final.count = count ∧ All (SlotClosed count) final := by
  have size : (Catalog.empty count).count = count := Array.size_replicate
  have kept := learn_all_keeps facts fun fact _ => learn_keeps_closed count fact
  exact kept (.empty count) a final size (empty_closed count) ran

theorem learn_all_addresses (count : Nat) (facts : List Fact) (final : Catalog) (a : Unit)
    (ran : learnAll facts (.empty count) = .ok a final) (kind : EntryKind) (index : Nat)
    (stated : Fact.addresses kind index ∈ facts) : Addressable count index := by
  -- The check is made midway, on a catalog that has as many slots as the first.
  obtain ⟨before, after, rfl⟩ := List.append_of_mem stated
  rw [learn_all_append] at ran
  obtain ⟨_, reached, ranBefore, ranAfter⟩ := bind_ok_inv ran
  obtain ⟨size, _⟩ := learn_all_closed count before reached _ ranBefore
  rw [learnAll] at ranAfter
  cases step : learn (.addresses kind index) reached with
  | error e stop =>
      rw [step] at ranAfter
      cases ranAfter
  | ok b next =>
      rw [learn] at step
      obtain ⟨answer, _⟩ := ask_inv step
      obtain ⟨tag, tagged, _⟩ := except_bind_inv answer
      obtain ⟨slot, found, _⟩ := except_bind_inv tagged
      rw [← size]
      exact (slot_inv found).1

end Catalog

end Relabel
