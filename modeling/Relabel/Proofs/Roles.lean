import Relabel.Proofs.SlotHistory

set_option autoImplicit false

namespace Relabel

namespace Role

theorem weight_bound (role : Role) : role.weight ≤ 6 := by cases role <;> decide

theorem promote_weight (held new : Role) (bound : Nat) (old : held.weight ≤ bound) (fresh : new.weight ≤ bound) :
    (held.promote new).weight ≤ bound := by
  by_cases heavier : held.weight ≤ new.weight
  · simpa only [promote, if_pos heavier] using fresh
  · simpa only [promote, if_neg heavier] using old

theorem promote_all_stays (role : Role) (roles : List Role)
    (lighter : ∀ other ∈ roles, other = role ∨ other.weight < role.weight) : roles.foldl promote role = role := by
  induction roles with
  | nil => rfl
  | cons other rest ih =>
      have step : role.promote other = role := by
        rcases lighter other (.head _) with rfl | less
        · simp [promote]
        · simp [promote, Nat.not_le.mpr less]
      rw [List.foldl_cons, step]
      exact ih fun one member => lighter one (.tail _ member)

theorem promote_all_top (role held : Role) (roles : List Role) (present : role ∈ roles)
    (below : held.weight ≤ role.weight) (lighter : ∀ other ∈ roles, other = role ∨ other.weight < role.weight) :
    roles.foldl promote held = role := by
  induction roles generalizing held with
  | nil => cases present
  | cons other rest ih =>
      have others := fun one member => lighter one (List.mem_cons_of_mem other member)
      rw [List.foldl_cons]
      rcases lighter other (.head _) with rfl | less
      · rw [promote, if_pos below]
        exact promote_all_stays other rest others
      · rcases List.mem_cons.mp present with rfl | later
        · exact absurd less (Nat.lt_irrefl _)
        · exact ih (held.promote other) later (promote_weight held other _ below (Nat.le_of_lt less)) others

theorem promote_all_heavy (bound : Nat) (held : Role) (roles : List Role)
    (heavy : bound ≤ held.weight ∨ ∃ role ∈ roles, bound ≤ role.weight) : bound ≤ (roles.foldl promote held).weight := by
  induction roles generalizing held with
  | nil =>
      rcases heavy with here | ⟨_, none, _⟩
      · exact here
      · cases none
  | cons role rest ih =>
      have grown : held.weight ≤ (held.promote role).weight ∧ role.weight ≤ (held.promote role).weight := by
        unfold promote
        split <;> omega
      rw [List.foldl_cons]
      rcases heavy with here | ⟨other, member, heavier⟩
      · exact ih _ (.inl (Nat.le_trans here grown.1))
      · rcases List.mem_cons.mp member with rfl | later
        · exact ih _ (.inl (Nat.le_trans heavier grown.2))
        · exact ih _ (.inr ⟨other, later, heavier⟩)

theorem promote_all_mem (held : Role) (roles : List Role) :
    roles.foldl promote held = held ∨ roles.foldl promote held ∈ roles := by
  induction roles generalizing held with
  | nil => exact .inl rfl
  | cons role rest ih =>
      rw [List.foldl_cons]
      have step : held.promote role = held ∨ held.promote role = role := by
        unfold promote
        split
        · exact .inr rfl
        · exact .inl rfl
      rcases ih (held.promote role) with same | later
      · rw [same]
        rcases step with stays | taken
        · exact .inl stays
        · exact .inr (List.mem_cons.mpr (.inl taken))
      · exact .inr (.tail _ later)

theorem promote_all_same (role held : Role) (roles : List Role) (all : ∀ other ∈ roles, other = role) :
    roles.foldl promote held = if roles = [] then held else held.promote role := by
  cases roles with
  | nil => rfl
  | cons first rest =>
      rw [if_neg (List.cons_ne_nil first rest), List.foldl_cons, all first (.head _)]
      refine promote_all_stays _ rest fun other member => ?_
      rw [all other (.tail _ member)]
      by_cases heavier : held.weight ≤ role.weight
      · exact .inl (if_pos heavier).symm
      · exact .inr (by rw [promote, if_neg heavier]; omega)

theorem promote_all_last (weight : Nat) (held : Role) (roles : List Role) (below : held.weight ≤ weight)
    (level : ∀ role ∈ roles, role.weight = weight) : roles.foldl promote held = roles.getLast?.getD held := by
  induction roles generalizing held with
  | nil => rfl
  | cons role rest ih =>
      have own := level role (.head _)
      have step : held.promote role = role := by simp [promote, own, below]
      rw [List.foldl_cons, step, ih role (Nat.le_of_eq own) fun one member => level one (.tail _ member),
        List.getLast?_cons, Option.getD_some]

end Role

namespace Fact

def uses : Fact → List (Nat × Role)
  | .use index role => [(index, role)]
  | .className _ name => [(name, .className)]
  | .nameAndType _ name descriptor => [(name, .memberName), (descriptor, .descriptor)]
  | .declares name descriptor kind => [(name, kind.ownRole), (descriptor, .descriptor)]
  | .inner name _ => [(name, .innerName)]
  | _ => []

def rolesAt (place : Nat) (fact : Fact) : List Role := (fact.uses.filter (·.1 = place)).map (·.2)

theorem mem_roles_at (place : Nat) (fact : Fact) (role : Role) : role ∈ fact.rolesAt place ↔ (place, role) ∈ fact.uses := by
  simp [rolesAt]

end Fact

namespace Slot

variable {place : Nat}

theorem used_role (index : Nat) (role : Role) (slot : Slot) :
    (slot.used place index role).role = if index = place then slot.role.promote role else slot.role := by
  by_cases here : index = place <;> simp [used, changed, here]

theorem changed_role (index : Nat) (change : Slot → Slot) (same : ∀ held, (change held).role = held.role) (slot : Slot) :
    (slot.changed place index change).role = slot.role := by
  by_cases here : index = place <;> simp [changed, here, same]

theorem after_role (slot : Slot) (fact : Fact) :
    (slot.after place fact).role = (fact.rolesAt place).foldl Role.promote slot.role := by
  rw [Fact.rolesAt, List.foldl_map, List.foldl_filter]
  cases fact <;> simp [after, used_role, changed_role, Fact.uses]

theorem told_role (facts : List Fact) :
    (told place facts).role = (facts.flatMap (Fact.rolesAt place)).foldl Role.promote .plain := by
  have run : ∀ slot : Slot, (facts.foldl (after place) slot).role =
      (facts.flatMap (Fact.rolesAt place)).foldl Role.promote slot.role := by
    induction facts with
    | nil => exact fun slot => rfl
    | cons fact rest ih =>
        intro slot
        rw [List.foldl_cons, ih, after_role, List.flatMap_cons, List.foldl_append]
  exact run {}

end Slot

end Relabel
