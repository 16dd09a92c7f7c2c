import Relabel.Proofs.JoinedRules

set_option autoImplicit false

namespace Relabel

namespace RuleSet

/-- A field rule that only the second set has: the first has none for its owner and name, and no
rule of either is moved to where this one is. -/
structure Carries (rules other : RuleSet) (member : MemberKey) (target : Name) : Prop where
  held : other.fields.get? member = some target
  unruled : ∀ rule ∈ rules.fields.entries, rule.1.owner = member.owner → rule.1.name ≠ member.name
  free : ∀ rule ∈ rules.fields.entries,
    rules.renamer.className rule.1.owner = rules.renamer.className member.owner → rule.2 ≠ member.name
  alone : ∀ rule ∈ other.fields.entries,
    rules.renamer.className rule.1.owner = rules.renamer.className member.owner → rule.1.name = member.name → rule.1 = member

namespace Carries

variable {rules other : RuleSet} {member : MemberKey} {target : Name} (carries : rules.Carries other member target)

include carries

theorem not_contained : rules.fields.contains (rules.fieldKeying.key member) = false := by
  cases found : rules.fields.get? (rules.fieldKeying.key member) with
  | none => simp [Rules.contains, found]
  | some value =>
      exact absurd (FieldKeying.key_name _ _) (carries.unruled _ (Rules.rule_of_get found) (FieldKeying.key_owner _ _))

theorem get_join_fields (consistent : other.fields.Consistent) (key : MemberKey)
    (owner : key.owner = rules.renamer.className member.owner) (name : key.name = member.name) :
    (rules.joinFields other).get? key =
      if rules.fieldKeying.key (rules.rekey member member.name) = key then some target else none := by
  -- No rule of the first set comes to this key, and of the second only that of the member itself.
  have fronts : ∀ rule ∈ rules.fields.entries,
      rules.fieldKeying.key (rules.rekey (other.typed rule.1) rule.2) ≠ key := by
    rintro rule here rfl
    rw [FieldKeying.key_owner] at owner
    rw [FieldKeying.key_name] at name
    exact carries.free rule here owner name
  have backs : ∀ rule ∈ other.fields.entries,
      rules.fieldKeying.key (rules.rekey rule.1 rule.1.name) = key → rule.1 = member := by
    rintro rule here rfl
    rw [FieldKeying.key_owner] at owner
    rw [FieldKeying.key_name] at name
    exact carries.alone rule here owner name
  rw [join_fields_eq]
  by_cases same : rules.fieldKeying.key (rules.rekey member member.name) = key
  · rw [if_pos same, ← carries.held, ← same]
    refine Rules.get_joined_other _ _ _ _ _ _ member ?_ carries.not_contained consistent ?_
    · rwa [same]
    · intro one there _ alike
      obtain ⟨rule, here, rfl⟩ := List.mem_map.mp there
      exact backs rule here (alike.trans same)
  · rw [if_neg same, Rules.get_joined, List.find?_eq_none.mpr, List.find?_eq_none.mpr]
    · rfl
    · intro rule there passes
      obtain ⟨_, alike⟩ : _ ∧ rules.fieldKeying.key (rules.rekey rule.1 rule.1.name) = key := by simpa using passes
      rw [backs rule (List.mem_reverse.mp there) alike] at alike
      exact same alike
    · intro rule here
      simpa using fronts rule here

end Carries

/-- A field rule that only the second set has is kept under its owner's new name. It is found under
every descriptor if the first set tells fields apart by name only, else under its own, and so never
if it has none. -/
theorem carried_field_answers (rules other : RuleSet) (member : MemberKey) (target : Name) (wellFormed : other.WellFormed)
    (carries : rules.Carries other member target) :
    (rules.compose other).fields.get? (rules.fieldKeying.key (rules.rekey member member.name)) = some target ∧
    (∀ descriptor, (rules.compose other).renamer.field (rules.renamer.className member.owner) member.name descriptor =
      if rules.fieldKeying = .nameOnly ∨ member.descriptor.map rules.renamer.descriptor = some descriptor then target
      else member.name) ∧
    (rules.fieldKeying = .withDescriptor → other.fieldKeying = .nameOnly → ∀ descriptor,
      (rules.compose other).renamer.field (rules.renamer.className member.owner) member.name descriptor = member.name) := by
  have found := carries.get_join_fields wellFormed.fields (rules.fieldKeying.key (rules.rekey member member.name))
    (FieldKeying.key_owner _ _) (FieldKeying.key_name _ _)
  have answers : ∀ descriptor,
      (rules.compose other).renamer.field (rules.renamer.className member.owner) member.name descriptor =
        if rules.fieldKeying = .nameOnly ∨ member.descriptor.map rules.renamer.descriptor = some descriptor then target
        else member.name := by
    intro descriptor
    let asked : MemberKey := ⟨rules.renamer.className member.owner, member.name, some descriptor⟩
    -- The key that is asked for and that of the rule agree in owner and name, so the descriptor
    -- decides.
    have hit : rules.fieldKeying.key (rules.rekey member member.name) = rules.fieldKeying.key asked ↔
        rules.fieldKeying = .nameOnly ∨ member.descriptor.map rules.renamer.descriptor = some descriptor := by
      cases rules.fieldKeying <;> simp [FieldKeying.key, rekey, asked]
    have looked := carries.get_join_fields wellFormed.fields (rules.fieldKeying.key asked) (FieldKeying.key_owner _ _)
      (FieldKeying.key_name _ _)
    rw [renamer_field]
    change ((rules.joinFields other).get? (rules.fieldKeying.key asked)).getD member.name = _
    rw [looked]
    by_cases reached : rules.fieldKeying = .nameOnly ∨ member.descriptor.map rules.renamer.descriptor = some descriptor
    · rw [if_pos (hit.mpr reached), if_pos reached, Option.getD_some]
    · rw [if_neg fun same => reached (hit.mp same), if_neg reached, Option.getD_none]
  refine ⟨found.trans (if_pos rfl), answers, fun described named descriptor => ?_⟩
  -- In a set that tells fields apart by name, keys have no descriptor.
  have bare : member.descriptor = none := by
    have own := wellFormed.keyed _ (Rules.rule_of_get carries.held)
    rw [named] at own
    exact (congrArg MemberKey.descriptor own).symm
  rw [answers, if_neg]
  simp [described, bare]

def classOnly : RuleSet := ({} : RuleSet).putClass (.ofString "a/A") (.ofString "b/B")

def fieldByName : RuleSet :=
  (({} : RuleSet).withFieldKeying .nameOnly).putField ⟨.ofString "a/A", .ofString "f", none⟩ (.ofString "g")

theorem class_only_carries : classOnly.Carries fieldByName ⟨.ofString "a/A", .ofString "f", none⟩ (.ofString "g") := by
  constructor <;> decide

theorem field_by_name_well_formed : fieldByName.WellFormed := by constructor <;> decide

theorem carried_field_answers_by_name :
    classOnly.Carries fieldByName ⟨.ofString "a/A", .ofString "f", none⟩ (.ofString "g") ∧ fieldByName.WellFormed ∧
      (classOnly.compose fieldByName).fields.get? ⟨.ofString "b/B", .ofString "f", none⟩ = some (.ofString "g") ∧
      ∀ descriptor, (classOnly.compose fieldByName).renamer.field (.ofString "b/B") (.ofString "f") descriptor =
        .ofString "f" := by
  obtain ⟨kept, _, never⟩ := carried_field_answers classOnly fieldByName _ _ field_by_name_well_formed class_only_carries
  exact ⟨class_only_carries, field_by_name_well_formed, kept, never rfl rfl⟩

/-- The field is renamed by the second set but not by the joined rules, though nothing stands in its
way. -/
theorem carried_field_lost :
    classOnly.WellFormed ∧ fieldByName.WellFormed ∧ classOnly.fieldKeying = .withDescriptor ∧
      fieldByName.fieldKeying = .nameOnly ∧ classOnly.ReversibleClasses ∧ classOnly.Distinguishes (.ofString "a/A") ∧
      classOnly.Carries fieldByName ⟨.ofString "a/A", .ofString "f", none⟩ (.ofString "g") ∧
      fieldByName.renamer.field (.ofString "a/A") (.ofString "f") (.ofString "I") = .ofString "g" ∧
      (classOnly.compose fieldByName).renamer.field (classOnly.renamer.className (.ofString "a/A")) (.ofString "f")
        (.ofString "I") = .ofString "f" := by
  refine ⟨?_, field_by_name_well_formed, rfl, rfl, ?_, ?_, class_only_carries, ?_, ?_⟩
  · constructor <;> decide
  · constructor <;> decide
  · decide
  · decide
  · decide

end RuleSet

end Relabel
