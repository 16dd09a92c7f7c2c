import Relabel.Proofs.DescriptorCuts
import Relabel.Proofs.RuleTables
import Relabel.Pool.Role

set_option autoImplicit false

namespace Relabel

namespace Rules

def Injective (rules : Rules Name Name) : Prop :=
  ∀ one ∈ rules.entries, ∀ other ∈ rules.entries, one.2 = other.2 → one.1 = other.1

instance (rules : Rules Name Name) : Decidable rules.Injective :=
  inferInstanceAs (Decidable (∀ one ∈ rules.entries, _))

/-- A name that there is a rule for, or that is no rule's target. -/
def Distinguishes (rules : Rules Name Name) (name : Name) : Prop :=
  rules.contains name ∨ ∀ rule ∈ rules.entries, rule.2 ≠ name

instance (rules : Rules Name Name) (name : Name) : Decidable (rules.Distinguishes name) :=
  inferInstanceAs (Decidable (_ ∨ _))

theorem join_names {rules other : Rules Name Name} {next rename : Name → Name} {name : Name} (injective : rules.Injective)
    (distinct : rules.Distinguishes name) (consistent : other.Consistent)
    (renamed : rename name = (rules.get? name).getD name) (led : next name = (other.get? name).getD name)
    (others : ∀ one, rename one = (rules.get? one).getD one ∨ rename one ≠ name) :
    ((RuleSet.joinNames rules other next rename).get? (rename name)).getD (rename name) = next name := by
  -- No other name is sent to `rename name`: other targets differ, and what keeps its name is the
  -- name itself.
  rw [RuleSet.join_names_eq]
  cases held : rules.get? name with
  | some target =>
      have found := get_joined_ruled rules other (·.2) next (fun _ => false) rename held fun rule here same =>
        injective rule here _ (rule_of_get held) same
      rw [held, Option.getD_some] at renamed
      rw [renamed, found, Option.getD_some]
  | none =>
      have free := distinct.resolve_left (by simp [contains, held])
      rw [held, Option.getD_none] at renamed
      have alone : ∀ one, rename one = name → one = name := by
        intro one same
        have kept := (others one).resolve_right (not_not_intro same)
        cases there : rules.get? one with
        | some target =>
            rw [there, same, Option.getD_some] at kept
            exact absurd kept.symm (free _ (rule_of_get there))
        | none => rwa [there, same, Option.getD_none, eq_comm] at kept
      have found := get_joined_other rules other (·.2) next (fun _ => false) rename name (by rwa [renamed]) rfl consistent
        fun one _ _ same => alone one (by rwa [renamed] at same)
      rw [found, renamed, led]

end Rules

namespace Renamer

variable {r : Renamer} {name : Name} (plain : name.isArray = false)

include plain

theorem class_name_plain : r.className name = (r.class? name).getD name := by simp [className, plain]

theorem element_class_plain : r.elementClass name = r.className name := by simp [className, elementClass, plain]

end Renamer

def Descriptor.elementNames (descriptor : Name) : List Name := (classNames descriptor).filter (!·.isArray)

def Role.lookups (role : Role) (held : Name) : List Name :=
  match role with
  | .className => if held.isArray then Descriptor.elementNames held else [held]
  | .descriptor => Descriptor.elementNames held
  | _ => []

namespace RuleSet

def Distinguishes (rules : RuleSet) (name : Name) : Prop := rules.classes.Distinguishes name

instance (rules : RuleSet) (name : Name) : Decidable (rules.Distinguishes name) :=
  inferInstanceAs (Decidable (rules.classes.Distinguishes name))

structure ReversibleClasses (rules : RuleSet) : Prop where
  injective : rules.classes.Injective
  plain : ∀ rule ∈ rules.classes.entries, ∀ name ∈ [rule.1, rule.2], name.isArray = false ∧ ';'.toUInt8 ∉ name.bytes

namespace ReversibleClasses

variable {rules other : RuleSet} (reversible : rules.ReversibleClasses)

include reversible

theorem class_plain {name : Name} (plain : name.isArray = false) : (rules.renamer.className name).isArray = false := by
  rw [Renamer.class_name_plain plain]
  cases found : rules.renamer.class? name with
  | some target => exact (reversible.plain _ (Rules.rule_of_get found) target (by simp)).1
  | none => exact plain

theorem element_closed (name : Name) (closed : ';'.toUInt8 ∉ name.bytes) :
    ';'.toUInt8 ∉ (rules.renamer.elementClass name).bytes := by
  by_cases array : name.isArray
  · rwa [Renamer.elementClass, if_pos array]
  · rw [Renamer.elementClass, if_neg array]
    cases found : rules.renamer.class? name with
    | some target => exact (reversible.plain _ (Rules.rule_of_get found) target (by simp)).2
    | none => exact closed

variable (consistent : other.classes.Consistent)

include consistent

theorem plain_joined {name : Name} (plain : name.isArray = false) (distinct : rules.Distinguishes name) :
    (rules.compose other).renamer.className (rules.renamer.className name) = other.renamer.className name := by
  rw [Renamer.class_name_plain (reversible.class_plain plain)]
  apply Rules.join_names reversible.injective distinct consistent
  · exact Renamer.class_name_plain plain
  · exact Renamer.class_name_plain plain
  · -- an array stays one, so it does not take the place of a plain name
    intro one
    cases array : one.isArray with
    | false => exact .inl (Renamer.class_name_plain array)
    | true =>
        right
        intro same
        have still : (rules.renamer.descriptor one).isArray := Descriptor.rename_array _ one array
        rw [Renamer.className, if_pos array] at same
        rw [same, plain] at still
        cases still

theorem element_joined {name : Name} (distinct : name.isArray = false → rules.Distinguishes name) :
    (rules.compose other).renamer.elementClass (rules.renamer.elementClass name) = other.renamer.elementClass name := by
  cases array : name.isArray with
  | true => simp [Renamer.elementClass, array]
  | false =>
      rw [Renamer.element_class_plain array, Renamer.element_class_plain (reversible.class_plain array),
        Renamer.element_class_plain array]
      exact reversible.plain_joined consistent array (distinct array)

theorem descriptor_joined {descriptor : Name}
    (distinct : ∀ name ∈ Descriptor.elementNames descriptor, rules.Distinguishes name) :
    (rules.compose other).renamer.descriptor (rules.renamer.descriptor descriptor) = other.renamer.descriptor descriptor := by
  apply Descriptor.rename_again
  · exact fun name member => reversible.element_closed name (Descriptor.class_names_closed descriptor name member)
  intro name member
  exact reversible.element_joined consistent fun plain => distinct name (List.mem_filter.mpr ⟨member, by simp [plain]⟩)

theorem class_name_joined {held : Name} (distinct : ∀ name ∈ Role.className.lookups held, rules.Distinguishes name) :
    (rules.compose other).renamer.className (rules.renamer.className held) = other.renamer.className held := by
  cases array : held.isArray with
  | true =>
      rw [Role.lookups, if_pos array] at distinct
      have still : (rules.renamer.descriptor held).isArray := Descriptor.rename_array _ held array
      rw [Renamer.className, Renamer.className, Renamer.className, if_pos array, if_pos array, if_pos still]
      exact reversible.descriptor_joined consistent distinct
  | false => exact reversible.plain_joined consistent array (distinct held (by simp [Role.lookups, array]))

end ReversibleClasses

def sent (rules : RuleSet) (ruled : Rules MemberKey Name) (member : MemberKey) : MemberKey :=
  rules.rekey member ((ruled.get? member).getD member.name)

def Uncontested (rules : RuleSet) (ruled : Rules MemberKey Name) (members : List MemberKey) (member : MemberKey) : Prop :=
  ∀ one ∈ members, rules.sent ruled one = rules.sent ruled member → one = member

instance (rules : RuleSet) (ruled : Rules MemberKey Name) (members : List MemberKey) (member : MemberKey) :
    Decidable (rules.Uncontested ruled members member) :=
  inferInstanceAs (Decidable (∀ one ∈ members, _))

section Members

variable {rules : RuleSet} {ruled others : Rules MemberKey Name} {member : MemberKey}

theorem sent_rule (consistent : ruled.Consistent) {rule : MemberKey × Name} (here : rule ∈ ruled.entries) :
    rules.sent ruled rule.1 = rules.rekey rule.1 rule.2 := by
  rw [sent, consistent rule here, Option.getD_some]

theorem sent_unruled (unruled : ruled.contains member = false) :
    rules.sent ruled member = rules.rekey member member.name := by
  have none : ruled.get? member = none := by simpa [Rules.contains] using unruled
  rw [sent, none, Option.getD_none]

theorem joined_members {front : MemberKey × Name → MemberKey} {known : MemberKey → Bool} {back : MemberKey → MemberKey}
    (value : MemberKey → Name) (consistent : ruled.Consistent) (otherwise : others.Consistent)
    (fronts : ∀ rule ∈ ruled.entries, front rule = rules.rekey rule.1 rule.2)
    (knows : ∀ one ∈ member :: others.keys, known one = ruled.contains one)
    (backs : ∀ one ∈ member :: others.keys, back one = rules.rekey one one.name)
    (alone : rules.Uncontested ruled (ruled.keys ++ others.keys) member) :
    (Rules.joined ruled others front value known back).get? (rules.sent ruled member) =
      if ruled.contains member then some (value member) else others.get? member := by
  have only : ∀ rule ∈ ruled.entries, front rule = rules.sent ruled member → rule.1 = member := by
    intro rule here same
    rw [fronts rule here, ← sent_rule consistent here] at same
    exact alone _ (List.mem_append_left _ (List.mem_map_of_mem here)) same
  cases held : ruled.get? member with
  | some target =>
      have here := Rules.rule_of_get held
      have there : front (member, target) = rules.sent ruled member := by
        rw [fronts _ here, ← sent_rule consistent here]
      rw [← there, Rules.get_joined_ruled _ _ _ _ _ _ held (by rwa [there])]
      simp [Rules.contains, held]
  | none =>
      have unruled : ruled.contains member = false := by simp [Rules.contains, held]
      have there : back member = rules.sent ruled member := by
        rw [backs member (by simp), sent_unruled unruled]
      rw [unruled, ← there]
      apply Rules.get_joined_other _ _ _ _ _ _ _ _ (by rw [knows member (by simp), unruled]) otherwise
      · intro one here unknown same
        rw [knows one (.tail _ here)] at unknown
        rw [backs one (.tail _ here), ← sent_unruled unknown, there] at same
        exact alone one (List.mem_append_right _ here) same
      · intro rule here same
        obtain ⟨other, found⟩ := Rules.get_of_rule here
        rw [only rule here (same.trans there), held] at found
        cases found

end Members

section Answers

variable {rules other : RuleSet} {owner name descriptor : Name}

theorem renamer_method (ordinary : name.isSpecial = false) :
    rules.renamer.method owner name descriptor = (rules.methods.get? ⟨owner, name, some descriptor⟩).getD name := by
  simp [Renamer.method, renamer, ordinary]

theorem renamer_field :
    rules.renamer.field owner name descriptor =
      (rules.fields.get? (rules.fieldKeying.key ⟨owner, name, some descriptor⟩)).getD name := rfl

theorem get_join_methods {member : MemberKey} (consistent : rules.methods.Consistent) (otherwise : other.methods.Consistent)
    (alone : rules.Uncontested rules.methods (rules.methods.keys ++ other.methods.keys) member) :
    (rules.joinMethods other).get? (rules.sent rules.methods member) =
      if rules.methods.contains member then some (other.methodTarget member) else other.methods.get? member := by
  rw [join_methods_eq]
  exact joined_members _ consistent otherwise (fun _ _ => rfl) (fun _ _ => rfl) (fun _ _ => rfl) alone

theorem method_joined (consistent : rules.methods.Consistent) (otherwise : other.methods.Consistent)
    (ordinary : ∀ rule ∈ rules.methods.entries, rule.2.isSpecial = false)
    (alone : rules.Uncontested rules.methods (rules.methods.keys ++ other.methods.keys) ⟨owner, name, some descriptor⟩) :
    (rules.compose other).renamer.method (rules.renamer.className owner) (rules.renamer.method owner name descriptor)
      (rules.renamer.descriptor descriptor) = other.renamer.method owner name descriptor := by
  cases special : name.isSpecial with
  | true => simp [Renamer.method, special]
  | false =>
      have found := get_join_methods consistent otherwise alone
      have still : ((rules.methods.get? ⟨owner, name, some descriptor⟩).getD name).isSpecial = false := by
        cases held : rules.methods.get? ⟨owner, name, some descriptor⟩ with
        | some target => exact ordinary _ (Rules.rule_of_get held)
        | none => exact special
      rw [renamer_method special, renamer_method special, renamer_method still]
      change ((rules.joinMethods other).get? (rules.sent rules.methods ⟨owner, name, some descriptor⟩)).getD _ = _
      rw [found]
      cases held : rules.methods.get? ⟨owner, name, some descriptor⟩ with
      | some target => simp [Rules.contains, held, methodTarget, renamer_method special]
      | none => simp [Rules.contains, held]

theorem field_target_key (other : RuleSet) (owner name descriptor : Name) :
    other.fieldTarget (other.fieldKeying.key ⟨owner, name, some descriptor⟩) = other.renamer.field owner name descriptor := by
  cases keying : other.fieldKeying with
  | withDescriptor => rfl
  | nameOnly =>
      rw [fieldTarget, renamer_field]
      cases (other.typed (FieldKeying.nameOnly.key ⟨owner, name, some descriptor⟩)).descriptor <;>
        simp [FieldKeying.key, renamer_field, keying]

theorem get_join_fields {member : MemberKey} (consistent : rules.fields.Consistent) (otherwise : other.fields.Consistent)
    (typed : ∀ rule ∈ rules.fields.entries, rules.fieldKeying.key (other.typed rule.1) = rule.1)
    (keyed : ∀ one ∈ member :: other.fields.keys, rules.fieldKeying.key one = one)
    (alone : rules.Uncontested rules.fields (rules.fields.keys ++ other.fields.keys) member) :
    (rules.joinFields other).get? (rules.sent rules.fields member) =
      if rules.fields.contains member then some (other.fieldTarget member) else other.fields.get? member := by
  rw [join_fields_eq]
  apply joined_members _ consistent otherwise _ _ _ alone
  · intro rule here
    rw [FieldKeying.key_rekey, typed rule here]
  · intro one here
    rw [keyed one here]
  · intro one here
    rw [FieldKeying.key_rekey, keyed one here]

theorem field_joined (consistent : rules.fields.Consistent) (otherwise : other.WellFormed)
    (keying : rules.fieldKeying = other.fieldKeying)
    (typed : ∀ rule ∈ rules.fields.entries, rules.fieldKeying.key (other.typed rule.1) = rule.1)
    (alone : rules.Uncontested rules.fields (rules.fields.keys ++ other.fields.keys)
      (rules.fieldKeying.key ⟨owner, name, some descriptor⟩)) :
    (rules.compose other).renamer.field (rules.renamer.className owner) (rules.renamer.field owner name descriptor)
      (rules.renamer.descriptor descriptor) = other.renamer.field owner name descriptor := by
  have keyed : ∀ one ∈ rules.fieldKeying.key ⟨owner, name, some descriptor⟩ :: other.fields.keys,
      rules.fieldKeying.key one = one := by
    intro one member
    rcases List.mem_cons.mp member with rfl | there
    · exact FieldKeying.key_key _ _
    · obtain ⟨rule, here, rfl⟩ := List.mem_map.mp there
      rw [keying]
      exact otherwise.keyed rule here
  have found := get_join_fields consistent otherwise.fields typed keyed alone
  have asked : (rules.compose other).fieldKeying.key ⟨rules.renamer.className owner,
      rules.renamer.field owner name descriptor, some (rules.renamer.descriptor descriptor)⟩ =
      rules.sent rules.fields (rules.fieldKeying.key ⟨owner, name, some descriptor⟩) := by
    rw [sent, FieldKeying.key_name]
    exact FieldKeying.key_rekey _ ⟨owner, name, some descriptor⟩ rules _
  have target := field_target_key other owner name descriptor
  rw [← keying] at target
  change ((rules.joinFields other).get? ((rules.compose other).fieldKeying.key _)).getD _ = _
  rw [asked, found]
  cases held : rules.fields.get? (rules.fieldKeying.key ⟨owner, name, some descriptor⟩) with
  | some _ => simp [Rules.contains, held, target]
  | none => simp [Rules.contains, held, renamer_field, ← keying]

end Answers

theorem typed_key {rules : RuleSet} (wellFormed : rules.WellFormed)
    (described : rules.fieldKeying = .withDescriptor → ∀ rule ∈ rules.fields.entries, rule.1.descriptor.isSome)
    (other : RuleSet) : ∀ rule ∈ rules.fields.entries, rules.fieldKeying.key (other.typed rule.1) = rule.1 := by
  rintro ⟨⟨owner, name, descriptor⟩, target⟩ here
  cases keying : rules.fieldKeying with
  | withDescriptor =>
      obtain ⟨given, rfl⟩ := Option.isSome_iff_exists.mp (described keying _ here)
      rfl
  | nameOnly =>
      have self := wellFormed.keyed _ here
      rw [keying] at self
      exact self

/-- Where the first set sends a name, the joined rules take it up and lead to where the second set
sends it. -/
theorem compose_factors {rules other : RuleSet} (wellFormed : rules.WellFormed) (otherwise : other.WellFormed)
    (keying : rules.fieldKeying = other.fieldKeying) (reversible : rules.ReversibleClasses) :
    (∀ held, (∀ name ∈ Role.className.lookups held, rules.Distinguishes name) →
      (rules.compose other).renamer.className (rules.renamer.className held) = other.renamer.className held) ∧
    (∀ descriptor, (∀ name ∈ Role.descriptor.lookups descriptor, rules.Distinguishes name) →
      (rules.compose other).renamer.descriptor (rules.renamer.descriptor descriptor) =
        other.renamer.descriptor descriptor) ∧
    (rules.modules.Injective → ∀ name, rules.modules.Distinguishes name →
      (rules.compose other).renamer.moduleName (rules.renamer.moduleName name) = other.renamer.moduleName name) ∧
    (rules.packages.Injective → ∀ name, rules.packages.Distinguishes name →
      (rules.compose other).renamer.packageName (rules.renamer.packageName name) = other.renamer.packageName name) ∧
    ((∀ rule ∈ rules.methods.entries, rule.2.isSpecial = false) → ∀ owner name descriptor,
      rules.Uncontested rules.methods (rules.methods.keys ++ other.methods.keys) ⟨owner, name, some descriptor⟩ →
      (rules.compose other).renamer.method (rules.renamer.className owner) (rules.renamer.method owner name descriptor)
        (rules.renamer.descriptor descriptor) = other.renamer.method owner name descriptor) ∧
    ((rules.fieldKeying = .withDescriptor → ∀ rule ∈ rules.fields.entries, rule.1.descriptor.isSome) →
      ∀ owner name descriptor,
      rules.Uncontested rules.fields (rules.fields.keys ++ other.fields.keys)
        (rules.fieldKeying.key ⟨owner, name, some descriptor⟩) →
      (rules.compose other).renamer.field (rules.renamer.className owner) (rules.renamer.field owner name descriptor)
        (rules.renamer.descriptor descriptor) = other.renamer.field owner name descriptor) := by
  refine ⟨?_, ?_, ?_, ?_, ?_, ?_⟩
  · exact fun held distinct => reversible.class_name_joined otherwise.classes distinct
  · exact fun descriptor distinct => reversible.descriptor_joined otherwise.classes distinct
  · exact fun injective name distinct =>
      Rules.join_names injective distinct otherwise.modules rfl rfl fun _ => .inl rfl
  · exact fun injective name distinct =>
      Rules.join_names injective distinct otherwise.packages rfl rfl fun _ => .inl rfl
  · exact fun ordinary owner name descriptor alone =>
      method_joined wellFormed.methods otherwise.methods ordinary alone
  · exact fun described owner name descriptor alone =>
      field_joined wellFormed.fields otherwise keying (typed_key wellFormed described other) alone

def exchange : RuleSet :=
  ({} : RuleSet).putClass (.ofString "A") (.ofString "B") |>.putClass (.ofString "B") (.ofString "A")
    |>.putMethod ⟨.ofString "A", .ofString "m", some (.ofString "(LB;)V")⟩ (.ofString "n")
    |>.putField ⟨.ofString "A", .ofString "f", some (.ofString "[LA;")⟩ (.ofString "g")
    |>.putModule (.ofString "base") (.ofString "core")

def elsewhere : RuleSet :=
  ({} : RuleSet).putClass (.ofString "A") (.ofString "X")
    |>.putMethod ⟨.ofString "A", .ofString "m", some (.ofString "(LB;)V")⟩ (.ofString "p")
    |>.putMethod ⟨.ofString "C", .ofString "q", some (.ofString "()LA;")⟩ (.ofString "r")
    |>.putField ⟨.ofString "C", .ofString "h", some (.ofString "LB;")⟩ (.ofString "k")

theorem compose_factors_exchange :
    exchange.WellFormed ∧ elsewhere.WellFormed ∧ exchange.fieldKeying = elsewhere.fieldKeying ∧
      exchange.ReversibleClasses ∧
      (exchange.compose elsewhere).renamer.className (exchange.renamer.className (.ofString "[LA;")) = .ofString "[LX;" ∧
      (exchange.compose elsewhere).renamer.moduleName (.ofString "core") = .ofString "base" ∧
      (exchange.compose elsewhere).renamer.method (.ofString "B") (.ofString "n") (.ofString "(LA;)V") = .ofString "p" ∧
      (exchange.compose elsewhere).renamer.field (.ofString "C") (.ofString "h") (.ofString "LA;") = .ofString "k" := by
  have one : exchange.WellFormed := by constructor <;> decide
  have two : elsewhere.WellFormed := by constructor <;> decide
  have reversible : exchange.ReversibleClasses := by constructor <;> decide
  obtain ⟨classes, _, modules, _, methods, fields⟩ := compose_factors one two rfl reversible
  refine ⟨one, two, rfl, reversible, ?_, ?_, ?_, ?_⟩
  · exact classes (.ofString "[LA;") (by decide +kernel)
  · exact modules (by decide) (.ofString "base") (by decide)
  · exact methods (by decide) (.ofString "A") (.ofString "m") (.ofString "(LB;)V") (by decide)
  · exact fields (by decide) (.ofString "C") (.ofString "h") (.ofString "LB;") (by decide)

end RuleSet

end Relabel
