import Mathlib.Data.List.Basic
import Relabel.Proofs.IdleRenaming
import Relabel.Proofs.JoinedRules

set_option autoImplicit false

namespace Relabel

namespace RuleSet

section Nothing

variable (keying : FieldKeying)

theorem idle_nothing : ({ fieldKeying := keying } : RuleSet).Idle := by
  constructor <;> exact fun _ none => nomatch none

theorem nothing_idle : ({ fieldKeying := keying } : RuleSet).renamer.Idle := idle_rules_renamer _ (idle_nothing keying)

theorem method_target_nothing (member : MemberKey) : ({ fieldKeying := keying } : RuleSet).methodTarget member = member.name := by
  rw [methodTarget]
  cases member.descriptor with
  | some descriptor => exact (nothing_idle keying).method _ _ _
  | none => rfl

theorem typed_nothing (member : MemberKey) : ({ fieldKeying := keying } : RuleSet).typed member = member := by
  obtain ⟨owner, name, descriptor⟩ := member
  cases descriptor <;> rfl

theorem field_target_nothing (member : MemberKey) : ({ fieldKeying := keying } : RuleSet).fieldTarget member = member.name := by
  rw [fieldTarget, typed_nothing]
  cases member.descriptor with
  | some descriptor => exact (nothing_idle keying).field _ _ _
  | none => rfl

theorem well_formed_nothing : ({ fieldKeying := keying } : RuleSet).WellFormed := by
  constructor <;> exact fun _ none => nomatch none

end Nothing

theorem invert_names_eq (ruled : Rules Name Name) {next : Name → Name} (kept : ∀ name, next name = name)
    (rename : Name → Name) : invertNames ruled = joinNames ruled {} next rename := by
  have same : next = id := funext kept
  rw [same]
  rfl

theorem inverted_eq_compose {rules : RuleSet} (keyed : rules.fields.Keyed fun member => rules.fieldKeying.key member = member) :
    rules.inverted = rules.compose { fieldKeying := rules.fieldKeying } := by
  -- To undo rules is to lead from their targets to where no rules at all lead.
  have idle := nothing_idle rules.fieldKeying
  have methods : rules.invertMembers rules.methods = rules.joinMethods { fieldKeying := rules.fieldKeying } := by
    apply List.foldl_ext
    rintro joined ⟨member, target⟩ _
    simp only [method_target_nothing]
  have fields : rules.invertMembers rules.fields = rules.joinFields { fieldKeying := rules.fieldKeying } := by
    apply List.foldl_ext
    rintro joined ⟨member, target⟩ here
    have self : rules.fieldKeying.key member = member := keyed _ (List.mem_reverse.mp here)
    simp only [field_target_nothing, typed_nothing, FieldKeying.key_rekey, self]
  rw [inverted, compose, methods, fields, invert_names_eq _ idle.class_name, invert_names_eq _ idle.module_name,
    invert_names_eq _ idle.package_name]

theorem WellFormed.inverted {rules : RuleSet} (wellFormed : rules.WellFormed) : rules.inverted.WellFormed := by
  rw [inverted_eq_compose wellFormed.keyed]
  exact compose_well_formed _ _

structure Reversible (rules : RuleSet) : Prop extends rules.ReversibleClasses where
  fields : rules.fields.entries = []
  methods : rules.methods.entries = []
  modules : rules.modules.entries = []
  packages : rules.packages.entries = []

end RuleSet

structure Renamer.ClassesOnly (r : Renamer) : Prop where
  field_none : ∀ owner name descriptor, r.field? owner name descriptor = none
  method_none : ∀ owner name descriptor, r.method? owner name descriptor = none
  module_none : ∀ name, r.module? name = none
  package_none : ∀ name, r.package? name = none

namespace Renamer.ClassesOnly

variable {r : Renamer} (plain : r.ClassesOnly)

include plain

theorem method_self (owner name descriptor found : Name) (held : r.method? owner name descriptor = some found) :
    found = name := by
  rw [plain.method_none] at held
  cases held

theorem field (owner name descriptor : Name) : r.field owner name descriptor = name := by
  rw [Renamer.field, plain.field_none, Option.getD_none]

theorem method (owner name descriptor : Name) : r.method owner name descriptor = name :=
  method_kept plain.method_self owner name descriptor

theorem module_name (name : Name) : r.moduleName name = name := by
  rw [moduleName, plain.module_none, Option.getD_none]

theorem package_name (name : Name) : r.packageName name = name := by
  rw [packageName, plain.package_none, Option.getD_none]

end Renamer.ClassesOnly

namespace RuleSet.Reversible

theorem get_empty {κ ν : Type} [DecidableEq κ] {rules : Rules κ ν} (empty : rules.entries = []) (key : κ) :
    rules.get? key = none := by
  rw [Rules.get?, empty, List.lookup_nil]

variable {rules : RuleSet} (reversible : rules.Reversible)

include reversible

theorem classes_only : rules.renamer.ClassesOnly where
  field_none _ _ _ := get_empty reversible.fields _
  method_none _ _ _ := get_empty reversible.methods _
  module_none := get_empty reversible.modules
  package_none := get_empty reversible.packages

theorem inverted_classes_only : rules.inverted.renamer.ClassesOnly where
  field_none _ _ _ := get_empty (by simp [inverted, invertMembers, Rules.toList, reversible.fields]) _
  method_none _ _ _ := get_empty (by simp [inverted, invertMembers, Rules.toList, reversible.methods]) _
  module_none := get_empty (by simp [inverted, invertNames, Rules.toList, reversible.modules])
  package_none := get_empty (by simp [inverted, invertNames, Rules.toList, reversible.packages])

theorem inverted_eq : rules.inverted = rules.compose { fieldKeying := rules.fieldKeying } := by
  apply inverted_eq_compose
  intro rule member
  rw [reversible.fields] at member
  cases member

theorem descriptor_back {descriptor : Name} (distinct : ∀ name ∈ Descriptor.elementNames descriptor, rules.Distinguishes name) :
    rules.inverted.renamer.descriptor (rules.renamer.descriptor descriptor) = descriptor := by
  rw [reversible.inverted_eq, reversible.toReversibleClasses.descriptor_joined Rules.consistent_empty distinct]
  exact (nothing_idle _).descriptor descriptor

theorem class_name_back {held : Name} (distinct : ∀ name ∈ Role.className.lookups held, rules.Distinguishes name) :
    rules.inverted.renamer.className (rules.renamer.className held) = held := by
  rw [reversible.inverted_eq, reversible.toReversibleClasses.class_name_joined Rules.consistent_empty distinct]
  exact (nothing_idle _).class_name held

end RuleSet.Reversible

namespace RuleSet

inductive Made : RuleSet → Prop where
  | empty : Made {}
  | putClass {rules : RuleSet} (made : Made rules) (source target : Name) : Made (rules.putClass source target)
  | putField {rules : RuleSet} (made : Made rules) (member : MemberKey) (target : Name) : Made (rules.putField member target)
  | putMethod {rules : RuleSet} (made : Made rules) (member : MemberKey) (target : Name) :
      Made (rules.putMethod member target)
  | putModule {rules : RuleSet} (made : Made rules) (source target : Name) : Made (rules.putModule source target)
  | putPackage {rules : RuleSet} (made : Made rules) (source target : Name) : Made (rules.putPackage source target)
  | withFieldKeying {rules : RuleSet} (made : Made rules) (keying : FieldKeying) : Made (rules.withFieldKeying keying)
  | inverted {rules : RuleSet} (made : Made rules) : Made rules.inverted
  | compose {rules other : RuleSet} (made : Made rules) (next : Made other) : Made (rules.compose other)

theorem Made.well_formed {rules : RuleSet} (made : rules.Made) : rules.WellFormed := by
  induction made with
  | empty => exact well_formed_nothing _
  | putClass _ source target before => exact { before with classes := Rules.consistent_insert before.classes _ _ }
  | putField _ member target before => exact before.put_field member target
  | putMethod _ member target before => exact { before with methods := Rules.consistent_insert before.methods _ _ }
  | putModule _ source target before => exact { before with modules := Rules.consistent_insert before.modules _ _ }
  | putPackage _ source target before => exact { before with packages := Rules.consistent_insert before.packages _ _ }
  | withFieldKeying _ keying before => exact before.with_field_keying keying
  | inverted _ before => exact before.inverted
  | compose _ _ _ _ => exact compose_well_formed _ _

/-- The inverted rules give back every name that the rules do not confuse with another, of classes,
in descriptors and of members. -/
theorem inverted_undoes {rules : RuleSet} (wellFormed : rules.WellFormed) (reversible : rules.ReversibleClasses) :
    (∀ held, (∀ name ∈ Role.className.lookups held, rules.Distinguishes name) →
      rules.inverted.renamer.className (rules.renamer.className held) = held) ∧
    (∀ descriptor, (∀ name ∈ Role.descriptor.lookups descriptor, rules.Distinguishes name) →
      rules.inverted.renamer.descriptor (rules.renamer.descriptor descriptor) = descriptor) ∧
    ((∀ rule ∈ rules.methods.entries, rule.2.isSpecial = false) → ∀ owner name descriptor,
      rules.Uncontested rules.methods rules.methods.keys ⟨owner, name, some descriptor⟩ →
      rules.inverted.renamer.method (rules.renamer.className owner) (rules.renamer.method owner name descriptor)
        (rules.renamer.descriptor descriptor) = name) ∧
    (∀ owner name descriptor,
      rules.Uncontested rules.fields rules.fields.keys (rules.fieldKeying.key ⟨owner, name, some descriptor⟩) →
      rules.inverted.renamer.field (rules.renamer.className owner) (rules.renamer.field owner name descriptor)
        (rules.renamer.descriptor descriptor) = name) := by
  have idle := nothing_idle rules.fieldKeying
  have nothing := well_formed_nothing rules.fieldKeying
  rw [inverted_eq_compose wellFormed.keyed]
  refine ⟨?_, ?_, ?_, ?_⟩
  · intro held distinct
    rw [reversible.class_name_joined nothing.classes distinct, idle.class_name]
  · intro descriptor distinct
    rw [reversible.descriptor_joined nothing.classes distinct, idle.descriptor]
  · intro ordinary owner name descriptor alone
    have none : ({ fieldKeying := rules.fieldKeying } : RuleSet).methods.keys = [] := rfl
    rw [method_joined wellFormed.methods nothing.methods ordinary (by rwa [none, List.append_nil]), idle.method]
  · intro owner name descriptor alone
    have none : ({ fieldKeying := rules.fieldKeying } : RuleSet).fields.keys = [] := rfl
    have typed : ∀ rule ∈ rules.fields.entries,
        rules.fieldKeying.key (RuleSet.typed { fieldKeying := rules.fieldKeying } rule.1) = rule.1 := by
      intro rule here
      rw [typed_nothing]
      exact wellFormed.keyed rule here
    rw [field_joined wellFormed.fields nothing rfl typed (by rwa [none, List.append_nil]), idle.field]

def looseExchange : RuleSet := exchange.withFieldKeying .nameOnly

theorem inverted_undoes_exchange :
    looseExchange.WellFormed ∧ looseExchange.ReversibleClasses ∧
      looseExchange.renamer.className (.ofString "[LA;") = .ofString "[LB;" ∧
      looseExchange.inverted.renamer.className (.ofString "[LB;") = .ofString "[LA;" ∧
      looseExchange.inverted.renamer.descriptor (.ofString "(LB;LC;)LA;") = .ofString "(LA;LC;)LB;" ∧
      looseExchange.inverted.renamer.method (.ofString "B") (.ofString "n") (.ofString "(LA;)V") = .ofString "m" ∧
      looseExchange.inverted.renamer.field (.ofString "B") (.ofString "g") (.ofString "I") = .ofString "f" := by
  have made : looseExchange.Made :=
    (((((Made.empty.putClass _ _).putClass _ _).putMethod _ _).putField _ _).putModule _ _).withFieldKeying _
  have reversible : looseExchange.ReversibleClasses := by constructor <;> decide
  obtain ⟨classes, descriptors, methods, fields⟩ := inverted_undoes made.well_formed reversible
  refine ⟨made.well_formed, reversible, by decide, ?_, ?_, ?_, ?_⟩
  · exact classes (.ofString "[LA;") (by decide +kernel)
  · exact descriptors (.ofString "(LA;LC;)LB;") (by decide +kernel)
  · exact methods (by decide) (.ofString "A") (.ofString "m") (.ofString "(LB;)V") (by decide)
  · exact fields (.ofString "A") (.ofString "f") (.ofString "I") (by decide)

end RuleSet

end Relabel
