import Relabel.Proofs.RenamedTexts
import Relabel.Proofs.Roles

set_option autoImplicit false

namespace Relabel

open ClassFile (constantAt?)

namespace Constant

def isNamedBy (index : Nat) : Constant → Bool
  | .nameAndType name _ => name.toNat = index
  | _ => false

def isClassAt (index : Nat) : Constant → Bool
  | .classRef name => name.toNat = index
  | _ => false

def isTypedBy (index : Nat) : Constant → Bool
  | .nameAndType _ descriptor | .methodType descriptor => descriptor.toNat = index
  | _ => false

def moduleRole? (index : Nat) : Constant → Option Role
  | .moduleRef name => if name.toNat = index then some .moduleName else none
  | .packageRef name => if name.toNat = index then some .packageName else none
  | _ => none

def targets : Constant → List Nat
  | .classRef a | .string a | .methodType a | .moduleRef a | .packageRef a => [a.toNat]
  | .fieldRef a b | .methodRef a b | .interfaceMethodRef a b | .nameAndType a b => [a.toNat, b.toNat]
  | .methodHandle _ a | .dynamic _ a | .invokeDynamic _ a => [a.toNat]
  | _ => []

def rolesAt (place : Nat) (constant : Constant) : List Role := (constant.facts 0).flatMap (Fact.rolesAt place)

theorem facts_roles (place index : Nat) (constant : Constant) :
    (constant.facts index).flatMap (Fact.rolesAt place) = constant.rolesAt place := by
  cases constant <;> rfl

theorem mem_roles (place : Nat) (constant : Constant) (role : Role) :
    role ∈ constant.rolesAt place ↔
      role = .memberName ∧ constant.isNamedBy place ∨ role = .className ∧ constant.isClassAt place ∨
        role = .descriptor ∧ constant.isTypedBy place ∨ constant.moduleRole? place = some role := by
  cases constant <;>
    simp [rolesAt, facts, Fact.mem_roles_at, Fact.uses, isNamedBy, isClassAt, isTypedBy, moduleRole?] <;> grind

theorem role_of_fact {place index : Nat} {constant : Constant} {fact : Fact} {role : Role}
    (stated : fact ∈ constant.facts index) (used : role ∈ fact.rolesAt place) : role ∈ constant.rolesAt place := by
  rw [← facts_roles place index]
  exact List.mem_flatMap.mpr ⟨fact, stated, used⟩

theorem module_roles (place : Nat) (constant : Constant)
    (other : ¬ constant.isNamedBy place ∧ ¬ constant.isClassAt place ∧ ¬ constant.isTypedBy place) :
    constant.rolesAt place = (constant.moduleRole? place).toList := by
  cases constant <;> simp_all [rolesAt, facts, Fact.rolesAt, Fact.uses, isNamedBy, isClassAt, isTypedBy, moduleRole?]
    <;> grind

theorem module_role_weight (place : Nat) (constant : Constant) (role : Role)
    (held : constant.moduleRole? place = some role) : role.weight = 2 := by
  cases constant <;> simp_all [moduleRole?] <;> grind [Role.weight]

end Constant

theorem attribute_use_weight {fact : Fact} (stated : fact.OfAttribute) {place : Nat} {role : Role}
    (present : role ∈ fact.rolesAt place) : role.weight ≤ 3 := by
  have used := (fact.mem_roles_at place role).mp present
  cases fact with
  | use index own =>
      cases List.mem_singleton.mp used
      rcases stated with rfl | rfl | rfl <;> decide
  | inner name classIndex =>
      cases List.mem_singleton.mp used
      decide
  | enclosing => cases used
  | _ => exact absurd stated id

theorem Header.mem_roles (place : Nat) (header : Header) (role : Role) :
    role ∈ header.fact.rolesAt place ↔
      role = header.kind.ownRole ∧ header.name = place ∨ role = .descriptor ∧ header.descriptor = place := by
  simp only [Fact.mem_roles_at, Header.fact, Fact.uses, List.mem_cons, Prod.mk.injEq, List.not_mem_nil, or_false]
  grind

namespace Tables

variable (tables : Tables) (constants : List Constant) (place : Nat)

def statedRole : Role :=
  if ∃ header ∈ tables.methods, header.name = place then .ownMethod
  else if ∃ header ∈ tables.fields, header.name = place then .ownField
  else if ∃ constant ∈ constants, constant.isNamedBy place then .memberName
  else if ∃ constant ∈ constants, constant.isClassAt place then .className
  else if (∃ constant ∈ constants, constant.isTypedBy place) ∨ ∃ header ∈ tables.members, header.descriptor = place then
    .descriptor
  else (constants.filterMap (·.moduleRole? place)).getLast?.getD .plain

def usesStated : List Role :=
  constants.flatMap (·.rolesAt place) ++ tables.members.flatMap (·.fact.rolesAt place)

structure Sorted : Prop where
  fields : ∀ header ∈ tables.fields, header.kind = .field
  methods : ∀ header ∈ tables.methods, header.kind = .method

variable {tables}

theorem mem_uses (sorted : tables.Sorted) (role : Role) :
    role ∈ tables.usesStated constants place ↔
      (role = .ownMethod ∧ ∃ header ∈ tables.methods, header.name = place) ∨
      (role = .ownField ∧ ∃ header ∈ tables.fields, header.name = place) ∨
      (role = .memberName ∧ ∃ constant ∈ constants, constant.isNamedBy place) ∨
      (role = .className ∧ ∃ constant ∈ constants, constant.isClassAt place) ∨
      (role = .descriptor ∧ ((∃ constant ∈ constants, constant.isTypedBy place) ∨
        ∃ header ∈ tables.members, header.descriptor = place)) ∨
      ∃ constant ∈ constants, constant.moduleRole? place = some role := by
  have fields := sorted.fields
  have methods := sorted.methods
  simp only [usesStated, List.mem_append, List.mem_flatMap, Constant.mem_roles, Header.mem_roles, members]
  constructor
  · rintro (⟨constant, member, uses⟩ | ⟨header, member | member, uses⟩)
    · grind
    · grind [MemberKind.ownRole]
    · grind [MemberKind.ownRole]
  · grind [MemberKind.ownRole]

theorem module_uses (unnamed : ¬ ∃ header ∈ tables.members, header.name = place)
    (untyped : ¬ ∃ header ∈ tables.members, header.descriptor = place)
    (other : ∀ constant ∈ constants,
      ¬ constant.isNamedBy place ∧ ¬ constant.isClassAt place ∧ ¬ constant.isTypedBy place) :
    tables.usesStated constants place = constants.filterMap (·.moduleRole? place) := by
  have none_declared : tables.members.flatMap (·.fact.rolesAt place) = [] := by
    apply List.flatMap_eq_nil_iff.mpr
    intro header member
    apply List.eq_nil_iff_forall_not_mem.mpr
    intro role stated
    rcases (header.mem_roles place role).mp stated with named | typed
    · exact unnamed ⟨header, member, named.2⟩
    · exact untyped ⟨header, member, typed.2⟩
  rw [usesStated, none_declared, List.append_nil, List.filterMap_eq_flatMap_toList]
  exact List.flatMap_congr fun constant member => constant.module_roles place (other constant member)

theorem uses_settle (sorted : tables.Sorted) :
    (tables.usesStated constants place).foldl Role.promote .plain = tables.statedRole constants place := by
  -- The uses of greatest weight decide. Among those of equal weight the last does, and the methods
  -- of a class come after its fields.
  have uses := mem_uses constants place sorted
  have modules := Constant.module_role_weight place
  rw [statedRole]
  by_cases method : ∃ header ∈ tables.methods, header.name = place
  · rw [if_pos method, usesStated, members, List.flatMap_append, ← List.append_assoc, List.foldl_append]
    obtain ⟨header, member, named⟩ := method
    have stated := (header.mem_roles place .ownMethod).mpr (.inl ⟨by rw [sorted.methods header member]; rfl, named⟩)
    apply Role.promote_all_top .ownMethod _ _ (List.mem_flatMap.mpr ⟨header, member, stated⟩) (Role.weight_bound _)
    intro role present
    obtain ⟨other, inside, stated⟩ := List.mem_flatMap.mp present
    rcases (other.mem_roles place role).mp stated with named | typed
    · exact .inl (by rw [named.1, sorted.methods other inside]; rfl)
    · exact .inr (by rw [typed.1]; decide)
  rw [if_neg method]
  by_cases field : ∃ header ∈ tables.fields, header.name = place
  · rw [if_pos field]
    exact Role.promote_all_top .ownField .plain _ (by grind) (Nat.zero_le _) (by grind [Role.weight])
  rw [if_neg field]
  by_cases linked : ∃ constant ∈ constants, constant.isNamedBy place
  · rw [if_pos linked]
    exact Role.promote_all_top .memberName .plain _ (by grind) (Nat.zero_le _) (by grind [Role.weight])
  rw [if_neg linked]
  by_cases named : ∃ constant ∈ constants, constant.isClassAt place
  · rw [if_pos named]
    exact Role.promote_all_top .className .plain _ (by grind) (Nat.zero_le _) (by grind [Role.weight])
  rw [if_neg named]
  by_cases typed : (∃ constant ∈ constants, constant.isTypedBy place) ∨ ∃ header ∈ tables.members, header.descriptor = place
  · rw [if_pos typed]
    exact Role.promote_all_top .descriptor .plain _ (by grind) (Nat.zero_le _) (by grind [Role.weight])
  rw [if_neg typed, Role.promote_all_last 2 .plain _ (Nat.zero_le _) (by grind)]
  rw [module_uses constants place (by grind [members]) (by grind) (by grind)]

theorem headers_kind (kind : MemberKind) {c c' : Cursor} {found : List Header} (ran : headers kind c = .ok found c') :
    ∀ header ∈ found, header.kind = kind := by
  obtain ⟨count, counted, _, ran⟩ := bind_ok_inv ran
  refine collect_onto_each (fun header => header.kind = kind) (fun s header t one => ?_) count [] found counted c'
    (fun _ none => nomatch none) ran
  obtain ⟨_, _, _, one⟩ := bind_ok_inv one
  obtain ⟨name, _, _, one⟩ := bind_ok_inv one
  obtain ⟨descriptor, _, _, one⟩ := bind_ok_inv one
  obtain ⟨_, _, rfl⟩ := map_ok_inv one
  rfl

theorem read_sorted {c c' : Cursor} (ran : Tables.read c = .ok tables c') : tables.Sorted := by
  obtain ⟨_, _, _, _, _, _, _, _, _, _, _, _, _, ranFields, ranMethods, _⟩ := read_inv ran
  exact ⟨headers_kind .field ranFields, headers_kind .method ranMethods⟩

theorem facts_roles : tables.facts.flatMap (Fact.rolesAt place) = tables.members.flatMap (·.fact.rolesAt place) := by
  simp [facts, List.flatMap_map, Fact.rolesAt, Fact.uses]

end Tables

theorem Pooled.facts_roles {data : Bytes} (pooled : Pooled data) (place : Nat) :
    pooled.facts.flatMap (Fact.rolesAt place) = pooled.constants.flatMap (·.rolesAt place) := by
  have entries : pooled.entries.flatMap (fun entry => entry.facts.flatMap (Fact.rolesAt place)) =
      pooled.entries.flatMap fun entry => entry.constant.rolesAt place :=
    List.flatMap_congr fun entry _ => entry.constant.facts_roles place entry.index
  have handles : (pooled.entries.filterMap Entry.handleFact?).flatMap (Fact.rolesAt place) = [] := by
    apply List.flatMap_eq_nil_iff.mpr
    intro fact member
    obtain ⟨_, _, _, rfl⟩ := handle_fact_other pooled.entries fact member
    rfl
  have constants : pooled.entries.map Entry.constant = pooled.constants := Walk.placed_constants ..
  rw [facts, List.flatMap_append, handles, List.append_nil, List.flatMap_assoc, entries, ← constants, List.flatMap_map]

theorem Scanned.passed_role {data : Bytes} {scan : Scan} (scanned : Scanned .pass data scan) {tables : Tables}
    (read : Tables.ofBytes data = .ok tables) (place : Nat) (here : Catalog.Addressable scanned.pooled.count place) :
    scan.catalog.role place = .ok (tables.statedRole scanned.pooled.constants place) := by
  obtain ⟨c, ran⟩ := scanned.pooled.read_of_tables read
  rw [scanned.role_told place here, Slot.told_role, Scanned.facts, scanned.noted_passed read, List.flatMap_append,
    scanned.pooled.facts_roles, Tables.facts_roles]
  exact congrArg Except.ok (Tables.uses_settle _ place (Tables.read_sorted ran))

def ClassFile.constants (data : Bytes) : List Constant := (Walk.ofBytes data).entries.map Entry.constant

structure Tables.Untouched (tables : Tables) (constants : List Constant) (place : Nat) : Prop where
  constants : ∀ constant ∈ constants, place ∈ constant.targets → ∃ text, constant = .string text
  members : ∀ header ∈ tables.members, header.name ≠ place ∧ header.descriptor ≠ place

theorem Constant.untouched_roles (place : Nat) (constant : Constant)
    (strings : place ∈ constant.targets → ∃ text, constant = .string text) :
    ¬ constant.isNamedBy place ∧ ¬ constant.isClassAt place ∧ ¬ constant.isTypedBy place ∧
      constant.moduleRole? place = none := by
  cases constant <;> simp_all [targets, isNamedBy, isClassAt, isTypedBy, moduleRole?] <;> grind

theorem Tables.untouched_plain {tables : Tables} {constants : List Constant} {place : Nat}
    (untouched : tables.Untouched constants place) : tables.statedRole constants place = .plain := by
  have roles := fun constant member => Constant.untouched_roles place constant (untouched.constants constant member)
  have members := untouched.members
  have modules : constants.filterMap (·.moduleRole? place) = [] :=
    List.filterMap_eq_nil_iff.mpr fun constant member => (roles constant member).2.2.2
  rw [statedRole, if_neg (by grind [Tables.members]), if_neg (by grind [Tables.members]), if_neg (by grind),
    if_neg (by grind), if_neg (by grind), modules]
  rfl

theorem Renewed.plain_kept {σ : Type} {renamer : Renamer} {oracle : Oracle σ} {settings : Settings} {data : Bytes}
    {p q : Progress σ} {renamed : RenamedClass} (run : Renewed renamer oracle settings data p q renamed) (index : Nat)
    (held : Name) (here : constantAt? data index = some (.text held)) (role : run.job.scan.catalog.role index = .ok .plain) :
    constantAt? renamed.bytes index = some (.text held) := by
  obtain ⟨new, there, ⟨start, stop, _, _, _, ran, _⟩⟩ := run.text_renamed index held here
  rw [Job.newText, role, lift_ok_bind] at ran
  cases ran
  exact there

theorem passed_roles_exact (data : Bytes) (scan : Scan) (ran : Scan.ofBytes .pass data = .ok scan) :
    ∃ tables, Tables.ofBytes data = .ok tables ∧
      (∀ index, 0 < index → index < scan.layout.count →
        scan.catalog.role index = .ok (tables.statedRole (ClassFile.constants data) index)) ∧
      ∀ (σ : Type) (renamer : Renamer) (oracle : Oracle σ) (settings : Settings) (p q : Progress σ) (renamed : RenamedClass),
        settings.attributes = .pass → renameClass renamer oracle settings data p = .ok renamed q →
          ∀ index held, constantAt? data index = some (.text held) →
            tables.Untouched (ClassFile.constants data) index → constantAt? renamed.bytes index = some (.text held) := by
  obtain ⟨scanned⟩ := scan_inv .pass data scan ran
  obtain ⟨tables, read, _⟩ := scanned.tables
  have constants : ClassFile.constants data = scanned.pooled.constants := by
    rw [ClassFile.constants, scanned.pooled.walk]
    exact Walk.placed_constants ..
  refine ⟨tables, read, fun index positive inside => ?_, ?_⟩
  · rw [scanned.layout] at inside
    rw [constants]
    exact scanned.passed_role read index ⟨positive, inside⟩
  · intro σ renamer oracle settings p q renamed passes renamedOk index held here untouched
    obtain ⟨run⟩ := rename_class_renewed renamedOk
    -- A text without a use that renaming concerns is kept.
    apply run.plain_kept index held here
    have again := run.scanned.accepted
    rw [passes, ran] at again
    cases again
    rw [scanned.passed_role read index (scanned.pooled.constant_addressable index _ here), ← constants,
      Tables.untouched_plain untouched]

def crowdedClass : Bytes :=
  [0xCA, 0xFE, 0xBA, 0xBE, 0, 0, 0, 52, 0, 7, 1, 0, 1, 65, 7, 0, 1, 1, 0, 1, 120, 8, 0, 3, 1, 0, 3, 40, 41, 86,
    12, 0, 1, 0, 5, 0, 33, 0, 2, 0, 0, 0, 0, 0, 1, 0, 0, 0, 1, 0, 5, 0, 0, 0, 1, 0, 0, 0, 1, 0, 5, 0, 0, 0, 0]

def crowdedTables : Tables := ⟨⟨2, 0, []⟩, [⟨.field, 1, 5⟩], [⟨.method, 1, 5⟩]⟩

def crowdedRules : RuleSet :=
  ({} : RuleSet).putClass (.ofString "x") (.ofString "y") |>.putMethod
    ⟨.ofString "A", .ofString "A", some (.ofString "()V")⟩ (.ofString "m")

def crowdedRenamed : RenamedClass :=
  ⟨.ofString "A", .ofString "A",
    [0xCA, 0xFE, 0xBA, 0xBE, 0, 0, 0, 52, 0, 7, 1, 0, 1, 109, 7, 0, 1, 1, 0, 1, 120, 8, 0, 3, 1, 0, 3, 40, 41, 86,
      12, 0, 1, 0, 5, 0, 33, 0, 2, 0, 0, 0, 0, 0, 1, 0, 0, 0, 1, 0, 5, 0, 0, 0, 1, 0, 0, 0, 1, 0, 5, 0, 0, 0, 0]⟩

def crowdedWarning : Warning := .sharedName 1 (.ofString "A") (.ofString "m") (.ofString "A")

theorem passed_roles_exact_sample :
    ∃ scan, Scan.ofBytes .pass crowdedClass = .ok scan ∧ Tables.ofBytes crowdedClass = .ok crowdedTables ∧
      scan.catalog.role 1 = .ok .ownMethod ∧ scan.catalog.role 3 = .ok .plain ∧ scan.catalog.role 5 = .ok .descriptor ∧
      renameClass crowdedRules.renamer Oracle.empty { attributes := .pass } crowdedClass ⟨(), #[]⟩ =
        .ok crowdedRenamed ⟨(), #[crowdedWarning]⟩ ∧
      crowdedTables.Untouched (ClassFile.constants crowdedClass) 3 ∧
      constantAt? crowdedRenamed.bytes 3 = some (.text (.ofString "x")) := by
  obtain ⟨tables, read, roles, kept⟩ := passed_roles_exact crowdedClass _ rfl
  obtain rfl : crowdedTables = tables := Except.ok.inj read
  have untouched : crowdedTables.Untouched (ClassFile.constants crowdedClass) 3 := by
    refine ⟨?_, by decide⟩
    have strings : ∀ constant ∈ ClassFile.constants crowdedClass, 3 ∈ constant.targets → constant = .string 3 := by decide
    exact fun constant member target => ⟨3, strings constant member target⟩
  have renamed : renameClass crowdedRules.renamer Oracle.empty { attributes := .pass } crowdedClass ⟨(), #[]⟩ =
      .ok crowdedRenamed ⟨(), #[crowdedWarning]⟩ := rfl
  exact ⟨_, rfl, read, roles 1 (by decide) (by decide), roles 3 (by decide) (by decide), roles 5 (by decide) (by decide),
    renamed, untouched, kept _ _ _ _ _ _ _ rfl renamed 3 _ rfl untouched⟩

end Relabel
