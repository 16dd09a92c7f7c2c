import Relabel.Proofs.Emission
import Relabel.Proofs.RuleTables
import Relabel.Proofs.TypeText

set_option autoImplicit false

namespace Relabel

structure RuleSet.Idle (rules : RuleSet) : Prop where
  classes : ∀ rule ∈ rules.classes.entries, rule.2 = rule.1
  fields : ∀ rule ∈ rules.fields.entries, rule.2 = rule.1.name
  methods : ∀ rule ∈ rules.methods.entries, rule.2 = rule.1.name
  modules : ∀ rule ∈ rules.modules.entries, rule.2 = rule.1
  packages : ∀ rule ∈ rules.packages.entries, rule.2 = rule.1

structure Renamer.Idle (r : Renamer) : Prop where
  class_self : ∀ name found, r.class? name = some found → found = name
  field_self : ∀ owner name descriptor found, r.field? owner name descriptor = some found → found = name
  method_self : ∀ owner name descriptor found, r.method? owner name descriptor = some found → found = name
  module_self : ∀ name found, r.module? name = some found → found = name
  package_self : ∀ name found, r.package? name = some found → found = name

theorem idle_rules_renamer (rules : RuleSet) (idle : rules.Idle) : rules.renamer.Idle where
  class_self name found held := idle.classes _ (Rules.rule_of_get held)
  field_self owner name descriptor found held := by
    have self := idle.fields _ (Rules.rule_of_get held)
    rwa [FieldKeying.key_name] at self
  method_self owner name descriptor found held := idle.methods _ (Rules.rule_of_get held)
  module_self name found held := idle.modules _ (Rules.rule_of_get held)
  package_self name found held := idle.packages _ (Rules.rule_of_get held)

theorem found_self {found : Option Name} {name : Name} (self : ∀ other, found = some other → other = name) :
    found.getD name = name := by
  cases found with
  | none => rfl
  | some other => exact self other rfl

section

variable {r : Renamer} (self : ∀ owner name descriptor found, r.method? owner name descriptor = some found → found = name)

include self

theorem method_kept (owner name descriptor : Name) : r.method owner name descriptor = name := by
  by_cases special : name.isSpecial
  · rw [Renamer.method, if_pos special]
  · rw [Renamer.method, if_neg special]
    exact found_self (self owner name descriptor)

theorem rename_method_kept {σ : Type} {oracle : Oracle σ} {settings : Settings} {lineage : Lineage}
    {name descriptor renamed : Name} {s t : σ}
    (ran : oracle.renameMethod r settings lineage name descriptor s = .ok renamed t) : renamed = name := by
  by_cases special : name.isSpecial
  · rw [Oracle.renameMethod, if_pos special] at ran
    cases ran
    rfl
  · rw [Oracle.renameMethod, if_neg special] at ran
    cases own : r.method? lineage.name name descriptor with
    | some found =>
        rw [own] at ran
        cases ran
        exact self _ _ _ _ own
    | none =>
        rw [own] at ran
        obtain ⟨declaring, middle, _, rest⟩ := bind_ok_inv ran
        cases declaring with
        | none =>
            cases rest
            rfl
        | some owner =>
            cases rest
            exact method_kept self owner name descriptor

end

namespace Renamer.Idle

variable {r : Renamer} (idle : r.Idle)

include idle

theorem element_class (name : Name) : r.elementClass name = name := by
  by_cases array : name.isArray
  · rw [elementClass, if_pos array]
  · rw [elementClass, if_neg array]
    exact found_self (idle.class_self name)

theorem descriptor (d : Name) : r.descriptor d = d := Descriptor.rename_fixed r.elementClass idle.element_class d

theorem class_name (name : Name) : r.className name = name := by
  by_cases array : name.isArray
  · rw [className, if_pos array]
    exact idle.descriptor name
  · rw [className, if_neg array]
    exact found_self (idle.class_self name)

theorem signature (s renamed : Name) (ran : r.signature s = .ok renamed) : renamed = s :=
  Signature.rename_fixed r.className idle.class_name s renamed ran

theorem field (owner name descriptor : Name) : r.field owner name descriptor = name :=
  found_self (idle.field_self owner name descriptor)

theorem method (owner name descriptor : Name) : r.method owner name descriptor = name :=
  method_kept idle.method_self owner name descriptor

theorem module_name (name : Name) : r.moduleName name = name := found_self (idle.module_self name)

theorem package_name (name : Name) : r.packageName name = name := found_self (idle.package_self name)

theorem declared_method {σ : Type} (oracle : Oracle σ) (settings : Settings) (lineage : Lineage)
    (name descriptor renamed : Name) (s t : σ)
    (ran : oracle.renameMethod r settings lineage name descriptor s = .ok renamed t) : renamed = name :=
  rename_method_kept idle.method_self ran

end Renamer.Idle

namespace Renaming

variable {σ α β : Type}

def Quiet (post : α → Prop) (act : Renaming σ α) : Prop :=
  ∀ p a q, act p = .ok a q → post a ∧ q.warnings = p.warnings

theorem quiet_pure {post : α → Prop} (a : α) (said : post a) : Quiet post (pure a : Renaming σ α) := by
  intro p b q ran
  cases ran
  exact ⟨said, rfl⟩

theorem quiet_known {post : α → Prop} (answer : Except Fault α) (said : ∀ a, answer = .ok a → post a) :
    Quiet post (answer : Renaming σ α) := by
  intro p a q ran
  obtain ⟨found, rfl⟩ := lift_ok_inv ran
  exact ⟨said a found, rfl⟩

theorem quiet_bind {first : α → Prop} {post : β → Prop} {x : Renaming σ α} {f : α → Renaming σ β}
    (one : Quiet first x) (other : ∀ a, first a → Quiet post (f a)) : Quiet post (x >>= f) := by
  intro p b q ran
  obtain ⟨a, middle, ranOne, ranOther⟩ := bind_ok_inv ran
  obtain ⟨said, still⟩ := one p a middle ranOne
  obtain ⟨result, same⟩ := other a said middle b q ranOther
  exact ⟨result, same.trans still⟩

theorem quiet_after {post : β → Prop} {answer : Except Fault α} {f : α → Renaming σ β}
    (rest : ∀ a, answer = .ok a → Quiet post (f a)) : Quiet post ((liftM answer : Renaming σ α) >>= f) :=
  quiet_bind (quiet_known answer fun _ found => found) rest

theorem quiet_ask {post : α → Prop} (act : EStateM Fault σ α) (said : ∀ s a t, act s = .ok a t → post a) :
    Quiet post (ask act) := by
  intro p a q ran
  cases asked : act p.oracle with
  | error e t =>
      rw [ask, asked] at ran
      cases ran
  | ok b t =>
      rw [ask, asked] at ran
      cases ran
      exact ⟨said _ _ _ asked, rfl⟩

theorem quiet_agree (index : Nat) (held used : Name) (rename : α → Renaming σ Name) (users : List α)
    (each : ∀ user, Quiet (· = used) (rename user)) : Quiet (fun _ => True) (agree index held used rename users) := by
  induction users with
  | nil => exact quiet_pure () trivial
  | cons user rest ih =>
      refine quiet_bind (each user) fun other same => ?_
      rw [if_pos same]
      exact ih

end Renaming

namespace Job

open Renaming

variable {σ : Type} {job : Job σ}

section

variable (idle : job.renamer.Idle)

include idle

theorem quiet_linked_name (held : Name) (member : LinkedMember) :
    Quiet (· = held) (job.linkedName held member : Renaming σ Name) := by
  refine quiet_known _ fun renamed ran => ?_
  obtain ⟨owner, _, ran⟩ := except_bind_inv ran
  obtain ⟨descriptor, _, ran⟩ := except_bind_inv ran
  cases kind : member.kind with
  | field =>
      rw [kind] at ran
      cases ran
      exact idle.field owner held descriptor
  | method =>
      rw [kind] at ran
      cases ran
      exact idle.method owner held descriptor
  | unknown =>
      rw [kind] at ran
      cases ran
      rfl

theorem quiet_member_name (index : Nat) (held : Name) : Quiet (· = held) (job.memberName index held) := by
  refine quiet_after fun current _ => ?_
  cases current with
  | none => exact quiet_pure held rfl
  | some current =>
      refine quiet_bind (quiet_linked_name idle held current) fun used same => ?_
      subst same
      refine quiet_after fun members _ => ?_
      refine quiet_bind (quiet_agree index used used _ _ (quiet_linked_name idle used)) fun _ _ => ?_
      exact quiet_pure used rfl

theorem quiet_declared_name (held : Name) (declaration : Declaration) :
    Quiet (· = held) (job.declaredName held declaration) := by
  refine quiet_after fun descriptor _ => ?_
  cases declaration.kind with
  | method =>
      refine quiet_ask _ fun s renamed t ran => ?_
      exact idle.declared_method job.oracle job.settings job.lineage held descriptor renamed s t ran
  | field | unknown => exact quiet_pure _ (idle.field job.lineage.name held descriptor)

theorem quiet_own_name (kind : MemberKind) (index : Nat) (held : Name) :
    Quiet (· = held) (job.ownName kind index held) := by
  refine quiet_after fun descriptor _ => ?_
  refine quiet_bind (quiet_declared_name idle held _) fun used same => ?_
  subst same
  refine quiet_after fun declarations _ => ?_
  refine quiet_bind (quiet_agree index used used _ _ (quiet_declared_name idle used)) fun _ _ => ?_
  exact quiet_pure used rfl

theorem quiet_simple_name (held : Name) (classIndex : Nat) :
    Quiet (· = held) (job.simpleName held classIndex : Renaming σ Name) := by
  refine quiet_known _ fun renamed ran => ?_
  obtain ⟨name, _, ran⟩ := except_bind_inv ran
  rw [if_pos (idle.class_name name)] at ran
  cases ran
  rfl

theorem quiet_common_name (index : Nat) (held : Name) (chosen : Option Name) (inner : List Nat)
    (agreed : ∀ one, chosen = some one → one = held) : Quiet (· = held) (job.commonName index held chosen inner) := by
  induction inner generalizing chosen with
  | nil => exact quiet_pure _ (found_self agreed)
  | cons classIndex rest ih =>
      refine quiet_bind (quiet_simple_name idle held classIndex) fun name same => ?_
      cases chosen with
      | none => exact ih (some name) fun one found => (Option.some.inj found).symm.trans same
      | some one =>
          have both : one = name := (agreed one rfl).trans same.symm
          dsimp only
          rw [if_pos both]
          exact ih (some one) agreed

theorem quiet_new_text (unmoved : job.newName = job.lineage.name) (index : Nat) (held : Name) :
    Quiet (· = held) (job.newText index held) := by
  refine quiet_after fun role _ => ?_
  cases role with
  | plain => exact quiet_pure held rfl
  | className => exact quiet_pure _ (idle.class_name held)
  | descriptor => exact quiet_pure _ (idle.descriptor held)
  | signature => exact quiet_known _ fun renamed ran => idle.signature held renamed ran
  | moduleName => exact quiet_pure _ (idle.module_name held)
  | packageName => exact quiet_pure _ (idle.package_name held)
  | memberName => exact quiet_member_name idle index held
  | ownField => exact quiet_own_name idle .field index held
  | ownMethod => exact quiet_own_name idle .method index held
  | sourceFile => exact quiet_pure _ (if_pos unmoved)
  | innerName =>
      refine quiet_after fun inner _ => ?_
      exact quiet_common_name idle index held none inner fun _ none => nomatch none

theorem quiet_new_constant (unmoved : job.newName = job.lineage.name) (entry : Entry)
    (known : ∀ name, entry.constant = .text name → job.scan.names.get entry.index = .ok name) :
    Quiet (· = entry.constant) (job.newConstant entry) := by
  cases found : entry.constant with
  | text name =>
      simp only [newConstant, found]
      refine quiet_after fun held got => ?_
      have same : held = name := Except.ok.inj (got.symm.trans (known name found))
      subst same
      refine quiet_bind (quiet_new_text idle unmoved entry.index held) fun renamed same => ?_
      subst same
      refine quiet_after fun _ _ => ?_
      exact quiet_pure _ rfl
  | _ =>
      simp only [newConstant, found]
      exact quiet_pure _ rfl

theorem quiet_new_constants (unmoved : job.newName = job.lineage.name) (entries : List Entry)
    (known : ∀ entry ∈ entries, ∀ name, entry.constant = .text name → job.scan.names.get entry.index = .ok name) :
    Quiet (· = entries.map Entry.constant) (entries.mapM job.newConstant) := by
  induction entries with
  | nil => exact quiet_pure [] rfl
  | cons entry rest ih =>
      rw [List.mapM_cons]
      refine quiet_bind (quiet_new_constant idle unmoved entry (known entry (.head _))) fun constant same => ?_
      have others := ih fun one member => known one (.tail _ member)
      refine quiet_bind others fun constants sameRest => ?_
      exact quiet_pure _ (by rw [same, sameRest, List.map_cons])

end

end Job

theorem idle_rename_identity {σ : Type} (rules : RuleSet) (idle : rules.Idle) (oracle : Oracle σ) (settings : Settings)
    (data : Bytes) (p q : Progress σ) (renamed : RenamedClass)
    (ran : renameClass rules.renamer oracle settings data p = .ok renamed q) :
    renamed.bytes = data ∧ renamed.name = renamed.oldName ∧ q.warnings = p.warnings := by
  have self := idle_rules_renamer rules idle
  obtain ⟨job, prepared, oldName, name, scanned, news, renewed, bytes⟩ := rename_class_inv ran
  obtain ⟨scan, thisName, superName, interfaces, _, _, rfl⟩ := prepare_inv prepared
  have unmoved := self.class_name thisName
  obtain ⟨same, quiet⟩ := Job.quiet_new_constants self unmoved scanned.pooled.entries scanned.text p news q renewed
  refine ⟨?_, ?_, quiet⟩
  · rw [bytes, same, Pooled.entries, Walk.placed_constants]
    exact scanned.pooled.split.symm
  · rw [oldName, name]
    exact unmoved

def idleRules : RuleSet :=
  ({ fieldKeying := .nameOnly } : RuleSet).putClass (.ofString "A") (.ofString "A") |>.putField
    ⟨.ofString "A", .ofString "f", none⟩ (.ofString "f")

theorem idle_rules_idle : idleRules.Idle := by
  constructor <;> decide

theorem idle_rename_identity_sample :
    idleRules.Idle ∧ ∃ renamed q,
      renameClass idleRules.renamer Oracle.empty {} (sampleClass ++ [1, 2]) ⟨(), #[]⟩ = .ok renamed q ∧
        renamed.bytes = sampleClass ++ [1, 2] ∧ renamed.name = renamed.oldName ∧ q.warnings = #[] :=
  ⟨idle_rules_idle, _, _, rfl,
    idle_rename_identity idleRules idle_rules_idle Oracle.empty {} (sampleClass ++ [1, 2]) ⟨(), #[]⟩ _ _ rfl⟩

end Relabel
