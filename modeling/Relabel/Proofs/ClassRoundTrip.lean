import Relabel.Proofs.FixedAnswers
import Relabel.Proofs.InverseRules
import Relabel.Proofs.StructureKept

set_option autoImplicit false

namespace Relabel

open ClassFile (constantAt?)
open Oracle (AnyStates SameValue)
open Walk

namespace Oracle

variable {σ : Type} {oracle : Oracle σ} (answers : oracle.NeverFails)

include answers

theorem yields_rename_method {renamer : Renamer} (plain : renamer.ClassesOnly) (settings : Settings) (lineage : Lineage)
    (name descriptor : Name) :
    Yields (· = name) (oracle.renameMethod renamer settings lineage name descriptor) := by
  by_cases special : name.isSpecial
  · rw [renameMethod, if_pos special]
    exact yields_pure name rfl
  · rw [renameMethod, if_neg special, plain.method_none]
    refine yields_bind (yields_declaring answers settings lineage name descriptor) fun owner _ => ?_
    cases owner with
    | none => exact yields_pure name rfl
    | some owner => exact yields_pure _ (plain.method owner name descriptor)

end Oracle

def Role.Attributed : Role → Prop
  | .signature | .sourceFile | .innerName => True
  | _ => False

theorem Tables.stated_unattributed (tables : Tables) (constants : List Constant) (place : Nat) :
    ¬ (tables.statedRole constants place).Attributed := by
  rw [statedRole]
  split_ifs
  iterate 5 exact id
  cases last : (constants.filterMap (·.moduleRole? place)).getLast? with
  | none => exact id
  | some role =>
      obtain ⟨constant, _, held⟩ := List.mem_filterMap.mp (List.mem_of_getLast? last)
      have weight := constant.module_role_weight place role held
      cases role with
      | moduleName | packageName => exact id
      | _ => cases weight

section

variable {σ τ α γ δ : Type}

theorem relates_known {β : Type} {answer : Except Fault α} {other : Except Fault β}
    {post : α → Progress σ → β → Progress τ → Prop}
    (follows : ∀ a, answer = .ok a → ∃ b, other = .ok b ∧ ∀ s t, post a s b t) :
    Relates AnyStates (answer : Renaming σ α) (other : Renaming τ β) post := by
  intro s t a s' _ ran
  obtain ⟨found, rfl⟩ := lift_ok_inv ran
  obtain ⟨b, there, said⟩ := follows a found
  exact ⟨b, t, by rw [there]; rfl, said s' t⟩

theorem relates_alike (answer : Except Fault α) :
    Relates AnyStates (answer : Renaming σ α) (answer : Renaming τ α) SameValue :=
  relates_known fun a found => ⟨a, found, fun _ _ => ⟨rfl, trivial⟩⟩

def BothHeld (held a : Name) (_ : Progress σ) (b : Name) (_ : Progress τ) : Prop := a = held ∧ b = held

variable {held : Name}

theorem relates_held {f : Name → Renaming σ γ} {g : Name → Renaming τ δ} {post : γ → Progress σ → δ → Progress τ → Prop}
    (rest : Relates AnyStates (f held) (g held) post) (a b : Name) :
    Relates (fun s t => BothHeld held a s b t) (f a) (g b) post := by
  rintro s t c s' ⟨rfl, rfl⟩ ran
  exact rest s t c s' trivial ran

theorem relates_ask {x : EStateM Fault σ Name} {y : EStateM Fault τ Name} (first : ∀ s a t, x s = .ok a t → a = held)
    (second : Yields (· = held) y) : Relates AnyStates (Renaming.ask x) (Renaming.ask y) (BothHeld held) := by
  intro s t a s' _ ran
  obtain ⟨b, u, ranAgain, said⟩ := second t.oracle
  have kept := (Renaming.quiet_ask x first s a s' ran).1
  exact ⟨b, { t with oracle := u }, by rw [Renaming.ask, ranAgain], kept, said⟩

theorem relates_agree (index : Nat) {rename : α → Renaming σ Name} {again : α → Renaming τ Name} (users : List α)
    (each : ∀ user, Relates AnyStates (rename user) (again user) (BothHeld held)) :
    Relates AnyStates (Renaming.agree index held held rename users) (Renaming.agree index held held again users)
      fun _ s _ t => AnyStates s t := by
  induction users with
  | nil => exact relates_pure fun _ _ _ => trivial
  | cons user rest ih =>
      refine relates_bind (each user) (relates_held ?_)
      rw [if_pos rfl, if_pos rfl]
      exact ih

theorem yields_of_relates {x : Renaming σ Name} {y : Name → Renaming τ Name} {start stop : Progress σ} {new : Name}
    (both : Relates AnyStates x (y held) (BothHeld held)) (ran : x start = .ok new stop) : Yields (· = held) (y new) := by
  intro t
  obtain ⟨b, u, ranAgain, same, said⟩ := both start t new stop trivial ran
  rw [same]
  exact ⟨b, u, ranAgain, said⟩

end

namespace Job

variable {σ τ : Type}

theorem linked_name_held {job : Job σ} (plain : job.renamer.ClassesOnly) {member : LinkedMember} {owner descriptor : Name}
    (owned : job.scan.className member.owner = .ok owner) (described : job.scan.names.get member.descriptor = .ok descriptor)
    (held : Name) : job.linkedName held member = .ok held := by
  rw [linkedName, owned, described]
  cases kind : member.kind with
  | field => exact congrArg Except.ok (plain.field owner held descriptor)
  | method => exact congrArg Except.ok (plain.method owner held descriptor)
  | unknown => rfl

structure Undoes (rules : RuleSet) (job : Job σ) (again : Job τ) : Prop where
  renamer : job.renamer = rules.renamer
  inverse : again.renamer = rules.inverted.renamer
  same : job.scan.SameStructure again.scan
  classes : ∀ index name, job.scan.className index = .ok name → ∃ new, again.scan.className index = .ok new
  texts : ∀ index name, job.scan.names.get index = .ok name → ∃ new, again.scan.names.get index = .ok new
  answers : again.oracle.NeverFails

namespace Undoes

variable {rules : RuleSet} {job : Job σ} {again : Job τ} (undoes : Undoes rules job again) (reversible : rules.Reversible)

include undoes reversible

theorem plain : job.renamer.ClassesOnly := undoes.renamer ▸ reversible.classes_only

theorem plain_again : again.renamer.ClassesOnly := undoes.inverse ▸ reversible.inverted_classes_only

theorem linked_name (held : Name) (member : LinkedMember) :
    Relates AnyStates (job.linkedName held member : Renaming σ Name) (again.linkedName held member : Renaming τ Name)
      (BothHeld held) := by
  refine relates_known fun a found => ?_
  obtain ⟨owner, owned, rest⟩ := except_bind_inv found
  obtain ⟨descriptor, described, _⟩ := except_bind_inv rest
  rw [linked_name_held (undoes.plain reversible) owned described] at found
  obtain ⟨_, ownedAgain⟩ := undoes.classes _ owner owned
  obtain ⟨_, describedAgain⟩ := undoes.texts _ descriptor described
  refine ⟨held, linked_name_held (undoes.plain_again reversible) ownedAgain describedAgain held, fun _ _ => ⟨?_, rfl⟩⟩
  exact (Except.ok.inj found).symm

theorem member_name (index : Nat) (held : Name) :
    Relates AnyStates (job.memberName index held) (again.memberName index held) (BothHeld held) := by
  rw [memberName, memberName, undoes.same.linked_member, undoes.same.linked_members]
  refine relates_bind (relates_alike _) (relates_equal fun current => ?_)
  cases current with
  | none => exact relates_pure fun _ _ _ => ⟨rfl, rfl⟩
  | some current =>
      refine relates_bind (undoes.linked_name reversible held current) (relates_held ?_)
      refine relates_bind (relates_alike _) (relates_equal fun members => ?_)
      refine relates_bind (relates_agree index _ (undoes.linked_name reversible held)) fun _ _ => ?_
      exact relates_pure fun _ _ _ => ⟨rfl, rfl⟩

theorem declared_name (held : Name) (declaration : Declaration) :
    Relates AnyStates (job.declaredName held declaration) (again.declaredName held declaration) (BothHeld held) := by
  have described : Relates AnyStates (job.scan.names.get declaration.descriptor : Renaming σ Name)
      (again.scan.names.get declaration.descriptor : Renaming τ Name) fun _ s _ t => AnyStates s t :=
    relates_known fun name found =>
      have ⟨new, there⟩ := undoes.texts _ name found
      ⟨new, there, fun _ _ => trivial⟩
  refine relates_bind described fun descriptor other => ?_
  cases declaration.kind with
  | method =>
      refine relates_ask (fun _ _ _ ran => rename_method_kept (undoes.plain reversible).method_self ran) ?_
      exact Oracle.yields_rename_method undoes.answers (undoes.plain_again reversible) _ _ held other
  | field | unknown =>
      refine relates_pure fun _ _ _ => ⟨?_, ?_⟩
      · exact (undoes.plain reversible).field _ held descriptor
      · exact (undoes.plain_again reversible).field _ held other

theorem own_name (kind : MemberKind) (index : Nat) (held : Name) :
    Relates AnyStates (job.ownName kind index held) (again.ownName kind index held) (BothHeld held) := by
  rw [ownName, ownName, undoes.same.own_descriptor, undoes.same.declarations]
  refine relates_bind (relates_alike _) (relates_equal fun descriptor => ?_)
  refine relates_bind (undoes.declared_name reversible held _) (relates_held ?_)
  refine relates_bind (relates_alike _) (relates_equal fun declarations => ?_)
  refine relates_bind (relates_agree index _ (undoes.declared_name reversible held)) fun _ _ => ?_
  exact relates_pure fun _ _ _ => ⟨rfl, rfl⟩

theorem new_text {index : Nat} {held new : Name} {start stop : Progress σ} {role : Role}
    (known : job.scan.catalog.role index = .ok role) (stated : ¬ role.Attributed)
    (distinct : ∀ name ∈ role.lookups held, rules.Distinguishes name) (ran : job.newText index held start = .ok new stop) :
    Yields (· = held) (again.newText index new) := by
  rw [newText, known, lift_ok_bind] at ran
  rw [newText, undoes.same.role, known, lift_ok_bind]
  cases role with
  | plain =>
      cases ran
      exact yields_pure held rfl
  | className =>
      cases ran
      rw [undoes.renamer, undoes.inverse]
      exact yields_pure _ (reversible.class_name_back distinct)
  | descriptor =>
      cases ran
      rw [undoes.renamer, undoes.inverse]
      exact yields_pure _ (reversible.descriptor_back distinct)
  | moduleName =>
      cases ran
      rw [(undoes.plain reversible).module_name]
      exact yields_pure _ ((undoes.plain_again reversible).module_name held)
  | packageName =>
      cases ran
      rw [(undoes.plain reversible).package_name]
      exact yields_pure _ ((undoes.plain_again reversible).package_name held)
  | memberName => exact yields_of_relates (undoes.member_name reversible index held) ran
  | ownField => exact yields_of_relates (undoes.own_name reversible .field index held) ran
  | ownMethod => exact yields_of_relates (undoes.own_name reversible .method index held) ran
  | signature | sourceFile | innerName => exact absurd trivial stated

end Undoes

theorem prepare_again {renamer : Renamer} {oracle : Oracle σ} {settings others : Settings} {data out : Bytes} {job : Job σ}
    {after : Scan} (ran : prepare renamer oracle settings data = .ok job) (inverse : Renamer) (other : Oracle τ)
    (accepted : Scan.ofBytes others.attributes out = .ok after) (outline : after.outline = job.scan.outline)
    (classes : ∀ index name, job.scan.className index = .ok name → ∃ new, after.className index = .ok new) :
    ∃ lineage, prepare inverse other others out =
      .ok ⟨after, inverse, other, others, lineage, inverse.className lineage.name⟩ := by
  obtain ⟨named, superNamed, interfacesNamed⟩ := prepare_named ran
  obtain ⟨newName, thisAgain⟩ : ∃ new, after.thisName = .ok new := by
    rw [Scan.thisName, outline]
    exact classes _ _ named
  obtain ⟨newSuper, superAgain⟩ : ∃ new, after.superName = .ok new := by
    rw [Scan.superName, outline]
    by_cases none : job.scan.outline.superClass = 0
    · exact ⟨_, if_pos none⟩
    · rw [if_neg none]
      rw [Scan.superName, if_neg none] at superNamed
      exact classes _ _ superNamed
  obtain ⟨newInterfaces, interfacesAgain⟩ : ∃ news, after.interfaceNames = .ok news := by
    rw [Scan.interfaceNames, outline]
    refine except_map_all _ fun index member => ?_
    obtain ⟨one, found⟩ := except_map_each _ interfacesNamed index member
    exact classes index one found
  refine ⟨⟨newName, newSuper, newInterfaces⟩, ?_⟩
  rw [prepare, accepted, except_ok_bind, thisAgain, except_ok_bind, superAgain, except_ok_bind, interfacesAgain]
  rfl

theorem new_constant_other (job : Job τ) {entry : Entry} (other : entry.constant.tag ≠ .text) :
    job.newConstant entry = pure entry.constant := by
  cases found : entry.constant with
  | text held =>
      rw [found] at other
      exact absurd rfl other
  | _ => simp only [newConstant, found]

theorem yields_new_constants {again : Job τ} {entries others : List Entry}
    (each : List.Forall₂ (fun entry other => Yields (· = entry.constant) (again.newConstant other)) entries others) :
    Yields (· = entries.map Entry.constant) (others.mapM again.newConstant) := by
  induction each with
  | nil => exact yields_pure [] rfl
  | cons one _ ih =>
      rw [List.mapM_cons]
      refine yields_bind one fun constant same => yields_bind ih fun constants sameRest => ?_
      exact yields_pure _ (by rw [same, sameRest, List.map_cons])

end Job

/-- Every class name that is looked up for a file is one that the rules rename or that they rename
nothing to. -/
def RuleSet.Separates (rules : RuleSet) (data : Bytes) : Prop :=
  ∀ scan index role held, Scan.ofBytes .pass data = .ok scan → scan.catalog.role index = .ok role →
    scan.names.get index = .ok held → ∀ name ∈ role.lookups held, rules.Distinguishes name

namespace Renewed

section

variable {σ : Type} {renamer : Renamer} {oracle : Oracle σ} {settings : Settings} {data : Bytes} {p q : Progress σ}
  {renamed : RenamedClass} (run : Renewed renamer oracle settings data p q renamed) {mode : AttributeMode} {after : Scan}
  (rescanned : Scanned mode renamed.bytes after)

include rescanned

theorem class_named (index : Nat) (name : Name) (named : run.job.scan.className index = .ok name) :
    ∃ new, after.className index = .ok new := by
  obtain ⟨new, there⟩ := run.class_kept ((run.scanned.class_name_iff index name).mp named)
  exact ⟨new, (rescanned.class_name_iff index new).mpr there⟩

theorem text_named (index : Nat) (name : Name) (held : run.job.scan.names.get index = .ok name) :
    ∃ new, after.names.get index = .ok new := by
  obtain ⟨new, there⟩ := run.text_kept ⟨name, (run.scanned.text_iff index name).mp held⟩
  exact ⟨new, (rescanned.text_iff index new).mpr there⟩

end

variable {σ τ : Type} {rules : RuleSet} {oracle : Oracle σ} {settings : Settings} {data : Bytes} {p q : Progress σ}
  {renamed : RenamedClass} (run : Renewed rules.renamer oracle settings data p q renamed) {again : Job τ}
  {mode : AttributeMode} (rescanned : Scanned mode renamed.bytes again.scan)

theorem role_stated (passes : settings.attributes = .pass) {index : Nat} {held : Name}
    (here : constantAt? data index = some (.text held)) :
    ∃ role, run.job.scan.catalog.role index = .ok role ∧ ¬ role.Attributed := by
  have accepted := run.scanned.accepted
  rw [passes] at accepted
  obtain ⟨scanned⟩ := scan_inv .pass data _ accepted
  obtain ⟨tables, read, _⟩ := scanned.tables
  have known := scanned.passed_role read index (scanned.pooled.constant_addressable index _ here)
  exact ⟨_, known, tables.stated_unattributed _ index⟩

include rescanned in
theorem yields_new_constant (undoes : Job.Undoes rules run.job again) (reversible : rules.Reversible)
    (passes : settings.attributes = .pass) (separates : rules.Separates data) {entry other : Entry}
    (member : entry ∈ run.scanned.pooled.entries) (there : other ∈ run.out.entries) (replaced : entry.ReplacedBy other) :
    Yields (· = entry.constant) (again.newConstant other) := by
  have here := run.scanned.pooled.constant_of_entry entry member
  have written := run.out.constant_of_entry other there
  by_cases texts : entry.constant.tag = .text
  · obtain ⟨held, found⟩ := text_of_tag _ texts
    rw [found] at here
    obtain ⟨new, writtenNew, ⟨passage⟩⟩ := run.text_renamed entry.index held here
    rw [replaced.index, writtenNew] at written
    have text : other.constant = .text new := (Option.some.inj written).symm
    obtain ⟨role, known, stated⟩ := run.role_stated passes here
    have distinct := separates _ _ role held (passes ▸ run.scanned.accepted) known ((run.scanned.text_iff _ _).mpr here)
    have storable := run.scanned.pooled.entry_storable entry member
    rw [found] at storable
    simp only [Job.newConstant, text]
    rw [replaced.index, (rescanned.text_iff _ new).mpr writtenNew, lift_ok_bind, found]
    refine yields_bind (undoes.new_text reversible known stated distinct passage.ran) fun renewed same => ?_
    subst same
    rw [Constant.encode_storable _ storable, lift_ok_bind]
    exact yields_pure _ rfl
  · have kept := replaced.kept texts
    rw [← kept] at texts ⊢
    rw [again.new_constant_other texts]
    exact yields_pure _ rfl

end Renewed

theorem class_renames_round_trip {σ τ : Type} (rules : RuleSet) (reversible : rules.Reversible) (oracle : Oracle σ)
    (other : Oracle τ) (answers : other.NeverFails) (settings others : Settings) (passes : settings.attributes = .pass)
    (passesAgain : others.attributes = .pass) (data : Bytes) (separates : rules.Separates data) (p q : Progress σ)
    (renamed : RenamedClass) (ran : renameClass rules.renamer oracle settings data p = .ok renamed q) (start : Progress τ) :
    ∃ back stop, renameClass rules.inverted.renamer other others renamed.bytes start = .ok back stop ∧ back.bytes = data := by
  obtain ⟨run⟩ := rename_class_renewed ran
  -- With the attributes passed over, the renamed file is scanned like the first one.
  obtain ⟨after, rescanned, pooled, same⟩ : ∃ (after : Scan) (again : Scanned others.attributes renamed.bytes after),
      again.pooled = run.out ∧ run.job.scan.SameStructure after := by
    rw [passesAgain, ← passes]
    refine run.scanned.carried run.out run.aligned run.count run.body fun interprets => ?_
    rw [passes] at interprets
    cases interprets
  obtain ⟨lineage, prepared⟩ := Job.prepare_again run.prepared rules.inverted.renamer other rescanned.accepted same.outline
    (run.class_named rescanned)
  let again : Job τ := ⟨after, rules.inverted.renamer, other, others, lineage, rules.inverted.renamer.className lineage.name⟩
  have undoes : Job.Undoes rules run.job again :=
    ⟨run.job_given.1, rfl, same, run.class_named rescanned, run.text_named rescanned, answers⟩
  -- Constant by constant, the second run gives back what the first started from.
  have each : List.Forall₂ (fun entry other => Yields (· = entry.constant) (again.newConstant other))
      run.scanned.pooled.entries run.out.entries := by
    obtain ⟨length, replaced⟩ := List.forall₂_iff_zip.mp run.aligned
    refine List.forall₂_iff_zip.mpr ⟨length, fun pair => ?_⟩
    obtain ⟨member, there⟩ := List.of_mem_zip pair
    exact run.yields_new_constant rescanned undoes reversible passes separates member there (replaced pair)
  obtain ⟨news, stop, renewed, rfl⟩ := Job.yields_new_constants each start
  rw [← pooled] at renewed
  rw [rename_class_scanned rescanned prepared, bind_ok renewed]
  refine ⟨_, stop, rfl, ?_⟩
  dsimp only
  rw [pooled, run.head, run.body, Pooled.entries, placed_constants]
  exact run.scanned.pooled.split.symm

theorem RuleSet.exchange_separates {rules : RuleSet}
    (exchanges : ∀ rule ∈ rules.classes.entries, rules.classes.contains rule.2) (data : Bytes) : rules.Separates data := by
  intro _ _ _ _ _ _ _ name _
  by_cases target : ∃ rule ∈ rules.classes.entries, rule.2 = name
  · obtain ⟨rule, member, rfl⟩ := target
    exact .inl (exchanges rule member)
  · exact .inr fun rule member same => target ⟨rule, member, same⟩

def exchangedClass : Bytes :=
  [0xCA, 0xFE, 0xBA, 0xBE, 0, 0, 0, 52, 0, 7, 1, 0, 1, 65, 7, 0, 1, 1, 0, 1, 102, 1, 0, 4, 76, 66, 66, 59,
    1, 0, 4, 91, 76, 65, 59, 7, 0, 5, 0, 33, 0, 2, 0, 0, 0, 0, 0, 1, 0, 0, 0, 3, 0, 4, 0, 0, 0, 1, 0, 0, 0, 3, 0, 4, 0, 0,
    0, 0]

def exchangeRules : RuleSet :=
  ({} : RuleSet).putClass (.ofString "A") (.ofString "BB") |>.putClass (.ofString "BB") (.ofString "A")

def exchangedRenamed : RenamedClass :=
  ⟨.ofString "A", .ofString "BB",
    [0xCA, 0xFE, 0xBA, 0xBE, 0, 0, 0, 52, 0, 7, 1, 0, 2, 66, 66, 7, 0, 1, 1, 0, 1, 102, 1, 0, 3, 76, 65, 59,
      1, 0, 5, 91, 76, 66, 66, 59, 7, 0, 5, 0, 33, 0, 2, 0, 0, 0, 0, 0, 1, 0, 0, 0, 3, 0, 4, 0, 0, 0, 1, 0, 0, 0, 3, 0, 4,
      0, 0, 0, 0]⟩

theorem class_renames_round_trip_sample :
    exchangeRules.Reversible ∧ (Oracle.empty : Oracle Unit).NeverFails ∧ exchangeRules.Separates exchangedClass ∧
      renameClass exchangeRules.renamer Oracle.empty { attributes := .pass } exchangedClass ⟨(), #[]⟩ =
        .ok exchangedRenamed ⟨(), #[]⟩ ∧
      ∃ back stop, renameClass exchangeRules.inverted.renamer Oracle.empty { attributes := .pass } exchangedRenamed.bytes
        ⟨(), #[]⟩ = .ok back stop ∧ back.bytes = exchangedClass := by
  have classes : exchangeRules.ReversibleClasses := by constructor <;> decide
  have reversible : exchangeRules.Reversible := ⟨classes, rfl, rfl, rfl, rfl⟩
  have answers : (Oracle.empty : Oracle Unit).NeverFails := fun _ s => ⟨{}, s, rfl, trivial⟩
  have separates : exchangeRules.Separates exchangedClass := RuleSet.exchange_separates (by decide) _
  have renamed : renameClass exchangeRules.renamer Oracle.empty { attributes := .pass } exchangedClass ⟨(), #[]⟩ =
      .ok exchangedRenamed ⟨(), #[]⟩ := rfl
  refine ⟨reversible, answers, separates, renamed, ?_⟩
  exact class_renames_round_trip _ reversible _ _ answers _ _ rfl rfl _ separates _ _ _ renamed _

end Relabel
