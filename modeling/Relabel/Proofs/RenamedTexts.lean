import Relabel.Proofs.IndexStability
import Relabel.Proofs.PoolContents

set_option autoImplicit false

namespace Relabel

open ClassFile (constantAt?)

def Warning.index? : Warning → Option Nat
  | .sharedName index .. | .renamedApart index .. => some index
  | .unknownMode _ => none

namespace Renaming

variable {σ α β : Type} {index : Nat}

def Reports (index : Nat) (act : Renaming σ α) : Prop :=
  ∀ p a q, act p = .ok a q →
    ∃ added, q.warnings.toList = p.warnings.toList ++ added ∧ ∀ warning ∈ added, warning.index? = some index

theorem reports_still {act : Renaming σ α} (still : ∀ p a q, act p = .ok a q → q.warnings = p.warnings) :
    Reports index act := by
  intro p a q ran
  exact ⟨[], by rw [still p a q ran, List.append_nil], fun _ member => nomatch member⟩

theorem reports_pure (a : α) : Reports index (pure a : Renaming σ α) := by
  apply reports_still
  intro p b q ran
  cases ran
  rfl

theorem reports_known (answer : Except Fault α) : Reports index (answer : Renaming σ α) := by
  apply reports_still
  intro p a q ran
  rw [(lift_ok_inv ran).2]

theorem reports_bind {x : Renaming σ α} {f : α → Renaming σ β} (first : Reports index x)
    (second : ∀ a, Reports index (f a)) : Reports index (x >>= f) := by
  intro p b q ran
  obtain ⟨a, middle, ranFirst, ranSecond⟩ := bind_ok_inv ran
  obtain ⟨left, leftEq, leftAbout⟩ := first p a middle ranFirst
  obtain ⟨right, rightEq, rightAbout⟩ := second a middle b q ranSecond
  refine ⟨left ++ right, by rw [rightEq, leftEq, List.append_assoc], fun warning member => ?_⟩
  rcases List.mem_append.mp member with member | member
  · exact leftAbout warning member
  · exact rightAbout warning member

theorem reports_warn (warning : Warning) (about : warning.index? = some index) :
    Reports index (warn warning : Renaming σ Unit) := by
  intro p a q ran
  cases ran
  refine ⟨[warning], by simp, fun one member => ?_⟩
  rw [List.mem_singleton.mp member, about]

theorem ask_warnings {act : EStateM Fault σ α} {p q : Progress σ} {a : α} (ran : ask act p = .ok a q) :
    q.warnings = p.warnings := by
  cases asked : act p.oracle with
  | ok b t =>
      rw [ask, asked] at ran
      cases ran
      rfl
  | error e t =>
      rw [ask, asked] at ran
      cases ran

theorem reports_agree (held used : Name) (rename : α → Renaming σ Name) (users : List α)
    (each : ∀ user, Reports index (rename user)) : Reports index (agree index held used rename users) := by
  induction users with
  | nil => exact reports_pure ()
  | cons user rest ih =>
      refine reports_bind (each user) fun other => ?_
      split
      · exact ih
      · exact reports_warn _ rfl

end Renaming

namespace Job

open Renaming

variable {σ : Type} (job : Job σ)

theorem reports_declared_name (index : Nat) (held : Name) (declaration : Declaration) :
    Reports index (job.declaredName held declaration) := by
  refine reports_bind (reports_known _) fun descriptor => ?_
  cases declaration.kind with
  | method => exact reports_still fun p a q ran => ask_warnings ran
  | field | unknown => exact reports_pure _

theorem reports_member_name (index : Nat) (held : Name) : Reports index (job.memberName index held) := by
  refine reports_bind (reports_known _) fun current => ?_
  cases current with
  | none => exact reports_pure held
  | some current =>
      refine reports_bind (reports_known _) fun used => reports_bind (reports_known _) fun members => ?_
      exact reports_bind (reports_agree held used _ _ fun _ => reports_known _) fun _ => reports_pure used

theorem reports_own_name (kind : MemberKind) (index : Nat) (held : Name) :
    Reports index (job.ownName kind index held) := by
  refine reports_bind (reports_known _) fun descriptor => reports_bind (job.reports_declared_name index held _) fun used => ?_
  refine reports_bind (reports_known _) fun declarations => ?_
  exact reports_bind (reports_agree held used _ _ (job.reports_declared_name index held)) fun _ => reports_pure used

theorem reports_common_name (index : Nat) (held : Name) (chosen : Option Name) (inner : List Nat) :
    Reports index (job.commonName index held chosen inner) := by
  induction inner generalizing chosen with
  | nil => exact reports_pure _
  | cons classIndex rest ih =>
      refine reports_bind (reports_known _) fun name => ?_
      cases chosen with
      | none => exact ih (some name)
      | some one =>
          dsimp only
          split
          · exact ih (some one)
          · exact reports_bind (reports_warn _ rfl) fun _ => reports_pure held

theorem reports_new_text (index : Nat) (held : Name) : Reports index (job.newText index held) := by
  refine reports_bind (reports_known _) fun role => ?_
  cases role with
  | plain | className | descriptor | moduleName | packageName | sourceFile => exact reports_pure _
  | signature => exact reports_known _
  | memberName => exact job.reports_member_name index held
  | ownField => exact job.reports_own_name .field index held
  | ownMethod => exact job.reports_own_name .method index held
  | innerName => exact reports_bind (reports_known _) fun inner => job.reports_common_name index held none inner

theorem new_text_inv {entry : Entry} {held : Name} {constant : Constant} {p q : Progress σ}
    (text : entry.constant = .text held) (known : job.scan.names.get entry.index = .ok held)
    (ran : job.newConstant entry p = .ok constant q) :
    ∃ new, constant = .text new ∧ job.newText entry.index held p = .ok new q := by
  simp only [newConstant, text, known, lift_ok_bind] at ran
  obtain ⟨new, middle, renamed, ran⟩ := bind_ok_inv ran
  obtain ⟨_, _, written, ran⟩ := bind_ok_inv ran
  cases ran
  obtain ⟨_, rfl⟩ := lift_ok_inv written
  exact ⟨new, rfl, renamed⟩

theorem reports_new_constant (entry : Entry) : Reports entry.index (job.newConstant entry) := by
  cases found : entry.constant with
  | text name =>
      simp only [newConstant, found]
      refine reports_bind (reports_known _) fun held => reports_bind (job.reports_new_text _ held) fun renamed => ?_
      exact reports_bind (reports_known _) fun _ => reports_pure _
  | _ =>
      simp only [newConstant, found]
      exact reports_pure _

theorem new_constants_report (entries : List Entry) (news : List Constant) (p q : Progress σ)
    (ran : entries.mapM job.newConstant p = .ok news q) :
    ∃ added, q.warnings.toList = p.warnings.toList ++ added ∧
      ∀ warning ∈ added, ∃ entry ∈ entries, warning.index? = some entry.index := by
  induction entries generalizing news p with
  | nil =>
      cases ran
      exact ⟨[], (List.append_nil _).symm, fun _ member => nomatch member⟩
  | cons entry rest ih =>
      rw [List.mapM_cons] at ran
      obtain ⟨constant, middle, first, ran⟩ := bind_ok_inv ran
      obtain ⟨others, second, rfl⟩ := map_ok_inv ran
      obtain ⟨left, leftEq, leftAbout⟩ := job.reports_new_constant entry p constant middle first
      obtain ⟨right, rightEq, rightAbout⟩ := ih others middle second
      refine ⟨left ++ right, by rw [rightEq, leftEq, List.append_assoc], fun warning member => ?_⟩
      rcases List.mem_append.mp member with member | member
      · exact ⟨entry, .head _, leftAbout warning member⟩
      · obtain ⟨other, inside, about⟩ := rightAbout warning member
        exact ⟨other, .tail _ inside, about⟩

structure Passage (p q : Progress σ) (index : Nat) (held new : Name) where
  start : Progress σ
  stop : Progress σ
  earlier : List Warning
  own : List Warning
  later : List Warning
  ran : job.newText index held start = .ok new stop
  added : stop.warnings.toList = start.warnings.toList ++ own
  whole : q.warnings.toList = p.warnings.toList ++ (earlier ++ own ++ later)
  apart : ∀ warning ∈ earlier ++ later, warning.index? ≠ some index

theorem new_constants_at (before after : List Entry) (entry : Entry) (news : List Constant) (p q : Progress σ)
    (ran : (before ++ entry :: after).mapM job.newConstant p = .ok news q) :
    ∃ left constant right middle next, news = left ++ constant :: right ∧ left.length = before.length ∧
      before.mapM job.newConstant p = .ok left middle ∧ job.newConstant entry middle = .ok constant next ∧
      after.mapM job.newConstant next = .ok right q := by
  rw [List.mapM_append] at ran
  obtain ⟨left, middle, ranLeft, ran⟩ := bind_ok_inv ran
  obtain ⟨rest, ranRest, rfl⟩ := map_ok_inv ran
  rw [List.mapM_cons] at ranRest
  obtain ⟨constant, next, ranEntry, ranRest⟩ := bind_ok_inv ranRest
  obtain ⟨right, ranRight, rfl⟩ := map_ok_inv ranRest
  have size := (new_constants_replace job before left p middle ranLeft).length_eq
  exact ⟨left, constant, right, middle, next, rfl, size.symm, ranLeft, ranEntry, ranRight⟩

end Job

theorem Pooled.replaced_at {data out : Bytes} (pooled : Pooled data) (other : Pooled out)
    (same : other.constants.map Constant.tag = pooled.constants.map Constant.tag) (before after : List Entry)
    (entry : Entry) (left right : List Constant) (constant : Constant) (entries : pooled.entries = before ++ entry :: after)
    (constants : other.constants = left ++ constant :: right) (size : left.length = before.length) :
    constantAt? out entry.index = some constant := by
  have there : (other.entries.map Entry.constant)[left.length]? = some constant := by
    rw [Pooled.entries, Walk.placed_constants, constants]
    simp
  rw [List.getElem?_map, Option.map_eq_some_iff] at there
  obtain ⟨new, found, held⟩ := there
  have aligned := congrArg (·[left.length]?) (Walk.placed_same_tags pooled.constants other.constants 1 ClassFile.poolStart
    ClassFile.poolStart same)
  change (other.entries.map _)[left.length]? = (pooled.entries.map _)[left.length]? at aligned
  rw [List.getElem?_map, List.getElem?_map, found, entries, size] at aligned
  have index : new.index = entry.index := by
    simpa using congrArg (Option.map Prod.fst) aligned
  exact (other.constant_at _ _).mpr ⟨new, List.mem_of_getElem? found, index, held⟩

structure Renewed {σ : Type} (renamer : Renamer) (oracle : Oracle σ) (settings : Settings) (data : Bytes)
    (p q : Progress σ) (renamed : RenamedClass) where
  job : Job σ
  scanned : Scanned settings.attributes data job.scan
  out : Pooled renamed.bytes
  prepared : Job.prepare renamer oracle settings data = .ok job
  oldName : renamed.oldName = job.lineage.name
  name : renamed.name = job.newName
  renewed : scanned.pooled.entries.mapM job.newConstant p = .ok out.constants q
  tags : out.constants.map Constant.tag = scanned.pooled.constants.map Constant.tag
  count : out.count = scanned.pooled.count
  body : out.body = scanned.pooled.body
  head : out.head = scanned.pooled.head

theorem rename_class_renewed {σ : Type} {renamer : Renamer} {oracle : Oracle σ} {settings : Settings} {data : Bytes}
    {p q : Progress σ} {renamed : RenamedClass} (ran : renameClass renamer oracle settings data p = .ok renamed q) :
    Nonempty (Renewed renamer oracle settings data p q renamed) := by
  obtain ⟨job, prepared, oldName, name, scanned, news, renewed, bytes⟩ := rename_class_inv ran
  have replaced := new_constants_replace job _ news p q renewed
  have tags := replaced_tags _ _ replaced
  rw [Pooled.entries, Walk.placed_constants] at tags
  let out := scanned.pooled.replace news tags (replaced_storable _ _ replaced)
  cases renamed with
  | mk old new out_bytes =>
      cases bytes
      exact ⟨⟨job, scanned, out, prepared, oldName, name, renewed, tags, rfl, rfl, rfl⟩⟩

namespace Renewed

variable {σ : Type} {renamer : Renamer} {oracle : Oracle σ} {settings : Settings} {data : Bytes} {p q : Progress σ}
  {renamed : RenamedClass} (run : Renewed renamer oracle settings data p q renamed)

theorem job_given : run.job.renamer = renamer ∧ run.job.oracle = oracle := by
  obtain ⟨_, _, _, _, _, _, same⟩ := prepare_inv run.prepared
  rw [same]
  exact ⟨rfl, rfl⟩

include run in
theorem constant_kept (index : Nat) (constant : Constant) (held : constantAt? data index = some constant)
    (other : constant.tag ≠ .text) : constantAt? renamed.bytes index = some constant := by
  obtain ⟨entry, member, rfl, rfl⟩ := (run.scanned.pooled.constant_at _ _).mp held
  obtain ⟨before, after, split⟩ := List.append_of_mem member
  have ran := run.renewed
  rw [split] at ran
  obtain ⟨left, constant, right, middle, next, news, size, _, ranEntry, _⟩ := run.job.new_constants_at _ _ _ _ _ _ ran
  have same := (run.job.new_constant_replaces entry constant middle next ranEntry).kept other
  rw [← same]
  exact run.scanned.pooled.replaced_at run.out run.tags before after entry left right constant split news size

theorem text_renamed (index : Nat) (held : Name) (here : constantAt? data index = some (.text held)) :
    ∃ new, constantAt? renamed.bytes index = some (.text new) ∧ Nonempty (run.job.Passage p q index held new) := by
  obtain ⟨entry, member, rfl, text⟩ := (run.scanned.pooled.constant_at _ _).mp here
  obtain ⟨before, after, split⟩ := List.append_of_mem member
  have ran := run.renewed
  rw [split] at ran
  obtain ⟨left, constant, right, start, stop, news, size, ranBefore, ranEntry, ranAfter⟩ :=
    run.job.new_constants_at _ _ _ _ _ _ ran
  obtain ⟨new, rfl, renamedText⟩ := run.job.new_text_inv text (run.scanned.text entry member held text) ranEntry
  obtain ⟨earlier, earlierEq, earlierAbout⟩ := run.job.new_constants_report before left p start ranBefore
  obtain ⟨own, ownEq, _⟩ := run.job.reports_new_text _ held start new stop renamedText
  obtain ⟨later, laterEq, laterAbout⟩ := run.job.new_constants_report after right stop q ranAfter
  have increasing := run.scanned.pooled.increasing
  rw [split] at increasing
  -- Each index comes once, so the other texts warn about other indices.
  have apart : ∀ other ∈ before ++ after, other.index ≠ entry.index := by
    intro other inside
    rcases List.mem_append.mp inside with inside | inside
    · have less := (List.pairwise_append.mp increasing).2.2 other inside entry (.head _)
      omega
    · have less := List.rel_of_pairwise_cons (List.pairwise_append.mp increasing).2.1 inside
      omega
  have there := run.scanned.pooled.replaced_at run.out run.tags before after entry left right _ split news size
  refine ⟨new, there, ⟨start, stop, earlier, own, later, renamedText, ownEq, ?_, ?_⟩⟩
  · rw [laterEq, ownEq, earlierEq]
    simp only [List.append_assoc]
  · intro warning member same
    have about : ∃ other ∈ before ++ after, warning.index? = some other.index := by
      rcases List.mem_append.mp member with member | member
      · obtain ⟨other, inside, about⟩ := earlierAbout warning member
        exact ⟨other, List.mem_append_left _ inside, about⟩
      · obtain ⟨other, inside, about⟩ := laterAbout warning member
        exact ⟨other, List.mem_append_right _ inside, about⟩
    obtain ⟨other, inside, about⟩ := about
    rw [about] at same
    exact apart other inside (Option.some.inj same)

end Renewed

end Relabel
