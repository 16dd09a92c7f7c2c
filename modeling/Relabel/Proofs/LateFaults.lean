import Relabel.Proofs.Emission
import Relabel.Proofs.TypeText

set_option autoImplicit false

namespace Relabel

open Catalog (Addressable)

def Fault.Late : Fault → Prop
  | .wrongEntry .. | .unusableIndex .. | .malformedSignature .. | .textTooLong .. | .oracle .. => True
  | _ => False

def LateOr {α : Type} (post : α → Prop) : Except Fault α → Prop
  | .ok a => post a
  | .error e => e.Late

section

variable {α β : Type}

theorem late_or_bind {first : α → Prop} {post : β → Prop} {x : Except Fault α} {f : α → Except Fault β}
    (one : LateOr first x) (other : ∀ a, first a → LateOr post (f a)) : LateOr post (x >>= f) := by
  cases x with
  | ok a => exact other a one
  | error e => exact one

theorem late_or_map_m (f : α → Except Fault β) (items : List α)
    (each : ∀ item ∈ items, LateOr (fun _ => True) (f item)) : LateOr (fun _ => True) (items.mapM f) := by
  induction items with
  | nil => exact trivial
  | cons item rest ih =>
      rw [List.mapM_cons]
      refine late_or_bind (each item (.head _)) fun _ _ => ?_
      refine late_or_bind (ih fun one member => each one (.tail _ member)) fun _ _ => ?_
      exact trivial

end

def LinkedMember.Closed (count : Nat) (member : LinkedMember) : Prop :=
  Addressable count member.owner ∧ Addressable count member.descriptor

structure Scan.Closed (count : Nat) (scan : Scan) : Prop where
  names : scan.names.count = count
  slots : scan.catalog.count = count
  links : Catalog.All (Catalog.SlotClosed count) scan.catalog

theorem Scanned.scan_closed {mode : AttributeMode} {data : Bytes} {scan : Scan} (scanned : Scanned mode data scan) :
    scan.Closed scanned.pooled.count := ⟨scanned.names_count, scanned.closed.1, scanned.closed.2⟩

namespace Scan.Closed

variable {scan : Scan} {count : Nat} (closed : scan.Closed count) {index : Nat} (here : Addressable count index)

include closed

theorem member_of (nameAndType : Nat) (member : LinkedMember) (found : scan.catalog.memberOf? nameAndType = some member) :
    member.Closed count := by
  obtain ⟨slot, stored, found⟩ := Option.bind_eq_some_iff.mp found
  obtain ⟨owner, owned, found⟩ := Option.bind_eq_some_iff.mp found
  obtain ⟨descriptor, described, found⟩ := Option.bind_eq_some_iff.mp found
  cases found
  have linked := closed.links nameAndType slot stored
  exact ⟨linked.owner owner owned, linked.descriptor descriptor described⟩

include here

theorem late_name : LateOr (fun _ => True) (scan.names.get index) := by
  rw [← closed.names] at here
  rcases NameTable.get_addressable scan.names index here with ⟨name, got⟩ | ⟨expected, got⟩
  · rw [got]
    exact trivial
  · rw [got]
    exact trivial

theorem late_slot : LateOr (Slot.Closed count) (scan.catalog.slot index) := by
  rw [← closed.slots] at here
  obtain ⟨slot, stored, found⟩ := Catalog.slot_found scan.catalog index here
  rw [found]
  exact closed.links index slot stored

theorem late_tag : LateOr (fun _ => True) (scan.catalog.tag index) := by
  refine late_or_bind (closed.late_slot here) fun slot _ => ?_
  cases slot.tag with
  | none => exact trivial
  | some tag => exact trivial

theorem late_address (kind : EntryKind) : LateOr (fun _ => True) (scan.catalog.address kind index) := by
  refine late_or_bind (closed.late_tag here) fun tag _ => ?_
  split
  · exact trivial
  · exact trivial

theorem late_role : LateOr (fun _ => True) (scan.catalog.role index) :=
  late_or_bind (closed.late_slot here) fun _ _ => trivial

theorem late_class_index : LateOr (Addressable count) (scan.catalog.className index) := by
  refine late_or_bind (closed.late_slot here) fun slot linked => ?_
  cases held : slot.className with
  | none => exact trivial
  | some name => exact linked.className name held

theorem late_class_name : LateOr (fun _ => True) (scan.className index) := by
  refine late_or_bind (closed.late_address here .classRef) fun _ _ => ?_
  exact late_or_bind (closed.late_class_index here) fun name named => closed.late_name named

theorem late_own_descriptor : LateOr (Addressable count) (scan.catalog.ownDescriptor index) := by
  refine late_or_bind (closed.late_slot here) fun slot linked => ?_
  cases held : slot.ownDescriptor with
  | none => exact trivial
  | some descriptor => exact linked.ownDescriptor descriptor held

theorem late_declarations :
    LateOr (fun found => ∀ declaration ∈ found, Addressable count declaration.descriptor)
      (scan.catalog.declarations index) :=
  late_or_bind (closed.late_slot here) fun _ linked => linked.declarations

theorem late_inner_classes :
    LateOr (fun found => ∀ classIndex ∈ found, Addressable count classIndex) (scan.catalog.innerClasses index) :=
  late_or_bind (closed.late_slot here) fun _ linked => linked.innerClasses

theorem late_linked_member :
    LateOr (fun found => ∀ member, found = some member → member.Closed count) (scan.catalog.linkedMember? index) := by
  refine late_or_bind (closed.late_slot here) fun slot _ member found => ?_
  obtain ⟨nameAndType, _, found⟩ := Option.bind_eq_some_iff.mp found
  exact closed.member_of nameAndType member found

theorem late_linked_members :
    LateOr (fun found => ∀ member ∈ found, member.Closed count) (scan.catalog.linkedMembers index) := by
  refine late_or_bind (closed.late_slot here) fun slot _ member inside => ?_
  obtain ⟨nameAndType, _, found⟩ := List.mem_filterMap.mp (List.mem_eraseDups.mp inside)
  exact closed.member_of nameAndType member found

end Scan.Closed

theorem late_signature (renamer : Renamer) (held : Name) : LateOr (fun _ => True) (renamer.signature held) := by
  rw [Renamer.signature]
  cases done : Signature.read held.bytes with
  | mk pieces fault =>
      cases fault with
      | none =>
          rw [Signature.rename_accepted done]
          exact trivial
      | some position =>
          rw [Signature.rename_rejected done]
          exact trivial

theorem late_encode (renamed : Name) : LateOr (fun _ => True) (Constant.text renamed).encode := by
  by_cases long : Constant.maxTextLength < renamed.length
  · rw [Constant.encode, if_pos long]
    exact trivial
  · rw [Constant.encode, if_neg long]
    exact trivial

namespace Oracle

variable {σ : Type} (oracle : Oracle σ)

theorem request_late (name : Name) (s t : σ) (e : Fault) (ran : oracle.request name s = .error e t) : e.Late := by
  rw [request] at ran
  cases answer : oracle.lookup name s with
  | ok shape next =>
      rw [answer] at ran
      cases ran
  | error cause next =>
      rw [answer] at ran
      cases cause <;> cases ran <;> exact trivial

theorem shape_of_late (settings : Settings) (name : Name) (s t : σ) (e : Fault)
    (ran : oracle.shapeOf settings name s = .error e t) : e.Late := by
  by_cases platform : settings.isPlatform name
  · rw [shapeOf, if_pos platform] at ran
    cases ran
  · rw [shapeOf, if_neg platform] at ran
    exact oracle.request_late name s t e ran

theorem search_late (settings : Settings) (name descriptor : Name) (fuel : Nat) (queue seen : List Name) (s t : σ)
    (e : Fault) (ran : oracle.search settings name descriptor fuel queue seen s = .error e t) : e.Late := by
  induction fuel generalizing queue seen s with
  | zero => cases ran
  | succ fuel ih =>
      rw [search] at ran
      cases next : queue.dropWhile fun c => settings.isPlatform c || seen.contains c with
      | nil =>
          rw [next] at ran
          cases ran
      | cons candidate queue =>
          rw [next] at ran
          rcases bind_error_inv ran with failed | ⟨shape, middle, _, rest⟩
          · exact oracle.request_late candidate s t e failed
          · by_cases declared : shape.declares name descriptor
            · rw [if_pos declared] at rest
              cases rest
            · rw [if_neg declared] at rest
              exact ih _ _ middle rest

theorem declaring_late (settings : Settings) (lineage : Lineage) (name descriptor : Name) (s t : σ) (e : Fault)
    (ran : oracle.declaring? settings lineage name descriptor s = .error e t) : e.Late := by
  rcases bind_error_inv ran with failed | ⟨shape, middle, _, rest⟩
  · exact oracle.shape_of_late settings lineage.superName s t e failed
  · by_cases declared : shape.declares name descriptor
    · rw [if_pos declared] at rest
      cases rest
    · rw [if_neg declared] at rest
      exact oracle.search_late settings name descriptor _ _ _ middle t e rest

theorem rename_method_late (renamer : Renamer) (settings : Settings) (lineage : Lineage) (name descriptor : Name)
    (s t : σ) (e : Fault) (ran : oracle.renameMethod renamer settings lineage name descriptor s = .error e t) :
    e.Late := by
  by_cases special : name.isSpecial
  · rw [renameMethod, if_pos special] at ran
    cases ran
  · rw [renameMethod, if_neg special] at ran
    cases own : renamer.method? lineage.name name descriptor with
    | some found =>
        rw [own] at ran
        cases ran
    | none =>
        rw [own] at ran
        rcases bind_error_inv ran with failed | ⟨declaring, middle, _, rest⟩
        · exact oracle.declaring_late settings lineage name descriptor s t e failed
        · cases declaring <;> cases rest

end Oracle

namespace Renaming

variable {σ α β : Type}

def FailsLate (act : Renaming σ α) : Prop := ∀ p e q, act p = .error e q → e.Late

theorem fails_late_pure (a : α) : FailsLate (pure a : Renaming σ α) := fun _ _ _ ran => nomatch ran

theorem fails_late_known {post : α → Prop} {answer : Except Fault α} (late : LateOr post answer) :
    FailsLate (answer : Renaming σ α) := by
  intro p e q ran
  cases answer with
  | ok a => cases ran
  | error cause =>
      cases ran
      exact late

theorem fails_late_bind {x : Renaming σ α} {f : α → Renaming σ β} (first : FailsLate x)
    (second : ∀ a, FailsLate (f a)) : FailsLate (x >>= f) := by
  intro p e q ran
  rcases bind_error_inv ran with failed | ⟨a, middle, _, rest⟩
  · exact first p e q failed
  · exact second a middle e q rest

theorem fails_late_after {post : α → Prop} {answer : Except Fault α} {f : α → Renaming σ β} (late : LateOr post answer)
    (rest : ∀ a, post a → FailsLate (f a)) : FailsLate ((liftM answer : Renaming σ α) >>= f) := by
  cases answer with
  | ok a => exact rest a late
  | error cause =>
      intro p e q ran
      cases ran
      exact late

theorem fails_late_warn (warning : Warning) : FailsLate (warn warning : Renaming σ Unit) :=
  fun _ _ _ ran => nomatch ran

theorem fails_late_ask (act : EStateM Fault σ α) (late : ∀ s e t, act s = .error e t → e.Late) :
    FailsLate (ask act) := by
  intro p e q ran
  cases asked : act p.oracle with
  | ok a t =>
      rw [ask, asked] at ran
      cases ran
  | error cause t =>
      rw [ask, asked] at ran
      cases ran
      exact late _ _ _ asked

theorem fails_late_agree (index : Nat) (held used : Name) (rename : α → Renaming σ Name) (users : List α)
    (each : ∀ user ∈ users, FailsLate (rename user)) : FailsLate (agree index held used rename users) := by
  induction users with
  | nil => exact fails_late_pure ()
  | cons user rest ih =>
      refine fails_late_bind (each user (.head _)) fun other => ?_
      split
      · exact ih fun one member => each one (.tail _ member)
      · exact fails_late_warn _

theorem fails_late_map_m (f : α → Renaming σ β) (items : List α) (each : ∀ item ∈ items, FailsLate (f item)) :
    FailsLate (items.mapM f) := by
  induction items with
  | nil => exact fails_late_pure []
  | cons item rest ih =>
      rw [List.mapM_cons]
      refine fails_late_bind (each item (.head _)) fun _ => ?_
      exact fails_late_bind (ih fun one member => each one (.tail _ member)) fun _ => fails_late_pure _

end Renaming

namespace Job

open Renaming

variable {σ : Type} {job : Job σ} {count : Nat} (closed : job.scan.Closed count)

include closed

theorem late_linked_name (held : Name) (member : LinkedMember) (linked : member.Closed count) :
    LateOr (fun _ => True) (job.linkedName held member) := by
  refine late_or_bind (closed.late_class_name linked.1) fun owner _ => ?_
  refine late_or_bind (closed.late_name linked.2) fun descriptor _ => ?_
  cases member.kind <;> exact trivial

theorem member_name_late (index : Nat) (here : Addressable count index) (held : Name) :
    FailsLate (job.memberName index held) := by
  refine fails_late_after (closed.late_linked_member here) fun current linked => ?_
  cases current with
  | none => exact fails_late_pure held
  | some current =>
      refine fails_late_after (late_linked_name closed held current (linked current rfl)) fun used _ => ?_
      refine fails_late_after (closed.late_linked_members here) fun members each => ?_
      refine fails_late_bind (fails_late_agree index held used _ _ fun member inside => ?_) fun _ => fails_late_pure used
      exact fails_late_known (late_linked_name closed held member (each member (List.mem_filter.mp inside).1))

theorem declared_name_late (held : Name) (declaration : Declaration)
    (here : Addressable count declaration.descriptor) : FailsLate (job.declaredName held declaration) := by
  refine fails_late_after (closed.late_name here) fun descriptor _ => ?_
  cases declaration.kind with
  | method => exact fails_late_ask _ fun s e t => job.oracle.rename_method_late _ _ _ held descriptor s t e
  | field | unknown => exact fails_late_pure _

theorem own_name_late (kind : MemberKind) (index : Nat) (here : Addressable count index) (held : Name) :
    FailsLate (job.ownName kind index held) := by
  refine fails_late_after (closed.late_own_descriptor here) fun descriptor described => ?_
  refine fails_late_bind (declared_name_late closed held _ described) fun used => ?_
  refine fails_late_after (closed.late_declarations here) fun declarations each => ?_
  refine fails_late_bind (fails_late_agree index held used _ _ fun one inside => ?_) fun _ => fails_late_pure used
  exact declared_name_late closed held one (each one (List.mem_filter.mp inside).1)

theorem late_simple_name (held : Name) (classIndex : Nat) (here : Addressable count classIndex) :
    LateOr (fun _ => True) (job.simpleName held classIndex) := by
  refine late_or_bind (closed.late_class_name here) fun name _ => ?_
  by_cases same : job.renamer.className name = name
  · rw [if_pos same]
    exact trivial
  · rw [if_neg same]
    exact trivial

theorem common_name_late (index : Nat) (held : Name) (chosen : Option Name) (inner : List Nat)
    (each : ∀ classIndex ∈ inner, Addressable count classIndex) : FailsLate (job.commonName index held chosen inner) := by
  induction inner generalizing chosen with
  | nil => exact fails_late_pure _
  | cons classIndex rest ih =>
      have others := fun chosen => ih chosen fun one member => each one (.tail _ member)
      refine fails_late_after (late_simple_name closed held classIndex (each classIndex (.head _))) fun name _ => ?_
      cases chosen with
      | none => exact others (some name)
      | some one =>
          dsimp only
          split
          · exact others (some one)
          · exact fails_late_bind (fails_late_warn _) fun _ => fails_late_pure held

theorem new_text_late (index : Nat) (here : Addressable count index) (held : Name) :
    FailsLate (job.newText index held) := by
  refine fails_late_after (closed.late_role here) fun role _ => ?_
  cases role with
  | plain | className | descriptor | moduleName | packageName | sourceFile => exact fails_late_pure _
  | signature => exact fails_late_known (late_signature job.renamer held)
  | memberName => exact member_name_late closed index here held
  | ownField => exact own_name_late closed .field index here held
  | ownMethod => exact own_name_late closed .method index here held
  | innerName =>
      refine fails_late_after (closed.late_inner_classes here) fun inner each => ?_
      exact common_name_late closed index held none inner each

theorem new_constant_late (entry : Entry) (here : Addressable count entry.index) :
    FailsLate (job.newConstant entry) := by
  cases found : entry.constant with
  | text name =>
      simp only [newConstant, found]
      refine fails_late_after (closed.late_name here) fun held _ => ?_
      refine fails_late_bind (new_text_late closed entry.index here held) fun renamed => ?_
      exact fails_late_after (late_encode renamed) fun _ _ => fails_late_pure _
  | _ =>
      simp only [newConstant, found]
      exact fails_late_pure _

end Job

theorem prepare_late {σ : Type} (renamer : Renamer) (oracle : Oracle σ) (settings : Settings) (data : Bytes) (scan : Scan)
    (scanned : Scanned settings.attributes data scan) :
    LateOr (fun job => job.scan = scan) (Job.prepare renamer oracle settings data) := by
  obtain ⟨own, parent, interfaces⟩ := scanned.classes_addressable
  have closed := scanned.scan_closed
  have super_late : LateOr (fun _ => True) scan.superName := by
    by_cases none : scan.outline.superClass = 0
    · rw [Scan.superName, if_pos none]
      exact trivial
    · rw [Scan.superName, if_neg none]
      exact closed.late_class_name (parent none)
  have accepted : LateOr (· = scan) (Scan.ofBytes settings.attributes data) := by
    rw [scanned.accepted]
    exact rfl
  refine late_or_bind accepted fun found same => ?_
  subst same
  refine late_or_bind (closed.late_class_name own) fun name _ => late_or_bind super_late fun superName _ => ?_
  refine late_or_bind (late_or_map_m found.className _ fun index member => ?_) fun _ _ => rfl
  exact closed.late_class_name (interfaces index member)

theorem rename_scanned_late {σ : Type} (renamer : Renamer) (oracle : Oracle σ) (settings : Settings) (data : Bytes)
    (scan : Scan) (scanned : Scanned settings.attributes data scan) :
    Renaming.FailsLate (renameClass renamer oracle settings data) := by
  rw [rename_class_prepared]
  refine Renaming.fails_late_after (prepare_late renamer oracle settings data scan scanned) fun job same => ?_
  subst same
  rw [job.emit_scanned scanned]
  refine Renaming.fails_late_bind ?_ fun _ => Renaming.fails_late_pure _
  refine Renaming.fails_late_bind (Renaming.fails_late_map_m _ _ fun entry member => ?_) fun _ =>
    Renaming.fails_late_pure _
  exact Job.new_constant_late scanned.scan_closed entry (scanned.pooled.entry_indices entry member)

/-- Once a file has been scanned, renaming it succeeds or fails for a late cause, every entry is
recorded where it stands, and the pool ends inside the file. An offset fits its 32 bits in any file,
also one that cannot be scanned. -/
theorem scanned_faults_late {σ : Type} (renamer : Renamer) (oracle : Oracle σ) (settings : Settings) (data : Bytes)
    (scan : Scan) (ran : Scan.ofBytes settings.attributes data = .ok scan) :
    (∀ p, (∃ renamed q, renameClass renamer oracle settings data p = .ok renamed q) ∨
        ∃ e q, renameClass renamer oracle settings data p = .error e q ∧ e.Late) ∧
      (∀ file, ∀ entry ∈ (Walk.ofBytes file).entries, entry.offset.toUInt32.toNat = entry.offset) ∧
      (∀ entry ∈ (Walk.ofBytes data).entries, scan.catalog.offset entry.index = .ok entry.offset) ∧
      scan.layout.stop ≤ data.length := by
  obtain ⟨scanned⟩ := scan_inv settings.attributes data scan ran
  refine ⟨fun p => ?_, fun file entry member => ?_, fun entry member => ?_, ?_⟩
  · cases ended : renameClass renamer oracle settings data p with
    | ok renamed q => exact .inl ⟨renamed, q, rfl⟩
    | error e q => exact .inr ⟨e, q, rfl, rename_scanned_late renamer oracle settings data scan scanned p e q ended⟩
  · exact UInt32.toNat_ofNat_of_lt' (walk_offset_bound file entry member)
  · rw [scanned.pooled.walk] at member
    exact (scanned.recorded entry member).2
  · rw [scanned.layout]
    exact scanned.pooled.stop_inside

theorem scanned_faults_late_sample :
    ∃ scan, Scan.ofBytes .interpret sampleClass = .ok scan ∧
      (∀ p, (∃ renamed q, renameClass sampleRules.renamer (Oracle.empty : Oracle Unit) {} sampleClass p = .ok renamed q) ∨
        ∃ e q, renameClass sampleRules.renamer (Oracle.empty : Oracle Unit) {} sampleClass p = .error e q ∧ e.Late) ∧
      (∀ file, ∀ entry ∈ (Walk.ofBytes file).entries, entry.offset.toUInt32.toNat = entry.offset) ∧
      (∀ entry ∈ (Walk.ofBytes sampleClass).entries, scan.catalog.offset entry.index = .ok entry.offset) ∧
      scan.layout.stop ≤ sampleClass.length :=
  ⟨_, rfl, scanned_faults_late sampleRules.renamer Oracle.empty {} sampleClass _ rfl⟩

end Relabel
