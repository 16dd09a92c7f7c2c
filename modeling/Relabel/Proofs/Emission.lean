import Mathlib.Data.List.Forall2
import Relabel.Proofs.Scanning
import Relabel.Rename.RenamedClass
import Relabel.Rename.RuleSet

set_option autoImplicit false

namespace Relabel

open Cursor (ahead)
open Read (Takes)
open Walk

theorem Read.takes_known {α : Type} {answer : Except Fault α} {a : α} (known : answer = .ok a) (pos : Nat) :
    Takes (answer : Read α) pos [] a := by
  subst known
  exact ⟨fun _ => rfl, (Read.takes_pure pos a).starves⟩

theorem text_of_tag (constant : Constant) (tagged : constant.tag = .text) : ∃ held, constant = .text held := by
  cases constant with
  | text held => exact ⟨held, rfl⟩
  | _ => cases tagged

theorem tag_of_no_width (tag : Tag) (open_ended : tag.width? = none) : tag = .text := by
  cases tag with
  | text => rfl
  | _ => cases open_ended

theorem takes_content (pos : Nat) (constant : Constant) (storable : constant.Storable) :
    ∃ content, Takes (match constant.tag.width? with
        | some width => do return (constant.tag, ← Read.bytes width)
        | none => do
          let length ← Read.index
          return (constant.tag, ← Read.bytes length)) pos constant.body (constant.tag, content) ∧
      (constant.tag ≠ .text → content = constant.body) := by
  cases fixed : constant.tag.width? with
  | some width =>
      refine ⟨constant.body, ?_, fun _ => rfl⟩
      rw [← Constant.width_body constant width fixed]
      exact Read.takes_map (Read.takes_bytes pos constant.body) (constant.tag, ·)
  | none =>
      obtain ⟨held, rfl⟩ := text_of_tag constant (tag_of_no_width _ fixed)
      refine ⟨held.bytes, ?_, fun other => absurd rfl other⟩
      have counts := Read.takes_map (Read.takes_u16 pos held.length.toUInt16) UInt16.toNat
      rw [Constant.text_length_back held storable] at counts
      exact Read.takes_bind counts (Read.takes_map (Read.takes_bytes _ held.bytes) (Tag.text, ·))

theorem takes_reread (scan : Scan) (index pos : Nat) (constant : Constant) (storable : constant.Storable)
    (tagged : scan.catalog.tag index = .ok constant.tag) (located : scan.catalog.offset index = .ok pos) :
    ∃ content, Takes (scan.reread index) pos constant.encoded (constant.tag, content) ∧
      (constant.tag ≠ .text → content = constant.body) := by
  obtain ⟨content, rest, fixed⟩ := takes_content (pos + [constant.tag.code].length) constant storable
  refine ⟨content, ?_, fixed⟩
  -- The recorded tag and offset are those found, so both checks pass.
  apply Read.takes_after (Read.takes_known tagged pos)
  apply Read.takes_after (Read.takes_known located pos)
  apply Read.takes_after (Read.takes_position pos)
  rw [if_neg (fun apart => apart rfl)]
  refine Read.takes_bind (Read.takes_u8 pos constant.tag.code) ?_
  rw [if_neg (fun apart => apart rfl)]
  exact rest

namespace Job

variable {σ : Type} (job : Job σ)

def newConstant (entry : Entry) : Renaming σ Constant :=
  match entry.constant with
  | .text _ => do
    let held ← job.scan.names.get entry.index
    let renamed ← job.newText entry.index held
    let _ ← (Constant.text renamed).encode
    return .text renamed
  | constant => return constant

structure Replaces (entry : Entry) (constant : Constant) : Prop where
  tag : constant.tag = entry.constant.tag
  storable : constant.Storable
  kept : entry.constant.tag ≠ .text → constant = entry.constant

theorem new_constant_replaces (entry : Entry) (constant : Constant) (p q : Progress σ)
    (ran : job.newConstant entry p = .ok constant q) : Replaces entry constant := by
  cases found : entry.constant with
  | text old =>
      simp only [newConstant, found] at ran
      obtain ⟨held, _, _, ran⟩ := bind_ok_inv ran
      obtain ⟨renamed, _, _, ran⟩ := bind_ok_inv ran
      obtain ⟨bytes, _, written, ran⟩ := bind_ok_inv ran
      cases ran
      cases stored : (Constant.text renamed).encode with
      | error e =>
          rw [stored] at written
          cases written
      | ok form =>
          have storable := (Constant.encode_inv _ _ stored).1
          exact ⟨by rw [found]; rfl, storable, fun other => absurd (by rw [found]; rfl) other⟩
  | _ =>
      simp only [newConstant, found] at ran
      cases ran
      exact ⟨by rw [found], trivial, fun _ => found.symm⟩

theorem new_entry_constant (entry : Entry) (content : Bytes)
    (fixed : entry.constant.tag ≠ .text → content = entry.constant.body) :
    job.newEntry entry.index entry.constant.tag content = (do return (← job.newConstant entry).encoded) := by
  cases found : entry.constant with
  | text old =>
      simp only [newConstant, found, bind_assoc, pure_bind]
      refine bind_congr fun held => bind_congr fun renamed => ?_
      cases stored : (Constant.text renamed).encode with
      | error e => rfl
      | ok form =>
          rw [(Constant.encode_inv _ _ stored).2]
          rfl
  | _ =>
      rw [fixed (by rw [found]; exact fun same => nomatch same)]
      simp only [newConstant, found, pure_bind]
      rfl

theorem slots_new (left : Nat) (dead : Bool) (constants : List Constant) (fill : Fill left dead constants)
    (done : List Bytes) (index pos : Nat) (tail : Bytes) (p : Progress σ)
    (known : ∀ entry ∈ placed (live index dead) pos constants,
      job.scan.catalog.tag entry.index = .ok entry.constant.tag ∧
        job.scan.catalog.offset entry.index = .ok entry.offset) :
    job.slots done left index dead (ahead pos (encodedAll constants ++ tail)) p =
      (do
        let news ← (placed (live index dead) pos constants).mapM job.newConstant
        return (done.reverse ++ news.map Constant.encoded, ahead (pos + (encodedAll constants).length) tail) :
          Renaming σ (List Bytes × Cursor)) p := by
  -- The induction is on how the constants fill the slots. A dead slot is passed without reading.
  induction fill generalizing done index pos p with
  | done dead =>
      simp only [slots, placed, List.mapM_nil, pure_bind, List.map_nil, List.append_nil]
      rfl
  | skip left constants fill ih =>
      rw [slots]
      exact ih done (index + 1) pos p known
  | take left constant constants storable fill ih =>
      have here := known ⟨index, pos, constant⟩ (.head _)
      obtain ⟨content, takes, fixed⟩ := takes_reread job.scan index pos constant storable here.1 here.2
      have step := job.new_entry_constant ⟨index, pos, constant⟩ content fixed
      dsimp only at step
      rw [slots, encoded_all_cons, List.append_assoc, takes.passes]
      dsimp only
      rw [step]
      simp only [placed, live, List.mapM_cons, bind_assoc, pure_bind]
      cases ran : job.newConstant ⟨index, pos, constant⟩ p with
      | error e stop => simp only [bind, EStateM.bind, ran]
      | ok renewed next =>
          rw [bind_ok ran, bind_ok ran]
          have rest := ih (renewed.encoded :: done) (index + 1) (pos + constant.encoded.length) next ?_
          · rw [live_after] at rest
            dsimp only [pure, EStateM.pure]
            rw [rest]
            simp only [List.reverse_cons, List.append_assoc, List.singleton_append, List.map_cons, List.length_append,
              Nat.add_assoc]
            rfl
          · rw [live_after]
            exact fun entry member => known entry (.tail _ member)

theorem emit_scanned {mode : AttributeMode} {data : Bytes} (scanned : Scanned mode data job.scan) :
    job.emit data = (do
      let news ← scanned.pooled.entries.mapM job.newConstant
      return scanned.pooled.head ++ (encodedAll news ++ scanned.pooled.body)) := by
  have enough : ¬ data.length < ClassFile.poolStart := by
    have inside := scanned.pooled.stop_inside
    rw [Pooled.stop] at inside
    omega
  have ran : job.slots [] (scanned.pooled.count - 1) 1 false (.startAt data ClassFile.poolStart) = (do
      let news ← scanned.pooled.entries.mapM job.newConstant
      return (news.map Constant.encoded, ahead scanned.pooled.stop scanned.pooled.body)) := by
    funext p
    rw [scanned.pooled.start_cursor]
    exact job.slots_new _ _ _ scanned.pooled.filled [] 1 ClassFile.poolStart scanned.pooled.body p scanned.recorded
  rw [emit, if_neg enough]
  dsimp only
  rw [scanned.layout, ran, bind_assoc]
  refine bind_congr fun news => ?_
  rw [pure_bind, if_neg (fun apart => apart rfl), scanned.pooled.take_start, scanned.pooled.drop_stop, List.append_assoc]
  rfl

end Job

theorem lift_bind {σ α β : Type} (x : Except Fault α) (f : α → Except Fault β) :
    (liftM (x >>= f) : Renaming σ β) = (do
      let a ← (liftM x : Renaming σ α)
      liftM (f a)) := by
  cases x <;> rfl

theorem lift_pure {σ α : Type} (a : α) : (liftM (pure a : Except Fault α) : Renaming σ α) = pure a := rfl

theorem lift_ok_bind {σ α β : Type} (a : α) (f : α → Renaming σ β) :
    ((liftM (.ok a : Except Fault α) : Renaming σ α) >>= f) = f a := rfl

def Job.prepare {σ : Type} (renamer : Renamer) (oracle : Oracle σ) (settings : Settings) (data : Bytes) :
    Except Fault (Job σ) := do
  let scan ← Scan.ofBytes settings.attributes data
  let name ← scan.thisName
  let superName ← scan.superName
  let interfaces ← scan.interfaceNames
  return { scan, renamer, oracle, settings, lineage := ⟨name, superName, interfaces⟩, newName := renamer.className name }

theorem prepare_inv {σ : Type} {renamer : Renamer} {oracle : Oracle σ} {settings : Settings} {data : Bytes} {job : Job σ}
    (ran : Job.prepare renamer oracle settings data = .ok job) :
    ∃ scan name superName interfaces, Scan.ofBytes settings.attributes data = .ok scan ∧ scan.thisName = .ok name ∧
      job = ⟨scan, renamer, oracle, settings, ⟨name, superName, interfaces⟩, renamer.className name⟩ := by
  obtain ⟨scan, scanned, ran⟩ := except_bind_inv ran
  obtain ⟨name, named, ran⟩ := except_bind_inv ran
  obtain ⟨superName, _, ran⟩ := except_bind_inv ran
  obtain ⟨interfaces, _, ran⟩ := except_bind_inv ran
  cases ran
  exact ⟨scan, name, superName, interfaces, scanned, named, rfl⟩

theorem prepare_named {σ : Type} {renamer : Renamer} {oracle : Oracle σ} {settings : Settings} {data : Bytes} {job : Job σ}
    (ran : Job.prepare renamer oracle settings data = .ok job) :
    job.scan.thisName = .ok job.lineage.name ∧ job.scan.superName = .ok job.lineage.superName ∧
      job.scan.interfaceNames = .ok job.lineage.interfaces := by
  obtain ⟨scan, _, ran⟩ := except_bind_inv ran
  obtain ⟨name, named, ran⟩ := except_bind_inv ran
  obtain ⟨superName, superNamed, ran⟩ := except_bind_inv ran
  obtain ⟨interfaces, interfacesNamed, ran⟩ := except_bind_inv ran
  cases ran
  exact ⟨named, superNamed, interfacesNamed⟩

theorem rename_class_prepared {σ : Type} (renamer : Renamer) (oracle : Oracle σ) (settings : Settings) (data : Bytes) :
    renameClass renamer oracle settings data = (do
      let job ← Job.prepare renamer oracle settings data
      return ⟨job.lineage.name, job.newName, ← job.emit data⟩) := by
  simp only [renameClass, Job.prepare, lift_bind, lift_pure, bind_assoc, pure_bind]

theorem lift_ok_inv {σ α : Type} {answer : Except Fault α} {a : α} {p q : Progress σ}
    (ran : (liftM answer : Renaming σ α) p = .ok a q) : answer = .ok a ∧ q = p := by
  cases answer with
  | error e => cases ran
  | ok b =>
      cases ran
      exact ⟨rfl, rfl⟩

theorem rename_class_job {σ : Type} {renamer : Renamer} {oracle : Oracle σ} {settings : Settings} {data : Bytes}
    {p q : Progress σ} {renamed : RenamedClass} (ran : renameClass renamer oracle settings data p = .ok renamed q) :
    ∃ job, Job.prepare renamer oracle settings data = .ok job := by
  rw [rename_class_prepared] at ran
  obtain ⟨job, start, asked, _⟩ := bind_ok_inv ran
  exact ⟨job, (lift_ok_inv asked).1⟩

theorem rename_class_scanned {σ : Type} {renamer : Renamer} {oracle : Oracle σ} {settings : Settings} {data : Bytes}
    {scan : Scan} {job : Job σ} (scanned : Scanned settings.attributes data scan)
    (prepared : Job.prepare renamer oracle settings data = .ok job) :
    renameClass renamer oracle settings data = (do
      let news ← scanned.pooled.entries.mapM job.newConstant
      return ⟨job.lineage.name, job.newName, scanned.pooled.head ++ (encodedAll news ++ scanned.pooled.body)⟩) := by
  obtain ⟨found, _, _, _, accepted, _, rfl⟩ := prepare_inv prepared
  rw [scanned.accepted] at accepted
  cases accepted
  rw [rename_class_prepared, prepared, lift_ok_bind, Job.emit_scanned _ scanned, bind_assoc]
  simp only [pure_bind]

theorem rename_class_inv {σ : Type} {renamer : Renamer} {oracle : Oracle σ} {settings : Settings} {data : Bytes}
    {p q : Progress σ} {renamed : RenamedClass} (ran : renameClass renamer oracle settings data p = .ok renamed q) :
    ∃ job, Job.prepare renamer oracle settings data = .ok job ∧
      renamed.oldName = job.lineage.name ∧ renamed.name = job.newName ∧
      ∃ (scanned : Scanned settings.attributes data job.scan) (news : List Constant),
        scanned.pooled.entries.mapM job.newConstant p = .ok news q ∧
        renamed.bytes = scanned.pooled.head ++ (encodedAll news ++ scanned.pooled.body) := by
  obtain ⟨job, prepared⟩ := rename_class_job ran
  obtain ⟨scan, _, _, _, accepted, _, rfl⟩ := prepare_inv prepared
  obtain ⟨scanned⟩ := scan_inv settings.attributes data scan accepted
  rw [rename_class_scanned scanned prepared] at ran
  obtain ⟨news, renewed, rfl⟩ := map_ok_inv ran
  exact ⟨_, prepared, rfl, rfl, scanned, news, renewed, rfl⟩

def sampleClass : Bytes :=
  [0xCA, 0xFE, 0xBA, 0xBE, 0, 0, 0, 52, 0, 7, 1, 0, 1, 65, 7, 0, 1, 5, 0, 0, 0, 0, 0, 0, 0, 5, 1, 0, 1, 102,
    1, 0, 3, 76, 65, 59, 0, 33, 0, 2, 0, 0, 0, 0, 0, 1, 0, 0, 0, 5, 0, 6, 0, 0, 0, 0, 0, 0]

def sampleRules : RuleSet :=
  ({} : RuleSet).putClass (.ofString "A") (.ofString "BB") |>.putField
    ⟨.ofString "A", .ofString "f", some (.ofString "LA;")⟩ (.ofString "g")

end Relabel
