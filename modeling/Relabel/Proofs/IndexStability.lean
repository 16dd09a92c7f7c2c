import Relabel.Proofs.Emission

set_option autoImplicit false

namespace Relabel

open Walk

theorem new_constants_replace {σ : Type} (job : Job σ) (entries : List Entry) (news : List Constant) (p q : Progress σ)
    (ran : entries.mapM job.newConstant p = .ok news q) : List.Forall₂ Job.Replaces entries news := by
  induction entries generalizing news p with
  | nil =>
      cases ran
      exact .nil
  | cons entry rest ih =>
      rw [List.mapM_cons] at ran
      obtain ⟨constant, middle, first, ran⟩ := bind_ok_inv ran
      obtain ⟨others, second, rfl⟩ := map_ok_inv ran
      exact .cons (job.new_constant_replaces entry constant p middle first) (ih others middle second)

theorem replaced_tags (entries : List Entry) (news : List Constant) (replaced : List.Forall₂ Job.Replaces entries news) :
    news.map Constant.tag = (entries.map Entry.constant).map Constant.tag := by
  induction replaced with
  | nil => rfl
  | cons one rest ih => simp only [List.map_cons, one.tag, ih]

theorem replaced_storable (entries : List Entry) (news : List Constant)
    (replaced : List.Forall₂ Job.Replaces entries news) : ∀ constant ∈ news, constant.Storable := by
  induction replaced with
  | nil => exact fun _ member => nomatch member
  | cons one rest ih =>
      intro constant member
      cases member with
      | head => exact one.storable
      | tail _ member => exact ih constant member

structure Entry.ReplacedBy (entry other : Entry) : Prop extends Job.Replaces entry other.constant where
  index : other.index = entry.index

theorem placed_replaced (constants news : List Constant) (index pos pos' : Nat)
    (replaced : List.Forall₂ Job.Replaces (placed index pos constants) news) :
    List.Forall₂ Entry.ReplacedBy (placed index pos constants) (placed index pos' news) := by
  induction constants generalizing news index pos pos' with
  | nil =>
      cases replaced
      exact .nil
  | cons constant constants ih =>
      cases replaced with
      | cons one rest =>
          refine .cons ⟨one, rfl⟩ ?_
          rw [one.tag]
          exact ih _ _ _ _ rest

theorem Pooled.payload {data : Bytes} (pooled : Pooled data) (entry : Entry) (member : entry ∈ pooled.entries)
    (width : Nat) (fixed : entry.constant.tag.width? = some width) :
    (data.drop (entry.offset + 1)).take width = entry.constant.body := by
  obtain ⟨rest, at_entry⟩ := pooled.drop_entry entry member
  have size := Constant.width_body entry.constant width fixed
  rw [← List.drop_drop, at_entry, Constant.encoded, List.cons_append, List.drop_one, List.tail_cons, ← size, List.take_left]

structure Entry.KeptAs (data out : Bytes) (entry other : Entry) : Prop where
  constant : entry.constant.tag ≠ .text → other.constant = entry.constant
  payload : ∀ width, entry.constant.tag.width? = some width →
    (out.drop (other.offset + 1)).take width = (data.drop (entry.offset + 1)).take width

structure Job.IndexStable {σ : Type} (job : Job σ) (data out : Bytes) (p q : Progress σ) (layout : Layout) (stop : Nat) :
    Prop where
  walked : (Walk.ofBytes data).outcome = .ok layout
  rewalked : (Walk.ofBytes out).outcome = .ok ⟨layout.count, stop⟩
  sequence : (Walk.ofBytes out).entries.map (fun entry => (entry.index, entry.constant.tag)) =
    (Walk.ofBytes data).entries.map fun entry => (entry.index, entry.constant.tag)
  kept : List.Forall₂ (Entry.KeptAs data out) (Walk.ofBytes data).entries (Walk.ofBytes out).entries
  held : ∀ entry ∈ (Walk.ofBytes data).entries, ∀ name, entry.constant = .text name →
    job.scan.names.get entry.index = .ok name
  resolved : (Walk.ofBytes data).entries.mapM job.newConstant p =
    .ok ((Walk.ofBytes out).entries.map Entry.constant) q
  head : out.take 10 = data.take 10
  body : out.drop stop = data.drop layout.stop

theorem kept_entries {data out : Bytes} (pooled : Pooled data) (other : Pooled out)
    (replaced : List.Forall₂ Entry.ReplacedBy pooled.entries other.entries) :
    List.Forall₂ (Entry.KeptAs data out) pooled.entries other.entries := by
  obtain ⟨size, pairs⟩ := List.forall₂_iff_zip.mp replaced
  refine List.forall₂_iff_zip.mpr ⟨size, fun {entry new} member => ?_⟩
  obtain ⟨left, right⟩ := List.of_mem_zip member
  have one := pairs member
  refine ⟨one.kept, fun width fixed => ?_⟩
  have other_text : entry.constant.tag ≠ .text := by
    intro text
    rw [text] at fixed
    cases fixed
  rw [pooled.payload entry left width fixed, other.payload new right width (by rw [one.tag]; exact fixed),
    one.kept other_text]

theorem rename_class_index_stable {σ : Type} (renamer : Renamer) (oracle : Oracle σ) (settings : Settings)
    (data : Bytes) (p q : Progress σ) (renamed : RenamedClass)
    (ran : renameClass renamer oracle settings data p = .ok renamed q) :
    ∃ job layout stop, Job.prepare renamer oracle settings data = .ok job ∧
      job.IndexStable data renamed.bytes p q layout stop := by
  obtain ⟨job, prepared, _, _, scanned, news, renewed, bytes⟩ := rename_class_inv ran
  have replaced := new_constants_replace job _ news p q renewed
  have tags := replaced_tags _ _ replaced
  rw [Pooled.entries, placed_constants] at tags
  -- The renamed file is the same pool with constants of the same kinds in it.
  let other := scanned.pooled.replace news tags (replaced_storable _ _ replaced)
  refine ⟨job, ⟨scanned.pooled.count, scanned.pooled.stop⟩, other.stop, prepared, ?_⟩
  rw [bytes]
  have walk := scanned.pooled.walk
  have rewalk := other.walk
  constructor
  · rw [walk]
  · rw [rewalk]
    rfl
  · rw [walk, rewalk]
    exact placed_same_tags scanned.pooled.constants news 1 _ _ tags
  · rw [walk, rewalk]
    exact kept_entries scanned.pooled other (placed_replaced _ _ _ _ _ replaced)
  · rw [walk]
    exact scanned.text
  · rw [walk, rewalk, renewed]
    exact congrArg (EStateM.Result.ok · q) (placed_constants news 1 ClassFile.poolStart).symm
  · exact other.take_start.trans scanned.pooled.take_start.symm
  · exact other.drop_stop.trans scanned.pooled.drop_stop.symm

def sampleRenamed : RenamedClass :=
  ⟨.ofString "A", .ofString "BB",
    [0xCA, 0xFE, 0xBA, 0xBE, 0, 0, 0, 52, 0, 7, 1, 0, 2, 66, 66, 7, 0, 1, 5, 0, 0, 0, 0, 0, 0, 0, 5, 1, 0, 1, 103,
      1, 0, 4, 76, 66, 66, 59, 0, 33, 0, 2, 0, 0, 0, 0, 0, 1, 0, 0, 0, 5, 0, 6, 0, 0, 0, 0, 0, 0]⟩

theorem rename_class_index_stable_sample :
    renameClass sampleRules.renamer Oracle.empty {} sampleClass ⟨(), #[]⟩ = .ok sampleRenamed ⟨(), #[]⟩ ∧
      ∃ job layout stop, Job.prepare sampleRules.renamer Oracle.empty {} sampleClass = .ok job ∧
        job.IndexStable sampleClass sampleRenamed.bytes ⟨(), #[]⟩ ⟨(), #[]⟩ layout stop :=
  ⟨rfl, rename_class_index_stable sampleRules.renamer Oracle.empty {} sampleClass ⟨(), #[]⟩ ⟨(), #[]⟩ sampleRenamed rfl⟩

end Relabel
