import Relabel.Proofs.BlindSurvey
import Relabel.Proofs.IndexStability
import Relabel.Proofs.ModeRefinement

set_option autoImplicit false

namespace Relabel

open Cursor (ahead)
open Walk

namespace Pooled

variable {data : Bytes} (pooled : Pooled data)

def front : Bytes := pooled.head ++ encodedAll pooled.constants

theorem front_length : pooled.front.length = pooled.stop := by
  rw [front, List.length_append, pooled.head_length, stop]

theorem front_body : data = pooled.front ++ pooled.body := by
  rw [front, List.append_assoc]
  exact pooled.split

theorem unique (one two : Pooled data) : one = two := by
  have counts : one.count = two.count := Except.ok.inj (one.pool_count.symm.trans two.pool_count)
  have heads : one.head = two.head := one.take_start.symm.trans two.take_start
  have constants : one.constants = two.constants := by
    have entries : one.entries = two.entries := congrArg Walk.entries (one.walk.symm.trans two.walk)
    have held := congrArg (List.map Entry.constant) entries
    rwa [Pooled.entries, Pooled.entries, placed_constants, placed_constants] at held
  have bodies : one.body = two.body := by
    rw [← one.drop_stop, ← two.drop_stop, stop, stop, constants]
  cases one
  cases two
  cases counts
  cases heads
  cases constants
  cases bodies
  rfl

def withBody (body : Bytes) : Pooled (pooled.front ++ body) :=
  { pooled with
    body := body
    split := by rw [front, List.append_assoc] }

theorem cut_bodies :
    (ClassFile.bodies data).map (Span.cut data) = (Bodies.ofClass pooled.body 0).spans.map (Span.cut pooled.body) := by
  rw [pooled.bodies, List.map_map, ← pooled.front_length]
  apply List.map_congr_left
  intro span _
  have same := cut_moved span pooled.front pooled.body
  rwa [← pooled.front_body] at same

end Pooled

theorem Cursor.behind_ahead (front bytes : Bytes) : behind front bytes 0 = ahead front.length bytes := by
  have inside : front.length ≤ (front ++ bytes).length := by
    rw [List.length_append]
    omega
  change startAt (front ++ bytes) front.length = _
  rw [start_at_ahead _ _ inside, List.drop_left]

section

variable {data : Bytes} (pooled : Pooled data) {body : Bytes} (size : pooled.body.length = body.length)
  (alike : AlikeOutside (Bodies.ofClass pooled.body 0).spans pooled.body body)

include size alike

theorem trace_unseen : Trace.ofBytes .pass (pooled.front ++ body) = Trace.ofBytes .pass data := by
  let renewed := pooled.withBody body
  have blind : Survey.Blind pooled.front pooled.body body
      (Survey.outline .pass (.ofEntries pooled.count pooled.entries)) Bodies.ofClass := Survey.blind_outline size _
  have ended := blind.steps 0 #[] fun i _ _ => alike i
  rw [Cursor.behind_ahead, Cursor.behind_ahead, pooled.front_length] at ended
  rw [pooled_trace .pass data pooled, pooled_trace .pass _ renewed]
  generalize right : Survey.outline .pass (.ofEntries renewed.count renewed.entries) ⟨ahead renewed.stop renewed.body, #[]⟩ =
    other
  change Survey.outline .pass (.ofEntries pooled.count pooled.entries) ⟨ahead pooled.stop body, #[]⟩ = other at right
  rw [right] at ended
  generalize Survey.outline .pass (.ofEntries pooled.count pooled.entries) ⟨ahead pooled.stop pooled.body, #[]⟩ = one
    at ended ⊢
  cases ended with
  | ok outline facts => rfl
  | error e c d facts => rfl

theorem scan_unseen : Scan.ofBytes .pass (pooled.front ++ body) = Scan.ofBytes .pass data := by
  rw [Scan.ofBytes, Scan.ofBytes, trace_unseen pooled size alike, (pooled.withBody body).pool_count, pooled.pool_count,
    (pooled.withBody body).walk, pooled.walk]
  rfl

end

theorem rename_class_pooled {σ : Type} {renamer : Renamer} {oracle : Oracle σ} {settings : Settings} {data : Bytes}
    {job : Job σ} (pooled : Pooled data) (prepared : Job.prepare renamer oracle settings data = .ok job) :
    renameClass renamer oracle settings data = (do
      let news ← pooled.entries.mapM job.newConstant
      return ⟨job.lineage.name, job.newName, pooled.head ++ (encodedAll news ++ pooled.body)⟩) := by
  obtain ⟨scan, _, _, _, accepted, _⟩ := prepare_inv prepared
  obtain ⟨scanned⟩ := scan_inv settings.attributes data scan accepted
  rw [rename_class_scanned scanned prepared, pooled.unique scanned.pooled]

structure BodiesCarried (data other one two : Bytes) : Prop where
  length : one.length = two.length
  moved : ∃ (spans : List Span) (old new : Nat), ClassFile.bodies data = spans.map (Span.moved old) ∧
    ClassFile.bodies other = spans.map (Span.moved old) ∧ ClassFile.bodies one = spans.map (Span.moved new) ∧
    ClassFile.bodies two = spans.map (Span.moved new)
  outside : AlikeOutside (ClassFile.bodies one) one two
  inside : (ClassFile.bodies one).map (Span.cut one) = (ClassFile.bodies data).map (Span.cut data)
  other_inside : (ClassFile.bodies two).map (Span.cut two) = (ClassFile.bodies other).map (Span.cut other)

theorem bodies_carried {data one : Bytes} (pooled : Pooled data) (renewed : Pooled one) (kept : renewed.body = pooled.body)
    (body : Bytes) (size : pooled.body.length = body.length)
    (alike : AlikeOutside (Bodies.ofClass pooled.body 0).spans pooled.body body) :
    BodiesCarried data (pooled.front ++ body) one (renewed.front ++ body) where
  length := by
    have total := congrArg List.length renewed.front_body
    rw [total, List.length_append, List.length_append, kept, size]
  moved := by
    have blind : Survey.Blind pooled.front pooled.body body (Survey.outline .pass (.empty 0)) Bodies.ofClass :=
      Survey.blind_outline size _
    have found := blind.same 0 fun i _ _ => alike i
    refine ⟨(Bodies.ofClass pooled.body 0).spans, pooled.stop, renewed.stop, pooled.bodies, ?_, ?_, ?_⟩
    · rw [← found]
      exact (pooled.withBody body).bodies
    · rw [← kept]
      exact renewed.bodies
    · rw [← found]
      exact (renewed.withBody body).bodies
  outside := by
    have carried := (alike_behind renewed.front pooled.body body (Bodies.ofClass pooled.body 0).spans).mpr alike
    rwa [← kept, ← renewed.front_body, renewed.front_length, ← renewed.bodies] at carried
  inside := by rw [renewed.cut_bodies, pooled.cut_bodies, kept]
  other_inside := by
    rw [(renewed.withBody body).cut_bodies, (pooled.withBody body).cut_bodies]
    rfl

section

variable {σ : Type} (renamer : Renamer) (oracle : Oracle σ) (settings : Settings)

def RenamedAlike (data other : Bytes) (p : Progress σ) : Prop :=
  (∃ fault q, renameClass renamer oracle settings data p = .error fault q ∧
    renameClass renamer oracle settings other p = .error fault q) ∨
  ∃ one two q, renameClass renamer oracle settings data p = .ok one q ∧
    renameClass renamer oracle settings other p = .ok two q ∧ one.oldName = two.oldName ∧ one.name = two.name ∧
    BodiesCarried data other one.bytes two.bytes

theorem renamed_alike (passed : settings.attributes = .pass) {data : Bytes} (pooled : Pooled data) (body : Bytes)
    (size : pooled.body.length = body.length)
    (alike : AlikeOutside (Bodies.ofClass pooled.body 0).spans pooled.body body) (p : Progress σ) :
    RenamedAlike renamer oracle settings data (pooled.front ++ body) p := by
  have scanned : Scan.ofBytes settings.attributes data = Scan.ofBytes settings.attributes (pooled.front ++ body) := by
    rw [passed, scan_unseen pooled size alike]
  have prepares := prepare_same renamer oracle settings data (pooled.front ++ body) scanned
  cases prepared : Job.prepare renamer oracle settings data with
  | error fault =>
      rw [prepared] at prepares
      left
      refine ⟨fault, p, ?_, ?_⟩
      · rw [rename_class_prepared, prepared]
        rfl
      · rw [rename_class_prepared, ← prepares]
        rfl
  | ok job =>
      rw [prepared] at prepares
      -- the new constants come from the job and the old ones alone
      have ran := congrFun (rename_class_pooled pooled prepared) p
      have ranOther : renameClass renamer oracle settings (pooled.front ++ body) p = (do
          let news ← pooled.entries.mapM job.newConstant
          return ⟨job.lineage.name, job.newName, pooled.head ++ (encodedAll news ++ body)⟩ : Renaming σ RenamedClass) p :=
        congrFun (rename_class_pooled (pooled.withBody body) prepares.symm) p
      cases renewed : pooled.entries.mapM job.newConstant p with
      | error fault q =>
          rw [bind_error renewed] at ran ranOther
          exact .inl ⟨fault, q, ran, ranOther⟩
      | ok news q =>
          rw [bind_ok renewed] at ran ranOther
          have replaced := new_constants_replace job _ news p q renewed
          have tags := replaced_tags _ _ replaced
          rw [Pooled.entries, placed_constants] at tags
          let out := pooled.replace news tags (replaced_storable _ _ replaced)
          have carried := bodies_carried pooled out rfl body size alike
          have bytes : out.front ++ body = pooled.head ++ (encodedAll news ++ body) := List.append_assoc _ _ _
          rw [bytes] at carried
          exact .inr ⟨_, _, q, ran, ranOther, rfl, rfl, carried⟩

end

/-- A run that passes over attributes cannot tell files apart that differ in attribute bodies only,
not even in one that is cut off. -/
theorem passed_bodies_unseen {σ : Type} (renamer : Renamer) (oracle : Oracle σ) (settings : Settings)
    (passed : settings.attributes = .pass) (data other : Bytes) (size : data.length = other.length)
    (alike : AlikeOutside (ClassFile.bodies data) data other) (p : Progress σ) :
    RenamedAlike renamer oracle settings data other p := by
  cases walked : (Walk.ofBytes data).outcome with
  | error fault =>
      -- without spans to look into, the files are the same
      have none : ClassFile.bodies data = [] := by rw [ClassFile.bodies, walked]
      rw [none] at alike
      obtain rfl : data = other := List.ext_getElem? fun i => alike i fun _ member => absurd member List.not_mem_nil
      cases ran : renameClass renamer oracle settings data p with
      | error fault q => exact .inl ⟨fault, q, ran, ran⟩
      | ok renamed q =>
          obtain ⟨_, _, _, _, scanned, _⟩ := rename_class_inv ran
          rw [scanned.pooled.walk] at walked
          cases walked
  | ok layout =>
      obtain ⟨pooled, _⟩ := walk_pooled data layout walked
      have behind : AlikeOutside ((Bodies.ofClass pooled.body 0).spans.map (Span.moved pooled.front.length))
          (pooled.front ++ pooled.body) other := by
        rwa [← pooled.front_body, pooled.front_length, ← pooled.bodies]
      have total : data.length = _ := congrArg List.length pooled.front_body
      obtain ⟨body, rfl⟩ := front_of_alike behind
      rw [total, List.length_append, List.length_append] at size
      exact renamed_alike renamer oracle settings passed pooled body (Nat.add_left_cancel size)
        ((alike_behind _ _ _ _).mp behind) p

def garbledClass : Bytes := (signedClass.set 63 0xFF).set 64 0xFF

theorem garbled_alike : AlikeOutside (ClassFile.bodies signedClass) signedClass garbledClass := by
  have spans : ClassFile.bodies signedClass = [⟨63, 2⟩] := by decide +kernel
  intro i free
  have apart := free ⟨63, 2⟩ (by rw [spans]; exact .head _)
  simp only [Span.Covers] at apart
  rw [garbledClass, List.getElem?_set_ne (by omega), List.getElem?_set_ne (by omega)]

theorem passed_bodies_unseen_garbled :
    AlikeOutside (ClassFile.bodies signedClass) signedClass garbledClass ∧ signedClass ≠ garbledClass ∧
      (∃ fault, Scan.ofBytes .interpret garbledClass = .error fault) ∧
      RenamedAlike sampleRules.renamer Oracle.empty { attributes := .pass } signedClass garbledClass ⟨(), #[]⟩ ∧
      ∃ renamed, renameClass sampleRules.renamer Oracle.empty { attributes := .pass } garbledClass ⟨(), #[]⟩ =
        .ok renamed ⟨(), #[]⟩ :=
  ⟨garbled_alike, by decide, ⟨_, rfl⟩,
    passed_bodies_unseen sampleRules.renamer Oracle.empty _ rfl signedClass garbledClass rfl garbled_alike _, ⟨_, rfl⟩⟩

end Relabel
