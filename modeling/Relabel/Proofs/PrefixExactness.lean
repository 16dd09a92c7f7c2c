import Relabel.Proofs.Emission

set_option autoImplicit false

namespace Relabel

open Cursor (ahead)
open Walk

theorem learn_all_prefix (some all : List Fact) (earlier : some <+: all) (catalog final : Catalog)
    (ran : Catalog.learnAll all catalog = .ok () final) : ∃ middle, Catalog.learnAll some catalog = .ok () middle := by
  obtain ⟨rest, rfl⟩ := earlier
  rw [Catalog.learn_all_append] at ran
  obtain ⟨_, middle, ranSome, _⟩ := bind_ok_inv ran
  exact ⟨middle, ranSome⟩

theorem scan_broken (mode : AttributeMode) (part : Bytes) (count : Nat) (some all : List Fact) (fault : Fault)
    (final : Catalog) (counted : ClassFile.poolCount part = .ok count)
    (traced : Trace.ofBytes mode part = ⟨some, .error fault⟩) (earlier : some <+: all)
    (learnt : Catalog.learnAll all (.empty count) = .ok () final) : Scan.ofBytes mode part = .error fault := by
  -- What could be learnt as a whole can be learnt up to the break.
  obtain ⟨middle, known⟩ := learn_all_prefix some all earlier (.empty count) final learnt
  rw [scan_learnt mode part count middle counted (by rwa [traced]), traced]
  rfl

namespace Scanned

variable {mode : AttributeMode} {data : Bytes} {scan : Scan} (scanned : Scanned mode data scan)

def kept : Bytes := scanned.pooled.head ++ (encodedAll scanned.pooled.constants ++ scanned.taken)

theorem kept_rest : data = scanned.kept ++ scanned.rest := by
  simp only [kept, List.append_assoc]
  rw [← scanned.body]
  exact scanned.pooled.split

theorem kept_length : scanned.kept.length = scanned.pooled.stop + scanned.taken.length := by
  simp only [kept, List.length_append, scanned.pooled.head_length, Pooled.stop, Nat.add_assoc]

def withRest (rest : Bytes) : Scanned mode (scanned.kept ++ rest) scan where
  pooled :=
    { scanned.pooled with
      body := scanned.taken ++ rest
      split := by simp only [kept, List.append_assoc] }
  taken := scanned.taken
  rest := rest
  noted := scanned.noted
  body := rfl
  names := scanned.names
  layout := scanned.layout
  surveyed := scanned.surveyed
  learnt := scanned.learnt

theorem counted_past_head (inner : Bytes) :
    ClassFile.poolCount (scanned.pooled.head ++ inner) = .ok scanned.pooled.count := by
  rw [ClassFile.poolCount, Cursor.start_ahead, scanned.pooled.headed.passes inner]

theorem cut_in_head (part missing : Bytes) (cut : scanned.pooled.head = part ++ missing) (more : missing ≠ []) :
    ∃ offset needed, Scan.ofBytes mode part = .error (.truncated offset needed) := by
  obtain ⟨offset, needed, c, failed⟩ := scanned.pooled.headed.starves part missing cut more
  refine ⟨offset, needed, ?_⟩
  rw [Scan.ofBytes, ClassFile.poolCount, Cursor.start_ahead, failed]
  rfl

theorem cut_in_pool (inner missing : Bytes) (cut : encodedAll scanned.pooled.constants = inner ++ missing)
    (more : missing ≠ []) :
    ∃ offset needed, Scan.ofBytes mode (scanned.pooled.head ++ inner) = .error (.truncated offset needed) := by
  obtain ⟨shown, offset, needed, earlier, failed⟩ :=
    slots_starve _ _ _ scanned.pooled.filled [] 1 ClassFile.poolStart inner missing cut more
  have walk : Walk.ofBytes (scanned.pooled.head ++ inner) = ⟨shown, .error (.truncated offset needed)⟩ := by
    rw [Walk.ofBytes, scanned.counted_past_head inner]
    dsimp only
    rw [pool_cursor _ inner scanned.pooled.head_length, failed]
    rfl
  have traced : Trace.ofBytes mode (scanned.pooled.head ++ inner) =
      ⟨shown.flatMap Entry.facts, .error (.truncated offset needed)⟩ := by
    rw [Trace.ofBytes, walk]
  have before : shown.flatMap Entry.facts <+: scanned.pooled.facts ++ scanned.noted.toList := by
    obtain ⟨later, split⟩ := earlier
    have whole : scanned.pooled.entries = shown ++ later := split.symm
    refine ⟨later.flatMap Entry.facts ++ scanned.pooled.entries.filterMap Entry.handleFact? ++ scanned.noted.toList, ?_⟩
    simp only [Pooled.facts, whole, List.flatMap_append, List.append_assoc]
  exact ⟨offset, needed, scan_broken mode _ _ _ _ _ scan.catalog (scanned.counted_past_head inner) traced before
    scanned.learnt⟩

theorem cut_in_body (inner missing : Bytes) (cut : scanned.taken = inner ++ missing) (more : missing ≠ []) :
    ∃ offset needed,
      Scan.ofBytes mode (scanned.pooled.head ++ (encodedAll scanned.pooled.constants ++ inner)) =
        .error (.truncated offset needed) := by
  obtain ⟨offset, needed, r, failed, earlier⟩ := scanned.surveyed.starves inner missing cut more
  let pooled : Pooled (scanned.pooled.head ++ (encodedAll scanned.pooled.constants ++ inner)) :=
    { scanned.pooled with body := inner, split := rfl }
  rw [scanned.names] at failed
  have ended : Survey.outline mode (.ofEntries pooled.count pooled.entries) ⟨ahead pooled.stop pooled.body, #[]⟩ =
      .error (.truncated offset needed) r := failed
  have traced := pooled_trace mode _ pooled
  rw [ended] at traced
  refine ⟨offset, needed, scan_broken mode _ _ _ _ _ scan.catalog pooled.pool_count traced ?_ scanned.learnt⟩
  exact List.prefix_append_right_inj _ |>.mpr earlier

theorem cut_short (part missing : Bytes) (cut : scanned.kept = part ++ missing) (more : missing ≠ []) :
    ∃ offset needed, Scan.ofBytes mode part = .error (.truncated offset needed) := by
  -- The cut falls in the header, in the pool or in what follows the pool.
  obtain ⟨inPool, rfl, poolCut⟩ | ⟨lost, some, headCut⟩ := cut_cases cut
  · obtain ⟨inBody, rfl, bodyCut⟩ | ⟨lost, some, poolCut⟩ := cut_cases poolCut
    · exact scanned.cut_in_body inBody missing bodyCut more
    · exact scanned.cut_in_pool inPool lost poolCut some
  · exact scanned.cut_in_head part lost headCut some

end Scanned

theorem prepare_same {σ : Type} (renamer : Renamer) (oracle : Oracle σ) (settings : Settings) (data other : Bytes)
    (same : Scan.ofBytes settings.attributes data = Scan.ofBytes settings.attributes other) :
    Job.prepare renamer oracle settings data = Job.prepare renamer oracle settings other := by
  simp only [Job.prepare, same]

theorem rename_with_rest {σ : Type} (renamer : Renamer) (oracle : Oracle σ) (settings : Settings) (data : Bytes)
    (scan : Scan) (scanned : Scanned settings.attributes data scan) (rest : Bytes) (p q : Progress σ)
    (renamed : RenamedClass) (ran : renameClass renamer oracle settings scanned.kept p = .ok renamed q) :
    renameClass renamer oracle settings (scanned.kept ++ rest) p =
      .ok { renamed with bytes := renamed.bytes ++ rest } q := by
  have bare : scanned.kept ++ [] = scanned.kept := List.append_nil _
  rw [← bare] at ran
  have same : Scan.ofBytes settings.attributes (scanned.kept ++ []) =
      Scan.ofBytes settings.attributes (scanned.kept ++ rest) := by
    rw [(scanned.withRest []).accepted, (scanned.withRest rest).accepted]
  obtain ⟨job, prepared⟩ := rename_class_job ran
  rw [rename_class_scanned (scanned.withRest []) prepared] at ran
  obtain ⟨news, renewed, rfl⟩ := map_ok_inv ran
  rw [prepare_same renamer oracle settings _ _ same] at prepared
  have alike : (scanned.withRest rest).pooled.entries.mapM job.newConstant p = .ok news q := renewed
  rw [rename_class_scanned (scanned.withRest rest) prepared, bind_ok alike]
  simp only [Scanned.withRest, List.append_nil, List.append_assoc]
  rfl

def Scan.stop (mode : AttributeMode) (data : Bytes) : Except Fault Nat := do
  let layout ← (Walk.ofBytes data).outcome
  match Survey.outline mode (.ofEntries layout.count (Walk.ofBytes data).entries) ⟨.startAt data layout.stop, #[]⟩ with
  | .ok _ r => .ok r.cursor.pos
  | .error e _ => .error e

theorem Scanned.stop_kept {mode : AttributeMode} {data : Bytes} {scan : Scan} (scanned : Scanned mode data scan) :
    Scan.stop mode data = .ok scanned.kept.length := by
  have cursor : Cursor.startAt data scanned.pooled.stop = ahead scanned.pooled.stop scanned.pooled.body := by
    rw [Cursor.start_at_ahead data _ scanned.pooled.stop_inside, scanned.pooled.drop_stop]
  rw [Scan.stop, scanned.pooled.walk]
  simp only [bind, Except.bind, cursor, scanned.outline_ran]
  rw [scanned.kept_length]
  rfl

structure Scan.PrefixExact (mode : AttributeMode) (data : Bytes) (scan : Scan) (n : Nat) : Prop where
  reads : Scan.stop mode data = .ok n
  inside : n ≤ data.length
  ignores_tail : ∀ tail, Scan.ofBytes mode (data.take n ++ tail) = .ok scan
  needs_all : ∀ k < n, ∃ offset needed, Scan.ofBytes mode (data.take k) = .error (.truncated offset needed)
  rename_needs_all : ∀ (σ : Type) (renamer : Renamer) (oracle : Oracle σ) (settings : Settings) (p : Progress σ),
    settings.attributes = mode → ∀ k < n, ∃ offset needed,
      renameClass renamer oracle settings (data.take k) p = .error (.truncated offset needed) p
  rename_keeps_tail : ∀ (σ : Type) (renamer : Renamer) (oracle : Oracle σ) (settings : Settings) (p q : Progress σ)
    (renamed : RenamedClass) (tail : Bytes), settings.attributes = mode →
      renameClass renamer oracle settings (data.take n) p = .ok renamed q →
        renameClass renamer oracle settings (data.take n ++ tail) p =
          .ok { renamed with bytes := renamed.bytes ++ tail } q

theorem scan_prefix_exact (mode : AttributeMode) (data : Bytes) (scan : Scan)
    (ran : Scan.ofBytes mode data = .ok scan) : ∃ n, Scan.PrefixExact mode data scan n := by
  obtain ⟨scanned⟩ := scan_inv mode data scan ran
  have split := scanned.kept_rest
  have kept : data.take scanned.kept.length = scanned.kept := by
    have cut := congrArg (List.take scanned.kept.length) split
    rwa [List.take_left] at cut
  have inside : scanned.kept.length ≤ data.length := by
    have total := congrArg List.length split
    rw [List.length_append] at total
    omega
  -- A shorter file is one that was cut inside what the scan has read.
  have short : ∀ k < scanned.kept.length,
      ∃ offset needed, Scan.ofBytes mode (data.take k) = .error (.truncated offset needed) := by
    intro k less
    have part : data.take k = scanned.kept.take k := by
      rw [← kept, List.take_take, Nat.min_eq_left (Nat.le_of_lt less)]
    rw [part]
    refine scanned.cut_short _ (scanned.kept.drop k) (List.take_append_drop k _).symm ?_
    intro none
    have past := List.drop_eq_nil_iff.mp none
    omega
  refine ⟨scanned.kept.length, scanned.stop_kept, inside, fun tail => ?_, short, ?_, ?_⟩
  · rw [kept]
    exact (scanned.withRest tail).accepted
  · intro σ renamer oracle settings p attributes k less
    subst attributes
    obtain ⟨offset, needed, failed⟩ := short k less
    refine ⟨offset, needed, ?_⟩
    rw [renameClass, failed]
    rfl
  · intro σ renamer oracle settings p q renamed tail attributes succeeded
    subst attributes
    rw [kept] at succeeded ⊢
    exact rename_with_rest renamer oracle settings data scan scanned tail p q renamed succeeded

theorem scan_prefix_exact_sample :
    ∃ scan, Scan.ofBytes .interpret (sampleClass ++ [1, 2]) = .ok scan ∧
      ∃ n, Scan.PrefixExact .interpret (sampleClass ++ [1, 2]) scan n :=
  ⟨_, rfl, scan_prefix_exact .interpret (sampleClass ++ [1, 2]) _ rfl⟩

end Relabel
