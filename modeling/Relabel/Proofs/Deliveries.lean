import Mathlib.Logic.Basic
import Relabel.Output.Sink
import Relabel.Proofs.Steps
import Relabel.Rename.RuleSet

set_option autoImplicit false

namespace Relabel

section

variable {ε σ α : Type}

def attempt (act : EStateM ε σ α) (s : σ) : Except ε α × σ :=
  match act s with
  | .ok a t => (.ok a, t)
  | .error e t => (.error e, t)

def attempts : List (EStateM ε σ α) → σ → List (Except ε α) × σ
  | [], s => ([], s)
  | act :: rest, s =>
    let first := attempt act s
    let others := attempts rest first.2
    (first.1 :: others.1, others.2)

end

namespace Name

theorem order_lt_iff (a b : Name) : a.order b = .lt ↔ a.bytes < b.bytes := by
  rw [order]
  generalize a.bytes = front, b.bytes = back
  induction front generalizing back with
  | nil => cases back <;> simp
  | cons x front ih =>
      cases back with
      | nil => simp
      | cons y back =>
          rw [List.compare_cons_cons, Ordering.then_eq_lt, Std.compare_eq_lt, Std.LawfulEqCmp.compare_eq_iff_eq, ih,
            List.cons_lt_cons_iff]

theorem order_eq_iff (a b : Name) : a.order b = .eq ↔ a = b := by
  rw [order, Std.LawfulEqCmp.compare_eq_iff_eq, Name.mk.injEq]

theorem order_gt_iff (a b : Name) : a.order b = .gt ↔ b.bytes < a.bytes := by
  rw [← order_lt_iff, order, order, Std.OrientedCmp.gt_iff_lt]

end Name

namespace Outputs

def Before (a b : Name × Bytes) : Prop := a.1.bytes < b.1.bytes

theorem mem_insert {name : Name} {data : Bytes} {entries : List (Name × Bytes)} {entry : Name × Bytes}
    (member : entry ∈ insertSorted name data entries) : entry = (name, data) ∨ entry ∈ entries := by
  induction entries with
  | nil => exact .inl (List.mem_singleton.mp member)
  | cons held rest ih =>
      rw [insertSorted] at member
      cases order : name.order held.1 with
      | lt => simpa [order] using member
      | eq =>
          simp only [order, List.mem_cons] at member
          exact member.imp_right (.tail _)
      | gt =>
          simp only [order, List.mem_cons] at member
          rcases member with rfl | member
          · exact .inr (.head _)
          · exact (ih member).imp_right (.tail _)

theorem insert_ordered (name : Name) (data : Bytes) {entries : List (Name × Bytes)} (ordered : entries.Pairwise Before) :
    (insertSorted name data entries).Pairwise Before := by
  induction entries with
  | nil => exact List.pairwise_singleton _ _
  | cons held rest ih =>
      obtain ⟨first, others⟩ := List.pairwise_cons.mp ordered
      rw [insertSorted]
      cases order : name.order held.1 with
      | lt =>
          have less := (name.order_lt_iff held.1).mp order
          refine List.pairwise_cons.mpr ⟨fun entry member => ?_, ordered⟩
          rcases List.mem_cons.mp member with rfl | member
          · exact less
          · exact List.lt_trans less (first entry member)
      | eq =>
          have same := (name.order_eq_iff held.1).mp order
          subst same
          exact List.pairwise_cons.mpr ⟨first, others⟩
      | gt =>
          have less := (name.order_gt_iff held.1).mp order
          refine List.pairwise_cons.mpr ⟨fun entry member => ?_, ih others⟩
          rcases mem_insert member with rfl | member
          · exact less
          · exact first entry member

theorem get_put (outputs : Outputs) (name : Name) (data : Bytes) (other : Name) :
    (outputs.put name data).get? other = if other = name then some data else outputs.get? other := by
  obtain ⟨entries⟩ := outputs
  simp only [get?, put]
  induction entries with
  | nil =>
      simp only [insertSorted, List.lookup_cons, List.lookup_nil]
      grind
  | cons held rest ih =>
      rw [insertSorted]
      cases order : name.order held.1 with
      | lt =>
          simp only [List.lookup_cons]
          grind
      | eq =>
          have same := (name.order_eq_iff held.1).mp order
          simp only [List.lookup_cons]
          grind
      | gt =>
          have apart : name ≠ held.1 := by
            rw [ne_eq, ← Name.order_eq_iff, order]
            decide
          simp only [List.lookup_cons, ih]
          grind

theorem mem_names (outputs : Outputs) (name : Name) : name ∈ outputs.names ↔ ∃ data, outputs.get? name = some data := by
  rw [names, get?, ← Option.isSome_iff_exists, List.mem_map]
  constructor
  · rintro ⟨entry, member, rfl⟩
    rw [← Option.ne_none_iff_isSome, ne_eq, List.lookup_eq_none_iff]
    exact fun absent => absurd (absent entry member) (by simp)
  · intro found
    obtain ⟨data, held⟩ := Option.isSome_iff_exists.mp found
    exact ⟨(name, data), mem_of_lookup held, rfl⟩

def after (outputs : Outputs) : Except Fault RenamedClass → Outputs
  | .ok renamed => outputs.put renamed.name renamed.bytes
  | .error _ => outputs

theorem after_ordered {outputs : Outputs} (ordered : outputs.entries.Pairwise Before)
    (answers : List (Except Fault RenamedClass)) : (answers.foldl after outputs).entries.Pairwise Before := by
  induction answers generalizing outputs with
  | nil => exact ordered
  | cons answer rest ih =>
      cases answer with
      | ok renamed => exact ih (insert_ordered renamed.name renamed.bytes ordered)
      | error e => exact ih ordered

def Absent (answers : List (Except Fault RenamedClass)) (name : Name) : Prop :=
  ∀ renamed, .ok renamed ∈ answers → renamed.name ≠ name

def Latest (answers : List (Except Fault RenamedClass)) (name : Name) (data : Bytes) : Prop :=
  ∃ before renamed later, answers = before ++ .ok renamed :: later ∧ renamed.name = name ∧ renamed.bytes = data ∧
    Absent later name

section

variable (first : Except Fault RenamedClass) (rest : List (Except Fault RenamedClass)) (name : Name) (data : Bytes)

theorem absent_cons : Absent (first :: rest) name ↔ (∀ renamed, first = .ok renamed → renamed.name ≠ name) ∧ Absent rest name := by
  simp only [Absent, List.mem_cons]
  constructor
  · exact fun absent => ⟨fun renamed same => absent renamed (.inl same.symm), fun renamed member => absent renamed (.inr member)⟩
  · rintro ⟨here, later⟩ renamed (same | member)
    · exact here renamed same.symm
    · exact later renamed member

theorem latest_cons : Latest (first :: rest) name data ↔
    Latest rest name data ∨
      ∃ renamed, first = .ok renamed ∧ renamed.name = name ∧ renamed.bytes = data ∧ Absent rest name := by
  constructor
  · rintro ⟨before, renamed, later, cut, named, held, absent⟩
    cases before with
    | nil =>
        cases cut
        exact .inr ⟨renamed, rfl, named, held, absent⟩
    | cons _ before =>
        cases cut
        exact .inl ⟨before, renamed, later, rfl, named, held, absent⟩
  · rintro (⟨before, renamed, later, rfl, latest⟩ | ⟨renamed, rfl, latest⟩)
    · exact ⟨first :: before, renamed, later, rfl, latest⟩
    · exact ⟨[], renamed, rest, rfl, latest⟩

end

theorem get_after (answers : List (Except Fault RenamedClass)) (outputs : Outputs) (name : Name) (data : Bytes) :
    (answers.foldl after outputs).get? name = some data ↔
      Latest answers name data ∨ outputs.get? name = some data ∧ Absent answers name := by
  induction answers generalizing outputs with
  | nil => simp [Latest, Absent]
  | cons first rest ih =>
      rw [List.foldl_cons, ih, latest_cons, absent_cons]
      cases first with
      | error e => simp [after]
      | ok renamed =>
          rw [after, get_put]
          grind

theorem exists_latest (answers : List (Except Fault RenamedClass)) (name : Name) :
    (∃ data, Latest answers name data) ↔ ¬ Absent answers name := by
  constructor
  · rintro ⟨data, before, renamed, later, rfl, named, _⟩ absent
    exact absent renamed (by simp) named
  · intro given
    induction answers with
    | nil => exact absurd (fun renamed member => absurd member List.not_mem_nil) given
    | cons first rest ih =>
        by_cases absent : Absent rest name
        · simp only [absent_cons, absent, and_true, not_forall, not_not] at given
          obtain ⟨renamed, same, named⟩ := given
          exact ⟨renamed.bytes, (latest_cons _ _ _ _).mpr (.inr ⟨renamed, same, named, rfl, absent⟩)⟩
        · obtain ⟨data, latest⟩ := ih absent
          exact ⟨data, (latest_cons _ _ _ _).mpr (.inl latest)⟩

theorem given_iff (answers : List (Except Fault RenamedClass)) (name : Name) :
    .ok name ∈ answers.map (Except.map RenamedClass.name) ↔ ¬ Absent answers name := by
  simp only [Absent, not_forall, not_not, List.mem_map]
  constructor
  · rintro ⟨answer, member, same⟩
    cases answer with
    | error e => cases same
    | ok renamed =>
        cases same
        exact ⟨renamed, member, rfl⟩
  · rintro ⟨renamed, member, rfl⟩
    exact ⟨.ok renamed, member, rfl⟩

end Outputs

structure Delivery (σ : Type) where
  renamer : Renamer
  oracle : Oracle σ
  settings : Settings
  data : Bytes

namespace Delivery

variable {σ : Type}

def rename (delivery : Delivery σ) : Renaming σ RenamedClass :=
  renameClass delivery.renamer delivery.oracle delivery.settings delivery.data

def deliver (delivery : Delivery σ) : EStateM Fault (Progress σ × Outputs) Name :=
  renameInto delivery.renamer delivery.oracle delivery.settings .memory delivery.data

theorem deliver_eq (delivery : Delivery σ) (p : Progress σ) (outputs : Outputs) :
    attempt delivery.deliver (p, outputs) =
      ((attempt delivery.rename p).1.map RenamedClass.name, (attempt delivery.rename p).2,
        outputs.after (attempt delivery.rename p).1) := by
  simp only [attempt, deliver, renameInto, rename]
  cases renameClass delivery.renamer delivery.oracle delivery.settings delivery.data p <;> rfl

theorem deliver_all (deliveries : List (Delivery σ)) (p : Progress σ) (outputs : Outputs) :
    attempts (deliveries.map deliver) (p, outputs) =
      ((attempts (deliveries.map rename) p).1.map (Except.map RenamedClass.name), (attempts (deliveries.map rename) p).2,
        (attempts (deliveries.map rename) p).1.foldl Outputs.after outputs) := by
  induction deliveries generalizing p outputs with
  | nil => rfl
  | cons first rest ih => simp only [List.map_cons, attempts, deliver_eq, ih, List.foldl_cons]

theorem failed_deliver {delivery : Delivery σ} {p : Progress σ} {outputs : Outputs} {fault : Fault}
    {state : Progress σ × Outputs} (failed : delivery.deliver (p, outputs) = .error fault state) :
    delivery.rename p = .error fault state.1 ∧ state.2 = outputs := by
  simp only [deliver, renameInto] at failed
  cases ran : renameClass delivery.renamer delivery.oracle delivery.settings delivery.data p with
  | ok renamed q =>
      rw [ran] at failed
      cases failed
  | error e q =>
      rw [ran] at failed
      cases failed
      exact ⟨ran, rfl⟩

end Delivery

/-- However many deliveries fail, and wherever they do, memory holds what the classes are renamed to
by themselves: under each name the last of them that has it, whole, and nothing else. -/
theorem deliveries_kept {σ : Type} (deliveries : List (Delivery σ)) (p : Progress σ) :
    let renamed := attempts (deliveries.map Delivery.rename) p
    let delivered := attempts (deliveries.map Delivery.deliver) (p, {})
    let outputs : Outputs := delivered.2.2
    delivered.1 = renamed.1.map (Except.map RenamedClass.name) ∧ delivered.2.1 = renamed.2 ∧
    (∀ name, name ∈ outputs.names ↔ .ok name ∈ delivered.1) ∧
    (∀ name data, outputs.get? name = some data ↔ Outputs.Latest renamed.1 name data) ∧
    outputs.names.Pairwise (fun a b => a.bytes < b.bytes) ∧
    (∀ (delivery : Delivery σ) (q : Progress σ) (held : Outputs) (fault : Fault) (state : Progress σ × Outputs),
      delivery.deliver (q, held) = .error fault state → delivery.rename q = .error fault state.1 ∧ state.2 = held) := by
  intro renamed delivered outputs
  have ran : delivered = (renamed.1.map (Except.map RenamedClass.name), renamed.2, renamed.1.foldl Outputs.after {}) :=
    Delivery.deliver_all deliveries p {}
  have held : outputs = renamed.1.foldl Outputs.after {} := by rw [show outputs = delivered.2.2 from rfl, ran]
  have latest (name : Name) (data : Bytes) : outputs.get? name = some data ↔ Outputs.Latest renamed.1 name data := by
    rw [held, Outputs.get_after]
    exact or_iff_left fun none => by cases none.1
  refine ⟨by rw [ran], by rw [ran], fun name => ?_, latest, ?_, fun _ _ _ _ _ => Delivery.failed_deliver⟩
  · rw [Outputs.mem_names, exists_congr (latest name), Outputs.exists_latest, ran, Outputs.given_iff]
  · rw [held, Outputs.names, List.pairwise_map]
    exact Outputs.after_ordered .nil _

def letterClass (letter flags : UInt8) : Bytes :=
  [0xCA, 0xFE, 0xBA, 0xBE, 0, 0, 0, 52, 0, 3, 1, 0, 1, letter, 7, 0, 1, 0, flags, 0, 2, 0, 0, 0, 0, 0, 0, 0, 0, 0, 0]

def mergedNames : RuleSet :=
  { classes := ⟨[(.ofString "A", .ofString "B"), (.ofString "C", .ofString "B")]⟩ }

def mergedDeliveries : List (Delivery Unit) :=
  [letterClass 0x41 1, [0xCA, 0xFE], letterClass 0x43 33].map (⟨mergedNames.renamer, .empty, {}, ·⟩)

theorem deliveries_kept_merged :
    (attempts (mergedDeliveries.map Delivery.deliver) (⟨(), #[]⟩, {})).1 =
      [.ok (.ofString "B"), .error (.truncated 0 2), .ok (.ofString "B")] ∧
    Outputs.Latest (attempts (mergedDeliveries.map Delivery.rename) ⟨(), #[]⟩).1 (.ofString "B") (letterClass 0x42 33) := by
  obtain ⟨_, _, _, latest, _⟩ := deliveries_kept mergedDeliveries ⟨(), #[]⟩
  exact ⟨rfl, (latest (.ofString "B") (letterClass 0x42 33)).mp rfl⟩

end Relabel
