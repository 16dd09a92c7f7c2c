import Mathlib.Data.List.Dedup
import Relabel.Proofs.FixedAnswers
import Relabel.Proofs.RuleTables

set_option autoImplicit false

namespace Relabel

theorem Rules.size_insert {κ ν : Type} [DecidableEq κ] {rules : Rules κ ν} {key : κ} (free : rules.get? key = none) (value : ν) :
    (rules.insert key value).size = rules.size + 1 := by
  have all : rules.entries.filter (fun entry => !(entry.1 == key)) = rules.entries := by
    apply List.filter_eq_self.mpr
    intro entry member
    have apart : key ≠ entry.1 := by simpa using List.lookup_eq_none_iff.mp free entry member
    simp [apart.symm]
  rw [size, size, insert, all, List.length_cons]

namespace Oracle

variable {σ : Type}

def visit (oracle : Oracle σ) (past : List (Name × Except Fault Shape) × σ) (name : Name) :
    List (Name × Except Fault Shape) × σ :=
  match oracle.lookup name past.2 with
  | .ok shape s => ((name, .ok shape) :: past.1, s)
  | .error e s => ((name, .error e) :: past.1, s)

def visits (oracle : Oracle σ) (s : σ) (names : List Name) : List (Name × Except Fault Shape) × σ :=
  names.foldl oracle.visit ([], s)

def success? : Name × Except Fault Shape → Option Name
  | (name, .ok _) => some name
  | (_, .error _) => none

def found (history : List (Name × Except Fault Shape)) : List Name := history.filterMap success?

theorem mem_found {history : List (Name × Except Fault Shape)} {name : Name} :
    name ∈ found history ↔ ∃ shape, (name, .ok shape) ∈ history := by
  rw [found, List.mem_filterMap]
  constructor
  · rintro ⟨⟨other, answer⟩, member, same⟩
    cases answer with
    | ok shape =>
        cases same
        exact ⟨shape, member⟩
    | error e => cases same
  · rintro ⟨shape, member⟩
    exact ⟨_, member, rfl⟩

section Cached

variable {oracle : Oracle σ} {s : σ} {asked : List Name} {known : Rules Name Shape} {name : Name}

theorem cached_hit {shape : Shape} (held : known.get? name = some shape) :
    oracle.cached.lookup name (s, known) = .ok shape (s, known) := by
  simp only [cached, held]

theorem recorded_miss (free : known.get? name = none) :
    oracle.recorded.cached.lookup name ((s, asked), known) = match oracle.lookup name s with
      | .ok shape t => .ok shape ((t, name :: asked), known.insert name shape)
      | .error e t => .error e ((t, name :: asked), known) := by
  simp only [cached, recorded, free]
  cases oracle.lookup name s <;> rfl

end Cached

structure Keeps (history : List (Name × Except Fault Shape)) (known : Rules Name Shape) : Prop where
  held : ∀ name shape, known.get? name = some shape ↔ (name, .ok shape) ∈ history
  size : known.size = (found history).dedup.length

namespace Keeps

variable {history : List (Name × Except Fault Shape)} {known : Rules Name Shape} (keeps : Keeps history known)

theorem empty : Keeps [] {} := ⟨fun _ _ => ⟨fun none => (nomatch none), fun none => (nomatch none)⟩, rfl⟩

include keeps

theorem hit {name : Name} {shape : Shape} (held : known.get? name = some shape) : Keeps ((name, .ok shape) :: history) known := by
  have before := (keeps.held name shape).mp held
  constructor
  · intro other answer
    rw [keeps.held, List.mem_cons]
    constructor
    · exact .inr
    · rintro (same | later)
      · rwa [same]
      · exact later
  · have again : name ∈ found history := mem_found.mpr ⟨shape, before⟩
    rw [keeps.size]
    exact congrArg List.length (List.dedup_cons_of_mem again).symm

theorem fills {name : Name} (free : known.get? name = none) (shape : Shape) :
    Keeps ((name, .ok shape) :: history) (known.insert name shape) := by
  have new : ∀ answer, (name, .ok answer) ∉ history := by
    intro answer member
    rw [← keeps.held, free] at member
    cases member
  constructor
  · intro other answer
    rw [Rules.get_insert, List.mem_cons]
    by_cases same : other = name
    · subst same
      simp [new, eq_comm]
    · simp [same, keeps.held]
  · have first : name ∉ found history := fun member => (mem_found.mp member).elim new
    rw [Rules.size_insert free, keeps.size]
    exact congrArg List.length (List.dedup_cons_of_notMem first).symm

theorem fails (name : Name) (e : Fault) : Keeps ((name, .error e) :: history) known :=
  ⟨fun other answer => by simp [keeps.held], keeps.size⟩

theorem visit {oracle : Oracle σ} {s : σ} {asked : List Name} (name : Name) :
    Keeps (oracle.recorded.cached.visit (history, (s, asked), known) name).1
      (oracle.recorded.cached.visit (history, (s, asked), known) name).2.2 := by
  rw [Oracle.visit]
  cases held : known.get? name with
  | some shape =>
      rw [cached_hit held]
      exact keeps.hit held
  | none =>
      rw [recorded_miss held]
      cases oracle.lookup name s with
      | ok shape t => exact keeps.fills held shape
      | error e t => exact keeps.fails name e

end Keeps

theorem visits_keep (oracle : Oracle σ) (s : σ) (names : List Name) :
    Keeps (oracle.recorded.cached.visits ((s, []), {}) names).1 (oracle.recorded.cached.visits ((s, []), {}) names).2.2 := by
  apply List.foldlRecOn (motive := fun past : List (Name × Except Fault Shape) × (σ × List Name) × Rules Name Shape =>
    Keeps past.1 past.2.2)
  · exact Keeps.empty
  · exact fun _ keeps name _ => keeps.visit name

structure Faithful (shape : Name → Except Fault Shape) (state : (σ × List Name) × Rules Name Shape) : Prop where
  answers : ∀ name found, state.2.get? name = some found → shape name = .ok found
  fresh : ∀ name found, shape name = .ok found → state.2.get? name = none → name ∉ state.1.2
  once : ∀ name found, shape name = .ok found → state.1.2.count name ≤ 1

namespace Faithful

variable {shape : Name → Except Fault Shape} {s : σ} {asked : List Name} {known : Rules Name Shape}

theorem empty (s : σ) : Faithful shape ((s, []), {}) := by
  constructor <;> simp [Rules.get?]

variable (faithful : Faithful shape ((s, asked), known)) {name : Name}

include faithful

theorem asks (free : known.get? name = none) {found : Shape} (answer : shape name = .ok found) (t : σ) :
    Faithful shape ((t, name :: asked), known.insert name found) := by
  refine ⟨fun other held there => ?_, fun other held there missed => ?_, fun other held there => ?_⟩
  · rw [Rules.get_insert] at there
    by_cases same : other = name
    · rw [if_pos same] at there
      cases there
      rw [same, answer]
    · rw [if_neg same] at there
      exact faithful.answers other held there
  · rw [Rules.get_insert] at missed
    by_cases same : other = name
    · rw [if_pos same] at missed
      cases missed
    · rw [if_neg same] at missed
      simpa [same] using faithful.fresh other held there missed
  · by_cases same : other = name
    · subst same
      have none : asked.count other = 0 := List.count_eq_zero.mpr (faithful.fresh other held there free)
      simp [none]
    · rw [List.count_cons_of_ne (Ne.symm same)]
      exact faithful.once other held there

theorem fails {e : Fault} (answer : shape name = .error e) (t : σ) : Faithful shape ((t, name :: asked), known) := by
  have apart : ∀ other held, shape other = .ok held → name ≠ other := by
    rintro other held there rfl
    rw [answer] at there
    cases there
  refine ⟨faithful.answers, fun other held there missed => ?_, fun other held there => ?_⟩
  · simpa [(apart other held there).symm] using faithful.fresh other held there missed
  · rw [List.count_cons_of_ne (apart other held there)]
    exact faithful.once other held there

end Faithful

theorem Answers.cached {oracle : Oracle σ} {shape : Name → Except Fault Shape} (answers : oracle.Answers shape) :
    oracle.recorded.cached.MirroredBy oracle fun state _ => Faithful shape state := by
  refine ⟨fun name => ?_, rfl⟩
  rintro ⟨⟨s, asked⟩, known⟩ t faithful
  obtain ⟨s', here⟩ := answers name s
  obtain ⟨t', there⟩ := answers name t
  cases held : known.get? name with
  | some found =>
      rw [cached_hit held, there, faithful.answers name found held]
      exact .ok found _ t' faithful
  | none =>
      rw [recorded_miss held, here, there]
      cases answer : shape name with
      | ok found => exact .ok found _ t' (faithful.asks held answer s')
      | error e => exact .error e _ t' (faithful.fails answer s')

end Oracle

structure Task where
  renamer : Renamer
  settings : Settings
  data : Bytes

namespace Task

variable {σ τ : Type}

def run (oracle : Oracle σ) (s : σ) (task : Task) : (Except Fault RenamedClass × Array Warning) × σ :=
  match renameClass task.renamer oracle task.settings task.data ⟨s, #[]⟩ with
  | .ok renamed p => ((.ok renamed, p.warnings), p.oracle)
  | .error e p => ((.error e, p.warnings), p.oracle)

def runAll (oracle : Oracle σ) : σ → List Task → List (Except Fault RenamedClass × Array Warning) × σ
  | s, [] => ([], s)
  | s, task :: rest =>
    let (one, s) := task.run oracle s
    let (others, s) := runAll oracle s rest
    (one :: others, s)

theorem run_alike {one : Oracle σ} {other : Oracle τ} {rel : σ → τ → Prop} (mirrored : one.MirroredBy other rel) (task : Task)
    {s : σ} {t : τ} (beside : rel s t) :
    (task.run one s).1 = (task.run other t).1 ∧ rel (task.run one s).2 (task.run other t).2 := by
  have ended := mirrors_rename_class mirrored task.renamer task.settings task.data ⟨s, #[]⟩ ⟨t, #[]⟩ ⟨beside, rfl⟩
  rw [run, run]
  generalize renameClass task.renamer one task.settings task.data ⟨s, #[]⟩ = first at ended
  generalize renameClass task.renamer other task.settings task.data ⟨t, #[]⟩ = second at ended
  cases ended with
  | ok renamed p q still => exact ⟨Prod.ext rfl still.2, still.1⟩
  | error e p q still => exact ⟨Prod.ext rfl still.2, still.1⟩

theorem run_all_alike {one : Oracle σ} {other : Oracle τ} {holds : σ → Prop}
    (mirrored : one.MirroredBy other fun s _ => holds s) (t : τ) (tasks : List Task) {s : σ} (started : holds s) :
    (runAll one s tasks).1 = tasks.map (fun task => (task.run other t).1) ∧ holds (runAll one s tasks).2 := by
  induction tasks generalizing s with
  | nil => exact ⟨rfl, started⟩
  | cons task rest ih =>
      obtain ⟨same, still⟩ := run_alike mirrored task (t := t) started
      obtain ⟨later, ended⟩ := ih still
      rw [runAll]
      exact ⟨congrArg₂ List.cons same later, ended⟩

end Task

/-- Whatever was looked up before, a name that was found is not asked for again and any other is
asked for once. So where the answers never change, nobody can tell the cache from the oracle behind
it. -/
theorem caching_transparent {σ : Type} (oracle : Oracle σ) (s : σ) :
    (∀ names history inner asked known,
      oracle.recorded.cached.visits ((s, []), {}) names = (history, (inner, asked), known) →
      (∀ name, (∀ shape, (name, .ok shape) ∉ history) →
        oracle.recorded.cached.lookup name ((inner, asked), known) = match oracle.lookup name inner with
          | .ok shape after => .ok shape ((after, name :: asked), known.insert name shape)
          | .error e after => .error e ((after, name :: asked), known)) ∧
      (∀ name shape, (name, .ok shape) ∈ history →
        oracle.recorded.cached.lookup name ((inner, asked), known) = .ok shape ((inner, asked), known)) ∧
      known.size = (Oracle.found history).dedup.length) ∧
    ∀ shape, oracle.Answers shape → ∀ tasks results inner asked known,
      Task.runAll oracle.recorded.cached ((s, []), {}) tasks = (results, (inner, asked), known) →
      (∀ t, results = tasks.map fun task => (task.run oracle t).1) ∧
        ∀ name found, shape name = .ok found → asked.count name ≤ 1 := by
  constructor
  · intro names history inner asked known ran
    have keeps := oracle.visits_keep s names
    rw [ran] at keeps
    refine ⟨fun name missed => ?_, fun name shape there => ?_, keeps.size⟩
    · apply Oracle.recorded_miss
      cases held : known.get? name with
      | none => rfl
      | some shape => exact absurd ((keeps.held name shape).mp held) (missed shape)
    · exact Oracle.cached_hit ((keeps.held name shape).mpr there)
  · intro shape answers tasks results inner asked known ran
    -- The cache mirrors the oracle from any state of it, so every task can be compared with a fresh
    -- one.
    have alike := fun t => Task.run_all_alike answers.cached t tasks (Oracle.Faithful.empty s)
    rw [ran] at alike
    exact ⟨fun t => (alike t).1, (alike inner).2.once⟩

def moodyOracle : Oracle Nat where
  lookup name count :=
    if count = 0 then .error (.truncated 0 1) 1 else .ok { ancestors := List.replicate count name } (count + 1)
  extent := 0

def moodyHistory : List (Name × Except Fault Shape) :=
  [(.ofString "B", .ok ⟨[.ofString "B", .ofString "B"], []⟩), (.ofString "A", .ok ⟨[.ofString "A"], []⟩),
    (.ofString "A", .error (.truncated 0 1))]

def moodyKnown : Rules Name Shape :=
  ⟨[(.ofString "B", ⟨[.ofString "B", .ofString "B"], []⟩), (.ofString "A", ⟨[.ofString "A"], []⟩)]⟩

def heirClass : Bytes :=
  [0xCA, 0xFE, 0xBA, 0xBE, 0, 0, 0, 52, 0, 7, 1, 0, 1, 66, 7, 0, 1, 1, 0, 1, 65, 7, 0, 3, 1, 0, 1, 109, 1, 0, 3, 40, 41, 86,
    0, 33, 0, 2, 0, 4, 0, 0, 0, 0, 0, 1, 0, 1, 0, 5, 0, 6, 0, 0, 0, 0]

def heirRenamed : RenamedClass :=
  ⟨.ofString "B", .ofString "B",
    [0xCA, 0xFE, 0xBA, 0xBE, 0, 0, 0, 52, 0, 7, 1, 0, 1, 66, 7, 0, 1, 1, 0, 1, 65, 7, 0, 3, 1, 0, 1, 110, 1, 0, 3, 40, 41, 86,
      0, 33, 0, 2, 0, 4, 0, 0, 0, 0, 0, 1, 0, 1, 0, 5, 0, 6, 0, 0, 0, 0]⟩

def heirTask : Task where
  renamer := (({} : RuleSet).putMethod ⟨.ofString "A", .ofString "m", some (.ofString "()V")⟩ (.ofString "n")).renamer
  settings := {}
  data := heirClass

def ancestry (_ : Name) : Except Fault Shape := .ok { methods := [(.ofString "m", .ofString "()V")] }

theorem caching_transparent_sample :
    moodyOracle.recorded.cached.visits ((0, []), {}) [.ofString "A", .ofString "A", .ofString "B"] =
        (moodyHistory, (3, [.ofString "B", .ofString "A", .ofString "A"]), moodyKnown) ∧
      moodyOracle.recorded.cached.lookup (.ofString "A") ((3, [.ofString "B", .ofString "A", .ofString "A"]), moodyKnown) =
        .ok ⟨[.ofString "A"], []⟩ ((3, [.ofString "B", .ofString "A", .ofString "A"]), moodyKnown) ∧
      moodyKnown.size = 2 ∧
      (Oracle.ofFunction ancestry 1 : Oracle Unit).Answers ancestry ∧
      (∃ known, Task.runAll (Oracle.ofFunction ancestry 1).recorded.cached (((), []), {}) [heirTask, heirTask] =
        ([(.ok heirRenamed, #[]), (.ok heirRenamed, #[])], ((), [.ofString "A"]), known)) ∧
      [(.ok heirRenamed, #[]), (.ok heirRenamed, #[])] =
        [heirTask, heirTask].map fun task => (task.run (Oracle.ofFunction ancestry 1) ()).1 := by
  have visited : moodyOracle.recorded.cached.visits ((0, []), {}) [.ofString "A", .ofString "A", .ofString "B"] =
      (moodyHistory, (3, [.ofString "B", .ofString "A", .ofString "A"]), moodyKnown) := rfl
  have answers : (Oracle.ofFunction ancestry 1 : Oracle Unit).Answers ancestry := Oracle.of_function_answers _ _
  obtain ⟨known, ran⟩ : ∃ known,
      Task.runAll (Oracle.ofFunction ancestry 1).recorded.cached (((), []), {}) [heirTask, heirTask] =
        ([(.ok heirRenamed, #[]), (.ok heirRenamed, #[])], ((), [.ofString "A"]), known) := ⟨_, rfl⟩
  obtain ⟨_, again, size⟩ := (caching_transparent moodyOracle 0).1 _ _ _ _ _ visited
  obtain ⟨alone, _⟩ := (caching_transparent (Oracle.ofFunction ancestry 1) ()).2 _ answers _ _ _ _ _ ran
  exact ⟨visited, again _ _ (.tail _ (.head _)), size, answers, ⟨known, ran⟩, alone ()⟩

end Relabel
