import Relabel.Proofs.BreadthFirst
import Relabel.Proofs.FixedAnswers

set_option autoImplicit false

namespace Relabel

namespace ClassPath

def ancestorsIn (data : Bytes) : List Name := (NamedShape.ofBytes data).toOption.elim [] fun found => found.shape.ancestors

def listed (path : ClassPath) : List Name := path.entries.flatMap fun entry => ancestorsIn entry.2

theorem listed_length (path : ClassPath) : path.listed.length = path.extent := by
  rw [listed, List.length_flatMap, List.sum_eq_foldl, extent]
  congr 1
  apply List.map_congr_left
  rintro ⟨_, data⟩ _
  dsimp only [ancestorsIn]
  cases NamedShape.ofBytes data <;> rfl

theorem mem_listed (path : ClassPath) {c d : Name} {shape : Shape} (known : path.shape c = .ok shape)
    (member : d ∈ shape.ancestors) : d ∈ path.listed := by
  rw [ClassPath.shape, Rules.get?] at known
  cases found : path.entries.lookup c with
  | none =>
      rw [found] at known
      cases known
      cases member
  | some data =>
      refine List.mem_flatMap.mpr ⟨(c, data), mem_of_lookup found, ?_⟩
      rw [found] at known
      dsimp only [ancestorsIn] at known ⊢
      cases extracted : NamedShape.ofBytes data with
      | error fault =>
          rw [extracted] at known
          cases known
      | ok named =>
          rw [extracted] at known
          cases known
          exact member

end ClassPath

namespace Ancestry

variable {a : Ancestry} {name descriptor : Name}

variable (a) (name descriptor) in
def Answer : Option Name → Prop
  | some c => ∃ n, a.Nearest name descriptor n c
  | none => ∀ n c, a.Reached n c → ¬ a.Declaring name descriptor c

variable (a) (name descriptor) in
def Renamed (renamer : Renamer) (renamed : Name) : Prop :=
  (a.SuperDeclares name descriptor → renamed = renamer.method a.lineage.superName name descriptor) ∧
    (¬ a.SuperDeclares name descriptor →
      (∃ n c, a.Nearest name descriptor n c ∧ renamed = renamer.method c name descriptor) ∨
        (∀ n c, a.Reached n c → ¬ a.Declaring name descriptor c) ∧ renamed = name)

def Bounded {σ : Type} (a : Ancestry) (oracle : Oracle σ) : Prop :=
  ∃ listed : List Name, listed.length ≤ oracle.extent ∧ ∀ n c, a.Reached n c → c ∈ listed ∨ c ∈ a.lineage.interfaces

theorem bounded_of_listed {σ : Type} (oracle : Oracle σ) (listed : List Name) (few : listed.length ≤ oracle.extent)
    (all : ∀ c, ∀ d ∈ (a.shape c).ancestors, d ∈ listed) : a.Bounded oracle := by
  have above (c d : Name) (member : d ∈ a.above c) : d ∈ listed := by
    rw [Ancestry.above] at member
    split at member
    · cases member
    · exact all c d member
  refine ⟨listed, few, fun n c reached => ?_⟩
  cases reached with
  | seed _ member => exact (List.mem_append.mp member).imp_left (above _ c)
  | step m b _ _ member => exact .inl (above b c member)

theorem class_path_bounded {σ : Type} (path : ClassPath) (known : ∀ c, path.shape c = .ok (a.shape c)) :
    a.Bounded (path.oracle : Oracle σ) := by
  refine bounded_of_listed _ path.listed (Nat.le_of_eq path.listed_length) fun c d member => ?_
  exact path.mem_listed (known c) member

end Ancestry

namespace Oracle

variable {σ : Type} {oracle : Oracle σ} {a : Ancestry} {name descriptor : Name}

theorem request_answers (answers : oracle.Answers fun c => .ok (a.shape c)) (c : Name) (s : σ) :
    ∃ t, oracle.request c s = .ok (a.shape c) t := by
  obtain ⟨t, answer⟩ := answers c s
  exact ⟨t, by rw [request, answer]⟩

theorem search_answers (answers : oracle.Answers fun c => .ok (a.shape c)) (fuel n : Nat)
    (passed rest queue seen unasked : List Name) (searched : a.Searched name descriptor n passed rest queue seen)
    (enough : unasked.length ≤ fuel) (covered : ∀ m c, a.Reached m c → a.settings.PassedOver seen c ∨ c ∈ unasked) (s : σ) :
    ∃ found t, oracle.search a.settings name descriptor fuel queue seen s = .ok found t ∧
      a.Answer name descriptor found := by
  -- Each request takes one of the names that were not asked for, so the fuel lasts as long as there
  -- are any.
  induction fuel generalizing n passed rest queue seen unasked s with
  | zero =>
      refine ⟨none, s, rfl, fun m c reached => searched.passed_undeclared ?_⟩
      exact (covered m c reached).resolve_right (by simp [List.length_eq_zero_iff.mp (Nat.le_zero.mp enough)])
  | succ fuel ih =>
      rw [search]
      cases dropped : queue.dropWhile fun c => a.settings.isPlatform c || seen.contains c with
      | nil =>
          have empty : a.settings.unseen seen queue = [] := by
            rw [← Settings.drop_passed, dropped]
            rfl
          exact ⟨none, s, rfl, fun m c reached => searched.passed_undeclared (searched.exhausted empty m c reached)⟩
      | cons c others =>
          have taken := a.settings.dropped_unseen dropped
          obtain ⟨m, before, between, after, located, skipped⟩ := searched.locate taken
          have asked := a.settings.unseen_head taken
          obtain ⟨t, requested⟩ := request_answers answers c s
          dsimp only
          rw [bind_ok requested]
          cases declared : (a.shape c).declares name descriptor with
          | true => exact ⟨some c, t, rfl, m, located.declared_asked skipped asked declared⟩
          | false =>
              have reached : a.Reached m c := by
                rw [Ancestry.reached_iff, located.cut]
                simp
              have member := (covered m c reached).resolve_left asked
              refine ih m _ _ _ _ (unasked.erase c) (located.undeclared_asked skipped taken declared) ?_ ?_ t
              · rw [List.length_erase_of_mem member]
                omega
              · intro k d reached
                rw [Settings.passed_over_cons]
                by_cases same : d = c
                · exact .inl (.inl same)
                · exact (covered k d reached).imp .inr (List.mem_erase_of_ne same).mpr

theorem shape_of_answers (answers : oracle.Answers fun c => .ok (a.shape c)) (name descriptor c : Name) (s : σ) :
    ∃ shape t, oracle.shapeOf a.settings c s = .ok shape t ∧ shape.ancestors = a.above c ∧
      (shape.declares name descriptor = true ↔
        a.settings.isPlatform c = false ∧ (a.shape c).declares name descriptor = true) := by
  cases platform : a.settings.isPlatform c with
  | true =>
      refine ⟨{}, s, ?_, by simp [Ancestry.above, platform], by simp [Shape.declares]⟩
      simp only [shapeOf, platform, if_true]
      rfl
  | false =>
      obtain ⟨t, requested⟩ := request_answers answers c s
      exact ⟨a.shape c, t, by simp [shapeOf, platform, requested], by simp [Ancestry.above, platform], by simp⟩

theorem declaring_answers (answers : oracle.Answers fun c => .ok (a.shape c)) (bounded : a.Bounded oracle)
    (name descriptor : Name) (s : σ) :
    ∃ found t, oracle.declaring? a.settings a.lineage name descriptor s = .ok found t ∧
      (a.SuperDeclares name descriptor → found = some a.lineage.superName) ∧
      (¬ a.SuperDeclares name descriptor → a.Answer name descriptor found) := by
  obtain ⟨shape, t, shaped, above, declares⟩ := shape_of_answers answers name descriptor a.lineage.superName s
  rw [declaring?, bind_ok shaped, above]
  cases declared : shape.declares name descriptor with
  | true =>
      rw [declared] at declares
      exact ⟨_, t, rfl, fun _ => rfl, fun other => absurd (declares.mp rfl) other⟩
  | false =>
      rw [declared] at declares
      -- Besides the interfaces the search can ask for no more names than the oracle's extent.
      obtain ⟨listed, few, covered⟩ := bounded
      obtain ⟨found, u, ran, answer⟩ := search_answers answers (oracle.extent + a.lineage.interfaces.length) 0 _ _ _ _
        (listed ++ a.lineage.interfaces) .start (by rw [List.length_append]; omega)
        (fun m c reached => .inr (List.mem_append.mpr (covered m c reached))) t
      exact ⟨found, u, ran, fun own => absurd (declares.mpr own) (by simp), fun _ => answer⟩

theorem rename_unruled (renamer : Renamer) (settings : Settings) (lineage : Lineage) (ordinary : name.isSpecial = false)
    (unruled : renamer.method? lineage.name name descriptor = none) {s t : σ} {owner : Option Name}
    (found : oracle.declaring? settings lineage name descriptor s = .ok owner t) :
    oracle.renameMethod renamer settings lineage name descriptor s =
      .ok ((owner.map fun c => renamer.method c name descriptor).getD name) t := by
  simp only [renameMethod, ordinary, unruled, Bool.false_eq_true, if_false]
  rw [bind_ok found]
  cases owner <;> rfl

theorem rename_answers (renamer : Renamer) (answers : oracle.Answers fun c => .ok (a.shape c)) (bounded : a.Bounded oracle)
    (ordinary : name.isSpecial = false) (unruled : renamer.method? a.lineage.name name descriptor = none) (s : σ) :
    ∃ renamed t, oracle.renameMethod renamer a.settings a.lineage name descriptor s = .ok renamed t ∧
      a.Renamed name descriptor renamer renamed := by
  obtain ⟨found, t, ran, own, above⟩ := declaring_answers answers bounded name descriptor s
  refine ⟨_, t, rename_unruled renamer a.settings a.lineage ordinary unruled ran, fun declared => ?_, fun other => ?_⟩
  · rw [own declared]
    rfl
  · cases found with
    | some c =>
        obtain ⟨n, nearest⟩ := above other
        exact .inl ⟨n, c, nearest, rfl⟩
    | none => exact .inr ⟨above other, rfl⟩

end Oracle

/-- A method without a rule of its own is named after the super class if that one declares it.
Otherwise it is named after the nearest class that does, and where there is none it keeps its name.
-/
theorem nearest_declaration_renames {σ : Type} (renamer : Renamer) (oracle : Oracle σ) (a : Ancestry)
    (name descriptor : Name) (s : σ) (answers : oracle.Answers fun c => .ok (a.shape c)) (bounded : a.Bounded oracle)
    (ordinary : name.isSpecial = false) (unruled : renamer.method? a.lineage.name name descriptor = none) :
    ∃ renamed t, oracle.renameMethod renamer a.settings a.lineage name descriptor s = .ok renamed t ∧
      (a.SuperDeclares name descriptor → renamed = renamer.method a.lineage.superName name descriptor) ∧
      (¬ a.SuperDeclares name descriptor →
        (∃ n c, a.Nearest name descriptor n c ∧ renamed = renamer.method c name descriptor) ∨
          (∀ n c, a.Reached n c → ¬ a.Declaring name descriptor c) ∧ renamed = name) :=
  Oracle.rename_answers renamer answers bounded ordinary unruled s

def loopedShapes : List (Name × Shape) :=
  [(.ofString "B", { ancestors := [.ofString "C", .ofString "java/lang/Object"] }),
    (.ofString "C", { ancestors := [.ofString "B", .ofString "D", .ofString "E"] }),
    (.ofString "D", { ancestors := [.ofString "C"], methods := [(.ofString "run", .ofString "()V")] }),
    (.ofString "E", { methods := [(.ofString "run", .ofString "()V")] }),
    (.ofString "I", { ancestors := [.ofString "E", .ofString "D"] }),
    (.ofString "java/lang/Object", { methods := [(.ofString "run", .ofString "()V")] })]

def loopedAncestry : Ancestry where
  settings := {}
  shape c := (loopedShapes.lookup c).getD {}
  lineage := ⟨.ofString "A", .ofString "B", [.ofString "I"]⟩

def loopedRules : RuleSet :=
  ({} : RuleSet).putMethod ⟨.ofString "D", .ofString "run", some (.ofString "()V")⟩ (.ofString "go") |>.putMethod
    ⟨.ofString "E", .ofString "run", some (.ofString "()V")⟩ (.ofString "stop")

def loopedOracle : Oracle Unit := .ofFunction (fun c => .ok (loopedAncestry.shape c)) 8

theorem looped_bounded : loopedAncestry.Bounded loopedOracle := by
  refine Ancestry.bounded_of_listed loopedOracle (loopedShapes.flatMap fun entry => entry.2.ancestors) (by decide) ?_
  intro c d member
  cases found : loopedShapes.lookup c with
  | none =>
      simp only [loopedAncestry, found] at member
      cases member
  | some shape =>
      simp only [loopedAncestry, found] at member
      exact List.mem_flatMap.mpr ⟨(c, shape), mem_of_lookup found, member⟩

theorem nearest_declaration_renames_sample :
    loopedAncestry.Bounded loopedOracle ∧ ¬ loopedAncestry.SuperDeclares (.ofString "run") (.ofString "()V") ∧
      loopedOracle.renameMethod loopedRules.renamer loopedAncestry.settings loopedAncestry.lineage (.ofString "run")
        (.ofString "()V") () = .ok (.ofString "go") () ∧
      ∃ n c, loopedAncestry.Nearest (.ofString "run") (.ofString "()V") n c ∧
        Name.ofString "go" = loopedRules.renamer.method c (.ofString "run") (.ofString "()V") := by
  have bounded := looped_bounded
  have super_silent : ¬ loopedAncestry.SuperDeclares (.ofString "run") (.ofString "()V") := fun declares =>
    absurd declares.2 (by decide)
  have renamed : loopedOracle.renameMethod loopedRules.renamer loopedAncestry.settings loopedAncestry.lineage
      (.ofString "run") (.ofString "()V") () = .ok (.ofString "go") () := rfl
  obtain ⟨found, t, ran, _, above⟩ := nearest_declaration_renames loopedRules.renamer loopedOracle loopedAncestry
    (.ofString "run") (.ofString "()V") () (Oracle.of_function_answers _ _) bounded (by decide) (by decide)
  obtain rfl : Name.ofString "go" = found := by
    rw [renamed] at ran
    cases ran
    rfl
  refine ⟨bounded, super_silent, renamed, ?_⟩
  rcases above super_silent with nearest | ⟨_, kept⟩
  · exact nearest
  · exact absurd kept (by decide)

end Relabel
