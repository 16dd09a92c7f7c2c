import Relabel.Proofs.FixedAnswers
import Relabel.Proofs.NearestDeclaration

set_option autoImplicit false

namespace Relabel

/-- A method of one class that overrides one of its super class, where the shape of the super class
gives that class's own ancestors. -/
structure Lineage.Overrides (child parent : Lineage) (settings : Settings) (shape : Name → Shape)
    (name descriptor : Name) : Prop where
  inherits : child.superName = parent.name
  foreign : settings.isPlatform parent.name = false
  context : (shape parent.name).ancestors = parent.superName :: parent.interfaces
  declared : (shape parent.name).declares name descriptor = true
  ordinary : name.isSpecial = false

namespace Oracle

variable {σ : Type} {oracle : Oracle σ} {shape : Name → Shape} {settings : Settings} {lineage : Lineage}
  {name descriptor : Name}

theorem declaring_super (answers : oracle.Answers fun c => .ok (shape c))
    (foreign : settings.isPlatform lineage.superName = false)
    (declared : (shape lineage.superName).declares name descriptor = true) (s : σ) :
    ∃ t, oracle.declaring? settings lineage name descriptor s = .ok (some lineage.superName) t := by
  obtain ⟨t, answer⟩ := answers lineage.superName s
  have shaped : oracle.shapeOf settings lineage.superName s = .ok (shape lineage.superName) t := by
    simp only [shapeOf, foreign, Bool.false_eq_true, if_false, request, answer]
  refine ⟨t, ?_⟩
  rw [declaring?, bind_ok shaped]
  simp only [declared, if_true]
  rfl

theorem rename_ruled (renamer : Renamer) (ordinary : name.isSpecial = false) {renamed : Name}
    (ruled : renamer.method? lineage.name name descriptor = some renamed) (s : σ) :
    oracle.renameMethod renamer settings lineage name descriptor s = .ok renamed s := by
  simp only [renameMethod, ordinary, ruled, Bool.false_eq_true, if_false]
  rfl

end Oracle

theorem Renamer.method_ordinary (renamer : Renamer) (owner : Name) {name : Name} (ordinary : name.isSpecial = false)
    (descriptor : Name) : renamer.method owner name descriptor = (renamer.method? owner name descriptor).getD name :=
  if_neg (by simp [ordinary])

/-- An override without a rule of its own gets the name that the super class has a rule for, or else
keeps its own. The super class itself gets the same name if it has a rule. Without one it is named
after a class further up, and the two agree only where that leaves the name as it is. -/
theorem override_named_after_super {σ : Type} (renamer : Renamer) (oracle : Oracle σ) (settings : Settings)
    (shape : Name → Shape) (answers : oracle.Answers fun c => .ok (shape c)) (child parent : Lineage)
    (name descriptor : Name) (overrides : child.Overrides parent settings shape name descriptor)
    (unruled : renamer.method? child.name name descriptor = none) (s u : σ) :
    ∃ own inherited t v,
      oracle.renameMethod renamer settings child name descriptor s = .ok own t ∧
      oracle.renameMethod renamer settings parent name descriptor u = .ok inherited v ∧
      own = renamer.method parent.name name descriptor ∧
      (∀ renamed, renamer.method? parent.name name descriptor = some renamed → own = renamed ∧ inherited = renamed) ∧
      (renamer.method? parent.name name descriptor = none → (Ancestry.mk settings shape parent).Bounded oracle →
        (Ancestry.mk settings shape parent).Renamed name descriptor renamer inherited) ∧
      (own = inherited ↔ (renamer.method? parent.name name descriptor).isSome ∨ inherited = name) := by
  have ordinary := overrides.ordinary
  obtain ⟨t, found⟩ := Oracle.declaring_super answers (overrides.inherits ▸ overrides.foreign)
    (overrides.inherits ▸ overrides.declared) s
  have ran := Oracle.rename_unruled renamer settings child ordinary unruled found
  rw [overrides.inherits, Option.map_some, Option.getD_some] at ran
  have own := renamer.method_ordinary parent.name ordinary descriptor
  -- With a rule for the super class both follow it. Without one only the super class looks further
  -- up.
  cases ruled : renamer.method? parent.name name descriptor with
  | some renamed =>
      rw [ruled, Option.getD_some] at own
      refine ⟨_, renamed, t, u, ran, Oracle.rename_ruled renamer ordinary ruled u, rfl, ?_, nofun, ?_⟩
      · rintro _ ⟨⟩
        exact ⟨own, rfl⟩
      · simp [own]
  | none =>
      rw [ruled, Option.getD_none] at own
      obtain ⟨owner, v, search, _⟩ := Oracle.yields_declaring answers.never_fails settings parent
        name descriptor u
      have above := Oracle.rename_unruled renamer settings parent ordinary ruled search
      refine ⟨_, _, t, v, ran, above, rfl, nofun, fun _ bounded => ?_, ?_⟩
      · obtain ⟨renamed, _, again, answer⟩ := Oracle.rename_answers renamer answers bounded ordinary ruled u
        rw [above] at again
        cases again
        exact answer
      · simp [own, eq_comm]

def chainShapes : List (Name × Shape) :=
  [(.ofString "B", { ancestors := [.ofString "C"], methods := [(.ofString "run", .ofString "()V")] }),
    (.ofString "C", { ancestors := [.object], methods := [(.ofString "run", .ofString "()V")] })]

def chainShape (c : Name) : Shape := (chainShapes.lookup c).getD {}

def chainOracle : Oracle Unit := .ofFunction (fun c => .ok (chainShape c)) 2

def chainChild : Lineage := ⟨.ofString "A", .ofString "B", []⟩

def chainParent : Lineage := ⟨.ofString "B", .ofString "C", []⟩

def chainRules (owner : String) : RuleSet :=
  ({} : RuleSet).putMethod ⟨.ofString owner, .ofString "run", some (.ofString "()V")⟩ (.ofString "go")

theorem chain_overrides : chainChild.Overrides chainParent {} chainShape (.ofString "run") (.ofString "()V") :=
  ⟨rfl, rfl, rfl, rfl, rfl⟩

theorem override_named_after_super_sample :
    chainChild.Overrides chainParent {} chainShape (.ofString "run") (.ofString "()V") ∧
      ∃ own inherited t v,
        chainOracle.renameMethod (chainRules "B").renamer {} chainChild (.ofString "run") (.ofString "()V") () = .ok own t ∧
        chainOracle.renameMethod (chainRules "B").renamer {} chainParent (.ofString "run") (.ofString "()V") () =
          .ok inherited v ∧
        own = .ofString "go" ∧ own = inherited := by
  obtain ⟨own, inherited, t, v, ran, above, _, ruled, _, alike⟩ := override_named_after_super (chainRules "B").renamer
    chainOracle {} chainShape (Oracle.of_function_answers _ _) chainChild chainParent (.ofString "run") (.ofString "()V")
    chain_overrides rfl () ()
  exact ⟨chain_overrides, own, inherited, t, v, ran, above, (ruled _ rfl).1, alike.mpr (.inl rfl)⟩

/-- Of three classes the topmost has a rule. The middle one follows it and the lowest does not. -/
theorem override_apart_from_super :
    chainOracle.Answers (fun c => .ok (chainShape c)) ∧
      chainChild.Overrides chainParent {} chainShape (.ofString "run") (.ofString "()V") ∧
      (chainRules "C").renamer.method? chainChild.name (.ofString "run") (.ofString "()V") = none ∧
      chainOracle.renameMethod (chainRules "C").renamer {} chainChild (.ofString "run") (.ofString "()V") () =
        .ok (.ofString "run") () ∧
      chainOracle.renameMethod (chainRules "C").renamer {} chainParent (.ofString "run") (.ofString "()V") () =
        .ok (.ofString "go") () ∧
      Name.ofString "run" ≠ .ofString "go" :=
  ⟨Oracle.of_function_answers _ _, chain_overrides, rfl, rfl, rfl, by decide⟩

end Relabel
