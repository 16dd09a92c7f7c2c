import Relabel.Hierarchy.Search
import Relabel.Proofs.ModifiedText
import Relabel.Proofs.Steps
import Relabel.Rename.RuleSet

set_option autoImplicit false

namespace Relabel

open Text.Modified (Shared)

namespace Settings

variable (settings : Settings) (text : String)

def Begins : Prop := ∃ start ∈ settings.platform, (∀ c ∈ start.toList, Shared c) ∧ start.toList <+: text.toList

theorem platform_text_iff : settings.isPlatform (.ofString text) = true ↔ settings.Begins text := by
  simp only [isPlatform, List.any_eq_true, Name.startsWith, Name.ofString, List.isPrefixOf_iff_prefix,
    Text.Modified.standard_begins_iff, Begins]

theorem foreign_text_iff : settings.isPlatform (.ofString text) = false ↔ ¬ settings.Begins text := by
  rw [← platform_text_iff, Bool.not_eq_true]

end Settings

namespace Oracle

variable {σ α β : Type}

def asked : EStateM.Result Fault (σ × List Name) α → List Name
  | .ok _ (_, names) => names
  | .error _ (_, names) => names

def Adds (allowed : Name → Prop) (act : EStateM Fault (σ × List Name) α) : Prop :=
  ∀ s names, ∃ more, asked (act (s, names)) = more ++ names ∧ ∀ c ∈ more, allowed c

variable {allowed : Name → Prop}

theorem adds_pure (a : α) : Adds allowed (pure a : EStateM Fault (σ × List Name) α) :=
  fun _ _ => ⟨[], rfl, fun _ member => absurd member List.not_mem_nil⟩

theorem adds_bind {x : EStateM Fault (σ × List Name) α} {f : α → EStateM Fault (σ × List Name) β}
    (first : Adds allowed x) (rest : ∀ a, Adds allowed (f a)) : Adds allowed (x >>= f) := by
  intro s names
  obtain ⟨more, adds, all⟩ := first s names
  cases ran : x (s, names) with
  | error e t =>
      rw [bind_error ran]
      exact ⟨more, by rw [← adds, ran]; rfl, all⟩
  | ok a t =>
      rw [bind_ok ran]
      rw [ran] at adds
      obtain ⟨others, later, each⟩ := rest a t.1 t.2
      change t.2 = more ++ names at adds
      refine ⟨others ++ more, ?_, fun c member => (List.mem_append.mp member).elim (each c) (all c)⟩
      rw [List.append_assoc, ← adds]
      exact later

theorem bind_asked {x : EStateM Fault (σ × List Name) α} {f : α → EStateM Fault (σ × List Name) β} {s : σ × List Name}
    {c : Name} (member : c ∈ asked (x s)) (rest : ∀ a, Adds allowed (f a)) : c ∈ asked ((x >>= f) s) := by
  cases ran : x s with
  | error e t =>
      rw [ran] at member
      rw [bind_error ran]
      exact member
  | ok a t =>
      rw [ran] at member
      rw [bind_ok ran]
      obtain ⟨others, later, _⟩ := rest a t.1 t.2
      change c ∈ asked (f a (t.1, t.2))
      rw [later]
      exact List.mem_append_right others member

variable (oracle : Oracle σ)

theorem request_asked (c : Name) (s : σ) (names : List Name) :
    asked (oracle.recorded.request c (s, names)) = c :: names := by
  simp only [request, recorded]
  cases oracle.lookup c s with
  | ok shape t => rfl
  | error e t => cases e <;> rfl

theorem request_adds {c : Name} (fine : allowed c) : Adds allowed (oracle.recorded.request c) := by
  intro s names
  refine ⟨[c], oracle.request_asked c s names, fun d member => ?_⟩
  rw [List.mem_singleton.mp member]
  exact fine

variable (settings : Settings) (lineage : Lineage) (name descriptor : Name)

theorem shape_adds (c : Name) : Adds (settings.isPlatform · = false) (oracle.recorded.shapeOf settings c) := by
  rw [shapeOf]
  cases platform : settings.isPlatform c with
  | true => exact adds_pure _
  | false => exact oracle.request_adds platform

theorem search_adds (fuel : Nat) (queue seen : List Name) :
    Adds (settings.isPlatform · = false) (oracle.recorded.search settings name descriptor fuel queue seen) := by
  induction fuel generalizing queue seen with
  | zero => exact adds_pure none
  | succ fuel ih =>
      rw [search]
      cases dropped : queue.dropWhile fun c => settings.isPlatform c || seen.contains c with
      | nil => exact adds_pure none
      | cons c rest =>
          have first := List.head?_dropWhile_not (fun c => settings.isPlatform c || seen.contains c) queue
          rw [dropped] at first
          have foreign : settings.isPlatform c = false := (Bool.or_eq_false_iff.mp first).1
          refine adds_bind (oracle.request_adds foreign) fun shape => ?_
          split
          · exact adds_pure _
          · exact ih _ _

theorem onward_adds (shape : Shape) : Adds (settings.isPlatform · = false) (do
    if shape.declares name descriptor then return some lineage.superName
    oracle.recorded.search settings name descriptor (oracle.recorded.extent + lineage.interfaces.length)
      (shape.ancestors ++ lineage.interfaces) [lineage.superName]) := by
  split
  · exact adds_pure _
  · exact oracle.search_adds settings name descriptor _ _ _

theorem declaring_adds :
    Adds (settings.isPlatform · = false) (oracle.recorded.declaring? settings lineage name descriptor) :=
  adds_bind (oracle.shape_adds settings lineage.superName) (oracle.onward_adds settings lineage name descriptor)

theorem rename_adds (renamer : Renamer) :
    Adds (settings.isPlatform · = false) (oracle.recorded.renameMethod renamer settings lineage name descriptor) := by
  rw [renameMethod]
  split
  · exact adds_pure name
  cases renamer.method? lineage.name name descriptor with
  | some renamed => exact adds_pure renamed
  | none =>
      refine adds_bind (oracle.declaring_adds settings lineage name descriptor) fun owner => ?_
      cases owner <;> exact adds_pure _

variable {settings lineage name descriptor}

theorem declaring_asked (foreign : settings.isPlatform lineage.superName = false) (s : σ) :
    lineage.superName ∈ asked (oracle.recorded.declaring? settings lineage name descriptor (s, [])) := by
  have shaped : lineage.superName ∈ asked (oracle.recorded.shapeOf settings lineage.superName (s, [])) := by
    simp only [shapeOf, foreign, Bool.false_eq_true, if_false]
    rw [oracle.request_asked]
    exact .head _
  exact bind_asked shaped (oracle.onward_adds settings lineage name descriptor)

theorem rename_asked {renamer : Renamer} (ordinary : name.isSpecial = false)
    (unruled : renamer.method? lineage.name name descriptor = none)
    (foreign : settings.isPlatform lineage.superName = false) (s : σ) :
    lineage.superName ∈ asked (oracle.recorded.renameMethod renamer settings lineage name descriptor (s, [])) := by
  simp only [renameMethod, ordinary, unruled, Bool.false_eq_true, if_false]
  refine bind_asked (oracle.declaring_asked foreign s) fun owner => (?_ : Adds (fun _ => True) _)
  cases owner <;> exact adds_pure _

end Oracle

/-- A listed prefix is compared in standard form with names in the form they are stored in. It
matches as text if both forms write it alike, and otherwise matches nothing: a search for a method
passes over the classes that it matches, and asks for the others. -/
theorem shared_prefixes_match {σ : Type} (settings : Settings) (text : String) (oracle : Oracle σ) (renamer : Renamer)
    (lineage : Lineage) (name descriptor : Name) (s : σ) :
    (settings.isPlatform (.ofString text) = true ↔
      ∃ start ∈ settings.platform, (∀ c ∈ start.toList, Shared c) ∧ start.toList <+: text.toList) ∧
    (∀ start ∈ settings.platform, (∀ c ∈ start.toList, Shared c) → start.toList <+: text.toList →
      Name.ofString text ∉ Oracle.asked (oracle.recorded.renameMethod renamer settings lineage name descriptor (s, []))) ∧
    (lineage.superName = .ofString text → name.isSpecial = false → renamer.method? lineage.name name descriptor = none →
      (∀ start ∈ settings.platform, start.toList <+: text.toList → ∃ c ∈ start.toList, ¬ Shared c) →
      Name.ofString text ∈ Oracle.asked (oracle.recorded.renameMethod renamer settings lineage name descriptor (s, []))) := by
  refine ⟨settings.platform_text_iff text, fun start listed shared begins member => ?_,
    fun named ordinary unruled missed => ?_⟩
  · obtain ⟨more, adds, foreign⟩ := oracle.rename_adds settings lineage name descriptor renamer s []
    rw [adds, List.append_nil] at member
    exact (settings.foreign_text_iff text).mp (foreign _ member) ⟨start, listed, shared, begins⟩
  · rw [← named]
    refine oracle.rename_asked ordinary unruled ?_ s
    rw [named, settings.foreign_text_iff]
    rintro ⟨start, listed, shared, begins⟩
    obtain ⟨c, member, apart⟩ := missed start listed begins
    exact apart (shared c member)

def foreignPrefixes : Settings := { platform := ["é/", "😀/"] }

def heirOf (superName : String) : Lineage := ⟨.ofString "A", .ofString superName, []⟩

theorem shared_prefixes_match_accented :
    foreignPrefixes.isPlatform (.ofString "é/B") = true ∧
    Name.ofString "é/B" ∉ Oracle.asked ((Oracle.empty : Oracle Unit).recorded.renameMethod ({} : RuleSet).renamer
      foreignPrefixes (heirOf "é/B") (.ofString "run") (.ofString "()V") ((), [])) ∧
    Name.ofString "😀/B" ∈ Oracle.asked ((Oracle.empty : Oracle Unit).recorded.renameMethod ({} : RuleSet).renamer
      foreignPrefixes (heirOf "😀/B") (.ofString "run") (.ofString "()V") ((), [])) := by
  obtain ⟨matched, skipped, _⟩ := shared_prefixes_match foreignPrefixes "é/B" (Oracle.empty : Oracle Unit)
    ({} : RuleSet).renamer (heirOf "é/B") (.ofString "run") (.ofString "()V") ()
  obtain ⟨_, _, missed⟩ := shared_prefixes_match foreignPrefixes "😀/B" (Oracle.empty : Oracle Unit)
    ({} : RuleSet).renamer (heirOf "😀/B") (.ofString "run") (.ofString "()V") ()
  have shared : ∀ c ∈ "é/".toList, Shared c := by simp [Shared]
  have begins : "é/".toList <+: "é/B".toList := ⟨['B'], rfl⟩
  refine ⟨matched.mpr ⟨"é/", by decide, shared, begins⟩, skipped "é/" (by decide) shared begins,
    missed rfl (by decide) rfl fun start listed begins => ?_⟩
  rcases List.mem_cons.mp listed with rfl | listed
  · exact absurd (List.isPrefixOf_iff_prefix.mpr begins) (by decide)
  · rw [List.mem_singleton.mp listed]
    exact ⟨'😀', by decide, by decide⟩

/-- The prefix is listed and begins the name, but the class is taken for one of the program's own
and asked for. -/
theorem listed_prefix_overlooked :
    "😀/" ∈ foreignPrefixes.platform ∧ foreignPrefixes.isPlatform (.ofString ("😀/" ++ "B")) = false ∧
      (Oracle.empty : Oracle Unit).recorded.renameMethod ({} : RuleSet).renamer foreignPrefixes (heirOf ("😀/" ++ "B"))
        (.ofString "run") (.ofString "()V") ((), []) = .ok (.ofString "run") ((), [.ofString ("😀/" ++ "B")]) :=
  ⟨by decide, by decide, rfl⟩

end Relabel
