import Relabel.Proofs.Mirroring
import Relabel.Proofs.RenamedTexts

set_option autoImplicit false

namespace Relabel

section

variable {ε σ α β : Type}

def Yields (post : α → Prop) (act : EStateM ε σ α) : Prop := ∀ s, ∃ a t, act s = .ok a t ∧ post a

theorem yields_pure {post : α → Prop} (a : α) (said : post a) : Yields post (pure a : EStateM ε σ α) :=
  fun s => ⟨a, s, rfl, said⟩

theorem yields_bind {first : α → Prop} {post : β → Prop} {x : EStateM ε σ α} {f : α → EStateM ε σ β}
    (one : Yields first x) (other : ∀ a, first a → Yields post (f a)) : Yields post (x >>= f) := by
  intro s
  obtain ⟨a, t, ran, said⟩ := one s
  obtain ⟨b, u, ranRest, result⟩ := other a said t
  exact ⟨b, u, by rw [bind_ok ran, ranRest], result⟩

end

namespace Oracle

variable {σ τ : Type}

def Answers (oracle : Oracle σ) (shape : Name → Except Fault Shape) : Prop :=
  ∀ name s, ∃ t, oracle.lookup name s = match shape name with
    | .ok found => .ok found t
    | .error e => .error e t

theorem of_function_answers (shape : Name → Except Fault Shape) (extent : Nat) :
    (ofFunction shape extent : Oracle σ).Answers shape := by
  intro name s
  refine ⟨s, ?_⟩
  cases found : shape name <;> simp [ofFunction, found]

variable {one : Oracle σ} {other : Oracle τ} {shape : Name → Except Fault Shape}

def AnyStates (_ : σ) (_ : τ) : Prop := True

def SameValue {α : Type} (a : α) (s : σ) (b : α) (t : τ) : Prop := a = b ∧ AnyStates s t

theorem Answers.mirrored (first : one.Answers shape) (second : other.Answers shape) (extent : one.extent = other.extent) :
    one.MirroredBy other AnyStates := by
  refine ⟨fun name s t _ => ?_, extent⟩
  obtain ⟨s', answer⟩ := first name s
  obtain ⟨t', same⟩ := second name t
  rw [answer, same]
  cases shape name with
  | ok found => exact .ok found s' t' trivial
  | error e => exact .error e s' t' trivial

theorem rename_method_alike (first : one.Answers shape) (second : other.Answers shape)
    (extent : one.extent = other.extent) (renamer : Renamer) (settings : Settings) (lineage : Lineage)
    (name descriptor : Name) :
    Relates AnyStates (one.renameMethod renamer settings lineage name descriptor)
      (other.renameMethod renamer settings lineage name descriptor) SameValue :=
  ((first.mirrored second extent).rename_method renamer settings lineage name descriptor).relates

def NeverFails (oracle : Oracle σ) : Prop := ∀ name, Yields (fun _ => True) (oracle.lookup name)

theorem Answers.never_fails {oracle : Oracle σ} {shape : Name → Shape} (answers : oracle.Answers fun c => .ok (shape c)) :
    oracle.NeverFails := by
  intro c s
  obtain ⟨t, answer⟩ := answers c s
  exact ⟨shape c, t, answer, trivial⟩

section

variable {oracle : Oracle σ} (answers : oracle.NeverFails)

include answers

theorem yields_request (name : Name) : Yields (fun _ => True) (oracle.request name) := by
  intro s
  obtain ⟨shape, t, found, _⟩ := answers name s
  exact ⟨shape, t, by rw [request, found], trivial⟩

theorem yields_shape_of (settings : Settings) (name : Name) : Yields (fun _ => True) (oracle.shapeOf settings name) := by
  by_cases platform : settings.isPlatform name
  · rw [shapeOf, if_pos platform]
    exact yields_pure _ trivial
  · rw [shapeOf, if_neg platform]
    exact yields_request answers name

theorem yields_search (settings : Settings) (name descriptor : Name) (fuel : Nat) (queue seen : List Name) :
    Yields (fun _ => True) (oracle.search settings name descriptor fuel queue seen) := by
  induction fuel generalizing queue seen with
  | zero => exact yields_pure _ trivial
  | succ fuel ih =>
      rw [search]
      split
      · exact yields_pure _ trivial
      · rename_i candidate rest _
        refine yields_bind (yields_request answers candidate) fun shape _ => ?_
        by_cases declared : shape.declares name descriptor
        · rw [if_pos declared]
          exact yields_pure _ trivial
        · rw [if_neg declared]
          exact ih _ _

theorem yields_declaring (settings : Settings) (lineage : Lineage) (name descriptor : Name) :
    Yields (fun _ => True) (oracle.declaring? settings lineage name descriptor) := by
  refine yields_bind (yields_shape_of answers settings lineage.superName) fun shape _ => ?_
  by_cases declared : shape.declares name descriptor
  · simp only [declared, if_true]
    exact yields_pure _ trivial
  · simp only [declared, Bool.false_eq_true, if_false]
    exact yields_search answers settings name descriptor _ _ _

end

end Oracle

namespace Renaming

variable {σ α β : Type}

structure Settled (act : Renaming σ α) (answer : Option α) : Prop where
  gives : ∀ a, answer = some a → ∀ p, ∃ q, act p = .ok a q
  only : ∀ p a q, act p = .ok a q → answer = some a
  silent : ∀ p a q, act p = .ok a q → q.warnings = p.warnings

theorem settled_known (answer : Except Fault α) : Settled (answer : Renaming σ α) answer.toOption := by
  constructor
  · intro a known p
    cases answer with
    | error e => cases known
    | ok b =>
        cases known
        exact ⟨p, rfl⟩
  · intro p a q ran
    rw [(lift_ok_inv ran).1]
    rfl
  · intro p a q ran
    rw [(lift_ok_inv ran).2]

theorem settled_failing {act : Renaming σ α} (fails : ∀ p a q, act p ≠ .ok a q) : Settled act none where
  gives _ told := nomatch told
  only p a q ran := absurd ran (fails p a q)
  silent p a q ran := absurd ran (fails p a q)

theorem settled_ask {act : EStateM Fault σ α} {answer : Option α} (gives : ∀ a, answer = some a → ∀ s, ∃ t, act s = .ok a t)
    (only : ∀ s a t, act s = .ok a t → answer = some a) : Settled (ask act) answer := by
  refine ⟨fun a known p => ?_, fun p a q ran => ?_, fun p a q ran => ask_warnings ran⟩
  · obtain ⟨t, ran⟩ := gives a known p.oracle
    exact ⟨{ p with oracle := t }, by rw [ask, ran]⟩
  · cases asked : act p.oracle with
    | ok b t =>
        rw [ask, asked] at ran
        cases ran
        exact only p.oracle a t asked
    | error e t =>
        rw [ask, asked] at ran
        cases ran

theorem agree_inv {index : Nat} {held used : Name} {rename : α → Renaming σ Name} {answer : α → Option Name}
    (settled : ∀ user, Settled (rename user) (answer user)) (users : List α) (p q : Progress σ)
    (ran : agree index held used rename users p = .ok () q) :
    (q.warnings = p.warnings ∧ ∀ user ∈ users, answer user = some used) ∨
      ∃ user ∈ users, ∃ other, answer user = some other ∧ other ≠ used ∧
        q.warnings = p.warnings.push (.sharedName index held used other) := by
  induction users generalizing p with
  | nil =>
      cases ran
      exact .inl ⟨rfl, fun _ member => nomatch member⟩
  | cons user rest ih =>
      obtain ⟨other, middle, asked, ran⟩ := bind_ok_inv ran
      have answered := (settled user).only p other middle asked
      have unsaid := (settled user).silent p other middle asked
      -- The first user that differs ends the comparison.
      by_cases same : other = used
      · rw [if_pos same] at ran
        rcases ih middle ran with ⟨still, agreed⟩ | ⟨apart, member, found⟩
        · left
          refine ⟨still.trans unsaid, fun one member => ?_⟩
          cases member with
          | head => rw [answered, same]
          | tail _ member => exact agreed one member
        · rw [unsaid] at found
          exact .inr ⟨apart, .tail _ member, found⟩
      · rw [if_neg same] at ran
        cases ran
        exact .inr ⟨user, .head _, other, answered, same, by rw [← unsaid]⟩

end Renaming

end Relabel
