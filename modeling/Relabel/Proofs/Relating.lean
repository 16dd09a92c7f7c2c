import Relabel.Proofs.Steps

set_option autoImplicit false

namespace Relabel

variable {ε σ τ α β γ δ : Type}

/-- Where the first of two steps succeeds, started side by side, so does the second, and they end
side by side. -/
def Relates (pre : σ → τ → Prop) (x : EStateM ε σ α) (y : EStateM ε τ β) (post : α → σ → β → τ → Prop) : Prop :=
  ∀ s t a s', pre s t → x s = .ok a s' → ∃ b t', y t = .ok b t' ∧ post a s' b t'

variable {pre : σ → τ → Prop} {post : γ → σ → δ → τ → Prop}

theorem relates_pure {a : α} {b : β} {post : α → σ → β → τ → Prop} (settled : ∀ s t, pre s t → post a s b t) :
    Relates pre (pure a : EStateM ε σ α) (pure b : EStateM ε τ β) post := by
  intro s t a' s' started ran
  cases ran
  exact ⟨b, t, rfl, settled s t started⟩

theorem relates_bind {middle : α → σ → β → τ → Prop} {x : EStateM ε σ α} {y : EStateM ε τ β}
    {f : α → EStateM ε σ γ} {g : β → EStateM ε τ δ} (first : Relates pre x y middle)
    (second : ∀ a b, Relates (fun s t => middle a s b t) (f a) (g b) post) : Relates pre (x >>= f) (y >>= g) post := by
  intro s t c s' started ran
  obtain ⟨a, reached, ranFirst, ranSecond⟩ := bind_ok_inv ran
  obtain ⟨b, there, otherFirst, held⟩ := first s t a reached started ranFirst
  obtain ⟨d, t', otherSecond, done⟩ := second a b reached there c s' held ranSecond
  exact ⟨d, t', by rw [bind_ok otherFirst, otherSecond], done⟩

theorem relates_equal {held : α → σ → τ → Prop} {f : α → EStateM ε σ γ} {g : α → EStateM ε τ δ}
    (each : ∀ a, Relates (held a) (f a) (g a) post) (a b : α) :
    Relates (fun s t => a = b ∧ held a s t) (f a) (g b) post := by
  rintro s t c s' ⟨rfl, started⟩ ran
  exact each a s t c s' started ran

theorem relates_ahead {middle : α → σ → τ → Prop} {x : EStateM ε σ α} {f : α → EStateM ε σ γ} {y : EStateM ε τ δ}
    (first : ∀ s t a s', pre s t → x s = .ok a s' → middle a s' t)
    (second : ∀ a, Relates (middle a) (f a) y post) : Relates pre (x >>= f) y post := by
  intro s t c s' started ran
  obtain ⟨a, reached, ranFirst, ranSecond⟩ := bind_ok_inv ran
  exact second a reached t c s' (first s t a reached started ranFirst) ranSecond

theorem relates_behind {middle : σ → τ → Prop} {x : EStateM ε σ γ} {y : EStateM ε τ β} {g : β → EStateM ε τ δ} {b : β}
    (first : ∀ s t, pre s t → ∃ t', y t = .ok b t' ∧ middle s t') (second : Relates middle x (g b) post) :
    Relates pre x (y >>= g) post := by
  intro s t c s' started ran
  obtain ⟨there, other, held⟩ := first s t started
  obtain ⟨d, t', rest, done⟩ := second s there c s' held ran
  exact ⟨d, t', by rw [bind_ok other, rest], done⟩

theorem relates_times (n : Nat) {x : EStateM ε σ Unit} {y : EStateM ε τ Unit}
    (one : Relates pre x y fun _ s _ t => pre s t) :
    Relates pre (times n x) (times n y) fun _ s _ t => pre s t := by
  induction n with
  | zero => exact relates_pure fun _ _ started => started
  | succ n ih =>
      rw [times_succ, times_succ]
      exact relates_bind one fun _ _ => ih

theorem relates_times_collect (n : Nat) {x : EStateM ε σ Unit} {y : EStateM ε τ β} (held : List β → σ → τ → Prop)
    (one : ∀ done, Relates (held done) x y fun _ s b t => held (done ++ [b]) s t) (done : List β) :
    Relates (held done.reverse) (times n x) (collectOnto done n y) fun _ s found t => held found s t := by
  induction n generalizing done with
  | zero => exact relates_pure fun _ _ started => started
  | succ n ih =>
      rw [times_succ, collect_onto_succ]
      refine relates_bind (one done.reverse) fun _ b => ?_
      have rest := ih (b :: done)
      rwa [List.reverse_cons] at rest

theorem relates_collect_times (n : Nat) {x : EStateM ε σ α} {y : EStateM ε τ Unit} (held : List α → σ → τ → Prop)
    (one : ∀ done, Relates (held done) x y fun a s _ t => held (done ++ [a]) s t) (done : List α) :
    Relates (held done.reverse) (collectOnto done n x) (times n y) fun found s _ t => held found s t := by
  induction n generalizing done with
  | zero => exact relates_pure fun _ _ started => started
  | succ n ih =>
      rw [times_succ, collect_onto_succ]
      refine relates_bind (one done.reverse) fun a _ => ?_
      have rest := ih (a :: done)
      rwa [List.reverse_cons] at rest

theorem relates_collect (n : Nat) {x : EStateM ε σ α} {y : EStateM ε τ α}
    (one : Relates pre x y fun a s b t => a = b ∧ pre s t) (done : List α) :
    Relates pre (collectOnto done n x) (collectOnto done n y) fun found s same t => found = same ∧ pre s t := by
  induction n generalizing done with
  | zero => exact relates_pure fun _ _ started => ⟨rfl, started⟩
  | succ n ih =>
      rw [collect_onto_succ, collect_onto_succ]
      exact relates_bind one (relates_equal fun a => ih (a :: done))

end Relabel
