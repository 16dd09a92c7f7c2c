import Relabel.Repeat

set_option autoImplicit false

namespace Relabel

section

variable {ε σ α β : Type}

instance resultDecidableEq [DecidableEq ε] [DecidableEq σ] [DecidableEq α] : DecidableEq (EStateM.Result ε σ α)
  | .ok a s, .ok b t => decidable_of_iff (a = b ∧ s = t) (by simp)
  | .error d s, .error e t => decidable_of_iff (d = e ∧ s = t) (by simp)
  | .ok .., .error .. | .error .., .ok .. => isFalse nofun

theorem bind_ok {x : EStateM ε σ α} {f : α → EStateM ε σ β} {s t : σ} {a : α} (ran : x s = .ok a t) :
    (x >>= f) s = f a t := by
  simp only [bind, EStateM.bind, ran]

theorem bind_error {x : EStateM ε σ α} {f : α → EStateM ε σ β} {s t : σ} {e : ε} (ran : x s = .error e t) :
    (x >>= f) s = .error e t := by
  simp only [bind, EStateM.bind, ran]

theorem bind_ok_inv {x : EStateM ε σ α} {f : α → EStateM ε σ β} {s u : σ} {b : β}
    (ran : (x >>= f) s = .ok b u) : ∃ a t, x s = .ok a t ∧ f a t = .ok b u := by
  cases first : x s with
  | ok a t => exact ⟨a, t, rfl, by rwa [bind_ok first] at ran⟩
  | error e t =>
      rw [bind_error first] at ran
      cases ran

theorem map_ok_inv {x : EStateM ε σ α} {g : α → β} {s u : σ} {b : β}
    (ran : (do return g (← x) : EStateM ε σ β) s = .ok b u) : ∃ a, x s = .ok a u ∧ b = g a := by
  obtain ⟨a, t, first, finished⟩ := bind_ok_inv ran
  cases finished
  exact ⟨a, first, rfl⟩

theorem bind_error_inv {x : EStateM ε σ α} {f : α → EStateM ε σ β} {s u : σ} {e : ε}
    (ran : (x >>= f) s = .error e u) : x s = .error e u ∨ ∃ a t, x s = .ok a t ∧ f a t = .error e u := by
  cases first : x s with
  | ok a t => exact .inr ⟨a, t, rfl, by rwa [bind_ok first] at ran⟩
  | error e' t =>
      rw [bind_error first] at ran
      cases ran
      exact .inl rfl

theorem except_bind_inv {x : Except ε α} {f : α → Except ε β} {b : β} (ran : (x >>= f) = .ok b) :
    ∃ a, x = .ok a ∧ f a = .ok b := by
  cases x with
  | ok a => exact ⟨a, rfl, ran⟩
  | error e => cases ran

theorem except_ok_bind (a : α) (f : α → Except ε β) : (Except.ok a >>= f) = f a := rfl

theorem except_map_each {f : α → Except ε β} (items : List α) {found : List β} (ran : items.mapM f = .ok found) :
    ∀ item ∈ items, ∃ one, f item = .ok one := by
  induction items generalizing found with
  | nil => exact fun _ none => nomatch none
  | cons first rest ih =>
      rw [List.mapM_cons] at ran
      obtain ⟨one, ranFirst, ran⟩ := except_bind_inv ran
      obtain ⟨others, ranRest, _⟩ := except_bind_inv ran
      intro item member
      cases member with
      | head => exact ⟨one, ranFirst⟩
      | tail _ member => exact ih ranRest item member

theorem except_map_all {f : α → Except ε β} (items : List α) (each : ∀ item ∈ items, ∃ one, f item = .ok one) :
    ∃ found, items.mapM f = .ok found := by
  induction items with
  | nil => exact ⟨[], rfl⟩
  | cons first rest ih =>
      obtain ⟨one, ranFirst⟩ := each first (.head _)
      obtain ⟨others, ranRest⟩ := ih fun item member => each item (.tail _ member)
      exact ⟨one :: others, by rw [List.mapM_cons, ranFirst, ranRest]; rfl⟩

theorem mem_of_lookup [BEq α] [LawfulBEq α] {entries : List (α × β)} {key : α} {value : β}
    (found : entries.lookup key = some value) : (key, value) ∈ entries := by
  obtain ⟨before, after, split, _⟩ := List.lookup_eq_some_iff.mp found
  rw [split]
  exact List.mem_append_right before (.head _)

theorem snoc_cut {items before after : List α} {last one : α} (cut : items ++ [last] = before ++ one :: after) :
    after = [] ∧ before = items ∧ one = last ∨ ∃ rest, after = rest ++ [last] ∧ items = before ++ one :: rest := by
  obtain rfl | ⟨rest, other, rfl⟩ := List.eq_nil_or_concat after
  · obtain ⟨same, ends⟩ := List.append_inj' cut rfl
    cases ends
    exact .inl ⟨rfl, same.symm, rfl⟩
  · rw [List.concat_eq_append] at cut ⊢
    have whole : items ++ [last] = (before ++ one :: rest) ++ [other] := by simpa using cut
    obtain ⟨same, ends⟩ := List.append_inj' whole rfl
    cases ends
    exact .inr ⟨rest, rfl, same⟩

theorem distinct_snoc [DecidableEq α] (items : List α) (last : α) :
    (items ++ [last]).eraseDups = if last ∈ items then items.eraseDups else items.eraseDups ++ [last] := by
  rw [List.eraseDups_append]
  by_cases known : last ∈ items <;> simp [List.removeAll, List.eraseDups_cons, known]

theorem times_succ (n : Nat) (act : EStateM ε σ Unit) : times (n + 1) act = (do act; times n act) := by
  funext s
  cases first : act s with
  | ok a t => simp only [times, first, bind_ok first]
  | error e t => simp only [times, first, bind_error first]

theorem times_add (m n : Nat) (act : EStateM ε σ Unit) : times (m + n) act = (do times m act; times n act) := by
  induction m with
  | zero =>
      rw [Nat.zero_add]
      rfl
  | succ m ih => rw [Nat.succ_add, times_succ, times_succ, ih, bind_assoc]

theorem collect_onto_succ (done : List α) (n : Nat) (act : EStateM ε σ α) :
    collectOnto done (n + 1) act = (do collectOnto ((← act) :: done) n act) := by
  funext s
  cases first : act s with
  | ok a t => simp only [collectOnto, first, bind_ok first]
  | error e t => simp only [collectOnto, first, bind_error first]

theorem collect_onto_each (holds : α → Prop) {act : EStateM ε σ α} (one : ∀ s a t, act s = .ok a t → holds a) (n : Nat)
    (done found : List α) (s t : σ) (before : ∀ a ∈ done, holds a) (ran : collectOnto done n act s = .ok found t) :
    ∀ a ∈ found, holds a := by
  induction n generalizing done s with
  | zero =>
      cases ran
      exact fun a member => before a (List.mem_reverse.mp member)
  | succ n ih =>
      rw [collect_onto_succ] at ran
      obtain ⟨b, middle, first, rest⟩ := bind_ok_inv ran
      refine ih (b :: done) middle (fun a member => ?_) rest
      cases member with
      | head => exact one s b middle first
      | tail _ member => exact before a member

theorem collect_onto_keeps {act : EStateM ε σ α} (n : Nat) (done found : List α) (s t : σ)
    (ran : collectOnto done n act s = .ok found t) : ∀ a ∈ done, a ∈ found := by
  induction n generalizing done s with
  | zero =>
      cases ran
      exact fun a member => List.mem_reverse.mpr member
  | succ n ih =>
      rw [collect_onto_succ] at ran
      obtain ⟨b, middle, _, rest⟩ := bind_ok_inv ran
      exact fun a member => ih (b :: done) middle rest a (.tail _ member)

theorem collect_onto_again (holds : α → Prop) {act : EStateM ε σ α} {other : EStateM ε σ β}
    (one : ∀ s a t, holds a → act s = .ok a t → ∃ b, other s = .ok b t) (n : Nat) (done found : List α) (others : List β)
    (s t : σ) (all : ∀ a ∈ found, holds a) (ran : collectOnto done n act s = .ok found t) :
    ∃ again, collectOnto others n other s = .ok again t := by
  induction n generalizing done others s with
  | zero =>
      cases ran
      exact ⟨_, rfl⟩
  | succ n ih =>
      rw [collect_onto_succ] at ran ⊢
      obtain ⟨a, middle, first, rest⟩ := bind_ok_inv ran
      -- The result is among those found in the end, so the assumption covers it.
      have kept := collect_onto_keeps n (a :: done) found middle t rest a (.head _)
      obtain ⟨b, same⟩ := one s a middle (all a kept) first
      rw [bind_ok same]
      exact ih (a :: done) (b :: others) middle rest

theorem collect_again (holds : α → Prop) {act : EStateM ε σ α} {other : EStateM ε σ β}
    (one : ∀ s a t, holds a → act s = .ok a t → ∃ b, other s = .ok b t) (n : Nat) (found : List α) (s t : σ)
    (all : ∀ a ∈ found, holds a) (ran : collect n act s = .ok found t) : ∃ again, collect n other s = .ok again t :=
  collect_onto_again holds one n [] found [] s t all ran

end

end Relabel
