
set_option autoImplicit false

namespace Relabel

variable {ε σ α : Type}

def times : Nat → EStateM ε σ Unit → EStateM ε σ Unit
  | 0, _, s => .ok () s
  | n + 1, act, s =>
    match act s with
    | .ok _ s' => times n act s'
    | .error e s' => .error e s'

def collectOnto (done : List α) : Nat → EStateM ε σ α → EStateM ε σ (List α)
  | 0, _, s => .ok done.reverse s
  | n + 1, act, s =>
    match act s with
    | .ok a s' => collectOnto (a :: done) n act s'
    | .error e s' => .error e s'

def collect (n : Nat) (act : EStateM ε σ α) : EStateM ε σ (List α) := collectOnto [] n act

end Relabel
