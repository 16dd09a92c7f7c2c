
set_option autoImplicit false

namespace Relabel

structure Links where
  /-- The targets once set and replaced, each once, in the order of their first replacement. -/
  earlier : List Nat := []
  current : Option Nat := none
deriving DecidableEq, Inhabited

namespace Links

def put (links : Links) (target : Nat) : Links :=
  match links.current with
  | none => { links with current := some target }
  | some held =>
    if held = target ∨ held ∈ links.earlier then { links with current := some target }
    else ⟨links.earlier ++ [held], some target⟩

def toList (links : Links) : List Nat :=
  match links.current with
  | none => links.earlier
  | some held => links.earlier.filter (· ≠ held) ++ [held]

end Links

end Relabel
