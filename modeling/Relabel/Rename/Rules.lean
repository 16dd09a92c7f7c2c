
set_option autoImplicit false

namespace Relabel

structure Rules (κ ν : Type) where
  /-- Newest first, no key twice. -/
  entries : List (κ × ν) := []

namespace Rules

variable {κ ν : Type} [BEq κ]

def get? (rules : Rules κ ν) (key : κ) : Option ν := rules.entries.lookup key

def contains (rules : Rules κ ν) (key : κ) : Bool := (rules.get? key).isSome

def size (rules : Rules κ ν) : Nat := rules.entries.length

def insert (rules : Rules κ ν) (key : κ) (value : ν) : Rules κ ν :=
  ⟨(key, value) :: rules.entries.filter fun entry => !(entry.1 == key)⟩

def insertNew (rules : Rules κ ν) (key : κ) (value : ν) : Rules κ ν :=
  if rules.contains key then rules else ⟨(key, value) :: rules.entries⟩

def toList (rules : Rules κ ν) : List (κ × ν) := rules.entries.reverse

end Rules

end Relabel
