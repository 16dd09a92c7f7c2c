import Relabel.Hierarchy.Extract
import Relabel.Rename.Rules

set_option autoImplicit false

namespace Relabel

structure Oracle (σ : Type) where
  lookup : Name → EStateM Fault σ Shape
  /-- How many classes its answers may list as ancestors, which bounds a search that follows them. -/
  extent : Nat

namespace Oracle

variable {σ : Type}

def ofFunction (shape : Name → Except Fault Shape) (extent : Nat) : Oracle σ where
  lookup name s :=
    match shape name with
    | .ok shape => .ok shape s
    | .error e => .error e s
  extent

def empty : Oracle σ := ofFunction (fun _ => .ok {}) 0

def recorded (oracle : Oracle σ) : Oracle (σ × List Name) where
  lookup name := fun (s, asked) =>
    match oracle.lookup name s with
    | .ok shape s => .ok shape (s, name :: asked)
    | .error e s => .error e (s, name :: asked)
  extent := oracle.extent

def cached (oracle : Oracle σ) : Oracle (σ × Rules Name Shape) where
  lookup name := fun (s, known) =>
    match known.get? name with
    | some shape => .ok shape (s, known)
    | none =>
      match oracle.lookup name s with
      | .ok shape s => .ok shape (s, known.insert name shape)
      | .error e s => .error e (s, known)
  extent := oracle.extent

end Oracle

abbrev ClassPath := Rules Name Bytes

namespace ClassPath

def addClass (path : ClassPath) (data : Bytes) : Except Fault (Name × ClassPath) := do
  let found ← NamedShape.ofBytes data
  return (found.name, path.insert found.name data)

def shape (path : ClassPath) (name : Name) : Except Fault Shape :=
  match path.get? name with
  | none => .ok {}
  | some data => (NamedShape.ofBytes data).map NamedShape.shape

def extent (path : ClassPath) : Nat :=
  (path.entries.map fun (_, data) =>
    match NamedShape.ofBytes data with
    | .ok found => found.shape.ancestors.length
    | .error _ => 0).foldl (· + ·) 0

def oracle {σ : Type} (path : ClassPath) : Oracle σ := .ofFunction path.shape path.extent

end ClassPath

end Relabel
