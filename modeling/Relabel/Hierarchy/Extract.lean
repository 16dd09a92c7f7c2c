import Relabel.Hierarchy.Shape
import Relabel.Pool.NameTable

set_option autoImplicit false

namespace Relabel

structure NamedShape where
  name : Name
  shape : Shape
deriving DecidableEq, Inhabited

instance : MonadLift (Except Fault) Read where
  monadLift
    | .ok a => fun c => .ok a c
    | .error e => fun c => .error e c

namespace Walk

def className (names : NameTable) (entries : List Entry) (index : Nat) : Except Fault Name :=
  match (entries.find? (·.index = index)).map Entry.constant with
  | some (.classRef name) =>
    if name = 0 then .error (.wrongEntry index EntryKind.classRef.label) else names.get name.toNat
  | _ => .error (.wrongEntry index EntryKind.classRef.label)

end Walk

namespace NamedShape

open Read

def readMethod (names : NameTable) : Read (Name × Name) := do
  skip 2
  let name ← names.get (← index)
  let descriptor ← names.get (← index)
  skipAttributes
  return (name, descriptor)

def read (names : NameTable) (className : Nat → Except Fault Name) : Read NamedShape := do
  skip 2
  let name ← className (← index)
  let superClass ← index
  let superName ← if superClass = 0 then pure Name.object else className superClass
  let count ← index
  let interfaces ← collect count do
    className (← index)
  let fieldCount ← index
  times fieldCount do
    skip 6
    skipAttributes
  let methodCount ← index
  let methods ← collect methodCount (readMethod names)
  let shape : Shape := { ancestors := superName :: interfaces }
  return ⟨name, methods.foldl (fun shape (name, descriptor) => shape.addMethod name descriptor) shape⟩

def ofBytes (data : Bytes) : Except Fault NamedShape := do
  let walk := Walk.ofBytes data
  let layout ← walk.outcome
  let names := NameTable.ofEntries layout.count walk.entries
  match read names (Walk.className names walk.entries) (.startAt data layout.stop) with
  | .ok found _ => return found
  | .error e _ => throw e

end NamedShape

end Relabel
