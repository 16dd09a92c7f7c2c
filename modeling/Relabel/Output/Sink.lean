import Relabel.Output.Path
import Relabel.Rename.RenamedClass

set_option autoImplicit false

namespace Relabel

structure Sink (τ : Type) where
  write : Name → Bytes → EStateM Fault τ Unit

structure Outputs where
  entries : List (Name × Bytes) := []

namespace Outputs

def insertSorted (name : Name) (data : Bytes) : List (Name × Bytes) → List (Name × Bytes)
  | [] => [(name, data)]
  | (held, old) :: rest =>
    match name.order held with
    | .lt => (name, data) :: (held, old) :: rest
    | .eq => (name, data) :: rest
    | .gt => (held, old) :: insertSorted name data rest

def put (outputs : Outputs) (name : Name) (data : Bytes) : Outputs :=
  ⟨insertSorted name data outputs.entries⟩

def get? (outputs : Outputs) (name : Name) : Option Bytes := outputs.entries.lookup name

def names (outputs : Outputs) : List Name := outputs.entries.map (·.1)

def size (outputs : Outputs) : Nat := outputs.entries.length

def isEmpty (outputs : Outputs) : Bool := outputs.entries.isEmpty

end Outputs

namespace Sink

def memory : Sink Outputs where
  write name data := modify (·.put name data)

def closed {τ : Type} : Sink τ where
  write _ _ := throw (.io "closed")

end Sink

def renameInto {σ τ : Type} (renamer : Renamer) (oracle : Oracle σ) (settings : Settings)
    (sink : Sink τ) (data : Bytes) : EStateM Fault (Progress σ × τ) Name := fun (p, t) =>
  match renameClass renamer oracle settings data p with
  | .error e p => .error e (p, t)
  | .ok renamed p =>
    match sink.write renamed.name renamed.bytes t with
    | .error e t => .error e (p, t)
    | .ok _ t => .ok renamed.name (p, t)

end Relabel
