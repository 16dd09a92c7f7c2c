import Relabel.Hierarchy.Oracle
import Relabel.Rename.Renamer
import Relabel.Settings

set_option autoImplicit false

namespace Relabel

structure Lineage where
  name : Name
  superName : Name
  interfaces : List Name
deriving DecidableEq, Inhabited

namespace Oracle

variable {σ : Type} (oracle : Oracle σ)

def request (name : Name) : EStateM Fault σ Shape := fun s =>
  match oracle.lookup name s with
  | .ok shape s => .ok shape s
  | .error (.oracle className source) s => .error (.oracle className source) s
  | .error e s => .error (.oracle name.display e) s

def shapeOf (settings : Settings) (name : Name) : EStateM Fault σ Shape :=
  if settings.isPlatform name then pure {} else oracle.request name

/-- The first class of the queue that declares the method, where each class that is asked for adds
its ancestors at the end. Platform classes and those seen before are passed over. Each request
takes fuel, and there are no more of them than classes that can be listed. -/
def search (settings : Settings) (name descriptor : Name) :
    (fuel : Nat) → (queue seen : List Name) → EStateM Fault σ (Option Name)
  | 0, _, _ => pure none
  | fuel + 1, queue, seen =>
    match queue.dropWhile fun c => settings.isPlatform c || seen.contains c with
    | [] => pure none
    | candidate :: queue => do
      let shape ← oracle.request candidate
      if shape.declares name descriptor then return some candidate
      else search settings name descriptor fuel (queue ++ shape.ancestors) (candidate :: seen)

def declaring? (settings : Settings) (lineage : Lineage) (name descriptor : Name) :
    EStateM Fault σ (Option Name) := do
  let shape ← oracle.shapeOf settings lineage.superName
  if shape.declares name descriptor then return some lineage.superName
  -- The super class has been asked for, and is not asked again where it lists itself.
  oracle.search settings name descriptor (oracle.extent + lineage.interfaces.length)
    (shape.ancestors ++ lineage.interfaces) [lineage.superName]

def renameMethod (renamer : Renamer) (settings : Settings) (lineage : Lineage)
    (name descriptor : Name) : EStateM Fault σ Name := do
  if name.isSpecial then return name
  match renamer.method? lineage.name name descriptor with
  | some renamed => return renamed
  | none =>
    match ← oracle.declaring? settings lineage name descriptor with
    | some owner => return renamer.method owner name descriptor
    | none => return name

end Oracle

end Relabel
