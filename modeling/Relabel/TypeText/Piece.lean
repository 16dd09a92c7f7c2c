import Relabel.Name

set_option autoImplicit false

namespace Relabel

inductive Piece where
  | copied (bytes : Bytes)
  | outer (name : Name)
  | inner (owner : Name) (simple : Bytes)
deriving DecidableEq, Inhabited

namespace Name

def nested (owner : Name) (simple : Bytes) : Name := ⟨owner.bytes ++ '$'.toUInt8 :: simple⟩

/-- The simple name to write for an inner class after renaming, from the new full names of its
owner and of itself and its old simple name. -/
def simpleIn (owner inner : Name) (old : Bytes) : Bytes :=
  if owner.length + 1 < inner.length ∧ inner.startsWith (owner.bytes ++ ['$'.toUInt8]) then
    inner.bytes.drop (owner.length + 1)
  else if old.isSuffixOf inner.bytes then old
  else inner.lastPart

end Name

namespace Piece

structure Written where
  -- newest first
  parts : List Bytes := []
  answers : List (Name × Name) := []

variable {m : Type → Type} [Monad m]

/-- Writes a piece. The new name of each class is asked for once, and an inner class is written
after the answer for its owner. -/
@[specialize]
def write (ask : Name → m Name) (written : Written) : Piece → m Written
  | .copied bytes => return { written with parts := bytes :: written.parts }
  | .outer name => do
    let new ← ask name
    return ⟨new.bytes :: written.parts, (name, new) :: written.answers⟩
  | .inner owner simple => do
    let new ← ask (owner.nested simple)
    let outer := (written.answers.lookup owner).getD owner
    return ⟨outer.simpleIn new simple :: written.parts, (owner.nested simple, new) :: written.answers⟩

@[specialize]
def writeAll (ask : Name → m Name) (pieces : List Piece) : m Bytes := do
  let written ← pieces.foldlM (write ask) {}
  return written.parts.reverse.flatten

def record (rename : Name → Name) (name : Name) : StateM (List Name) Name := do
  modify (name :: ·)
  return rename name

end Piece

end Relabel
