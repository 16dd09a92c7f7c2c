import Relabel.TypeText.Piece

set_option autoImplicit false

namespace Relabel.Descriptor

structure Machine where
  done : List Piece
  name : Option Bytes

def Machine.step (m : Machine) (b : UInt8) : Machine :=
  match m.name with
  | none => ⟨.copied [b] :: m.done, if b = 'L'.toUInt8 then some [] else none⟩
  | some name =>
    if b = ';'.toUInt8 then ⟨.copied [b] :: .outer ⟨name.reverse⟩ :: m.done, none⟩
    else ⟨m.done, some (b :: name)⟩

def Machine.finish (m : Machine) : List Piece :=
  match m.name with
  | none => m.done.reverse
  | some name => (.copied name.reverse :: m.done).reverse

def pieces (bytes : Bytes) : List Piece :=
  (bytes.foldl Machine.step ⟨[], none⟩).finish

@[specialize]
def renameWith {m : Type → Type} [Monad m] (ask : Name → m Name) (descriptor : Name) : m Name :=
  return ⟨← Piece.writeAll ask (pieces descriptor.bytes)⟩

def rename (renameClass : Name → Name) (descriptor : Name) : Name :=
  Id.run (renameWith (fun name => pure (renameClass name)) descriptor)

def classNames (descriptor : Name) : List Name :=
  ((renameWith (Piece.record id) descriptor).run []).2.reverse

end Relabel.Descriptor
