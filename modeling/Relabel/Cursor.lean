import Relabel.Fault
import Relabel.Repeat

set_option autoImplicit false

namespace Relabel

/-- An offset, the offset where reading ends and the bytes between them. The offset may lie past
the bound, and then not even an empty read succeeds. -/
structure Cursor where
  pos : Nat
  bound : Nat
  rest : Bytes
  rest_length : rest.length = bound - pos

namespace Cursor

def startAt (data : Bytes) (pos : Nat) : Cursor :=
  ⟨pos, data.length, data.drop pos, List.length_drop⟩

def start (data : Bytes) : Cursor := startAt data 0

def remaining (c : Cursor) : Nat := c.bound - c.pos

def advance (c : Cursor) (length : Nat) : Cursor :=
  ⟨c.pos + length, c.bound, c.rest.drop length, by
    rw [List.length_drop, c.rest_length, Nat.sub_sub]⟩

def window (c : Cursor) (length : Nat) (inside : c.pos + length ≤ c.bound) : Cursor :=
  ⟨c.pos, c.pos + length, c.rest.take length, by
    rw [List.length_take, c.rest_length]
    omega⟩

def shortfall (c : Cursor) (length : Nat) : Fault :=
  .truncated c.pos (length - min c.remaining length)

end Cursor

abbrev Read := EStateM Fault Cursor

namespace Read

def position : Read Nat := fun c => .ok c.pos c

def remaining : Read Nat := fun c => .ok c.remaining c

def bytes (length : Nat) : Read Bytes := fun c =>
  if c.pos + length ≤ c.bound then .ok (c.rest.take length) (c.advance length)
  else .error (c.shortfall length) c

def split (length : Nat) : Read Cursor := fun c =>
  if inside : c.pos + length ≤ c.bound then .ok (c.window length inside) (c.advance length)
  else .error (c.shortfall length) c

def skip (length : Nat) : Read Unit := do
  let _ ← bytes length

def u8 : Read UInt8 := do
  return (BigEndian.decode (← bytes 1)).toUInt8

def u16 : Read UInt16 := do
  return (BigEndian.decode (← bytes 2)).toUInt16

def u32 : Read UInt32 := do
  return (BigEndian.decode (← bytes 4)).toUInt32

def u64 : Read UInt64 := do
  return (BigEndian.decode (← bytes 8)).toUInt64

def index : Read Nat := do
  return (← u16).toNat

def skipAttribute : Read Unit := do
  let _ ← u16
  let length ← u32
  skip length.toNat

def skipAttributes : Read Unit := do
  let count ← index
  times count skipAttribute

end Read

end Relabel
