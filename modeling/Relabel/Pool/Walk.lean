import Relabel.Constant.Basic

set_option autoImplicit false

namespace Relabel

structure Entry where
  index : Nat
  offset : Nat
  constant : Constant
deriving DecidableEq

structure Layout where
  count : Nat
  stop : Nat
deriving DecidableEq

structure Walk where
  entries : List Entry
  outcome : Except Fault Layout

namespace ClassFile

def magic : Nat := 0xCAFEBABE

def poolStart : Nat := 10

open Read in
def header : Read Nat := do
  let found ← u32
  if found.toNat ≠ magic then throw (.badMagic found.toNat)
  skip 4
  index

def poolCount (data : Bytes) : Except Fault Nat :=
  match header (.start data) with
  | .ok count _ => .ok count
  | .error e _ => .error e

end ClassFile

namespace Entry

open Read in
def read (index : Nat) : Read Entry := do
  let offset ← position
  let code ← u8
  match Tag.ofCode? code with
  | none => throw (.unknownTag index offset code.toNat)
  | some tag => return ⟨index, offset, ← Constant.read tag⟩

end Entry

namespace Walk

def slots (seen : List Entry) :
    (left index : Nat) → (dead : Bool) → Cursor → List Entry × Except Fault Cursor
  | 0, _, _, c => (seen.reverse, .ok c)
  | left + 1, index, true, c => slots seen left (index + 1) false c
  | left + 1, index, false, c =>
    match Entry.read index c with
    | .ok entry c' => slots (entry :: seen) left (index + 1) entry.constant.tag.isWide c'
    | .error e _ => (seen.reverse, .error e)

def ofBytes (data : Bytes) : Walk :=
  match ClassFile.poolCount data with
  | .error e => ⟨[], .error e⟩
  | .ok count =>
    let (entries, last) := slots [] (count - 1) 1 false (.startAt data ClassFile.poolStart)
    ⟨entries, last.map fun c => ⟨count, c.pos⟩⟩

end Walk

end Relabel
