import Relabel.Bytes

set_option autoImplicit false

namespace Relabel.Text.Utf8

def threeBytes (n : Nat) : Bytes :=
  [(0xE0 + n / 4096).toUInt8, (0x80 + n / 64 % 64).toUInt8, (0x80 + n % 64).toUInt8]

def encodeChar (c : Char) : Bytes :=
  let n := c.toNat
  if n < 0x80 then [n.toUInt8]
  else if n < 0x800 then [(0xC0 + n / 64).toUInt8, (0x80 + n % 64).toUInt8]
  else if n < 0x10000 then threeBytes n
  else
    [(0xF0 + n / 262144).toUInt8, (0x80 + n / 4096 % 64).toUInt8,
      (0x80 + n / 64 % 64).toUInt8, (0x80 + n % 64).toUInt8]

def encode (text : String) : Bytes := text.toList.flatMap encodeChar

structure Pending where
  owed : Nat
  value : Nat
  low : UInt8
  high : UInt8

inductive Lead where
  | char (c : Char)
  | pending (p : Pending)
  | invalid

def lead (b : UInt8) : Lead :=
  if b < 0x80 then .char (Char.ofNat b.toNat)
  else if b < 0xC2 then .invalid
  else if b < 0xE0 then .pending ⟨1, b.toNat - 0xC0, 0x80, 0xBF⟩
  else if b = 0xE0 then .pending ⟨2, 0, 0xA0, 0xBF⟩
  else if b = 0xED then .pending ⟨2, 13, 0x80, 0x9F⟩
  else if b < 0xF0 then .pending ⟨2, b.toNat - 0xE0, 0x80, 0xBF⟩
  else if b = 0xF0 then .pending ⟨3, 0, 0x90, 0xBF⟩
  else if b < 0xF4 then .pending ⟨3, b.toNat - 0xF0, 0x80, 0xBF⟩
  else if b = 0xF4 then .pending ⟨3, 4, 0x80, 0x8F⟩
  else .invalid

structure Machine where
  done : List (Option Char)
  pending : Option Pending

def Machine.start (done : List (Option Char)) (b : UInt8) : Machine :=
  match lead b with
  | .char c => ⟨some c :: done, none⟩
  | .pending p => ⟨done, some p⟩
  | .invalid => ⟨none :: done, none⟩

def Machine.step (m : Machine) (b : UInt8) : Machine :=
  match m.pending with
  | none => .start m.done b
  | some p =>
    if p.low ≤ b ∧ b ≤ p.high then
      let value := p.value * 64 + (b.toNat - 0x80)
      if p.owed ≤ 1 then ⟨some (Char.ofNat value) :: m.done, none⟩
      else ⟨m.done, some ⟨p.owed - 1, value, 0x80, 0xBF⟩⟩
    else .start (none :: m.done) b

def Machine.finish (m : Machine) : List (Option Char) :=
  match m.pending with
  | none => m.done.reverse
  | some _ => (none :: m.done).reverse

def characters (bytes : Bytes) : List (Option Char) :=
  (bytes.foldl Machine.step ⟨[], none⟩).finish

def decode? (bytes : Bytes) : Option String :=
  let cs := characters bytes
  if cs.all Option.isSome then some (String.ofList (cs.filterMap id)) else none

def decodeLossy (bytes : Bytes) : String :=
  String.ofList ((characters bytes).map (·.getD '�'))

end Relabel.Text.Utf8
