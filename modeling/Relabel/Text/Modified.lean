import Relabel.Text.Utf8
import Relabel.Text.Utf16

set_option autoImplicit false

namespace Relabel.Text.Modified

def encodeChar (c : Char) : Bytes :=
  if c.toNat = 0 then [0xC0, 0x80]
  else if c.toNat < 0x10000 then Utf8.encodeChar c
  else Utf8.threeBytes (Utf16.high c) ++ Utf8.threeBytes (Utf16.low c)

def encode (text : String) : Bytes := text.toList.flatMap encodeChar

def unitsOnto (done : List Nat) : Bytes → List Nat
  -- Only the first byte of a unit is checked. One that begins none, or whose unit is cut off by the
  -- end, counts as U+FFFD.
  | [] => done.reverse
  | [a] => ((if a < 0x80 then a.toNat else 0xFFFD) :: done).reverse
  | [a, b] =>
    if a < 0x80 then unitsOnto (a.toNat :: done) [b]
    else if 0xC0 ≤ a ∧ a < 0xE0 then ((a.toNat % 32 * 64 + b.toNat % 64) :: done).reverse
    else unitsOnto (0xFFFD :: done) [b]
  | a :: b :: c :: rest =>
    if a < 0x80 then unitsOnto (a.toNat :: done) (b :: c :: rest)
    else if 0xC0 ≤ a ∧ a < 0xE0 then
      unitsOnto ((a.toNat % 32 * 64 + b.toNat % 64) :: done) (c :: rest)
    else if 0xE0 ≤ a ∧ a < 0xF0 then
      unitsOnto ((a.toNat % 16 * 4096 + b.toNat % 64 * 64 + c.toNat % 64) :: done) rest
    else unitsOnto (0xFFFD :: done) (b :: c :: rest)

def units (bytes : Bytes) : List Nat := unitsOnto [] bytes

def decode (bytes : Bytes) : String := Utf16.decodeLossy (units bytes)

def display (bytes : Bytes) : String := (Utf8.decode? bytes).getD (decode bytes)

end Relabel.Text.Modified
