
set_option autoImplicit false

namespace Relabel.Text.Utf16

def isHigh (unit : Nat) : Bool := 0xD800 ≤ unit && unit < 0xDC00
def isLow (unit : Nat) : Bool := 0xDC00 ≤ unit && unit < 0xE000

def high (c : Char) : Nat := 0xD800 + (c.toNat - 0x10000) / 1024
def low (c : Char) : Nat := 0xDC00 + (c.toNat - 0x10000) % 1024

def join (high low : Nat) : Char :=
  Char.ofNat (0x10000 + (high - 0xD800) * 1024 + (low - 0xDC00))

def single (unit : Nat) : Char :=
  if isHigh unit || isLow unit then '�' else Char.ofNat unit

def decodeOnto (done : List Char) : List Nat → List Char
  | [] => done.reverse
  | [u] => (single u :: done).reverse
  | u :: v :: rest =>
    if isHigh u && isLow v then decodeOnto (join u v :: done) rest
    else decodeOnto (single u :: done) (v :: rest)

def decodeLossy (units : List Nat) : String := String.ofList (decodeOnto [] units)

end Relabel.Text.Utf16
