
set_option autoImplicit false

namespace Relabel

abbrev Bytes := List UInt8

namespace BigEndian

def encode : Nat → Nat → Bytes
  | 0, _ => []
  | width + 1, n => encode width (n / 256) ++ [n.toUInt8]

def decode (bytes : Bytes) : Nat :=
  bytes.foldl (fun n b => n * 256 + b.toNat) 0

end BigEndian

def word16 (value : UInt16) : Bytes := BigEndian.encode 2 value.toNat
def word32 (value : UInt32) : Bytes := BigEndian.encode 4 value.toNat
def word64 (value : UInt64) : Bytes := BigEndian.encode 8 value.toNat

end Relabel
