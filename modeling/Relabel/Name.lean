import Relabel.Text.Modified

set_option autoImplicit false

namespace Relabel

structure Name where
  bytes : Bytes
deriving DecidableEq, Inhabited

namespace Name

def ofString (text : String) : Name := ⟨Text.Modified.encode text⟩

def display (name : Name) : String := Text.Modified.display name.bytes

def length (name : Name) : Nat := name.bytes.length

def isEmpty (name : Name) : Bool := name.bytes.isEmpty

def first? (name : Name) : Option UInt8 := name.bytes.head?

def startsWith (name : Name) (start : Bytes) : Bool := start.isPrefixOf name.bytes

def find? (name : Name) (b : UInt8) : Option Nat := name.bytes.findIdx? (· == b)

def findLast? (name : Name) (b : UInt8) : Option Nat :=
  (name.bytes.reverse.findIdx? (· == b)).map (name.length - 1 - ·)

def afterLast (c : Char) (bytes : Bytes) : Bytes :=
  (bytes.reverse.takeWhile (· ≠ c.toUInt8)).reverse

def lastPart (name : Name) : Bytes :=
  if '$'.toUInt8 ∈ name.bytes then afterLast '$' name.bytes else afterLast '/' name.bytes

def digest (name : Name) : UInt32 :=
  name.bytes.foldl (fun h b => h * 31 + b.toUInt32) 1

def order (a b : Name) : Ordering := compare a.bytes b.bytes

def isArray (name : Name) : Bool := name.first? == some '['.toUInt8

def isSpecial (name : Name) : Bool := name.first? == some '<'.toUInt8

def object : Name := .ofString "java/lang/Object"

end Name

end Relabel
