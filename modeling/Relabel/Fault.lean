import Relabel.Name
import Relabel.Text.Numeral

set_option autoImplicit false

namespace Relabel

open Text.Numeral (hex hex8)

inductive Fault where
  | io (text : String)
  | truncated (offset needed : Nat)
  | badMagic (found : Nat)
  | unknownTag (index offset tag : Nat)
  | desync (index : Nat) (expected found : String)
  | indexOutOfRange (index count : Nat)
  | unusableIndex (index : Nat)
  | wrongEntry (index : Nat) (expected : String)
  | invalidHandle (index kind targetTag : Nat)
  | textTooLong (length : Nat)
  | malformedSignature (signature : Bytes) (position : Nat)
  | malformedAttribute (what : String) (offset : Nat)
  | oracle (className : String) (source : Fault)
  | invalidOutputName (name : String)
deriving DecidableEq, Inhabited

namespace Fault

def message : Fault → String
  | .io text => s!"IO error: {text}"
  | .truncated offset needed =>
    s!"Unexpected end of class file at offset {hex offset}: needed {needed} more byte(s)"
  | .badMagic found => s!"Not a class file: magic is {hex8 found}, expected 0xcafebabe"
  | .unknownTag index offset tag =>
    s!"Unknown constant pool tag {tag} for entry #{index} at offset {hex offset}"
  | .desync index expected found =>
    s!"Rewrite out of sync at entry #{index}: scan recorded {expected}, rewrite found {found}"
  | .indexOutOfRange index count =>
    s!"Constant pool index #{index} is out of range (pool count {count})"
  | .unusableIndex index => s!"Constant pool index #{index} does not address a usable entry"
  | .wrongEntry index expected => s!"Constant pool index #{index} is not a {expected} entry"
  | .invalidHandle index kind targetTag =>
    s!"Method handle #{index} has reference kind {kind} but points at an entry with tag {targetTag}"
  | .textTooLong length =>
    s!"Renamed identifier is {length} bytes, exceeding the 65535-byte UTF-8 entry limit"
  | .malformedSignature signature position =>
    s!"Malformed signature '{Text.Utf8.decodeLossy signature}' at byte {position}"
  | .malformedAttribute what offset =>
    s!"Malformed {what} attribute at offset {hex offset}"
  | .oracle className source => s!"Class info lookup for '{className}' failed: {source.message}"
  | .invalidOutputName name => s!"Class name '{name}' cannot be used as an output path"

def isFormat : Fault → Bool
  | .truncated .. | .badMagic .. | .unknownTag .. | .desync .. | .indexOutOfRange ..
  | .unusableIndex .. | .wrongEntry .. | .invalidHandle .. | .malformedAttribute .. => true
  | _ => false

end Fault

end Relabel
