import Relabel.ClassFile.Survey

set_option autoImplicit false

namespace Relabel.Survey

open Read

def maxNesting : Nat := 64

def annotationAt (depth : Nat) (value : Survey Unit) : Survey Unit := do
  if maxNesting < depth then throw (.malformedAttribute "annotation" (← position))
  note (.use (← index) .descriptor)
  let pairs ← index
  times pairs do
    skip 2
    value

def constantKinds : Bytes :=
  ['B', 'C', 'D', 'F', 'I', 'J', 'S', 'Z', 's'].map Char.toUInt8

/-- The value of an annotation's element. Each level of nesting takes a byte, so as much fuel as
there are bytes left never runs out before they do. -/
def elementValue : (fuel depth : Nat) → Survey Unit
  | 0, _ => skip 1
  | fuel + 1, depth => do
    let offset ← position
    let kind ← u8
    if kind ∈ constantKinds then skip 2
    else if kind = 'e'.toUInt8 then
      note (.use (← index) .descriptor)
      skip 2
    else if kind = 'c'.toUInt8 then note (.use (← index) .descriptor)
    else if kind = '@'.toUInt8 then annotationAt (depth + 1) (elementValue fuel (depth + 2))
    else if kind = '['.toUInt8 then
      let count ← index
      times count (elementValue fuel (depth + 1))
    else throw (.malformedAttribute "annotation element" offset)

def valueHere (depth : Nat) : Survey Unit := do
  elementValue (← remaining) depth

def annotationHere (depth : Nat) : Survey Unit := do
  annotationAt depth (elementValue (← remaining) (depth + 1))

def annotations (depth : Nat) : Survey Unit := do
  let count ← index
  times count (annotationHere depth)

def targetWidth (offset : Nat) (code : UInt8) : Survey Nat := do
  if 0x13 ≤ code ∧ code ≤ 0x15 then return 0
  else if code = 0x00 ∨ code = 0x01 ∨ code = 0x16 then return 1
  else if code = 0x10 ∨ code = 0x11 ∨ code = 0x12 ∨ code = 0x17 ∨ (0x42 ≤ code ∧ code ≤ 0x46) then
    return 2
  else if 0x47 ≤ code ∧ code ≤ 0x4B then return 3
  else if code = 0x40 ∨ code = 0x41 then return (← index) * 6
  else throw (.malformedAttribute "type annotation target" offset)

def typeAnnotationHere (depth : Nat) : Survey Unit := do
  let offset ← position
  let code ← u8
  skip (← targetWidth offset code)
  let path ← u8
  skip (path.toNat * 2)
  annotationHere depth

end Relabel.Survey
