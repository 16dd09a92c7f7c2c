import Relabel.Fault
import Relabel.TypeText.Piece

set_option autoImplicit false

namespace Relabel.Signature

structure State where
  rest : Bytes
  -- newest first
  pieces : List Piece

abbrev Parse := EStateM Unit State

def fail {α : Type} : Parse α := throw ()

def emit (piece : Piece) : Parse Unit :=
  modify fun s => { s with pieces := piece :: s.pieces }

def startsWith (c : Char) : Parse Bool := fun s => .ok (s.rest.head? == some c.toUInt8) s

def accept (c : Char) : Parse Bool := fun s =>
  match s.rest with
  | [] => .ok false s
  | b :: rest =>
    if b = c.toUInt8 then .ok true ⟨rest, .copied [b] :: s.pieces⟩ else .ok false s

def expect (c : Char) : Parse Unit := do
  unless ← accept c do fail

def takeUntil (stops : Bytes) : Parse Bytes := fun s =>
  let run := s.rest.takeWhile (· ∉ stops)
  if run.isEmpty then .error () s else .ok run { s with rest := s.rest.dropWhile (· ∉ stops) }

/-- Repeats a step while it says so; each time it goes on it has taken a byte, so `fuel` suffices
that exceeds the bytes left. -/
def repeatFor : (fuel : Nat) → Parse Bool → Parse Unit
  | 0, _, s => .ok () s
  | fuel + 1, step, s =>
    match step s with
    | .ok true s' => repeatFor fuel step s'
    | .ok false s' => .ok () s'
    | .error e s' => .error e s'

def repeatWhile (step : Parse Bool) : Parse Unit := fun s =>
  repeatFor (s.rest.length + 1) step s

def identifierStops : Bytes := ['.', ';', '[', '/', '<', '>', ':'].map Char.toUInt8
def classStops : Bytes := ['<', '.', ';'].map Char.toUInt8
def primitives : Bytes := ['B', 'C', 'D', 'F', 'I', 'J', 'S', 'Z'].map Char.toUInt8

def identifier : Parse Unit := do
  emit (.copied (← takeUntil identifierStops))

def primitive : Parse Bool := fun s =>
  match s.rest with
  | [] => .ok false s
  | b :: rest =>
    if b ∈ primitives then .ok true ⟨rest, .copied [b] :: s.pieces⟩ else .ok false s

def namedType (classType : Parse Unit) : Parse Unit := do
  if ← startsWith 'L' then classType
  else
    expect 'T'
    identifier
    expect ';'

def referenceType (classType : Parse Unit) : Parse Unit := do
  if ← accept '[' then
    repeatWhile (accept '[')
    unless ← primitive do namedType classType
  else namedType classType

def typeArguments (reference : Parse Unit) : Parse Unit := do
  expect '<'
  repeatWhile do
    if ← accept '>' then return false
    if ← accept '*' then return true
    unless ← accept '+' do
      let _ ← accept '-'
    reference
    return true

def argumentsHere (reference : Parse Unit) : Parse Unit := do
  if ← startsWith '<' then typeArguments reference

def innerTypes (reference : Parse Unit) : (fuel : Nat) → Name → Parse Unit
  | 0, _ => pure ()
  | fuel + 1, owner => do
    if ← accept '.' then
      let simple ← takeUntil classStops
      emit (.inner owner simple)
      argumentsHere reference
      innerTypes reference fuel (owner.nested simple)

def maxNesting : Nat := 64

def classType : Nat → Parse Unit
  | 0 => fail
  | levels + 1 => do
    let reference := referenceType (classType levels)
    expect 'L'
    let name : Name := ⟨← takeUntil classStops⟩
    emit (.outer name)
    argumentsHere reference
    innerTypes reference ((← get).rest.length + 1) name
    expect ';'

def reference : Parse Unit := referenceType (classType maxNesting)

def anyType : Parse Unit := do
  unless ← primitive do reference

def bounds : Parse Unit := do
  expect ':'
  unless (← startsWith ':') || (← startsWith '>') do reference
  repeatWhile do
    if ← accept ':' then
      reference
      return true
    else return false

def typeParameters : Parse Unit := do
  expect '<'
  repeatWhile do
    if ← accept '>' then return false
    identifier
    bounds
    return true

def atEnd : Parse Bool := fun s => .ok s.rest.isEmpty s

def methodType : Parse Unit := do
  expect '('
  repeatWhile do
    if ← accept ')' then return false
    anyType
    return true
  unless ← accept 'V' do anyType
  repeatWhile do
    if ← accept '^' then
      reference
      return true
    else return false
  unless ← atEnd do fail

def plainTypes : Parse Unit := do
  if ← atEnd then fail
  repeatWhile do
    if ← atEnd then return false
    anyType
    return true

def signature : Parse Unit := do
  if ← startsWith '<' then typeParameters
  if ← startsWith '(' then methodType else plainTypes

def read (bytes : Bytes) : List Piece × Option Nat :=
  match signature ⟨bytes, []⟩ with
  | .ok _ s => (s.pieces.reverse, none)
  | .error _ s => (s.pieces.reverse, some (bytes.length - s.rest.length))

/-- In a malformed signature the names are asked for up to the fault. -/
@[specialize]
def renameWith {m : Type → Type} [Monad m] (ask : Name → m Name) (signature : Name) : m (Except Fault Name) := do
  let (pieces, fault) := read signature.bytes
  let written ← Piece.writeAll ask pieces
  match fault with
  | some position => return .error (.malformedSignature signature.bytes position)
  | none => return .ok ⟨written⟩

def rename (renameClass : Name → Name) (signature : Name) : Except Fault Name :=
  Id.run (renameWith (fun name => pure (renameClass name)) signature)

def classNames (signature : Name) : List Name :=
  ((renameWith (Piece.record id) signature).run []).2.reverse

end Relabel.Signature
