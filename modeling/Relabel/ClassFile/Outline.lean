import Relabel.ClassFile.Annotations

set_option autoImplicit false

namespace Relabel

inductive AttributeKind where
  | signature
  | sourceFile
  | innerClasses
  | enclosingMethod
  | record
  | code
  | localVariables
  | localVariableTypes
  | annotations
  | parameterAnnotations
  | annotationDefault
  | typeAnnotations
  | other
deriving DecidableEq, Inhabited

namespace AttributeKind

def known : List (Name × AttributeKind) :=
  [(.ofString "Signature", .signature), (.ofString "SourceFile", .sourceFile),
    (.ofString "InnerClasses", .innerClasses), (.ofString "EnclosingMethod", .enclosingMethod),
    (.ofString "Record", .record), (.ofString "Code", .code),
    (.ofString "LocalVariableTable", .localVariables),
    (.ofString "LocalVariableTypeTable", .localVariableTypes),
    (.ofString "RuntimeVisibleAnnotations", .annotations),
    (.ofString "RuntimeInvisibleAnnotations", .annotations),
    (.ofString "RuntimeVisibleParameterAnnotations", .parameterAnnotations),
    (.ofString "RuntimeInvisibleParameterAnnotations", .parameterAnnotations),
    (.ofString "AnnotationDefault", .annotationDefault),
    (.ofString "RuntimeVisibleTypeAnnotations", .typeAnnotations),
    (.ofString "RuntimeInvisibleTypeAnnotations", .typeAnnotations)]

def ofName (name : Name) : AttributeKind := (known.lookup name).getD .other

end AttributeKind

structure Outline where
  thisClass : Nat
  superClass : Nat
  interfaces : List Nat
deriving DecidableEq, Inhabited

namespace Survey

open Read

def innerClass : Survey Unit := do
  let inner ← index
  skip 2
  let name ← index
  skip 2
  if name ≠ 0 then note (.inner name inner)

def enclosingMethod : Survey Unit := do
  let owner ← index
  let nameAndType ← index
  if nameAndType ≠ 0 then note (.enclosing nameAndType owner)

def localVariables (role : Role) : Survey Unit := do
  let count ← index
  times count do
    skip 6
    note (.use (← index) role)
    skip 2

def attributeBody (depth : Nat) (nested : Survey Unit) : AttributeKind → Survey Unit
  | .signature => do note (.use (← index) .signature)
  | .sourceFile => do note (.use (← index) .sourceFile)
  | .innerClasses => do
    let count ← index
    times count innerClass
  | .enclosingMethod => enclosingMethod
  | .record => do
    let count ← index
    times count do
      skip 2
      note (.use (← index) .descriptor)
      nested
  | .code => do
    skip 4
    let length ← u32
    skip length.toNat
    let handlers ← index
    skip (handlers * 8)
    nested
  | .localVariables => localVariables .descriptor
  | .localVariableTypes => localVariables .signature
  | .annotations => annotations depth
  | .parameterAnnotations => do
    let parameters ← u8
    times parameters.toNat (annotations depth)
  | .annotationDefault => valueHere depth
  | .typeAnnotations => do
    let count ← index
    times count (typeAnnotationHere depth)
  | .other => pure ()

def attributeTable (names : NameTable) (body : AttributeKind → Survey Unit) : Survey Unit := do
  let count ← index
  times count do
    let name ← index
    let length ← u32
    within length.toNat do
      body (AttributeKind.ofName (← names.get name))

def nestedAttributes (names : NameTable) : (fuel depth : Nat) → Survey Unit
  | 0, _ => skip 2
  | fuel + 1, depth =>
    attributeTable names (attributeBody depth (nestedAttributes names fuel (depth + 1)))

def attributes (mode : AttributeMode) (names : NameTable) : Survey Unit :=
  match mode with
  | .pass => skipAttributes
  | .interpret =>
    attributeTable names fun kind => do
      attributeBody 0 (nestedAttributes names (← remaining) 1) kind

def member (mode : AttributeMode) (names : NameTable) (kind : MemberKind) : Survey Unit := do
  skip 2
  let name ← index
  let descriptor ← index
  note (.declares name descriptor kind)
  attributes mode names

def members (mode : AttributeMode) (names : NameTable) (kind : MemberKind) : Survey Unit := do
  let count ← index
  times count (member mode names kind)

def classIndex : Survey Nat := do
  let i ← index
  note (.addresses .classRef i)
  return i

def outline (mode : AttributeMode) (names : NameTable) : Survey Outline := do
  skip 2
  let thisClass ← index
  let superClass ← index
  note (.addresses .classRef thisClass)
  if superClass ≠ 0 then note (.addresses .classRef superClass)
  let count ← index
  let interfaces ← collect count classIndex
  members mode names .field
  members mode names .method
  attributes mode names
  return ⟨thisClass, superClass, interfaces⟩

end Survey

end Relabel
