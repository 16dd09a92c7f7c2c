import Relabel.Pool.Basic
import Relabel.Pool.Walk

set_option autoImplicit false

namespace Relabel

structure Attribute where
  name : UInt16
  info : Bytes
deriving DecidableEq, Inhabited

namespace Attribute

def encode (a : Attribute) : Bytes :=
  word16 a.name ++ word32 a.info.length.toUInt32 ++ a.info

def encodeTable (as : List Attribute) : Bytes :=
  word16 as.length.toUInt16 ++ as.flatMap encode

end Attribute

structure Member where
  access : UInt16
  name : UInt16
  descriptor : UInt16
  attributes : List Attribute
deriving DecidableEq, Inhabited

namespace Member

def encode (m : Member) : Bytes :=
  word16 m.access ++ word16 m.name ++ word16 m.descriptor ++ Attribute.encodeTable m.attributes

def encodeTable (ms : List Member) : Bytes :=
  word16 ms.length.toUInt16 ++ ms.flatMap encode

end Member

structure ClassFile where
  minor : UInt16 := 0
  major : UInt16 := 52
  pool : Pool := {}
  access : UInt16 := 0x21
  thisClass : UInt16 := 0
  superClass : UInt16 := 0
  interfaces : Array UInt16 := #[]
  fields : Array Member := #[]
  methods : Array Member := #[]
  attributes : Array Attribute := #[]

namespace ClassFile

abbrev Build := StateM ClassFile

def inPool {α : Type} (act : Pool.Build α) : Build α := fun file =>
  let (value, pool) := act file.pool
  (value, { file with pool })

def new (name : Name) (superName : Option Name) : ClassFile :=
  let (thisClass, pool) := Pool.addClass name {}
  match superName with
  | none => { pool, thisClass }
  | some superName =>
    let (superClass, pool) := Pool.addClass superName pool
    { pool, thisClass, superClass }

def addInterface (name : Name) : Build UInt16 := do
  let index ← inPool (Pool.addClass name)
  modify fun file => { file with interfaces := file.interfaces.push index }
  return index

def namedAttribute (name : Name) (info : Bytes) : Build Attribute := do
  return ⟨← inPool (Pool.addText name), info⟩

def indexAttribute (name : Name) (index : UInt16) : Build Attribute :=
  namedAttribute name (word16 index)

def codeAttribute (maxStack maxLocals : UInt16) (code : Bytes) (attributes : List Attribute) :
    Build Attribute :=
  namedAttribute (.ofString "Code")
    (word16 maxStack ++ word16 maxLocals ++ word32 code.length.toUInt32 ++ code ++ word16 0 ++
      Attribute.encodeTable attributes)

def member (access : UInt16) (name descriptor : Name) (attributes : List Attribute) :
    Build Member := do
  let name ← inPool (Pool.addText name)
  let descriptor ← inPool (Pool.addText descriptor)
  return { access, name, descriptor, attributes }

def addField (access : UInt16) (name descriptor : Name) (attributes : List Attribute) :
    Build Unit := do
  let field ← member access name descriptor attributes
  modify fun file => { file with fields := file.fields.push field }

def addMethod (access : UInt16) (name descriptor : Name) (attributes : List Attribute) :
    Build Unit := do
  let method ← member access name descriptor attributes
  modify fun file => { file with methods := file.methods.push method }

def addAttribute (a : Attribute) : Build Unit :=
  modify fun file => { file with attributes := file.attributes.push a }

def tail (file : ClassFile) : Bytes :=
  word16 file.access ++ word16 file.thisClass ++ word16 file.superClass ++
    word16 file.interfaces.size.toUInt16 ++ file.interfaces.toList.flatMap word16 ++
    Member.encodeTable file.fields.toList ++ Member.encodeTable file.methods.toList ++
    Attribute.encodeTable file.attributes.toList

def encode (file : ClassFile) : Except Fault Bytes := do
  let pool ← file.pool.encode
  return word32 magic.toUInt32 ++ word16 file.minor ++ word16 file.major ++ pool ++ file.tail

end ClassFile

end Relabel
