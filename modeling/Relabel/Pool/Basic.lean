import Relabel.Constant.Basic

set_option autoImplicit false

namespace Relabel

structure Pool where
  constants : Array Constant := #[]
  count : Nat := 1
  interned : List (Constant × UInt16) := []

namespace Pool

abbrev Build := StateM Pool

def push (constant : Constant) : Build UInt16 := fun pool =>
  (pool.count.toUInt16,
    { pool with
      constants := pool.constants.push constant
      count := pool.count + constant.tag.slots })

def intern (constant : Constant) : Build UInt16 := fun pool =>
  match pool.interned.lookup constant with
  | some index => (index, pool)
  | none =>
    let (index, pool) := push constant pool
    (index, { pool with interned := (constant, index) :: pool.interned })

def addText (value : Name) : Build UInt16 := intern (.text value)

def addClass (name : Name) : Build UInt16 := do
  intern (.classRef (← addText name))

def addNameAndType (name descriptor : Name) : Build UInt16 := do
  let name ← addText name
  intern (.nameAndType name (← addText descriptor))

def addMember (ref : UInt16 → UInt16 → Constant) (owner name descriptor : Name) :
    Build UInt16 := do
  let owner ← addClass owner
  intern (ref owner (← addNameAndType name descriptor))

def addString (value : Name) : Build UInt16 := do
  push (.string (← addText value))

def addMethodType (descriptor : Name) : Build UInt16 := do
  push (.methodType (← addText descriptor))

def addInvokeDynamic (bootstrap : UInt16) (name descriptor : Name) : Build UInt16 := do
  push (.invokeDynamic bootstrap (← addNameAndType name descriptor))

def addModule (name : Name) : Build UInt16 := do
  push (.moduleRef (← addText name))

def addPackage (name : Name) : Build UInt16 := do
  push (.packageRef (← addText name))

def maxCount : Nat := 65535

def encode (pool : Pool) : Except Fault Bytes := do
  if maxCount < pool.count then throw (.indexOutOfRange maxCount maxCount)
  let parts ← pool.constants.toList.mapM Constant.encode
  return word16 pool.count.toUInt16 ++ parts.flatten

end Pool

end Relabel
