import Relabel.Constant.Tag
import Relabel.Cursor

set_option autoImplicit false

namespace Relabel

inductive Constant where
  | text (value : Name)
  | integer (value : Int32)
  | float (bits : UInt32)
  | long (value : Int64)
  | double (bits : UInt64)
  | classRef (name : UInt16)
  | string (text : UInt16)
  | fieldRef (owner nameAndType : UInt16)
  | methodRef (owner nameAndType : UInt16)
  | interfaceMethodRef (owner nameAndType : UInt16)
  | nameAndType (name descriptor : UInt16)
  | methodHandle (kind : UInt8) (target : UInt16)
  | methodType (descriptor : UInt16)
  | dynamic (bootstrap nameAndType : UInt16)
  | invokeDynamic (bootstrap nameAndType : UInt16)
  | moduleRef (name : UInt16)
  | packageRef (name : UInt16)
deriving DecidableEq, Inhabited

namespace Constant

def maxTextLength : Nat := 65535

def tag : Constant → Tag
  | .text _ => .text
  | .integer _ => .integer
  | .float _ => .float
  | .long _ => .long
  | .double _ => .double
  | .classRef _ => .classRef
  | .string _ => .string
  | .fieldRef .. => .fieldRef
  | .methodRef .. => .methodRef
  | .interfaceMethodRef .. => .interfaceMethodRef
  | .nameAndType .. => .nameAndType
  | .methodHandle .. => .methodHandle
  | .methodType _ => .methodType
  | .dynamic .. => .dynamic
  | .invokeDynamic .. => .invokeDynamic
  | .moduleRef _ => .moduleRef
  | .packageRef _ => .packageRef

def body : Constant → Bytes
  | .text value => word16 value.length.toUInt16 ++ value.bytes
  | .integer value => word32 value.toUInt32
  | .float bits => word32 bits
  | .long value => word64 value.toUInt64
  | .double bits => word64 bits
  | .classRef a | .string a | .methodType a | .moduleRef a | .packageRef a => word16 a
  | .fieldRef a b | .methodRef a b | .interfaceMethodRef a b | .nameAndType a b | .dynamic a b
  | .invokeDynamic a b => word16 a ++ word16 b
  | .methodHandle kind target => kind :: word16 target

def encode (constant : Constant) : Except Fault Bytes :=
  match constant with
  | .text value =>
    if maxTextLength < value.length then .error (.textTooLong value.length)
    else .ok (constant.tag.code :: constant.body)
  | _ => .ok (constant.tag.code :: constant.body)

open Read in
def read : Tag → Read Constant
  | .text => do
    let length ← u16
    return .text ⟨← bytes length.toNat⟩
  | .integer => return .integer (← u32).toInt32
  | .float => return .float (← u32)
  | .long => return .long (← u64).toInt64
  | .double => return .double (← u64)
  | .classRef => return .classRef (← u16)
  | .string => return .string (← u16)
  | .fieldRef => return .fieldRef (← u16) (← u16)
  | .methodRef => return .methodRef (← u16) (← u16)
  | .interfaceMethodRef => return .interfaceMethodRef (← u16) (← u16)
  | .nameAndType => return .nameAndType (← u16) (← u16)
  | .methodHandle => return .methodHandle (← u8) (← u16)
  | .methodType => return .methodType (← u16)
  | .dynamic => return .dynamic (← u16) (← u16)
  | .invokeDynamic => return .invokeDynamic (← u16) (← u16)
  | .moduleRef => return .moduleRef (← u16)
  | .packageRef => return .packageRef (← u16)

end Constant

end Relabel
