
set_option autoImplicit false

namespace Relabel

inductive Tag where
  | text
  | integer
  | float
  | long
  | double
  | classRef
  | string
  | fieldRef
  | methodRef
  | interfaceMethodRef
  | nameAndType
  | methodHandle
  | methodType
  | dynamic
  | invokeDynamic
  | moduleRef
  | packageRef
deriving DecidableEq, Inhabited

namespace Tag

def code : Tag → UInt8
  | .text => 1
  | .integer => 3
  | .float => 4
  | .long => 5
  | .double => 6
  | .classRef => 7
  | .string => 8
  | .fieldRef => 9
  | .methodRef => 10
  | .interfaceMethodRef => 11
  | .nameAndType => 12
  | .methodHandle => 15
  | .methodType => 16
  | .dynamic => 17
  | .invokeDynamic => 18
  | .moduleRef => 19
  | .packageRef => 20

def all : List Tag :=
  [.text, .integer, .float, .long, .double, .classRef, .string, .fieldRef, .methodRef,
    .interfaceMethodRef, .nameAndType, .methodHandle, .methodType, .dynamic, .invokeDynamic,
    .moduleRef, .packageRef]

def ofCode? (code : UInt8) : Option Tag := all.find? (·.code == code)

def width? : Tag → Option Nat
  | .text => none
  | .classRef | .string | .methodType | .moduleRef | .packageRef => some 2
  | .methodHandle => some 3
  | .integer | .float | .fieldRef | .methodRef | .interfaceMethodRef | .nameAndType | .dynamic
  | .invokeDynamic => some 4
  | .long | .double => some 8

def isWide : Tag → Bool
  | .long | .double => true
  | _ => false

def slots (tag : Tag) : Nat := if tag.isWide then 2 else 1

end Tag

inductive EntryKind where
  | text
  | classRef
  | nameAndType
deriving DecidableEq, Inhabited

namespace EntryKind

def label : EntryKind → String
  | .text => "Utf8"
  | .classRef => "Class"
  | .nameAndType => "NameAndType"

def tag : EntryKind → Tag
  | .text => .text
  | .classRef => .classRef
  | .nameAndType => .nameAndType

def accepts (kind : EntryKind) (tag : Tag) : Bool := kind.tag == tag

def describe (kind : EntryKind) (index : Nat) : String := s!"{kind.label}#{index}"

end EntryKind

namespace HandleKind

def isField (kind : UInt8) : Bool := 1 ≤ kind && kind ≤ 4
def isMethod (kind : UInt8) : Bool := 5 ≤ kind && kind ≤ 9

end HandleKind

end Relabel
