
set_option autoImplicit false

namespace Relabel

inductive Role where
  | plain
  | sourceFile
  | innerName
  | moduleName
  | packageName
  | descriptor
  | signature
  | className
  | memberName
  | ownField
  | ownMethod
deriving DecidableEq, Inhabited

namespace Role

def weight : Role → Nat
  | .plain => 0
  | .sourceFile | .innerName => 1
  | .moduleName | .packageName => 2
  | .descriptor | .signature => 3
  | .className => 4
  | .memberName => 5
  | .ownField | .ownMethod => 6

def promote (held new : Role) : Role := if held.weight ≤ new.weight then new else held

end Role

inductive MemberKind where
  | unknown
  | field
  | method
deriving DecidableEq, Inhabited

namespace MemberKind

def update (known new : MemberKind) : MemberKind := if new = .unknown then known else new

def ownRole : MemberKind → Role
  | .method => .ownMethod
  | _ => .ownField

end MemberKind

end Relabel
