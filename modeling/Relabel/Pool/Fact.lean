import Relabel.Pool.Role
import Relabel.Pool.Walk

set_option autoImplicit false

namespace Relabel

inductive Fact where
  | entry (index : Nat) (tag : Tag) (offset : Nat)
  | use (index : Nat) (role : Role)
  | className (classIndex name : Nat)
  | member (nameAndType owner : Nat) (kind : MemberKind)
  | dynamic (nameAndType : Nat)
  | nameAndType (index name descriptor : Nat)
  | declares (name descriptor : Nat) (kind : MemberKind)
  | enclosing (nameAndType owner : Nat)
  | inner (name classIndex : Nat)
  | addresses (kind : EntryKind) (index : Nat)
  | handle (index : Nat) (kind : UInt8) (target : Nat)
deriving DecidableEq

/-- What a constant states about the slots that it refers to. Method handles come later, once all
constants are known. -/
def Constant.facts (index : Nat) : Constant → List Fact
  | .classRef name => [.className index name.toNat]
  | .fieldRef owner target => [.member target.toNat owner.toNat .field]
  | .methodRef owner target => [.member target.toNat owner.toNat .method]
  | .interfaceMethodRef owner target => [.member target.toNat owner.toNat .method]
  | .nameAndType name descriptor => [.nameAndType index name.toNat descriptor.toNat]
  | .methodType descriptor => [.use descriptor.toNat .descriptor]
  | .dynamic _ target => [.dynamic target.toNat]
  | .invokeDynamic _ target => [.dynamic target.toNat]
  | .moduleRef name => [.use name.toNat .moduleName]
  | .packageRef name => [.use name.toNat .packageName]
  | _ => []

namespace Entry

def facts (entry : Entry) : List Fact :=
  .entry entry.index entry.constant.tag entry.offset :: entry.constant.facts entry.index

def handleFact? (entry : Entry) : Option Fact :=
  match entry.constant with
  | .methodHandle kind target => some (.handle entry.index kind target.toNat)
  | _ => none

end Entry

end Relabel
