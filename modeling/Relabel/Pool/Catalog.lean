import Relabel.Pool.Fact
import Relabel.Pool.Links

set_option autoImplicit false

namespace Relabel

structure Declaration where
  kind : MemberKind
  descriptor : Nat
deriving DecidableEq, Inhabited

structure LinkedMember where
  kind : MemberKind
  owner : Nat
  descriptor : Nat
deriving DecidableEq, Inhabited

structure Slot where
  tag : Option Tag := none
  offset : UInt32 := 0
  role : Role := .plain
  memberKind : MemberKind := .unknown
  -- of a class, the index of its name
  className : Option Nat := none
  -- of a name and type
  owner : Option Nat := none
  descriptor : Option Nat := none
  -- of a text, what it names
  nameAndTypes : Links := {}
  ownDescriptor : Option Nat := none
  innerClasses : Links := {}
  declarations : Array Declaration := #[]
deriving Inhabited

structure Catalog where
  slots : Array Slot

def present? (index : Nat) : Option Nat := if index = 0 then none else some index

namespace Catalog

def empty (count : Nat) : Catalog := ⟨Array.replicate count {}⟩

def count (catalog : Catalog) : Nat := catalog.slots.size

def slot (catalog : Catalog) (index : Nat) : Except Fault Slot :=
  if index = 0 then .error (.unusableIndex 0)
  else match catalog.slots[index]? with
    | none => .error (.indexOutOfRange index catalog.count)
    | some slot => .ok slot

def tag (catalog : Catalog) (index : Nat) : Except Fault Tag := do
  match (← catalog.slot index).tag with
  | none => throw (.unusableIndex index)
  | some tag => return tag

def offset (catalog : Catalog) (index : Nat) : Except Fault Nat := do
  return (← catalog.slot index).offset.toNat

def role (catalog : Catalog) (index : Nat) : Except Fault Role := do
  return (← catalog.slot index).role

def memberKind (catalog : Catalog) (index : Nat) : Except Fault MemberKind := do
  return (← catalog.slot index).memberKind

def className (catalog : Catalog) (index : Nat) : Except Fault Nat := do
  match (← catalog.slot index).className with
  | none => throw (.wrongEntry index EntryKind.classRef.label)
  | some name => return name

def ownDescriptor (catalog : Catalog) (index : Nat) : Except Fault Nat := do
  match (← catalog.slot index).ownDescriptor with
  | none => throw (.wrongEntry index "member name")
  | some descriptor => return descriptor

def declarations (catalog : Catalog) (index : Nat) : Except Fault (List Declaration) := do
  return (← catalog.slot index).declarations.toList

def innerClasses (catalog : Catalog) (index : Nat) : Except Fault (List Nat) := do
  return (← catalog.slot index).innerClasses.toList

def memberOf? (catalog : Catalog) (nameAndType : Nat) : Option LinkedMember := do
  let slot ← catalog.slots[nameAndType]?
  let owner ← slot.owner
  let descriptor ← slot.descriptor
  return ⟨slot.memberKind, owner, descriptor⟩

def linkedMember? (catalog : Catalog) (name : Nat) : Except Fault (Option LinkedMember) := do
  return (← catalog.slot name).nameAndTypes.current.bind catalog.memberOf?

def linkedMembers (catalog : Catalog) (name : Nat) : Except Fault (List LinkedMember) := do
  return ((← catalog.slot name).nameAndTypes.toList.filterMap catalog.memberOf?).eraseDups

def address (catalog : Catalog) (kind : EntryKind) (index : Nat) : Except Fault Unit := do
  if kind.accepts (← catalog.tag index) then return () else throw (.wrongEntry index kind.label)

def fits (kind : UInt8) (target : Tag) : Bool :=
  if HandleKind.isField kind then target == .fieldRef
  else if HandleKind.isMethod kind then target == .methodRef || target == .interfaceMethodRef
  else false

def checkHandle (catalog : Catalog) (index : Nat) (kind : UInt8) (target : Nat) :
    Except Fault Unit := do
  let tag ← catalog.tag target
  if fits kind tag then return () else throw (.invalidHandle index kind.toNat tag.code.toNat)

abbrev Learn := EStateM Fault Catalog

def ask {α : Type} (question : Catalog → Except Fault α) : Learn α := fun catalog =>
  match question catalog with
  | .ok a => .ok a catalog
  | .error e => .error e catalog

def within (index : Nat) : Learn Unit := do
  let _ ← ask (·.slot index)

def update (index : Nat) (change : Slot → Slot) : Learn Unit :=
  modify fun catalog => ⟨catalog.slots.modify index change⟩

def use (index : Nat) (role : Role) : Learn Unit := do
  within index
  update index fun slot => { slot with role := slot.role.promote role }

def learn : Fact → Learn Unit
  | .entry index tag offset => do
    within index
    update index fun slot => { slot with tag := some tag, offset := offset.toUInt32 }
  | .use index role => use index role
  | .className classIndex name => do
    within classIndex
    update classIndex fun slot => { slot with className := present? name }
    use name .className
  | .member nameAndType owner kind => do
    within nameAndType
    within owner
    update nameAndType fun slot =>
      { slot with owner := some owner, memberKind := slot.memberKind.update kind }
  | .dynamic nameAndType => do
    within nameAndType
    update nameAndType fun slot => { slot with memberKind := slot.memberKind.update .method }
  | .nameAndType index name descriptor => do
    within index
    within name
    within descriptor
    update name fun slot => { slot with nameAndTypes := slot.nameAndTypes.put index }
    update index fun slot => { slot with descriptor := some descriptor }
    use name .memberName
    use descriptor .descriptor
  | .declares name descriptor kind => do
    use name kind.ownRole
    -- The descriptor is checked after this, and the change stays if it is refused.
    update name fun slot =>
      if slot.role = kind.ownRole then { slot with ownDescriptor := present? descriptor } else slot
    use descriptor .descriptor
    update name fun slot =>
      { slot with declarations := slot.declarations.push ⟨kind, descriptor⟩ }
  | .enclosing nameAndType owner => do
    within nameAndType
    within owner
    update nameAndType fun slot =>
      { slot with
        owner := slot.owner.or (some owner)
        memberKind := slot.memberKind.update .method }
  | .inner name classIndex => do
    within name
    within classIndex
    update name fun slot => { slot with innerClasses := slot.innerClasses.put classIndex }
    use name .innerName
  | .addresses kind index => ask (·.address kind index)
  | .handle index kind target => ask (·.checkHandle index kind target)

def learnAll : List Fact → Learn Unit
  | [], catalog => .ok () catalog
  | fact :: rest, catalog =>
    match learn fact catalog with
    | .ok _ catalog => learnAll rest catalog
    | .error e catalog => .error e catalog

end Catalog

end Relabel
