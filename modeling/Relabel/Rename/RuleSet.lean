import Relabel.Rename.Renamer
import Relabel.Rename.Rules

set_option autoImplicit false

namespace Relabel

inductive FieldKeying where
  | withDescriptor
  | nameOnly
deriving DecidableEq, Inhabited

structure MemberKey where
  owner : Name
  name : Name
  descriptor : Option Name
deriving DecidableEq, Inhabited

structure RuleSet where
  fieldKeying : FieldKeying := .withDescriptor
  classes : Rules Name Name := {}
  fields : Rules MemberKey Name := {}
  methods : Rules MemberKey Name := {}
  modules : Rules Name Name := {}
  packages : Rules Name Name := {}

namespace FieldKeying

def key (keying : FieldKeying) (member : MemberKey) : MemberKey :=
  match keying with
  | .withDescriptor => member
  | .nameOnly => { member with descriptor := none }

end FieldKeying

namespace RuleSet

def renamer (rules : RuleSet) : Renamer where
  class? := rules.classes.get?
  field? owner name descriptor :=
    rules.fields.get? (rules.fieldKeying.key ⟨owner, name, some descriptor⟩)
  method? owner name descriptor := rules.methods.get? ⟨owner, name, some descriptor⟩
  module? := rules.modules.get?
  package? := rules.packages.get?

def putClass (rules : RuleSet) (source target : Name) : RuleSet :=
  { rules with classes := rules.classes.insert source target }

def putField (rules : RuleSet) (member : MemberKey) (target : Name) : RuleSet :=
  { rules with fields := rules.fields.insert (rules.fieldKeying.key member) target }

def putMethod (rules : RuleSet) (member : MemberKey) (target : Name) : RuleSet :=
  { rules with methods := rules.methods.insert member target }

def putModule (rules : RuleSet) (source target : Name) : RuleSet :=
  { rules with modules := rules.modules.insert source target }

def putPackage (rules : RuleSet) (source target : Name) : RuleSet :=
  { rules with packages := rules.packages.insert source target }

def withFieldKeying (rules : RuleSet) (keying : FieldKeying) : RuleSet :=
  rules.fields.toList.foldl (fun rules (member, target) => rules.putField member target)
    { rules with fieldKeying := keying, fields := {} }

def size (rules : RuleSet) : Nat :=
  rules.classes.size + rules.fields.size + rules.methods.size + rules.modules.size +
    rules.packages.size

def isEmpty (rules : RuleSet) : Bool := rules.size == 0

def rekey (rules : RuleSet) (member : MemberKey) (name : Name) : MemberKey :=
  { owner := rules.renamer.className member.owner
    name
    descriptor := member.descriptor.map rules.renamer.descriptor }

def invertNames (rules : Rules Name Name) : Rules Name Name :=
  rules.toList.foldl (fun inverse (source, target) => inverse.insert target source) {}

def invertMembers (rules : RuleSet) (members : Rules MemberKey Name) : Rules MemberKey Name :=
  members.toList.foldl
    (fun inverse (member, target) => inverse.insert (rules.rekey member target) member.name) {}

def inverted (rules : RuleSet) : RuleSet where
  fieldKeying := rules.fieldKeying
  classes := invertNames rules.classes
  fields := rules.invertMembers rules.fields
  methods := rules.invertMembers rules.methods
  modules := invertNames rules.modules
  packages := invertNames rules.packages

def fieldDescriptor? (rules : RuleSet) (owner name : Name) : Option Name :=
  rules.fields.toList.foldl
    (fun least (member, _) =>
      match member.descriptor with
      | none => least
      | some d =>
        if member.owner = owner ∧ member.name = name then
          match least with
          | none => some d
          | some held => if held.order d = .gt then some d else some held
        else least)
    none

def joinNames (rules other : Rules Name Name) (next rename : Name → Name) : Rules Name Name :=
  other.toList.foldl (fun joined (source, target) => joined.insertNew (rename source) target)
    (rules.toList.foldl (fun joined (source, target) => joined.insert target (next source)) {})

def typed (other : RuleSet) (member : MemberKey) : MemberKey :=
  { member with
    descriptor := member.descriptor.or (other.fieldDescriptor? member.owner member.name) }

def fieldTarget (other : RuleSet) (member : MemberKey) : Name :=
  match (other.typed member).descriptor with
  | some d => other.renamer.field member.owner member.name d
  | none => (other.fields.get? member).getD member.name

def methodTarget (other : RuleSet) (member : MemberKey) : Name :=
  match member.descriptor with
  | some d => other.renamer.method member.owner member.name d
  | none => member.name

def joinFields (rules other : RuleSet) : Rules MemberKey Name :=
  let keying := rules.fieldKeying
  let own := rules.fields.toList.foldl
    (fun joined (member, target) =>
      joined.insert (keying.key (rules.rekey (other.typed member) target))
        (other.fieldTarget member)) {}
  other.fields.toList.foldl
    (fun joined (member, target) =>
      if rules.fields.contains (keying.key member) then joined
      else joined.insertNew (keying.key (rules.rekey member member.name)) target) own

def joinMethods (rules other : RuleSet) : Rules MemberKey Name :=
  let own := rules.methods.toList.foldl
    (fun joined (member, target) =>
      joined.insert (rules.rekey member target) (other.methodTarget member)) {}
  other.methods.toList.foldl
    (fun joined (member, target) =>
      if rules.methods.contains member then joined
      else joined.insertNew (rules.rekey member member.name) target) own

/-- From two sets with the same sources, the rules that lead from the targets of the first to those
of the second. What only the second has is carried over, its keys renamed by the first. -/
def compose (rules other : RuleSet) : RuleSet where
  fieldKeying := rules.fieldKeying
  classes := joinNames rules.classes other.classes other.renamer.className rules.renamer.className
  fields := rules.joinFields other
  methods := rules.joinMethods other
  modules :=
    joinNames rules.modules other.modules other.renamer.moduleName rules.renamer.moduleName
  packages :=
    joinNames rules.packages other.packages other.renamer.packageName rules.renamer.packageName

end RuleSet

end Relabel
