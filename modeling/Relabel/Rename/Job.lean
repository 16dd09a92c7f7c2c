import Relabel.ClassFile.Scan
import Relabel.Hierarchy.Search

set_option autoImplicit false

namespace Relabel

structure Progress (σ : Type) where
  oracle : σ
  warnings : Array Warning := #[]
deriving DecidableEq

abbrev Renaming (σ : Type) := EStateM Fault (Progress σ)

structure Job (σ : Type) where
  scan : Scan
  renamer : Renamer
  oracle : Oracle σ
  settings : Settings
  lineage : Lineage
  newName : Name

instance {σ : Type} : MonadLift (Except Fault) (Renaming σ) where
  monadLift
    | .ok a => fun p => .ok a p
    | .error e => fun p => .error e p

namespace Renaming

variable {σ α : Type}

def ask (act : EStateM Fault σ α) : Renaming σ α := fun p =>
  match act p.oracle with
  | .ok a oracle => .ok a { p with oracle }
  | .error e oracle => .error e { p with oracle }

def warn (warning : Warning) : Renaming σ Unit :=
  modify fun p => { p with warnings := p.warnings.push warning }

/-- Renames the users of a text in order, up to the first whose new name is not the one used, and
reports that one. -/
def agree (index : Nat) (held used : Name) (rename : α → Renaming σ Name) :
    List α → Renaming σ Unit
  | [] => pure ()
  | user :: rest => do
    let other ← rename user
    if other = used then agree index held used rename rest
    else warn (.sharedName index held used other)

end Renaming

namespace Job

open Renaming

variable {σ : Type} (job : Job σ)

def linkedName (held : Name) (member : LinkedMember) : Except Fault Name := do
  let owner ← job.scan.className member.owner
  let descriptor ← job.scan.names.get member.descriptor
  match member.kind with
  | .field => return job.renamer.field owner held descriptor
  | .method => return job.renamer.method owner held descriptor
  | .unknown => return held

def memberName (index : Nat) (held : Name) : Renaming σ Name := do
  match ← job.scan.catalog.linkedMember? index with
  | none => return held
  | some current =>
    let used ← job.linkedName held current
    let members ← job.scan.catalog.linkedMembers index
    agree index held used (fun member => job.linkedName held member)
      (members.filter (· ≠ current))
    return used

def declaredName (held : Name) (declaration : Declaration) : Renaming σ Name := do
  let descriptor ← job.scan.names.get declaration.descriptor
  match declaration.kind with
  | .method =>
    ask (job.oracle.renameMethod job.renamer job.settings job.lineage held descriptor)
  | _ => return job.renamer.field job.lineage.name held descriptor

def ownName (kind : MemberKind) (index : Nat) (held : Name) : Renaming σ Name := do
  let current : Declaration := ⟨kind, ← job.scan.catalog.ownDescriptor index⟩
  let used ← job.declaredName held current
  let declarations ← job.scan.catalog.declarations index
  agree index held used (job.declaredName held) (declarations.filter (· ≠ current))
  return used

def fileEnding (file : Bytes) : Bytes :=
  if '.'.toUInt8 ∈ file then '.'.toUInt8 :: Name.afterLast '.' file
  else (Name.ofString ".java").bytes

def sourceFile (held : Name) : Name :=
  if job.newName = job.lineage.name then held
  else
    ⟨(Name.afterLast '/' job.newName.bytes).takeWhile (· ≠ '$'.toUInt8) ++ fileEnding held.bytes⟩

def simpleName (held : Name) (classIndex : Nat) : Except Fault Name := do
  let name ← job.scan.className classIndex
  let renamed := job.renamer.className name
  if renamed = name then return held else return ⟨renamed.lastPart⟩

def commonName (index : Nat) (held : Name) :
    (chosen : Option Name) → List Nat → Renaming σ Name
  | chosen, [] => return chosen.getD held
  | chosen, inner :: rest => do
    let name ← job.simpleName held inner
    match chosen with
    | none => commonName index held (some name) rest
    | some one =>
      if one = name then commonName index held chosen rest
      else
        warn (.renamedApart index held one name)
        return held

def newText (index : Nat) (held : Name) : Renaming σ Name := do
  match ← job.scan.catalog.role index with
  | .plain => return held
  | .className => return job.renamer.className held
  | .descriptor => return job.renamer.descriptor held
  | .signature => job.renamer.signature held
  | .moduleName => return job.renamer.moduleName held
  | .packageName => return job.renamer.packageName held
  | .memberName => job.memberName index held
  | .ownField => job.ownName .field index held
  | .ownMethod => job.ownName .method index held
  | .sourceFile => return job.sourceFile held
  | .innerName => job.commonName index held none (← job.scan.catalog.innerClasses index)

end Job

end Relabel
