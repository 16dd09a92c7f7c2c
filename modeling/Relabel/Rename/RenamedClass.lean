import Relabel.Rename.Emit

set_option autoImplicit false

namespace Relabel

structure RenamedClass where
  oldName : Name
  name : Name
  bytes : Bytes
deriving DecidableEq, Inhabited

def renameClass {σ : Type} (renamer : Renamer) (oracle : Oracle σ) (settings : Settings)
    (data : Bytes) : Renaming σ RenamedClass := do
  let scan ← Scan.ofBytes settings.attributes data
  let oldName ← scan.thisName
  let superName ← scan.superName
  let interfaces ← scan.interfaceNames
  let name := renamer.className oldName
  let job : Job σ :=
    { scan, renamer, oracle, settings, lineage := ⟨oldName, superName, interfaces⟩, newName := name }
  return ⟨oldName, name, ← job.emit data⟩

end Relabel
