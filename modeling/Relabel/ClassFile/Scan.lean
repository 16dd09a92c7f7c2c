import Relabel.ClassFile.Outline
import Relabel.Pool.Catalog

set_option autoImplicit false

namespace Relabel

structure Trace where
  facts : List Fact
  outcome : Except Fault (Layout × Outline)

namespace Trace

def ofBytes (mode : AttributeMode) (data : Bytes) : Trace :=
  let walk := Walk.ofBytes data
  let facts := walk.entries.flatMap Entry.facts
  match walk.outcome with
  | .error e => ⟨facts, .error e⟩
  | .ok layout =>
    let facts := facts ++ walk.entries.filterMap Entry.handleFact?
    let names := NameTable.ofEntries layout.count walk.entries
    match Survey.outline mode names ⟨.startAt data layout.stop, #[]⟩ with
    | .ok outline r => ⟨facts ++ r.facts.toList, .ok (layout, outline)⟩
    | .error e r => ⟨facts ++ r.facts.toList, .error e⟩

end Trace

structure Scan where
  names : NameTable
  catalog : Catalog
  layout : Layout
  outline : Outline

namespace Scan

def ofBytes (mode : AttributeMode) (data : Bytes) : Except Fault Scan := do
  let count ← ClassFile.poolCount data
  let trace := Trace.ofBytes mode data
  -- A fact that is refused stands before the place where reading ended, so its fault comes first.
  match Catalog.learnAll trace.facts (.empty count) with
  | .error e _ => throw e
  | .ok _ catalog =>
    let (layout, outline) ← trace.outcome
    return ⟨.ofEntries count (Walk.ofBytes data).entries, catalog, layout, outline⟩

def className (scan : Scan) (index : Nat) : Except Fault Name := do
  scan.catalog.address .classRef index
  scan.names.get (← scan.catalog.className index)

def thisName (scan : Scan) : Except Fault Name := scan.className scan.outline.thisClass

def superName (scan : Scan) : Except Fault Name :=
  if scan.outline.superClass = 0 then .ok Name.object else scan.className scan.outline.superClass

def interfaceNames (scan : Scan) : Except Fault (List Name) :=
  scan.outline.interfaces.mapM scan.className

end Scan

end Relabel
