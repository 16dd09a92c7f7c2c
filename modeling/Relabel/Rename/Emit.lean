import Relabel.Rename.Job

set_option autoImplicit false

namespace Relabel

namespace Scan

open Read Text.Numeral

def reread (scan : Scan) (index : Nat) : Read (Tag × Bytes) := do
  let tag ← scan.catalog.tag index
  let expected ← scan.catalog.offset index
  let offset ← position
  if offset ≠ expected then
    throw (.desync index s!"entry at {hex expected}" s!"entry at {hex offset}")
  let code ← u8
  if code ≠ tag.code then
    throw (.desync index s!"tag {tag.code.toNat}" s!"tag {code.toNat}")
  match tag.width? with
  | some width => return (tag, ← bytes width)
  | none =>
    let length ← Read.index
    return (tag, ← bytes length)

end Scan

namespace Job

variable {σ : Type} (job : Job σ)

def newEntry (index : Nat) (tag : Tag) (body : Bytes) : Renaming σ Bytes := do
  match tag with
  | .text =>
    let held ← job.scan.names.get index
    (Constant.text (← job.newText index held)).encode
  | _ => return tag.code :: body

def slots (done : List Bytes) :
    (left index : Nat) → (dead : Bool) → Cursor → Renaming σ (List Bytes × Cursor)
  | 0, _, _, c, p => .ok (done.reverse, c) p
  | left + 1, index, true, c, p => slots done left (index + 1) false c p
  | left + 1, index, false, c, p =>
    match job.scan.reread index c with
    | .error e _ => .error e p
    | .ok (tag, body) c =>
      match job.newEntry index tag body p with
      | .error e p => .error e p
      | .ok entry p => slots (entry :: done) left (index + 1) tag.isWide c p

def emit (data : Bytes) : Renaming σ Bytes := do
  let layout := job.scan.layout
  if data.length < ClassFile.poolStart then throw (.truncated 0 ClassFile.poolStart)
  let (entries, c) ←
    job.slots [] (layout.count - 1) 1 false (.startAt data ClassFile.poolStart)
  -- The bytes may be others than those that were scanned.
  if c.pos ≠ layout.stop then
    throw (.desync layout.count s!"pool end at {Text.Numeral.hex layout.stop}"
      s!"pool end at {Text.Numeral.hex c.pos}")
  return data.take ClassFile.poolStart ++ entries.flatten ++ data.drop layout.stop

end Job

end Relabel
