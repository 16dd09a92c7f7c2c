import Relabel.Pool.Walk

set_option autoImplicit false

namespace Relabel

structure NameTable where
  slots : Array (Option Name)

namespace NameTable

def empty (count : Nat) : NameTable := ⟨Array.replicate count none⟩

def count (table : NameTable) : Nat := table.slots.size

def insert (table : NameTable) (index : Nat) (name : Name) : Except Fault NameTable :=
  if index < table.count then .ok ⟨table.slots.setIfInBounds index (some name)⟩
  else .error (.indexOutOfRange index table.count)

def get (table : NameTable) (index : Nat) : Except Fault Name :=
  match table.slots[index]? with
  | none => .error (.indexOutOfRange index table.count)
  | some (some name) => .ok name
  | some none =>
    if index = 0 then .error (.unusableIndex 0)
    else .error (.wrongEntry index EntryKind.text.label)

def record (table : NameTable) (entry : Entry) : NameTable :=
  match entry.constant with
  | .text name => ⟨table.slots.setIfInBounds entry.index (some name)⟩
  | _ => table

def ofEntries (count : Nat) (entries : List Entry) : NameTable :=
  entries.foldl record (empty count)

end NameTable

end Relabel
