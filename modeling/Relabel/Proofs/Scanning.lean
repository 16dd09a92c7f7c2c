import Relabel.ClassFile.Scan
import Relabel.Proofs.CrossReferences
import Relabel.Proofs.PoolLayout
import Relabel.Proofs.SurveyExtent

set_option autoImplicit false

namespace Relabel

open Catalog (Addressable)
open Cursor (ahead)

namespace NameTable

theorem record_count (table : NameTable) (entry : Entry) : (table.record entry).count = table.count := by
  cases held : entry.constant with
  | text name =>
      simp only [record, held]
      exact Array.size_setIfInBounds
  | _ => simp only [record, held]

theorem records_count (entries : List Entry) (table : NameTable) :
    (entries.foldl record table).count = table.count := by
  induction entries generalizing table with
  | nil => rfl
  | cons entry rest ih => rw [List.foldl_cons, ih, record_count]

theorem of_entries_count (count : Nat) (entries : List Entry) : (ofEntries count entries).count = count := by
  rw [ofEntries, records_count]
  exact Array.size_replicate

theorem record_other (table : NameTable) (entry : Entry) (index : Nat) (apart : entry.index ≠ index) :
    (table.record entry).slots[index]? = table.slots[index]? := by
  cases held : entry.constant with
  | text name =>
      simp only [record, held]
      exact Array.getElem?_setIfInBounds_ne apart
  | _ => simp only [record, held]

theorem records_other (entries : List Entry) (table : NameTable) (index : Nat)
    (apart : ∀ entry ∈ entries, entry.index ≠ index) :
    (entries.foldl record table).slots[index]? = table.slots[index]? := by
  induction entries generalizing table with
  | nil => rfl
  | cons entry rest ih =>
      rw [List.foldl_cons, ih _ fun one member => apart one (.tail _ member)]
      exact record_other table entry index (apart entry (.head _))

theorem get_text (count : Nat) (entries : List Entry)
    (increasing : entries.Pairwise fun earlier later => earlier.index < later.index) (entry : Entry)
    (member : entry ∈ entries) (inside : entry.index < count) (name : Name) (held : entry.constant = .text name) :
    (ofEntries count entries).get entry.index = .ok name := by
  -- No later entry has the index of an earlier one, so each text stays.
  obtain ⟨before, after, rfl⟩ := List.append_of_mem member
  have later : ∀ other ∈ after, other.index ≠ entry.index := by
    intro other follows
    have less := List.rel_of_pairwise_cons (List.pairwise_append.mp increasing).2.1 follows
    omega
  have room : entry.index < (before.foldl record (empty count)).slots.size := by
    have size : (before.foldl record (empty count)).slots.size = count :=
      (records_count before (empty count)).trans Array.size_replicate
    rwa [size]
  have stored : (ofEntries count (before ++ entry :: after)).slots[entry.index]? = some (some name) := by
    rw [ofEntries, List.foldl_append, List.foldl_cons, records_other after _ _ later]
    simp only [record, held]
    exact Array.getElem?_setIfInBounds_self_of_lt room
  rw [get, stored]

theorem get_addressable (table : NameTable) (index : Nat) (addressable : Addressable table.count index) :
    (∃ name, table.get index = .ok name) ∨ ∃ expected, table.get index = .error (.wrongEntry index expected) := by
  have inside : index < table.slots.size := addressable.2
  have stored : table.slots[index]? = some table.slots[index] := Array.getElem?_eq_getElem inside
  cases held : table.slots[index] with
  | some name =>
      left
      rw [held] at stored
      exact ⟨name, by rw [get, stored]⟩
  | none =>
      right
      rw [held] at stored
      refine ⟨EntryKind.text.label, ?_⟩
      rw [get, stored]
      exact if_neg (Nat.ne_of_gt addressable.1)

end NameTable

theorem body_fact_plain (fact : Fact) (stated : fact.OfBody) : fact.entryIndex? = none := by
  cases fact with
  | entry => exact absurd stated id
  | _ => rfl

def Pooled.facts {data : Bytes} (pooled : Pooled data) : List Fact :=
  pooled.entries.flatMap Entry.facts ++ pooled.entries.filterMap Entry.handleFact?

/-- How a scan comes about: the bytes after the pool start with the class's own tables, and every
fact stated up to their end has been learnt. -/
structure Scanned (mode : AttributeMode) (data : Bytes) (scan : Scan) where
  pooled : Pooled data
  taken : Bytes
  rest : Bytes
  noted : Array Fact
  body : pooled.body = taken ++ rest
  names : scan.names = .ofEntries pooled.count pooled.entries
  layout : scan.layout = ⟨pooled.count, pooled.stop⟩
  surveyed : Survey.Takes (Survey.outline mode scan.names) pooled.stop #[] taken scan.outline noted
  learnt : Catalog.learnAll (pooled.facts ++ noted.toList) (.empty pooled.count) = .ok () scan.catalog

theorem pooled_trace (mode : AttributeMode) (data : Bytes) (pooled : Pooled data) :
    Trace.ofBytes mode data =
      match Survey.outline mode (.ofEntries pooled.count pooled.entries) ⟨ahead pooled.stop pooled.body, #[]⟩ with
      | .ok outline r => ⟨pooled.facts ++ r.facts.toList, .ok (⟨pooled.count, pooled.stop⟩, outline)⟩
      | .error e r => ⟨pooled.facts ++ r.facts.toList, .error e⟩ := by
  rw [Trace.ofBytes, pooled.walk]
  dsimp only
  rw [Cursor.start_at_ahead data pooled.stop pooled.stop_inside, pooled.drop_stop]
  rfl

theorem scan_learnt (mode : AttributeMode) (data : Bytes) (count : Nat) (catalog : Catalog)
    (counted : ClassFile.poolCount data = .ok count)
    (learnt : Catalog.learnAll (Trace.ofBytes mode data).facts (.empty count) = .ok () catalog) :
    Scan.ofBytes mode data = (Trace.ofBytes mode data).outcome.map fun found =>
      ⟨.ofEntries count (Walk.ofBytes data).entries, catalog, found.1, found.2⟩ := by
  rw [Scan.ofBytes, counted]
  simp only [bind, Except.bind, learnt]
  cases (Trace.ofBytes mode data).outcome <;> rfl

theorem scan_inv (mode : AttributeMode) (data : Bytes) (scan : Scan) (ran : Scan.ofBytes mode data = .ok scan) :
    Nonempty (Scanned mode data scan) := by
  obtain ⟨count, counted, ran⟩ := except_bind_inv ran
  dsimp only at ran
  cases learnt : Catalog.learnAll (Trace.ofBytes mode data).facts (.empty count) with
  | error e stop =>
      rw [learnt] at ran
      cases ran
  | ok _ catalog =>
      rw [learnt] at ran
      obtain ⟨⟨layout, outline⟩, ended, ran⟩ := except_bind_inv ran
      cases ran
      cases walked : (Walk.ofBytes data).outcome with
      | error e =>
          rw [Trace.ofBytes, walked] at ended
          cases ended
      | ok layout' =>
          obtain ⟨pooled, rfl⟩ := walk_pooled data layout' walked
          rw [pooled.pool_count] at counted
          cases counted
          rw [pooled_trace mode data pooled] at learnt ended
          cases surveyed :
              Survey.outline mode (.ofEntries pooled.count pooled.entries) ⟨ahead pooled.stop pooled.body, #[]⟩ with
          | error e r =>
              rw [surveyed] at ended
              cases ended
          | ok found r =>
              rw [surveyed] at ended learnt
              cases ended
              obtain ⟨taken, rest, body, _, takes⟩ := Survey.exact_outline mode _ _ _ _ _ _ surveyed
              have names : NameTable.ofEntries pooled.count (Walk.ofBytes data).entries =
                  .ofEntries pooled.count pooled.entries := by rw [pooled.walk]
              exact ⟨pooled, taken, rest, r.facts, body, names, rfl, by rw [names]; exact takes, learnt⟩

theorem Pooled.scans {mode : AttributeMode} {data : Bytes} (pooled : Pooled data) {outline : Outline} {r : Reading}
    {catalog : Catalog}
    (surveyed : Survey.outline mode (.ofEntries pooled.count pooled.entries) ⟨ahead pooled.stop pooled.body, #[]⟩ =
      .ok outline r)
    (learnt : Catalog.learnAll (pooled.facts ++ r.facts.toList) (.empty pooled.count) = .ok () catalog) :
    ∃ scanned : Scanned mode data
        ⟨.ofEntries pooled.count pooled.entries, catalog, ⟨pooled.count, pooled.stop⟩, outline⟩,
      scanned.pooled = pooled ∧ scanned.noted = r.facts := by
  obtain ⟨taken, rest, body, _, takes⟩ := Survey.exact_outline mode _ _ _ _ _ _ surveyed
  exact ⟨⟨pooled, taken, rest, r.facts, body, rfl, rfl, takes, learnt⟩, rfl, rfl⟩

namespace Scanned

variable {mode : AttributeMode} {data : Bytes} {scan : Scan} (scanned : Scanned mode data scan)

theorem outline_ran :
    Survey.outline mode (.ofEntries scanned.pooled.count scanned.pooled.entries)
        ⟨ahead scanned.pooled.stop scanned.pooled.body, #[]⟩ =
      .ok scan.outline ⟨ahead (scanned.pooled.stop + scanned.taken.length) scanned.rest, scanned.noted⟩ := by
  rw [← scanned.names, scanned.body]
  exact scanned.surveyed.passes scanned.rest

theorem traced :
    Trace.ofBytes mode data =
      ⟨scanned.pooled.facts ++ scanned.noted.toList, .ok (scan.layout, scan.outline)⟩ := by
  rw [pooled_trace mode data scanned.pooled, scanned.outline_ran, scanned.layout]

theorem accepted (scanned : Scanned mode data scan) : Scan.ofBytes mode data = .ok scan := by
  have learnt := scanned.learnt
  have traced := scanned.traced
  rw [scan_learnt mode data scanned.pooled.count scan.catalog scanned.pooled.pool_count (by rwa [traced]), traced,
    scanned.pooled.walk]
  dsimp only [Except.map]
  rw [← scanned.names]

theorem noted_kinds : ∀ fact ∈ scanned.noted.toList, fact.OfBody := by
  obtain ⟨added, same, kinds⟩ := Survey.notes_outline mode (.ofEntries scanned.pooled.count scanned.pooled.entries)
    ⟨ahead scanned.pooled.stop scanned.pooled.body, #[]⟩
  rw [scanned.outline_ran] at same
  intro fact member
  change scanned.noted.toList = added at same
  rw [same] at member
  exact kinds fact member

theorem later_facts_plain :
    ∀ fact ∈ scanned.pooled.entries.filterMap Entry.handleFact? ++ scanned.noted.toList, fact.entryIndex? = none := by
  intro fact member
  rcases List.mem_append.mp member with handle | stated
  · exact handle_facts_plain scanned.pooled.entries fact handle
  · exact body_fact_plain fact (scanned.noted_kinds fact stated)

theorem recorded (entry : Entry) (member : entry ∈ scanned.pooled.entries) :
    scan.catalog.tag entry.index = .ok entry.constant.tag ∧ scan.catalog.offset entry.index = .ok entry.offset := by
  have learnt := scanned.learnt
  rw [Pooled.facts, List.append_assoc] at learnt
  have increasing := Walk.placed_increasing scanned.pooled.constants 1 ClassFile.poolStart
  obtain ⟨slot, stored, tagged, offset⟩ := Catalog.learn_all_records scanned.pooled.entries _ increasing
    scanned.later_facts_plain _ scan.catalog () learnt entry member
  have nonzero : entry.index ≠ 0 := Nat.ne_of_gt (scanned.pooled.entry_indices entry member).1
  have found : scan.catalog.slot entry.index = .ok slot := by rw [Catalog.slot, if_neg nonzero, stored]
  have fits : entry.offset.toUInt32.toNat = entry.offset :=
    UInt32.toNat_ofNat_of_lt' (walk_offset_bound data entry (by rw [scanned.pooled.walk]; exact member))
  refine ⟨?_, ?_⟩
  · simp only [Catalog.tag, found, bind, Except.bind, tagged]
    rfl
  · simp only [Catalog.offset, found, bind, Except.bind, offset, fits]
    rfl

theorem text (entry : Entry) (member : entry ∈ scanned.pooled.entries) (held : Name)
    (holds : entry.constant = .text held) : scan.names.get entry.index = .ok held := by
  rw [scanned.names]
  have increasing := Walk.placed_increasing scanned.pooled.constants 1 ClassFile.poolStart
  exact NameTable.get_text _ _ increasing entry member (scanned.pooled.entry_indices entry member).2 held holds

theorem names_count : scan.names.count = scanned.pooled.count := by
  rw [scanned.names, NameTable.of_entries_count]

theorem closed :
    scan.catalog.count = scanned.pooled.count ∧
      Catalog.All (Catalog.SlotClosed scanned.pooled.count) scan.catalog :=
  Catalog.learn_all_closed _ _ scan.catalog () scanned.learnt

theorem classes_addressable :
    Addressable scanned.pooled.count scan.outline.thisClass ∧
      (scan.outline.superClass ≠ 0 → Addressable scanned.pooled.count scan.outline.superClass) ∧
      ∀ index ∈ scan.outline.interfaces, Addressable scanned.pooled.count index := by
  obtain ⟨thisNoted, superNoted, interfacesNoted⟩ := Survey.outline_addresses mode _ _ _ _ scanned.outline_ran
  have addressed : ∀ index, Fact.addresses .classRef index ∈ scanned.noted.toList →
      Addressable scanned.pooled.count index := fun index stated =>
    Catalog.learn_all_addresses _ _ scan.catalog () scanned.learnt .classRef index (List.mem_append_right _ stated)
  exact ⟨addressed _ thisNoted, fun named => addressed _ (superNoted named),
    fun index member => addressed index (interfacesNoted index member)⟩

end Scanned

end Relabel
