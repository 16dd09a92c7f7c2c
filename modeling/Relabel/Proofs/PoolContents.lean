import Relabel.Proofs.MemberTables
import Relabel.Proofs.Scanning
import Relabel.Proofs.SlotHistory

set_option autoImplicit false

namespace Relabel

open Catalog (Addressable)

def ClassFile.constantAt? (data : Bytes) (index : Nat) : Option Constant :=
  ((Walk.ofBytes data).entries.find? (·.index = index)).map Entry.constant

def ClassFile.HasText (data : Bytes) (index : Nat) : Prop := ∃ name, constantAt? data index = some (.text name)

def ClassFile.HasClass (data : Bytes) (index : Nat) (name : Name) : Prop :=
  ∃ text, constantAt? data index = some (.classRef text) ∧ constantAt? data text.toNat = some (.text name)

open ClassFile (constantAt? HasClass)

theorem each_constant {data : Bytes} (holds : Nat → Constant → Prop)
    (each : ∀ entry ∈ (Walk.ofBytes data).entries, holds entry.index entry.constant) (index : Nat) (constant : Constant)
    (held : constantAt? data index = some constant) : holds index constant := by
  obtain ⟨entry, found, rfl⟩ := Option.map_eq_some_iff.mp held
  have here : entry.index = index := by simpa using List.find?_some found
  exact here ▸ each entry (List.mem_of_find?_eq_some found)

theorem find_entry (entries : List Entry)
    (increasing : entries.Pairwise fun earlier later => earlier.index < later.index) (entry : Entry)
    (member : entry ∈ entries) : entries.find? (·.index = entry.index) = some entry := by
  obtain ⟨before, after, rfl⟩ := List.append_of_mem member
  have apart : ∀ other ∈ before, ¬ other.index = entry.index := by
    intro other earlier
    have less := (List.pairwise_append.mp increasing).2.2 other earlier entry (.head _)
    omega
  rw [List.find?_append, List.find?_eq_none.mpr (by simpa using apart)]
  simp

namespace Pooled

variable {data : Bytes} (pooled : Pooled data)

theorem increasing : pooled.entries.Pairwise fun earlier later => earlier.index < later.index :=
  Walk.placed_increasing pooled.constants 1 ClassFile.poolStart

theorem constant_at (index : Nat) (constant : Constant) :
    constantAt? data index = some constant ↔
      ∃ entry ∈ pooled.entries, entry.index = index ∧ entry.constant = constant := by
  rw [constantAt?, pooled.walk, Option.map_eq_some_iff]
  refine ⟨?_, ?_⟩
  · rintro ⟨entry, found, held⟩
    exact ⟨entry, List.mem_of_find?_eq_some found, by simpa using List.find?_some found, held⟩
  · rintro ⟨entry, member, rfl, held⟩
    exact ⟨entry, find_entry pooled.entries pooled.increasing entry member, held⟩

theorem constant_of_entry (entry : Entry) (member : entry ∈ pooled.entries) :
    constantAt? data entry.index = some entry.constant := (pooled.constant_at _ _).mpr ⟨entry, member, rfl, rfl⟩

theorem start_body : Cursor.startAt data pooled.stop = .ahead pooled.stop pooled.body := by
  rw [Cursor.start_at_ahead data _ pooled.stop_inside, pooled.drop_stop]

theorem tables_of_read {tables : Tables} {c : Cursor}
    (ran : Tables.read (.ahead pooled.stop pooled.body) = .ok tables c) : Tables.ofBytes data = .ok tables := by
  rw [Tables.ofBytes, pooled.walk]
  simp only [bind, Except.bind, pooled.start_body, ran]

theorem read_of_tables {tables : Tables} (read : Tables.ofBytes data = .ok tables) :
    ∃ c, Tables.read (.ahead pooled.stop pooled.body) = .ok tables c := by
  rw [Tables.ofBytes, pooled.walk] at read
  simp only [bind, Except.bind, pooled.start_body] at read
  cases ran : Tables.read (.ahead pooled.stop pooled.body) with
  | error e c =>
      rw [ran] at read
      cases read
  | ok found c =>
      rw [ran] at read
      cases read
      exact ⟨c, rfl⟩

theorem constant_addressable (index : Nat) (constant : Constant) (held : constantAt? data index = some constant) :
    Addressable pooled.count index := by
  obtain ⟨entry, member, rfl, _⟩ := (pooled.constant_at _ _).mp held
  exact pooled.entry_indices entry member

end Pooled

namespace NameTable

theorem record_found (table : NameTable) (entry : Entry) (index : Nat) (name : Name)
    (found : (table.record entry).slots[index]? = some (some name)) :
    table.slots[index]? = some (some name) ∨ entry.index = index ∧ entry.constant = .text name := by
  by_cases apart : entry.index ≠ index
  · exact .inl (by rwa [record_other table entry index apart] at found)
  · have here : entry.index = index := Decidable.not_not.mp apart
    cases held : entry.constant with
    | text other =>
        simp only [record, held, here] at found
        rw [Array.getElem?_setIfInBounds] at found
        by_cases inside : index < table.slots.size <;> simp_all
    | _ =>
        simp only [record, held] at found
        exact .inl found

theorem records_found (entries : List Entry) (table : NameTable) (index : Nat) (name : Name)
    (found : (entries.foldl record table).slots[index]? = some (some name)) :
    table.slots[index]? = some (some name) ∨ ∃ entry ∈ entries, entry.index = index ∧ entry.constant = .text name := by
  induction entries generalizing table with
  | nil => exact .inl found
  | cons entry rest ih =>
      rcases ih (table.record entry) found with earlier | ⟨other, member, held⟩
      · rcases record_found table entry index name earlier with before | held
        · exact .inl before
        · exact .inr ⟨entry, .head _, held⟩
      · exact .inr ⟨other, .tail _ member, held⟩

theorem get_text_inv (count : Nat) (entries : List Entry) (index : Nat) (name : Name)
    (got : (ofEntries count entries).get index = .ok name) :
    ∃ entry ∈ entries, entry.index = index ∧ entry.constant = .text name := by
  have stored : (ofEntries count entries).slots[index]? = some (some name) := by
    rw [get] at got
    split at got
    · cases got
    · rename_i held
      cases got
      exact held
    · split at got <;> cases got
  rcases records_found entries (empty count) index name stored with blank | found
  · have none_held := (Array.mem_replicate.mp (Array.mem_of_getElem? blank)).2
    cases none_held
  · exact found

end NameTable

theorem Pooled.text_iff {data : Bytes} (pooled : Pooled data) (index : Nat) (name : Name) :
    (NameTable.ofEntries pooled.count pooled.entries).get index = .ok name ↔
      constantAt? data index = some (.text name) := by
  rw [pooled.constant_at]
  refine ⟨NameTable.get_text_inv _ _ index name, ?_⟩
  rintro ⟨entry, member, rfl, held⟩
  exact NameTable.get_text _ _ pooled.increasing entry member (pooled.entry_indices entry member).2 name held

def Fact.OfPool : Fact → Prop
  | .className .. | .member .. | .dynamic .. | .nameAndType .. => True
  | _ => False

def Fact.classNameAt? (index : Nat) : Fact → Option (Option Nat)
  | .className classIndex name => if classIndex = index then some (present? name) else none
  | _ => none

theorem class_fact_inv {constant : Constant} {index classIndex name : Nat}
    (stated : Fact.className classIndex name ∈ constant.facts index) :
    classIndex = index ∧ ∃ text, constant = .classRef text ∧ name = text.toNat := by
  cases constant <;> simp_all [Constant.facts]

theorem handle_fact_other (entries : List Entry) (fact : Fact) (member : fact ∈ entries.filterMap Entry.handleFact?) :
    ∃ index kind target, fact = .handle index kind target := by
  obtain ⟨entry, _, handle⟩ := List.mem_filterMap.mp member
  cases held : entry.constant <;> simp only [Entry.handleFact?, held, reduceCtorEq] at handle
  exact ⟨_, _, _, (Option.some.inj handle).symm⟩

theorem class_of_tag (constant : Constant) (tagged : constant.tag = .classRef) : ∃ name, constant = .classRef name := by
  cases constant with
  | classRef name => exact ⟨name, rfl⟩
  | _ => cases tagged

theorem Slot.after_tag {place : Nat} {slot : Slot} {fact : Fact} {tag : Tag}
    (held : (slot.after place fact).tag = some tag) : slot.tag = some tag ∨ ∃ offset, fact = .entry place tag offset := by
  cases fact with
  | entry index found offset =>
      by_cases here : index = place
      · right
        simp only [after, changed, here, if_true, Option.some.injEq] at held
        exact ⟨offset, by rw [here, held]⟩
      · simpa only [after, changed, if_neg here] using Or.inl held
  | _ => simp_all [after, used, changed, apply_ite Slot.tag]

theorem Slot.told_tag {place : Nat} {facts : List Fact} {tag : Tag} (held : (told place facts).tag = some tag) :
    ∃ offset, Fact.entry place tag offset ∈ facts := by
  have origin : ∀ found, (told place facts).tag = some found → ∃ offset, Fact.entry place found offset ∈ facts := by
    refine fold_keeps (fun slot => ∀ found, slot.tag = some found → ∃ offset, Fact.entry place found offset ∈ facts)
      facts (fun fact member slot before found held => ?_) {} (fun _ none => nomatch none)
    rcases after_tag held with earlier | ⟨offset, rfl⟩
    · exact before found earlier
    · exact ⟨offset, member⟩
  exact origin tag held

namespace Scanned

variable {mode : AttributeMode} {data : Bytes} {scan : Scan} (scanned : Scanned mode data scan)

def facts : List Fact := scanned.pooled.facts ++ scanned.noted.toList

theorem slot (index : Nat) (here : Addressable scanned.pooled.count index) :
    scan.catalog.slot index = .ok (Slot.told index scanned.facts) := by
  have stored := Catalog.learnt_slot scanned.pooled.count scanned.facts scan.catalog () scanned.learnt here.2
  rw [Catalog.slot, if_neg (Nat.ne_of_gt here.1), stored]

theorem role_told (index : Nat) (here : Addressable scanned.pooled.count index) :
    scan.catalog.role index = .ok (Slot.told index scanned.facts).role := by
  rw [Catalog.role, scanned.slot index here]
  rfl

theorem entry_facts (entry : Entry) (member : entry ∈ scanned.pooled.entries) (fact : Fact)
    (stated : fact ∈ entry.constant.facts entry.index) : fact ∈ scanned.facts := by
  have inPool : fact ∈ scanned.pooled.entries.flatMap Entry.facts :=
    List.mem_flatMap.mpr ⟨entry, member, List.mem_cons_of_mem _ stated⟩
  exact List.mem_append_left _ (List.mem_append_left _ inPool)

theorem fact_cases {fact : Fact} (member : fact ∈ scanned.facts) :
    (∃ entry ∈ scanned.pooled.entries, fact = .entry entry.index entry.constant.tag entry.offset ∨
        fact ∈ entry.constant.facts entry.index) ∨
      (∃ index kind target, fact = .handle index kind target) ∨ fact ∈ scanned.noted.toList := by
  rcases List.mem_append.mp member with inPool | noted
  · rcases List.mem_append.mp inPool with stated | handle
    · obtain ⟨entry, inside, stated⟩ := List.mem_flatMap.mp stated
      exact .inl ⟨entry, inside, List.mem_cons.mp stated⟩
    · exact .inr (.inl (handle_fact_other scanned.pooled.entries fact handle))
  · exact .inr (.inr noted)

theorem pool_fact (fact : Fact) (kind : fact.OfPool) (member : fact ∈ scanned.facts) :
    ∃ entry ∈ scanned.pooled.entries, fact ∈ entry.constant.facts entry.index := by
  rcases scanned.fact_cases member with ⟨entry, inside, rfl | stated⟩ | ⟨_, _, _, rfl⟩ | noted
  · exact absurd kind id
  · exact ⟨entry, inside, stated⟩
  · exact absurd kind id
  · have body := scanned.noted_kinds fact noted
    cases fact with
    | className | member | dynamic | nameAndType => exact absurd body id
    | _ => exact absurd kind id

theorem entry_fact (index : Nat) (tag : Tag) (offset : Nat) (member : Fact.entry index tag offset ∈ scanned.facts) :
    ∃ entry ∈ scanned.pooled.entries, entry.index = index ∧ entry.constant.tag = tag := by
  rcases scanned.fact_cases member with ⟨entry, inside, same | stated⟩ | ⟨_, _, _, same⟩ | noted
  · cases same
    exact ⟨entry, inside, rfl, rfl⟩
  · cases constant_facts_plain entry.constant entry.index _ stated
  · cases same
  · cases body_fact_plain _ (scanned.noted_kinds _ noted)

theorem text_iff (scanned : Scanned mode data scan) (index : Nat) (name : Name) :
    scan.names.get index = .ok name ↔ constantAt? data index = some (.text name) := by
  rw [scanned.names]
  exact scanned.pooled.text_iff index name

theorem tag_told (index : Nat) (here : Addressable scanned.pooled.count index) :
    scan.catalog.tag index = (Slot.told index scanned.facts).tag.elim (.error (.unusableIndex index)) .ok := by
  rw [Catalog.tag, scanned.slot index here]
  simp only [bind, Except.bind]
  cases (Slot.told index scanned.facts).tag <;> rfl

theorem tag_iff (index : Nat) (tag : Tag) :
    scan.catalog.tag index = .ok tag ↔ ∃ entry ∈ scanned.pooled.entries, entry.index = index ∧ entry.constant.tag = tag := by
  refine ⟨fun tagged => ?_, ?_⟩
  · obtain ⟨slot, found, _⟩ := except_bind_inv tagged
    have here := (Catalog.slot_inv found).1
    rw [scanned.closed.1] at here
    rw [scanned.tag_told index here] at tagged
    cases held : (Slot.told index scanned.facts).tag with
    | none =>
        rw [held] at tagged
        cases tagged
    | some known =>
        rw [held] at tagged
        cases tagged
        obtain ⟨offset, stated⟩ := Slot.told_tag held
        exact scanned.entry_fact index tag offset stated
  · rintro ⟨entry, member, rfl, rfl⟩
    exact (scanned.recorded entry member).1

theorem address_iff (scanned : Scanned mode data scan) (index : Nat) :
    scan.catalog.address .classRef index = .ok () ↔ ∃ name, constantAt? data index = some (.classRef name) := by
  refine ⟨fun addressed => ?_, ?_⟩
  · obtain ⟨tag, tagged, accepted⟩ := except_bind_inv addressed
    by_cases fits : EntryKind.classRef.accepts tag
    · have tagEq : tag = .classRef := (beq_iff_eq.mp fits).symm
      obtain ⟨entry, member, rfl, own⟩ := (scanned.tag_iff index tag).mp tagged
      obtain ⟨name, constant⟩ := class_of_tag entry.constant (own.trans tagEq)
      exact ⟨name, (scanned.pooled.constant_at _ _).mpr ⟨entry, member, rfl, constant⟩⟩
    · rw [if_neg fits] at accepted
      cases accepted
  · rintro ⟨name, held⟩
    obtain ⟨entry, member, rfl, constant⟩ := (scanned.pooled.constant_at _ _).mp held
    have tagged := (scanned.recorded entry member).1
    rw [constant] at tagged
    rw [Catalog.address, tagged]
    rfl

theorem class_name_told (index : Nat) (name : UInt16) (held : constantAt? data index = some (.classRef name)) :
    (Slot.told index scanned.facts).className = present? name.toNat := by
  -- No other constant has the index of this class, so its name stays recorded.
  obtain ⟨entry, member, rfl, constant⟩ := (scanned.pooled.constant_at _ _).mp held
  have stated : Fact.className entry.index name.toNat ∈ scanned.facts :=
    scanned.entry_facts entry member _ (by rw [constant]; exact .head _)
  apply Option.some.inj
  apply Slot.told_only (some ·.className) (Fact.classNameAt? entry.index) scanned.facts (present? name.toNat)
  · intro fact _ slot
    cases fact with
    | className classIndex text =>
        by_cases here : classIndex = entry.index <;>
          simp [Slot.after, Slot.used, Slot.changed, apply_ite Slot.className, Fact.classNameAt?, here]
    | _ => simp [Slot.after, Slot.used, Slot.changed, apply_ite Slot.className, Fact.classNameAt?]
  · intro fact inside other written
    cases fact with
    | className classIndex text =>
        by_cases here : classIndex = entry.index
        · obtain ⟨one, oneMember, oneStated⟩ := scanned.pool_fact (.className classIndex text) trivial inside
          obtain ⟨own, found, oneConstant, rfl⟩ := class_fact_inv oneStated
          have same := scanned.pooled.constant_of_entry one oneMember
          rw [← own, here, held, oneConstant] at same
          cases same
          simpa [Fact.classNameAt?, here] using written.symm
        · simp [Fact.classNameAt?, here] at written
    | _ => cases written
  · exact ⟨_, stated, by simp [Fact.classNameAt?]⟩

theorem class_name_iff (scanned : Scanned mode data scan) (index : Nat) (name : Name) :
    scan.className index = .ok name ↔ HasClass data index name := by
  refine ⟨fun named => ?_, ?_⟩
  · obtain ⟨_, addressed, named⟩ := except_bind_inv named
    obtain ⟨text, named, got⟩ := except_bind_inv named
    obtain ⟨slot, found, named⟩ := except_bind_inv named
    obtain ⟨pointer, held⟩ := (scanned.address_iff index).mp addressed
    rw [scanned.slot index (scanned.pooled.constant_addressable index _ held)] at found
    cases found
    rw [scanned.class_name_told index pointer held] at named
    by_cases zero : pointer.toNat = 0
    · rw [present?, if_pos zero] at named
      cases named
    · rw [present?, if_neg zero] at named
      cases named
      exact ⟨pointer, held, (scanned.text_iff _ name).mp got⟩
  · rintro ⟨text, held, named⟩
    have nonzero : text.toNat ≠ 0 := Nat.ne_of_gt (scanned.pooled.constant_addressable _ _ named).1
    have found := scanned.slot index (scanned.pooled.constant_addressable index _ held)
    have told := scanned.class_name_told index text held
    rw [present?, if_neg nonzero] at told
    rw [Scan.className, (scanned.address_iff index).mpr ⟨text, held⟩, Catalog.className, found]
    simp only [bind, Except.bind, told]
    exact (scanned.text_iff _ name).mpr named

theorem tables : ∃ tables, Tables.ofBytes data = .ok tables ∧ tables.outline = scan.outline ∧
    scanned.noted.toList.filter Fact.ofTables = tables.facts := by
  obtain ⟨tables, c, read, outlined, _, stated⟩ :=
    Survey.outline_tables mode _ _ _ _ _ ⟨rfl, rfl⟩ scanned.outline_ran
  exact ⟨tables, scanned.pooled.tables_of_read read, outlined.symm, stated⟩

theorem stated {tables : Tables} (read : Tables.ofBytes data = .ok tables) :
    tables.outline = scan.outline ∧ scanned.noted.toList.filter Fact.ofTables = tables.facts := by
  obtain ⟨same, again, outlined, noted⟩ := scanned.tables
  rw [read] at again
  cases again
  exact ⟨outlined, noted⟩

theorem noted_passed (scanned : Scanned .pass data scan) {tables : Tables} (read : Tables.ofBytes data = .ok tables) :
    scanned.noted.toList = tables.facts := by
  obtain ⟨c, ran⟩ := scanned.pooled.read_of_tables read
  obtain ⟨found, r, surveyed, _, _, facts⟩ :=
    Survey.tables_outline (.ofEntries scanned.pooled.count scanned.pooled.entries) _
      ⟨.ahead scanned.pooled.stop scanned.pooled.body, #[]⟩ _ _ ⟨rfl, rfl⟩ ran
  rw [scanned.outline_ran] at surveyed
  cases surveyed
  exact facts

end Scanned

theorem Pooled.scan_passes {data : Bytes} (pooled : Pooled data) {tables : Tables} {catalog : Catalog}
    (read : Tables.ofBytes data = .ok tables)
    (learnt : Catalog.learnAll (pooled.facts ++ tables.facts) (.empty pooled.count) = .ok () catalog) :
    ∃ scan, Scan.ofBytes .pass data = .ok scan := by
  obtain ⟨c, ran⟩ := pooled.read_of_tables read
  obtain ⟨found, r, surveyed, _, _, facts⟩ := Survey.tables_outline (.ofEntries pooled.count pooled.entries) _
    ⟨.ahead pooled.stop pooled.body, #[]⟩ _ _ ⟨rfl, rfl⟩ ran
  obtain ⟨scanned, _⟩ := pooled.scans surveyed (by rw [facts]; exact learnt)
  exact ⟨_, scanned.accepted⟩

end Relabel
