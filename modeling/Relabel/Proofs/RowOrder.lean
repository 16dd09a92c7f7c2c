import Relabel.Proofs.ClassBuilding
import Relabel.Proofs.InnerNames
import Relabel.Proofs.MovedSurvey
import Relabel.Proofs.PassedBodies

set_option autoImplicit false

namespace Relabel

open ClassFile (constantAt? HasClass innerClassesOf)
open Cursor (ahead)

structure InnerRow where
  inner : UInt16
  outer : UInt16
  name : UInt16
  access : UInt16
deriving DecidableEq

namespace InnerRow

def encode (row : InnerRow) : Bytes := word16 row.inner ++ (word16 row.outer ++ (word16 row.name ++ word16 row.access))

def fact? (row : InnerRow) : Option Fact :=
  if row.name.toNat ≠ 0 then some (.inner row.name.toNat row.inner.toNat) else none

end InnerRow

def Attribute.innerClasses (name : UInt16) (rows : List InnerRow) (slack : Bytes) : Attribute :=
  ⟨name, word16 rows.length.toUInt16 ++ (rows.flatMap InnerRow.encode ++ slack)⟩

def ClassFile.opening (file : ClassFile) : Bytes :=
  word16 file.access ++ word16 file.thisClass ++ word16 file.superClass ++
    word16 file.interfaces.size.toUInt16 ++ file.interfaces.toList.flatMap word16 ++
    Member.encodeTable file.fields.toList ++ Member.encodeTable file.methods.toList

def Header.ofMember (kind : MemberKind) (m : Member) : Header := ⟨kind, m.name.toNat, m.descriptor.toNat⟩

namespace Tables

open Read

theorem takes_header (kind : MemberKind) {m : Member} (fits : Attribute.TableFits m.attributes) (pos : Nat) :
    Takes (header kind) pos m.encode (.ofMember kind m) := by
  have access := takes_skip pos (word16 m.access)
  rw [word16_length] at access
  rw [Member.encode, List.append_assoc, List.append_assoc]
  apply takes_bind access
  apply takes_bind (takes_index _ m.name)
  apply takes_bind (takes_index _ m.descriptor)
  exact takes_map (takes_skip_attributes fits _) fun _ => Header.ofMember kind m

theorem takes_headers (kind : MemberKind) {ms : List Member} (few : ms.length ≤ 65535)
    (fits : ∀ m ∈ ms, Attribute.TableFits m.attributes) (pos : Nat) :
    Takes (headers kind) pos (Member.encodeTable ms) (ms.map (.ofMember kind)) := by
  apply takes_bind (takes_count pos few)
  refine takes_collect (List.forall₂_map_right_iff.mpr (List.forall₂_same.mpr fun m member pos => ?_)) _
  exact takes_header kind (fits m member) pos

theorem takes_opening {file : ClassFile} (fits : file.Fits) (pos : Nat) :
    Takes opening pos file.opening
      ⟨⟨file.thisClass.toNat, file.superClass.toNat, file.interfaces.toList.map UInt16.toNat⟩,
        file.fields.toList.map (.ofMember .field), file.methods.toList.map (.ofMember .method)⟩ := by
  have access := takes_skip pos (word16 file.access)
  rw [word16_length] at access
  have interfaces : List.Forall₂ (fun (item : UInt16) found => ∀ pos, Takes index pos (word16 item) found)
      file.interfaces.toList (file.interfaces.toList.map UInt16.toNat) :=
    List.forall₂_map_right_iff.mpr (List.forall₂_same.mpr fun item _ pos => takes_index pos item)
  have fields := takes_headers .field fits.fields fun m member => fits.members m (List.mem_append_left _ member)
  have methods := takes_headers .method fits.methods fun m member => fits.members m (List.mem_append_right _ member)
  simp only [ClassFile.opening, List.append_assoc]
  apply takes_bind access
  apply takes_bind (takes_index _ file.thisClass)
  apply takes_bind (takes_index _ file.superClass)
  apply takes_bind (takes_count _ fits.interfaces)
  apply takes_bind (takes_collect interfaces _)
  apply takes_bind (fields _)
  exact takes_map (methods _) (Tables.mk _ _)

end Tables

namespace Survey

theorem opening_ends {mode : AttributeMode} {names : NameTable} {file : ClassFile} (fits : file.Fits) {pos : Nat} {tail : Bytes}
    {found : Outline} {r : Reading} (ran : opening mode names ⟨ahead pos (file.opening ++ tail), #[]⟩ = .ok found r) :
    r.cursor = ahead (pos + file.opening.length) tail := by
  have takes := Tables.takes_opening fits pos
  obtain ⟨_, c, read, _, same, _⟩ := opening_tables mode names _ _ _ _ ⟨rfl, rfl⟩ ran
  rw [takes.passes tail] at read
  cases read
  exact same

theorem attributes_end {names : NameTable} {body : AttributeKind → Survey Unit} {as : List Attribute}
    (short : ∀ a ∈ as, a.info.length < 4294967296) {pos : Nat} {tail : Bytes} {facts : Array Fact} {a : Unit} {r : Reading}
    (ran : times as.length (attributeHere names body) ⟨ahead pos (as.flatMap Attribute.encode ++ tail), facts⟩ = .ok a r) :
    r.cursor = ahead (pos + (as.flatMap Attribute.encode).length) tail := by
  have takes := Read.takes_each as (fun one member => Read.takes_skip_attribute one (short one member)) pos
  obtain ⟨_, c, read, same⟩ := relates_times as.length (attribute_here_skips names body) _ _ _ _ rfl ran
  rw [takes.passes tail] at read
  cases read
  exact same

theorem takes_inner_class (row : InnerRow) (pos : Nat) (facts : Array Fact) :
    Takes innerClass pos facts row.encode () (facts ++ row.fact?.toList.toArray) := by
  have two : ∀ pos (word : UInt16), Takes (Read.skip 2 : Survey Unit) pos facts (word16 word) () facts := by
    intro pos word
    have skipped := takes_read facts (Read.takes_skip pos (word16 word))
    rwa [word16_length] at skipped
  apply takes_bind (takes_read facts (Read.takes_index pos row.inner))
  apply takes_bind (two _ row.outer)
  apply takes_bind (takes_read facts (Read.takes_index _ row.name))
  rw [← List.append_nil (word16 row.access)]
  apply takes_bind (two _ row.access)
  by_cases named : row.name.toNat ≠ 0
  · simp only [if_pos named, InnerRow.fact?]
    exact takes_nothing (fun _ => rfl) ⟨_, Array.toList_append.symm⟩
  · simp only [if_neg named, InnerRow.fact?, Option.toList_none, Array.append_empty]
    exact takes_nothing (fun _ => rfl) (List.prefix_refl _)

theorem takes_rows (rows : List InnerRow) (pos : Nat) (facts : Array Fact) :
    Takes (times rows.length innerClass) pos facts (rows.flatMap InnerRow.encode) ()
      (facts ++ (rows.filterMap InnerRow.fact?).toArray) := by
  induction rows generalizing pos facts with
  | nil => exact takes_nothing (fun _ => by simp [times]) ⟨_, Array.toList_append.symm⟩
  | cons row rest ih =>
      have parts : facts ++ ((row :: rest).filterMap InnerRow.fact?).toArray =
          facts ++ row.fact?.toList.toArray ++ (rest.filterMap InnerRow.fact?).toArray := by
        rw [List.filterMap_cons]
        cases row.fact? <;> simp
      rw [List.length_cons, times_succ, List.flatMap_cons, parts]
      exact takes_bind (takes_inner_class row pos facts) (ih _ _)

theorem takes_inner_classes (depth : Nat) (nested : Survey Unit) {rows : List InnerRow} (few : rows.length ≤ 65535) (pos : Nat)
    (facts : Array Fact) :
    Takes (attributeBody depth nested .innerClasses) pos facts (word16 rows.length.toUInt16 ++ rows.flatMap InnerRow.encode) ()
      (facts ++ (rows.filterMap InnerRow.fact?).toArray) :=
  takes_bind (takes_read facts (Read.takes_count pos few)) (takes_rows rows _ facts)

theorem attribute_here_passes {names : NameTable} {body : AttributeKind → Survey Unit} {a : Attribute}
    (short : a.info.length < 4294967296) {text : Name} (named : names.get a.name.toNat = .ok text) (pos : Nat)
    {facts noted : Array Fact}
    (inside : ∀ start, ∃ c, body (AttributeKind.ofName text) ⟨ahead start a.info, facts⟩ = .ok () ⟨c, noted⟩) (tail : Bytes) :
    ∃ next, attributeHere names body ⟨ahead pos (a.encode ++ tail), facts⟩ = .ok () ⟨ahead next tail, noted⟩ := by
  have size : a.info.length.toUInt32.toNat = a.info.length := UInt32.toNat_ofNat_of_lt' short
  let start := pos + (word16 a.name).length + (word32 a.info.length.toUInt32).length
  have known : (liftM (names.get a.name.toNat) : Survey Name) ⟨ahead start a.info, facts⟩ =
      .ok text ⟨ahead start a.info, facts⟩ := by
    rw [named]
    rfl
  obtain ⟨c, surveyed⟩ := inside start
  have whole : (do body (AttributeKind.ofName (← names.get a.name.toNat)) : Survey Unit) ⟨ahead start a.info, facts⟩ =
      .ok () ⟨c, noted⟩ := by rw [bind_ok known, surveyed]
  refine ⟨start + a.info.length, ?_⟩
  rw [Attribute.encode, List.append_assoc, List.append_assoc, attributeHere,
    bind_ok ((takes_read facts (Read.takes_index pos a.name)).passes _),
    bind_ok ((takes_read facts (Read.takes_u32 _ a.info.length.toUInt32)).passes _), size]
  exact within_passes whole tail

theorem inner_classes_pass {names : NameTable} {name : UInt16} {rows : List InnerRow} {slack : Bytes}
    (named : names.get name.toNat = .ok (.ofString "InnerClasses")) (few : rows.length ≤ 65535)
    (short : (Attribute.innerClasses name rows slack).info.length < 4294967296) (pos : Nat) (facts : Array Fact) (tail : Bytes) :
    ∃ next, attributeHere names (outerAttribute names)
        ⟨ahead pos ((Attribute.innerClasses name rows slack).encode ++ tail), facts⟩ =
      .ok () ⟨ahead next tail, facts ++ (rows.filterMap InnerRow.fact?).toArray⟩ := by
  refine attribute_here_passes short named pos (fun start => ?_) tail
  let info := (Attribute.innerClasses name rows slack).info
  let left := (ahead start info).remaining
  have measured := read_ok facts (rfl : Read.remaining (ahead start info) = .ok left (ahead start info))
  have passed := (takes_inner_classes 0 (nestedAttributes names left 1) few start facts).passes slack
  rw [List.append_assoc] at passed
  exact ⟨_, (bind_ok measured).trans passed⟩

end Survey

structure RowFrame where
  -- all up to the end of the pool
  front : Bytes
  -- the tables, without the attributes of the class
  file : ClassFile
  before : List Attribute
  name : UInt16
  slack : Bytes
  after : List Attribute
  -- what comes behind the class file
  rest : Bytes

namespace RowFrame

variable (frame : RowFrame)

def table (rows : List InnerRow) : Attribute := .innerClasses frame.name rows frame.slack

def attributes (rows : List InnerRow) : List Attribute := frame.before ++ frame.table rows :: frame.after

def body (rows : List InnerRow) : Bytes :=
  { frame.file with attributes := (frame.attributes rows).toArray }.tail ++ frame.rest

def fill (rows : List InnerRow) : Bytes := frame.front ++ frame.body rows

structure Fits (rows : List InnerRow) : Prop where
  file : frame.file.Fits
  table : Attribute.TableFits (frame.attributes rows)
  few : rows.length ≤ 65535

def entries (rows : List InnerRow) : Bytes :=
  frame.before.flatMap Attribute.encode ++
    ((frame.table rows).encode ++ (frame.after.flatMap Attribute.encode ++ frame.rest))

theorem attributes_length (rows : List InnerRow) :
    (frame.attributes rows).length = frame.before.length + (frame.after.length + 1) := by
  rw [attributes, List.length_append, List.length_cons]

theorem body_parts (rows : List InnerRow) : frame.body rows =
    frame.file.opening ++ (word16 (frame.before.length + (frame.after.length + 1)).toUInt16 ++ frame.entries rows) := by
  rw [← frame.attributes_length rows]
  change (frame.file.opening ++ Attribute.encodeTable (frame.attributes rows)) ++ frame.rest = _
  simp only [Attribute.encodeTable, entries, attributes, List.flatMap_append, List.flatMap_cons, List.append_assoc]

end RowFrame

namespace Survey

variable {names : NameTable} (frame : RowFrame) (named : names.get frame.name.toNat = .ok (.ofString "InnerClasses"))
  {one : List InnerRow}

include named in
theorem attributes_rows (fits : frame.Fits one) {pos : Nat} {facts : Array Fact} {r : Reading}
    (ran : times (frame.before.length + (frame.after.length + 1)) (attributeHere names (outerAttribute names))
      ⟨ahead pos (frame.entries one), facts⟩ = .ok () r) :
    ∃ earlier later, r.facts.toList = earlier ++ one.filterMap InnerRow.fact? ++ later ∧
      ∀ two, frame.Fits two → ∃ r', times (frame.before.length + (frame.after.length + 1))
          (attributeHere names (outerAttribute names)) ⟨ahead pos (frame.entries two), facts⟩ = .ok () r' ∧
        r'.facts.toList = earlier ++ two.filterMap InnerRow.fact? ++ later := by
  have passes : ∀ rows, frame.Fits rows → ∀ pos facts tail, ∃ next, attributeHere names (outerAttribute names)
      ⟨ahead pos ((frame.table rows).encode ++ tail), facts⟩ =
        .ok () ⟨ahead next tail, facts ++ (rows.filterMap InnerRow.fact?).toArray⟩ := fun rows fits =>
    inner_classes_pass named fits.few (fits.table.short _ (List.mem_append_right _ (.head _)))
  rw [times_add] at ran ⊢
  obtain ⟨_, reached, ranBefore, ran⟩ := bind_ok_inv ran
  rw [times_succ] at ran ⊢
  obtain ⟨_, tabled, ranTable, ranAfter⟩ := bind_ok_inv ran
  -- up to the table both files are the same
  have ends := attributes_end (fun a member => fits.table.short a (List.mem_append_left _ member)) ranBefore
  have same := exact_ends (exact_times _ (exact_attribute_here names (notes_outer_attribute names))) ranBefore ends
  obtain ⟨cursor, facts'⟩ := reached
  change cursor = _ at ends
  subst ends
  obtain ⟨next, passed⟩ := passes one fits (pos + (frame.before.flatMap Attribute.encode).length) facts'
    (frame.after.flatMap Attribute.encode ++ frame.rest)
  rw [passed] at ranTable
  cases ranTable
  -- behind it the bytes are the same again, and only the facts before differ
  have alike : names.NamesAlike names := fun index text known => ⟨text, known, rfl⟩
  have moved := carried_times frame.after.length (carried_attribute_here alike (carried_outer_attribute alike))
  let tail := frame.after.flatMap Attribute.encode ++ frame.rest
  have level (front other : Array Fact) (there : Nat) :
      Level front.toList other.toList ⟨ahead next tail, front⟩ ⟨ahead there tail, other⟩ :=
    ⟨⟨_, _, _, rfl, rfl⟩, [], by simp, by simp⟩
  obtain ⟨_, _, _, _, _, later, listed, _⟩ := moved _ _ _ _ _ _ (level _ #[] 0) ranAfter
  rw [Array.toList_append] at listed
  refine ⟨facts'.toList, later, listed, fun two fitsTwo => ?_⟩
  obtain ⟨there, passedTwo⟩ := passes two fitsTwo (pos + (frame.before.flatMap Attribute.encode).length) facts' tail
  obtain ⟨_, last, ranTwo, _, _, added, mine, yours⟩ := moved _ _ _ _ _ _ (level _ _ there) ranAfter
  rw [Array.toList_append] at mine yours
  refine ⟨last, ?_, ?_⟩
  · rw [RowFrame.entries, bind_ok (same.passes _), bind_ok passedTwo, ranTwo]
  · rw [yours, List.append_cancel_left (listed.symm.trans mine)]

include named in
theorem outline_rows (fits : frame.Fits one) {pos : Nat} {found : Outline} {r : Reading}
    (ran : outline .interpret names ⟨ahead pos (frame.body one), #[]⟩ = .ok found r) :
    ∃ earlier later, r.facts.toList = earlier ++ one.filterMap InnerRow.fact? ++ later ∧
      ∀ two, frame.Fits two → ∃ r', outline .interpret names ⟨ahead pos (frame.body two), #[]⟩ = .ok found r' ∧
        r'.facts.toList = earlier ++ two.filterMap InnerRow.fact? ++ later := by
  have few : frame.before.length + (frame.after.length + 1) ≤ 65535 := by
    rw [← frame.attributes_length one]
    exact fits.table.few
  rw [outline_opens, frame.body_parts] at ran
  obtain ⟨opened, atTable, ranOpening, ran⟩ := bind_ok_inv ran
  obtain ⟨_, ranAttributes, rfl⟩ := map_ok_inv ran
  have ends := opening_ends fits.file ranOpening
  have opens := exact_ends (exact_opening .interpret names) ranOpening ends
  obtain ⟨cursor, facts⟩ := atTable
  change cursor = _ at ends
  subst ends
  have counts := takes_read facts (Read.takes_count (pos + frame.file.opening.length) few)
  obtain ⟨_, _, ranCount, ranTable⟩ := bind_ok_inv ranAttributes
  rw [counts.passes] at ranCount
  cases ranCount
  obtain ⟨earlier, later, listed, others⟩ := attributes_rows frame named fits ranTable
  refine ⟨earlier, later, listed, fun two fitsTwo => ?_⟩
  obtain ⟨last, ranTwo, listedTwo⟩ := others two fitsTwo
  refine ⟨last, ?_, listedTwo⟩
  have whole : attributes .interpret names ⟨ahead (pos + frame.file.opening.length)
      (word16 (frame.before.length + (frame.after.length + 1)).toUInt16 ++ frame.entries two), facts⟩ = .ok () last :=
    (bind_ok (counts.passes _)).trans ranTwo
  rw [outline_opens, frame.body_parts, bind_ok (opens.passes _), bind_ok whole]
  rfl

end Survey

structure RowFrame.Holds (frame : RowFrame) (rows : List InnerRow) (data : Bytes) : Prop where
  bytes : data = frame.fill rows
  fits : frame.Fits rows
  pool : ∃ count, (Walk.ofBytes data).outcome = .ok ⟨count, frame.front.length⟩
  named : constantAt? data frame.name.toNat = some (.text (.ofString "InnerClasses"))

/-- The files differ in the rows of one table of inner classes, and each has all that the other has:
in another order, or some of them more than once. -/
def SameRows (data other : Bytes) : Prop :=
  ∃ (frame : RowFrame) (one two : List InnerRow), frame.Holds one data ∧ other = frame.fill two ∧ frame.Fits two ∧
    ∀ row, row ∈ one ↔ row ∈ two

theorem RowFrame.Holds.pooled {frame : RowFrame} {rows : List InnerRow} {data : Bytes} (holds : frame.Holds rows data)
    (pooled : Pooled data) : pooled.front = frame.front ∧ pooled.body = frame.body rows := by
  obtain ⟨count, ended⟩ := holds.pool
  rw [pooled.walk] at ended
  have stop : pooled.stop = frame.front.length := congrArg Layout.stop (Except.ok.inj ended)
  refine List.append_inj ?_ (by rw [pooled.front_length, stop])
  rw [← pooled.front_body]
  exact holds.bytes

section

variable {rows others : List InnerRow}

theorem row_fact_inv {fact : Fact} (member : fact ∈ rows.filterMap InnerRow.fact?) : ∃ name inner, fact = .inner name inner := by
  obtain ⟨row, _, stated⟩ := List.mem_filterMap.mp member
  by_cases named : row.name.toNat ≠ 0
  · rw [InnerRow.fact?, if_pos named] at stated
    exact ⟨_, _, (Option.some.inj stated).symm⟩
  · rw [InnerRow.fact?, if_neg named] at stated
    cases stated

theorem row_fact_role {index : Nat} {role : Role}
    (member : role ∈ (rows.filterMap InnerRow.fact?).flatMap (Fact.rolesAt index)) : role = .innerName := by
  obtain ⟨fact, stated, used⟩ := List.mem_flatMap.mp member
  obtain ⟨name, inner, rfl⟩ := row_fact_inv stated
  rw [Fact.mem_roles_at] at used
  exact (Prod.mk.inj (List.mem_singleton.mp used)).2

theorem mem_row_facts (same : ∀ row, row ∈ rows ↔ row ∈ others) (fact : Fact) :
    fact ∈ rows.filterMap InnerRow.fact? ↔ fact ∈ others.filterMap InnerRow.fact? := by
  simp only [List.mem_filterMap, same]

theorem role_of_rows (same : ∀ row, row ∈ rows ↔ row ∈ others) (earlier later : List Fact) (index : Nat) :
    (Slot.told index (earlier ++ rows.filterMap InnerRow.fact? ++ later)).role =
      (Slot.told index (earlier ++ others.filterMap InnerRow.fact? ++ later)).role := by
  have none : (rows.filterMap InnerRow.fact?).flatMap (Fact.rolesAt index) = [] ↔
      (others.filterMap InnerRow.fact?).flatMap (Fact.rolesAt index) = [] := by
    simp only [List.flatMap_eq_nil_iff, mem_row_facts same]
  simp only [Slot.told_role, List.flatMap_append, List.foldl_append]
  -- All rows use the text in one role, so only whether there is a row matters.
  rw [Role.promote_all_same .innerName _ _ fun _ => row_fact_role, Role.promote_all_same .innerName _ _ fun _ => row_fact_role]
  simp only [none]

end

theorem SameRows.rescans {data other : Bytes} (same : SameRows data other) {scan : Scan}
    (scanned : Scanned .interpret data scan) :
    ∃ (again : Scan) (rescanned : Scanned .interpret other again) (earlier later : List Fact) (one two : List InnerRow),
      rescanned.pooled.count = scanned.pooled.count ∧ rescanned.pooled.entries = scanned.pooled.entries ∧
        scanned.facts = earlier ++ one.filterMap InnerRow.fact? ++ later ∧
        rescanned.facts = earlier ++ two.filterMap InnerRow.fact? ++ later ∧ ∀ row, row ∈ one ↔ row ∈ two := by
  obtain ⟨frame, one, two, holds, rfl, fits, alike⟩ := same
  obtain ⟨front, body⟩ := holds.pooled scanned.pooled
  rw [RowFrame.fill, ← front]
  have ran := scanned.outline_ran
  rw [body] at ran
  have named := (scanned.pooled.text_iff _ _).mpr holds.named
  obtain ⟨earlier, later, listed, others⟩ := Survey.outline_rows frame named holds.fits ran
  obtain ⟨r, surveyed, listedTwo⟩ := others two fits
  have facts : scanned.facts = (scanned.pooled.facts ++ earlier) ++ one.filterMap InnerRow.fact? ++ later := by
    rw [Scanned.facts, show scanned.noted.toList = _ from listed]
    simp only [List.append_assoc]
  have learnt : Catalog.learnAll scanned.facts _ = _ := scanned.learnt
  rw [facts] at learnt
  have plain : ∀ fact ∈ one.filterMap InnerRow.fact?, fact.entryIndex? = none := by
    intro fact member
    obtain ⟨name, inner, rfl⟩ := row_fact_inv member
    rfl
  obtain ⟨catalog, relearnt⟩ := Catalog.learnt_replaced plain (fun fact => (mem_row_facts alike fact).mpr) learnt
  let pooled := scanned.pooled.withBody (frame.body two)
  have factsTwo : pooled.facts ++ r.facts.toList =
      (scanned.pooled.facts ++ earlier) ++ two.filterMap InnerRow.fact? ++ later := by
    rw [listedTwo, show pooled.facts = scanned.pooled.facts from rfl]
    simp only [List.append_assoc]
  rw [← factsTwo] at relearnt
  obtain ⟨rescanned, pool, noted⟩ := pooled.scans surveyed relearnt
  refine ⟨_, rescanned, scanned.pooled.facts ++ earlier, later, one, two, ?_, ?_, facts, ?_, alike⟩
  · rw [pool]
    rfl
  · rw [pool]
    rfl
  · rw [Scanned.facts, pool, noted, factsTwo]

structure AlikeForInner (data other : Bytes) (scan again : Scan) : Prop where
  constants : constantAt? other = constantAt? data
  roles : ∀ index constant, constantAt? data index = some constant → again.catalog.role index = scan.catalog.role index
  classes : ∀ index classIndex, classIndex ∈ innerClassesOf other index ↔ classIndex ∈ innerClassesOf data index

theorem SameRows.alike {data other : Bytes} (same : SameRows data other) {scan : Scan} (scanned : Scanned .interpret data scan) :
    ∃ again, Nonempty (Scanned .interpret other again) ∧ AlikeForInner data other scan again := by
  obtain ⟨again, rescanned, earlier, later, one, two, count, entries, facts, factsTwo, alike⟩ := same.rescans scanned
  refine ⟨again, ⟨rescanned⟩, ?_, fun index constant held => ?_, fun index classIndex => ?_⟩
  · funext index
    rw [constantAt?, constantAt?, rescanned.pooled.walk, scanned.pooled.walk, entries]
  · have here := scanned.pooled.constant_addressable index constant held
    rw [scanned.role_told index here, rescanned.role_told index (count ▸ here), facts, factsTwo, role_of_rows alike]
  · rw [innerClassesOf, innerClassesOf, ← rescanned.facts_traced, ← scanned.facts_traced, facts, factsTwo]
    simp only [List.filterMap_append, List.mem_append, List.mem_filterMap, alike]

theorem AlikeForInner.unanimous {data other : Bytes} {scan again : Scan} (alike : AlikeForInner data other scan again)
    (renamer : Renamer) (index : Nat) (held vote : Name) :
    renamer.Unanimous other index held vote ↔ renamer.Unanimous data index held vote := by
  simp only [Renamer.Unanimous, HasClass, alike.constants, alike.classes]

/-- The simple name of inner classes changes if all that are listed under it ask for one and the
same, and is kept otherwise, with one warning. The rows can come in any order and any number of
times. -/
theorem inner_name_needs_agreement {σ : Type} (renamer : Renamer) (oracle : Oracle σ) (settings : Settings)
    (interprets : settings.attributes = .interpret) (data : Bytes) (scan : Scan)
    (accepted : Scan.ofBytes settings.attributes data = .ok scan) (index : Nat) (held : Name)
    (text : constantAt? data index = some (.text held)) (role : scan.catalog.role index = .ok .innerName)
    (resolved : ∀ classIndex ∈ innerClassesOf data index, ∃ className, HasClass data classIndex className)
    (file : Bytes) (alike : file = data ∨ SameRows data file) :
    (∀ vote, renamer.Unanimous data index held vote → TextBecomes renamer oracle settings file index held vote []) ∧
      ((¬ ∃ vote, renamer.Unanimous data index held vote) →
        ∃ warning, warning.index? = some index ∧ TextBecomes renamer oracle settings file index held held [warning]) := by
  rw [interprets] at accepted
  obtain ⟨scanned⟩ := scan_inv .interpret data scan accepted
  have rescanned : ∃ again, Nonempty (Scanned .interpret file again) ∧ AlikeForInner data file scan again := by
    rcases alike with rfl | same
    · exact ⟨scan, ⟨scanned⟩, rfl, fun _ _ _ => rfl, fun _ _ => Iff.rfl⟩
    · exact same.alike scanned
  obtain ⟨again, ⟨rescanned⟩, alike⟩ := rescanned
  have known : ∀ classIndex ∈ innerClassesOf file index, ∃ className, HasClass file classIndex className := by
    intro classIndex member
    obtain ⟨className, has⟩ := resolved classIndex ((alike.classes index classIndex).mp member)
    exact ⟨className, by rwa [HasClass, alike.constants]⟩
  have voted := inner_name_voted renamer oracle interprets rescanned (alike.constants ▸ text)
    ((alike.roles index _ text).trans role) known
  simpa only [alike.unanimous] using voted

def twinFrame : RowFrame where
  front := [0xCA, 0xFE, 0xBA, 0xBE, 0, 0, 0, 52, 0, 9, 1, 0, 1, 65, 7, 0, 1, 1, 0, 3, 65, 36, 66, 7, 0, 3, 1, 0, 3, 67, 36, 66,
    7, 0, 5, 1, 0, 1, 66, 1, 0, 12, 73, 110, 110, 101, 114, 67, 108, 97, 115, 115, 101, 115]
  file := { thisClass := 2 }
  before := []
  name := 8
  slack := []
  after := []
  rest := []

def twinRows : List InnerRow := [⟨4, 2, 7, 1⟩, ⟨6, 0, 7, 1⟩]

def shuffledRows : List InnerRow := [⟨6, 0, 7, 1⟩, ⟨4, 2, 7, 1⟩, ⟨6, 0, 7, 1⟩]

def twinRules : RuleSet :=
  ({} : RuleSet).putClass (.ofString "A$B") (.ofString "A$D") |>.putClass (.ofString "C$B") (.ofString "p/D")

def loneRule : RuleSet := ({} : RuleSet).putClass (.ofString "A$B") (.ofString "A$D")

theorem twin_fits (rows : List InnerRow) (few : rows.length ≤ 65535)
    (short : (twinFrame.table rows).info.length < 4294967296) : twinFrame.Fits rows where
  file := ⟨by decide, by decide, by decide, fun _ none => nomatch none⟩
  table := ⟨by rw [twinFrame.attributes_length]; decide, fun a member => by rwa [List.mem_singleton.mp member]⟩
  few := few

theorem twin_holds : twinFrame.Holds twinRows (twinFrame.fill twinRows) where
  bytes := rfl
  fits := twin_fits twinRows (by decide) (by decide)
  pool := ⟨9, rfl⟩
  named := rfl

theorem shuffled_same : SameRows (twinFrame.fill twinRows) (twinFrame.fill shuffledRows) := by
  refine ⟨twinFrame, twinRows, shuffledRows, twin_holds, rfl, twin_fits shuffledRows (by decide) (by decide), fun row => ?_⟩
  simp only [twinRows, shuffledRows, List.mem_cons, List.not_mem_nil, or_false]
  grind

theorem twin_listed : innerClassesOf (twinFrame.fill twinRows) 7 = [4, 6] := by decide +kernel

theorem twin_resolved : HasClass (twinFrame.fill twinRows) 4 (.ofString "A$B") ∧
    HasClass (twinFrame.fill twinRows) 6 (.ofString "C$B") := ⟨⟨3, rfl, rfl⟩, ⟨5, rfl, rfl⟩⟩

theorem twin_unanimous_iff (renamer : Renamer) (held vote : Name) :
    renamer.Unanimous (twinFrame.fill twinRows) 7 held vote ↔
      renamer.Votes held (.ofString "A$B") vote ∧ renamer.Votes held (.ofString "C$B") vote := by
  obtain ⟨first, second⟩ := twin_resolved
  simp only [Renamer.Unanimous, twin_listed, List.forall_mem_cons, List.not_mem_nil, false_implies, implies_true, and_true]
  refine and_congr ⟨fun each => each _ first, fun voted name has => ?_⟩ ⟨fun each => each _ second, fun voted name has => ?_⟩
  · rwa [has.unique first]
  · rwa [has.unique second]

theorem inner_name_needs_agreement_shuffled :
    SameRows (twinFrame.fill twinRows) (twinFrame.fill shuffledRows) ∧
      twinRules.renamer.Unanimous (twinFrame.fill twinRows) 7 (.ofString "B") (.ofString "D") ∧
      TextBecomes twinRules.renamer (Oracle.empty : Oracle Unit) {} (twinFrame.fill shuffledRows) 7 (.ofString "B")
        (.ofString "D") [] ∧
      (¬ ∃ vote, loneRule.renamer.Unanimous (twinFrame.fill twinRows) 7 (.ofString "B") vote) ∧
      ∃ warning, warning.index? = some 7 ∧
        TextBecomes loneRule.renamer (Oracle.empty : Oracle Unit) {} (twinFrame.fill shuffledRows) 7 (.ofString "B")
          (.ofString "B") [warning] := by
  have resolved : ∀ classIndex ∈ innerClassesOf (twinFrame.fill twinRows) 7,
      ∃ className, HasClass (twinFrame.fill twinRows) classIndex className := by
    rw [twin_listed]
    simp only [List.forall_mem_cons, List.not_mem_nil, false_implies, implies_true, and_true]
    exact ⟨⟨_, twin_resolved.1⟩, ⟨_, twin_resolved.2⟩⟩
  obtain ⟨scan, accepted, role⟩ : ∃ scan, Scan.ofBytes .interpret (twinFrame.fill twinRows) = .ok scan ∧
      scan.catalog.role 7 = .ok .innerName := ⟨_, rfl, rfl⟩
  have outcome (renamer : Renamer) := inner_name_needs_agreement renamer (Oracle.empty : Oracle Unit) {} rfl _ scan accepted 7
    (.ofString "B") rfl role resolved _ (.inr shuffled_same)
  have unanimous : twinRules.renamer.Unanimous (twinFrame.fill twinRows) 7 (.ofString "B") (.ofString "D") := by
    rw [twin_unanimous_iff, Renamer.votes_iff, Renamer.votes_iff]
    decide
  have divided : ¬ ∃ vote, loneRule.renamer.Unanimous (twinFrame.fill twinRows) 7 (.ofString "B") vote := by
    rintro ⟨vote, agreed⟩
    rw [twin_unanimous_iff, Renamer.votes_iff, Renamer.votes_iff] at agreed
    exact absurd (agreed.1.symm.trans agreed.2) (by decide)
  exact ⟨shuffled_same, unanimous, (outcome _).1 _ unanimous, divided, (outcome _).2 divided⟩

end Relabel
