import Relabel.Proofs.AttributeNesting

set_option autoImplicit false

namespace Relabel

open Cursor (ahead)
open Walk (encodedAll)

def ClassFile.Sites (data : Bytes) (sites : List Site) : Prop :=
  ∃ layout text tail outline, (Walk.ofBytes data).outcome = .ok layout ∧ data.drop layout.stop = text ++ tail ∧
    ClassLaid (.ofEntries layout.count (Walk.ofBytes data).entries) text outline sites

theorem sites_judged {data : Bytes} {sites : List Site} (stand : ClassFile.Sites data sites) :
    ((∀ site ∈ sites, site.Allowed) ∧ ∃ found, (Trace.ofBytes .interpret data).outcome = .ok found) ∨
      (∃ site ∈ sites, ¬ site.Allowed) ∧
        ∃ offset, (Trace.ofBytes .interpret data).outcome = .error (.malformedAttribute "annotation" offset) := by
  obtain ⟨layout, text, tail, outline, walked, split, laid⟩ := stand
  obtain ⟨pooled, rfl⟩ := walk_pooled data layout walked
  rw [pooled.drop_stop] at split
  rw [pooled.walk] at laid
  -- The attributes are laid out in a form, and the form decides how the survey ends.
  have judged := (Survey.scans_outline _ _).judges pooled.stop text outline sites tail #[] laid (Nat.le_refl _)
  rw [pooled_trace .interpret data pooled, split]
  generalize Survey.outline .interpret _ ⟨ahead pooled.stop (text ++ tail), #[]⟩ = result at judged ⊢
  cases judged with
  | accepted noted allowed => exact .inl ⟨allowed, _, rfl⟩
  | rejected site member deep offset r => exact .inr ⟨⟨site, member, deep⟩, offset, rfl⟩

theorem Pooled.sites {data : Bytes} (pooled : Pooled data) {text tail : Bytes} {outline : Outline} {sites : List Site}
    (split : pooled.body = text ++ tail) (laid : ClassLaid (.ofEntries pooled.count pooled.entries) text outline sites) :
    ClassFile.Sites data sites := by
  refine ⟨⟨pooled.count, pooled.stop⟩, text, tail, outline, ?_, ?_, ?_⟩
  · rw [pooled.walk]
  · rw [pooled.drop_stop, split]
  · rw [pooled.walk]
    exact laid

section

variable {data : Bytes} {sites : List Site} {site : Site} {scan : Scan}

theorem sites_allowed (stand : ClassFile.Sites data sites) {found : Layout × Outline}
    (traced : (Trace.ofBytes .interpret data).outcome = .ok found) : ∀ site ∈ sites, site.Allowed := by
  rcases sites_judged stand with ⟨allowed, _⟩ | ⟨_, offset, rejected⟩
  · exact allowed
  · cases rejected.symm.trans traced

theorem allowed_traced (stand : ClassFile.Sites data sites) (allowed : ∀ site ∈ sites, site.Allowed) :
    ∃ found, (Trace.ofBytes .interpret data).outcome = .ok found := by
  rcases sites_judged stand with ⟨_, traced⟩ | ⟨⟨site, member, deep⟩, _⟩
  · exact traced
  · exact absurd (allowed site member) deep

theorem disallowed_traced (stand : ClassFile.Sites data sites) (member : site ∈ sites) (deep : ¬ site.Allowed) :
    ∃ offset, (Trace.ofBytes .interpret data).outcome = .error (.malformedAttribute "annotation" offset) := by
  rcases sites_judged stand with ⟨allowed, _⟩ | ⟨_, rejected⟩
  · exact absurd (allowed site member) deep
  · exact rejected

theorem accepted_traced (accepted : Scan.ofBytes .interpret data = .ok scan) :
    (Trace.ofBytes .interpret data).outcome = .ok (scan.layout, scan.outline) := by
  obtain ⟨scanned⟩ := scan_inv .interpret data scan accepted
  rw [scanned.traced]

theorem accepted_sites (accepted : Scan.ofBytes .interpret data = .ok scan) : ∃ sites, ClassFile.Sites data sites := by
  obtain ⟨scanned⟩ := scan_inv .interpret data scan accepted
  obtain ⟨text, tail, sites, split, _, laid⟩ := (Survey.scans_outline _ _).spelled _ _ _ _ _
    (Nat.le_refl _) scanned.outline_ran
  exact ⟨sites, scanned.pooled.sites split laid⟩

end

namespace Survey

variable {α β : Type}

def Quiet (act : Survey α) (text : Bytes) (a : α) : Prop :=
  ∀ pos tail facts, act ⟨ahead pos (text ++ tail), facts⟩ = .ok a ⟨ahead (pos + text.length) tail, facts⟩

theorem quiet_read {act : Read α} {text : Bytes} {a : α} (takes : ∀ pos, Read.Takes act pos text a) :
    Quiet (act : Survey α) text a := fun pos tail facts => read_ok facts ((takes pos).passes tail)

theorem quiet_bind {x : Survey α} {f : α → Survey β} {left right : Bytes} {a : α} {b : β} (first : Quiet x left a)
    (second : Quiet (f a) right b) : Quiet (x >>= f) (left ++ right) b := by
  intro pos tail facts
  rw [List.append_assoc, bind_ok (first pos (right ++ tail) facts), second, List.length_append, Nat.add_assoc]

theorem quiet_position {f : Nat → Survey α} {text : Bytes} {a : α} (quiet : ∀ offset, Quiet (f offset) text a) :
    Quiet (do f (← Read.position)) text a := fun pos tail facts => quiet pos pos tail facts

theorem quiet_index (word : UInt16) : Quiet (Read.index : Survey Nat) (word16 word) word.toNat :=
  quiet_read fun pos => Read.takes_index pos word

theorem quiet_skip {bytes : Bytes} {width : Nat} (size : bytes.length = width) :
    Quiet (Read.skip width : Survey Unit) bytes () := by
  rw [← size]
  exact quiet_read fun pos => Read.takes_skip pos bytes

theorem quiet_first {x : Survey α} {f : α → Survey β} {text : Bytes} {a : α} {b : β} (first : Quiet x [] a)
    (quiet : Quiet (f a) text b) : Quiet (x >>= f) text b := quiet_bind first quiet

theorem quiet_last {x : Survey α} {f : α → Survey β} {text : Bytes} {a : α} {b : β} (quiet : Quiet x text a)
    (last : Quiet (f a) [] b) : Quiet (x >>= f) text b := by
  have whole := quiet_bind quiet last
  rwa [List.append_nil] at whole

theorem quiet_once {act : Survey Unit} {text : Bytes} (quiet : Quiet act text ()) : Quiet (times 1 act) text () := by
  intro pos tail facts
  rw [times_succ, bind_ok (quiet pos tail facts)]
  rfl

theorem quiet_within {act : Survey α} {text : Bytes} {a : α} (quiet : Quiet act text a) {length : Nat}
    (size : text.length = length) : Quiet (within length act) text a := by
  intro pos tail facts
  have ran := quiet pos [] facts
  rw [List.append_nil] at ran
  rw [← size, within_passes ran tail]

theorem quiet_remaining {f : Nat → Survey α} {text : Bytes} {a : α}
    (quiet : ∀ left, text.length ≤ left → Quiet (f left) text a) : Quiet (do f (← Read.remaining)) text a := by
  intro pos tail facts
  rw [remaining_ahead]
  exact quiet _ (by rw [List.length_append]; omega) pos tail facts

end Survey

def NameTable.Names (names : NameTable) (index : UInt16) (kind : AttributeKind) : Prop :=
  ∃ name, names.get index.toNat = .ok name ∧ AttributeKind.ofName name = kind

def soleAttribute (index : UInt16) (info : Bytes) : Bytes :=
  word16 1 ++ (word16 index ++ (word32 info.length.toUInt32 ++ info))

def bareCode (table : Bytes) : Bytes := [0, 0, 0, 0] ++ (word32 0 ++ (word16 0 ++ table))

def arrays (value : Bytes) : Nat → Bytes
  | 0 => value
  | n + 1 => '['.toUInt8 :: (word16 1 ++ arrays value n)

def emptyArray : Bytes := '['.toUInt8 :: word16 0

def codeTables (index : UInt16) : Nat → Bytes
  | 0 => word16 0
  | n + 1 => soleAttribute index (bareCode (codeTables index n))

theorem arrays_length (value : Bytes) (n : Nat) : (arrays value n).length = 3 * n + value.length := by
  induction n with
  | zero => rw [arrays, Nat.mul_zero, Nat.zero_add]
  | succ n ih =>
      rw [arrays, List.length_cons, List.length_append, word16_length, ih]
      omega

theorem bare_code_length (table : Bytes) : (bareCode table).length = table.length + 10 := by
  simp only [bareCode, List.length_append, List.length_cons, List.length_nil, word16_length, word32_length]
  omega

theorem code_tables_length (index : UInt16) (n : Nat) : (codeTables index n).length = 18 * n + 2 := by
  induction n with
  | zero => rfl
  | succ n ih =>
      simp only [codeTables, soleAttribute, bare_code_length, List.length_append, word16_length, word32_length, ih]
      omega

section

variable {names : NameTable} {depth : Nat} {part : Part} {text : Bytes} {sites : List Site}

theorem Part.laid_once (laid : part.Laid names depth text sites) : (Part.many 1 part).Laid names depth text sites := by
  have once := Part.Laid.more laid .noMore
  rwa [List.append_nil, List.append_nil] at once

theorem laid_sole_attribute {index : UInt16} {kind : AttributeKind} (named : names.Names index kind)
    (laid : kind.inside.Laid names depth text sites) (short : text.length < 4294967296) :
    Part.table.Laid names depth (soleAttribute index text) (⟨.tables, depth⟩ :: sites) := by
  obtain ⟨name, named, rfl⟩ := named
  have size : (text ++ []).length = text.length.toUInt32.toNat := by
    rw [List.append_nil, UInt32.toNat_ofNat_of_lt' short]
  have whole := Part.Laid.item index named text.length.toUInt32 laid [] size
  rw [List.append_nil] at whole
  exact .table (.counted 1 (Part.laid_once whole))

theorem laid_arrays (n : Nat) (laid : Part.value.Laid names (depth + n) text sites) :
    ∃ all, Part.value.Laid names depth (arrays text n) all ∧ ∀ site ∈ sites, site ∈ all := by
  induction n generalizing depth with
  | zero => exact ⟨sites, laid, fun _ member => member⟩
  | succ n ih =>
      rw [Nat.add_comm n, ← Nat.add_assoc] at laid
      obtain ⟨all, laid, kept⟩ := ih laid
      exact ⟨_, .value _ rfl (.deeper (.counted 1 (Part.laid_once laid))), fun site member => .tail _ (kept site member)⟩

theorem laid_empty_array (names : NameTable) (depth : Nat) : Part.value.Laid names depth emptyArray [⟨.values, depth⟩] :=
  .value _ rfl (.deeper (.counted 0 .noMore))

def annotationValue : Bytes := '@'.toUInt8 :: (word16 1 ++ word16 0)

theorem laid_annotation_value (names : NameTable) (depth : Nat) :
    Part.value.Laid names depth annotationValue [⟨.values, depth⟩, ⟨.annotations, depth + 1⟩] :=
  .value _ rfl (.deeper (.annotationBody (.deeper (.after (word16 1) rfl (.counted 0 .noMore)))))

theorem laid_code_tables {index : UInt16} (named : names.Names index .code) (n depth : Nat)
    (short : 18 * n + 2 < 4294967296) :
    ∃ sites, Part.table.Laid names depth (codeTables index n) sites ∧ ⟨.tables, depth + n⟩ ∈ sites := by
  induction n generalizing depth with
  | zero => exact ⟨_, .table (.counted 0 .noMore), .head _⟩
  | succ n ih =>
      obtain ⟨sites, laid, member⟩ := ih (depth + 1) (by omega)
      rw [Nat.add_assoc, Nat.add_comm 1] at member
      have coded : Part.code.Laid names depth (bareCode (codeTables index n)) sites :=
        .code [0, 0, 0, 0] rfl 0 [] rfl 0 [] rfl (.deeper laid)
      refine ⟨_, laid_sole_attribute named coded ?_, .tail _ member⟩
      rw [bare_code_length, code_tables_length]
      omega

end

namespace Survey

variable {names : NameTable}

theorem quiet_sole_attribute {index : UInt16} {kind : AttributeKind} (named : names.Names index kind)
    {body : AttributeKind → Survey Unit} {info : Bytes} (quiet : Quiet (body kind) info ())
    (short : info.length < 4294967296) : Quiet (attributeTable names body) (soleAttribute index info) () := by
  obtain ⟨name, named, rfl⟩ := named
  have size : info.length = info.length.toUInt32.toNat := (UInt32.toNat_ofNat_of_lt' short).symm
  have measured : Quiet (Read.u32 : Survey UInt32) (word32 info.length.toUInt32) _ :=
    quiet_read fun pos => Read.takes_u32 pos _
  refine quiet_bind (quiet_index 1) (quiet_once (quiet_bind (quiet_index index)
    (quiet_bind measured (quiet_within ?_ size))))
  rw [named]
  exact quiet

theorem quiet_array {fuel depth : Nat} (count : UInt16) {text : Bytes}
    (quiet : Quiet (times count.toNat (elementValue fuel (depth + 1))) text ()) :
    Quiet (elementValue (fuel + 1) depth) ('['.toUInt8 :: (word16 count ++ text)) () := by
  have kind : Quiet (Read.u8 : Survey UInt8) ['['.toUInt8] _ := quiet_read fun pos => Read.takes_u8 pos _
  have counted : Quiet (do times (← Read.index) (elementValue fuel (depth + 1))) (word16 count ++ text) () :=
    quiet_bind (quiet_index count) quiet
  exact quiet_position fun offset => quiet_bind kind counted

theorem quiet_arrays (n fuel depth : Nat) (enough : n < fuel) :
    Quiet (elementValue fuel depth) (arrays emptyArray n) () := by
  induction fuel generalizing n depth with
  | zero => exact absurd enough (Nat.not_lt_zero n)
  | succ fuel ih =>
      cases n with
      | zero => exact quiet_array 0 fun _ _ _ => rfl
      | succ n => exact quiet_array 1 (quiet_once (ih n (depth + 1) (Nat.lt_of_succ_lt_succ enough)))

theorem quiet_code {nested : Survey Unit} {table : Bytes} (quiet : Quiet nested table ()) (depth : Nat) :
    Quiet (attributeBody depth nested .code) (bareCode table) () := by
  have limits : Quiet (Read.skip 4 : Survey Unit) [0, 0, 0, 0] () := quiet_skip rfl
  have measured : Quiet (Read.u32 : Survey UInt32) (word32 0) 0 := quiet_read fun pos => Read.takes_u32 pos 0
  have nothing {width : Nat} (none : 0 = width) : Quiet (Read.skip width : Survey Unit) [] () := quiet_skip none
  exact quiet_bind limits (quiet_bind measured (quiet_first (nothing rfl) (quiet_bind (quiet_index 0)
    (quiet_first (nothing rfl) quiet))))

theorem quiet_no_attributes (body : AttributeKind → Survey Unit) : Quiet (attributeTable names body) (word16 0) () :=
  quiet_last (quiet_index 0) fun _ _ _ => rfl

theorem quiet_code_tables {index : UInt16} (named : names.Names index .code) (n fuel depth : Nat)
    (enough : n < fuel) (short : 18 * n + 2 < 4294967296) :
    Quiet (nestedAttributes names fuel depth) (codeTables index n) () := by
  induction fuel generalizing n depth with
  | zero => exact absurd enough (Nat.not_lt_zero n)
  | succ fuel ih =>
      cases n with
      | zero => exact quiet_no_attributes _
      | succ n =>
          have inner := ih n (depth + 1) (Nat.lt_of_succ_lt_succ enough) (by omega)
          refine quiet_sole_attribute named (quiet_code inner depth) ?_
          rw [bare_code_length, code_tables_length]
          omega

theorem quiet_code_attributes {index : UInt16} (named : names.Names index .code) (n : Nat)
    (short : 18 * n + 2 < 4294967296) :
    Quiet (attributes .interpret names) (codeTables index n) () := by
  rw [attributes]
  cases n with
  | zero => exact quiet_no_attributes _
  | succ n =>
      have size : (bareCode (codeTables index n)).length = 18 * n + 12 := by rw [bare_code_length, code_tables_length]
      have inner : Quiet (do attributeBody 0 (nestedAttributes names (← Read.remaining) 1) .code)
          (bareCode (codeTables index n)) () :=
        quiet_remaining fun left enough => quiet_code (quiet_code_tables named n left 1 (by omega) (by omega)) 0
      exact quiet_sole_attribute named inner (by omega)

theorem quiet_default_attribute {index : UInt16} (named : names.Names index .annotationDefault) {value : Bytes}
    (quiet : Quiet (valueHere 0) value ()) (short : value.length < 4294967296) :
    Quiet (attributes .interpret names) (soleAttribute index value) () := by
  rw [attributes]
  have inner : Quiet (do attributeBody 0 (nestedAttributes names (← Read.remaining) 1) .annotationDefault) value () :=
    quiet_remaining fun _ _ => quiet
  exact quiet_sole_attribute named inner short

def bareTables (thisClass : UInt16) (attributes : Bytes) : Bytes :=
  [0, 33] ++ (word16 thisClass ++ (word16 0 ++ (word16 0 ++ (word16 0 ++ (word16 0 ++ attributes)))))

theorem quiet_no_members (kind : MemberKind) : Quiet (members .interpret names kind) (word16 0) () :=
  quiet_last (quiet_index 0) fun _ _ _ => rfl

theorem bare_outline (thisClass : UInt16) {text : Bytes} (quiet : Quiet (attributes .interpret names) text ())
    (pos : Nat) :
    ∃ r, outline .interpret names ⟨ahead pos (bareTables thisClass text), #[]⟩ = .ok ⟨thisClass.toNat, 0, []⟩ r ∧
      r.facts = #[.addresses .classRef thisClass.toNat] := by
  have classes : Quiet (collect 0 classIndex) [] [] := fun _ _ _ => rfl
  have ended : Quiet (do attributes .interpret names; return (⟨thisClass.toNat, 0, []⟩ : Outline)) text _ :=
    quiet_last quiet fun _ _ _ => rfl
  have tabled : Quiet (tables .interpret names thisClass.toNat 0) _ _ :=
    quiet_bind (quiet_index 0) (quiet_first classes (quiet_bind (quiet_no_members .field)
      (quiet_bind (quiet_no_members .method) ended)))
  have access : Quiet (Read.skip 2 : Survey Unit) [0, 33] () := quiet_skip rfl
  have ran := tabled (pos + 2 + (word16 thisClass).length + (word16 0).length) [] #[.addresses .classRef thisClass.toNat]
  rw [List.append_nil] at ran
  rw [outline_steps, bareTables, bind_ok (access _ _ _), bind_ok (quiet_index thisClass _ _ _),
    bind_ok (quiet_index 0 _ _ _)]
  exact ⟨_, ran, rfl⟩

end Survey

def nestingPool : List Constant :=
  [.text (.ofString "A"), .classRef 1, .text (.ofString "AnnotationDefault"), .text (.ofString "Code")]

def nestingNames : NameTable := .ofEntries 5 (Walk.placed 1 ClassFile.poolStart nestingPool)

def nestingClass (attributes : Bytes) : Bytes :=
  word32 0xCAFEBABE ++ ([0, 0, 0, 52] ++ word16 5) ++ (encodedAll nestingPool ++ Survey.bareTables 2 attributes)

theorem nesting_storable : ∀ constant ∈ nestingPool, constant.Storable := by
  simp only [nestingPool, List.forall_mem_cons]
  have short (name : Name) (few : name.length ≤ 65535) : (Constant.text name).Storable := few
  exact ⟨short _ (by decide), trivial, short _ (by decide), short _ (by decide), fun _ none => nomatch none⟩

def nestingPooled (attributes : Bytes) : Pooled (nestingClass attributes) where
  head := word32 0xCAFEBABE ++ ([0, 0, 0, 52] ++ word16 5)
  count := 5
  constants := nestingPool
  body := Survey.bareTables 2 attributes
  split := rfl
  head_length := rfl
  headed := takes_header 0xCAFEBABE [0, 0, 0, 52] 5 rfl rfl
  small := by decide
  filled := Walk.fill_slots nestingPool nesting_storable

theorem nesting_sites {attributes : Bytes} {sites : List Site} (laid : Part.table.Laid nestingNames 0 attributes sites) :
    ClassFile.Sites (nestingClass attributes) sites := by
  have empty : (Part.counted (.after 6 .table)).Laid nestingNames 0 (word16 0 ++ []) [] := .counted 0 .noMore
  rw [List.append_nil] at empty
  have tables : ClassLaid nestingNames (Survey.bareTables 2 attributes) _ sites :=
    .mk [0, 33] rfl 2 0 0 [] rfl empty empty laid
  exact (nestingPooled attributes).sites (List.append_nil _).symm tables

theorem nesting_accepted {attributes : Bytes}
    (quiet : Survey.Quiet (Survey.attributes .interpret nestingNames) attributes ()) :
    ∃ scan, Scan.ofBytes .interpret (nestingClass attributes) = .ok scan := by
  obtain ⟨⟨cursor, facts⟩, surveyed, rfl⟩ := Survey.bare_outline 2 quiet (nestingPooled attributes).stop
  obtain ⟨catalog, learnt⟩ : ∃ catalog,
      Catalog.learnAll ((nestingPooled attributes).facts ++ [.addresses .classRef 2]) (.empty 5) = .ok () catalog :=
    ⟨_, rfl⟩
  obtain ⟨scanned, _⟩ := (nestingPooled attributes).scans surveyed learnt
  exact ⟨_, scanned.accepted⟩

theorem nesting_named : nestingNames.Names 3 .annotationDefault ∧ nestingNames.Names 4 .code :=
  ⟨⟨.ofString "AnnotationDefault", rfl, rfl⟩, ⟨.ofString "Code", rfl, rfl⟩⟩

def arraysClass (value : Bytes) (n : Nat) : Bytes := nestingClass (soleAttribute 3 (arrays value n))

def tablesClass (n : Nat) : Bytes := nestingClass (codeTables 4 n)

theorem arrays_sites {value : Bytes} {n : Nat} {sites : List Site} (laid : Part.value.Laid nestingNames n value sites)
    (short : 3 * n + value.length < 4294967296) :
    ∃ all, ClassFile.Sites (arraysClass value n) all ∧ ∀ site ∈ sites, site ∈ all := by
  rw [← arrays_length] at short
  rw [← Nat.zero_add n] at laid
  obtain ⟨all, laid, kept⟩ := laid_arrays n laid
  exact ⟨_, nesting_sites (laid_sole_attribute nesting_named.1 laid short), fun site member => .tail _ (kept site member)⟩

theorem arrays_accepted (n : Nat) (short : 3 * n + 3 < 4294967296) :
    ∃ scan sites, Scan.ofBytes .interpret (arraysClass emptyArray n) = .ok scan ∧
      ClassFile.Sites (arraysClass emptyArray n) sites ∧ ⟨.values, n⟩ ∈ sites := by
  have size : (arrays emptyArray n).length = 3 * n + 3 := arrays_length emptyArray n
  obtain ⟨sites, stand, kept⟩ := arrays_sites (laid_empty_array nestingNames n) short
  have quiet : Survey.Quiet (Survey.valueHere 0) (arrays emptyArray n) () :=
    Survey.quiet_remaining fun left enough => Survey.quiet_arrays n left 0 (by omega)
  obtain ⟨scan, accepted⟩ := nesting_accepted (Survey.quiet_default_attribute nesting_named.1 quiet (by omega))
  exact ⟨scan, sites, accepted, stand, kept _ (.head _)⟩

theorem tables_accepted (n : Nat) (short : 18 * n + 2 < 4294967296) :
    ∃ scan sites, Scan.ofBytes .interpret (tablesClass n) = .ok scan ∧ ClassFile.Sites (tablesClass n) sites ∧
      ⟨.tables, n⟩ ∈ sites := by
  obtain ⟨sites, laid, member⟩ := laid_code_tables nesting_named.2 n 0 short
  rw [Nat.zero_add] at member
  obtain ⟨scan, accepted⟩ := nesting_accepted (Survey.quiet_code_attributes nesting_named.2 n short)
  exact ⟨scan, sites, accepted, nesting_sites laid, member⟩

/-- Annotations may stand in 64 others and no more, and a class with one that stands deeper is
rejected for it. Arrays and attribute tables are not looked at: they nest as deep as the length of
an attribute lets them, so the sites of an accepted class stay in bounds only as far as these do. -/
theorem annotations_alone_limited (data : Bytes) :
    (∀ scan, Scan.ofBytes .interpret data = .ok scan → ∃ sites, ClassFile.Sites data sites) ∧
    (∀ sites, ClassFile.Sites data sites →
      ((∃ found, (Trace.ofBytes .interpret data).outcome = .ok found) ↔
        ∀ site ∈ sites, site.layer = .annotations → site.depth ≤ 64) ∧
      (∀ scan, Scan.ofBytes .interpret data = .ok scan →
        ((∀ site ∈ sites, site.depth ≤ 65) ↔ ∀ site ∈ sites, site.layer ≠ .annotations → site.depth ≤ 65)) ∧
      ∀ depth, ⟨.annotations, depth⟩ ∈ sites → 64 < depth →
        ∃ offset, (Trace.ofBytes .interpret data).outcome = .error (.malformedAttribute "annotation" offset) ∧
          (∀ scan, Scan.ofBytes .interpret data ≠ .ok scan) ∧
          ∀ count catalog, ClassFile.poolCount data = .ok count →
            Catalog.learnAll (Trace.ofBytes .interpret data).facts (.empty count) = .ok () catalog →
              Scan.ofBytes .interpret data = .error (.malformedAttribute "annotation" offset)) ∧
    (∀ n, 3 * n + 3 < 4294967296 → ∃ scan sites, Scan.ofBytes .interpret (arraysClass emptyArray n) = .ok scan ∧
      ClassFile.Sites (arraysClass emptyArray n) sites ∧ ⟨.values, n⟩ ∈ sites) ∧
    ∀ n, 18 * n + 2 < 4294967296 → ∃ scan sites, Scan.ofBytes .interpret (tablesClass n) = .ok scan ∧
      ClassFile.Sites (tablesClass n) sites ∧ ⟨.tables, n⟩ ∈ sites := by
  refine ⟨fun scan accepted => accepted_sites accepted, fun sites stand => ⟨⟨?_, allowed_traced stand⟩, ?_, ?_⟩,
    arrays_accepted, tables_accepted⟩
  · rintro ⟨found, traced⟩
    exact sites_allowed stand traced
  · intro scan accepted
    refine ⟨fun bounded site member _ => bounded site member, fun bounded site member => ?_⟩
    -- Annotations are in bounds in any class that was accepted.
    by_cases layer : site.layer = .annotations
    · exact Nat.le_succ_of_le (sites_allowed stand (accepted_traced accepted) site member layer)
    · exact bounded site member layer
  · intro depth member deep
    obtain ⟨offset, traced⟩ := disallowed_traced stand member fun allowed => Nat.not_le.2 deep (allowed rfl)
    refine ⟨offset, traced, fun scan accepted => ?_, fun count catalog counted learnt => ?_⟩
    · cases traced.symm.trans (accepted_traced accepted)
    · rw [scan_learnt .interpret data count catalog counted learnt, traced]
      rfl

theorem annotations_alone_limited_bordering :
    (∃ scan sites, Scan.ofBytes .interpret (arraysClass annotationValue 63) = .ok scan ∧
      ClassFile.Sites (arraysClass annotationValue 63) sites ∧
      ∀ site ∈ sites, site.layer = .annotations → site.depth ≤ 64) ∧
    (∃ offset,
      Scan.ofBytes .interpret (arraysClass annotationValue 64) = .error (.malformedAttribute "annotation" offset)) ∧
    (∃ scan sites, Scan.ofBytes .interpret (arraysClass emptyArray 1000) = .ok scan ∧
      ClassFile.Sites (arraysClass emptyArray 1000) sites ∧ ⟨.values, 1000⟩ ∈ sites) ∧
    ∃ scan sites, Scan.ofBytes .interpret (tablesClass 1000) = .ok scan ∧ ClassFile.Sites (tablesClass 1000) sites ∧
      ⟨.tables, 1000⟩ ∈ sites := by
  obtain ⟨standing, judged, arrays, tables⟩ := annotations_alone_limited (arraysClass annotationValue 63)
  refine ⟨?_, ?_, arrays 1000 (by decide), tables 1000 (by decide)⟩
  · have ran : (Scan.ofBytes .interpret (arraysClass annotationValue 63)).isOk := by decide +kernel
    cases accepted : Scan.ofBytes .interpret (arraysClass annotationValue 63) with
    | error e =>
        rw [accepted] at ran
        cases ran
    | ok scan =>
        obtain ⟨sites, stand⟩ := standing scan accepted
        exact ⟨scan, sites, rfl, stand, (judged sites stand).1.mp ⟨_, accepted_traced accepted⟩⟩
  · obtain ⟨sites, stand, kept⟩ := arrays_sites (laid_annotation_value nestingNames 64) (by decide)
    have member : ⟨.annotations, 65⟩ ∈ sites := kept _ (.tail _ (.head _))
    obtain ⟨_, judged, _⟩ := annotations_alone_limited (arraysClass annotationValue 64)
    obtain ⟨offset, _, _, rejected⟩ := (judged sites stand).2.2 65 member (by decide)
    have facts : (Trace.ofBytes .interpret (arraysClass annotationValue 64)).facts =
        (nestingPooled []).facts ++ [.addresses .classRef 2] := by decide +kernel
    rw [facts] at rejected
    exact ⟨offset, rejected 5 _ (nestingPooled _).pool_count rfl⟩

/-- Nothing stops an array or a table at depth 66. -/
theorem nesting_past_limit :
    (∃ scan sites, Scan.ofBytes .interpret (arraysClass emptyArray 66) = .ok scan ∧
      ClassFile.Sites (arraysClass emptyArray 66) sites ∧ ⟨.values, 66⟩ ∈ sites) ∧
    ∃ scan sites, Scan.ofBytes .interpret (tablesClass 66) = .ok scan ∧ ClassFile.Sites (tablesClass 66) sites ∧
      ⟨.tables, 66⟩ ∈ sites :=
  ⟨arrays_accepted 66 (by decide), tables_accepted 66 (by decide)⟩

end Relabel
