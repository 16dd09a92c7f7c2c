import Relabel.Proofs.SurveyForms

set_option autoImplicit false

namespace Relabel

open Cursor (ahead)

inductive TargetInfo (code : UInt8) : Bytes → Nat → Prop
  | fixed (width : Nat) (known : ∀ offset, Survey.targetWidth offset code = pure width) : TargetInfo code [] width
  | counted (known : ∀ offset, Survey.targetWidth offset code = do return (← Read.index) * 6) (count : UInt16) :
      TargetInfo code (word16 count) (count.toNat * 6)

inductive Part where
  | bytes (width : Nat)
  -- a part with so many bytes in front of it
  | after (width : Nat) (part : Part)
  | many (n : Nat) (part : Part)
  -- such parts with their number in front of them, in two bytes or in one
  | counted (part : Part)
  | few (part : Part)
  -- a part that stands a level deeper
  | deeper (part : Part)
  -- the value of an annotation's element
  | value
  | annotationBody
  | typeAnnotationBody
  | code
  -- an attribute of a table
  | item
  | table

def Part.ofKind? (kind : UInt8) : Option Part :=
  if kind ∈ Survey.constantKinds then some (.bytes 2)
  else if kind = 'e'.toUInt8 then some (.bytes 4)
  else if kind = 'c'.toUInt8 then some (.bytes 2)
  else if kind = '@'.toUInt8 then some (.deeper .annotationBody)
  else if kind = '['.toUInt8 then some (.deeper (.counted .value))
  else none

def AttributeKind.inside : AttributeKind → Part
  | .signature | .sourceFile => .bytes 2
  | .innerClasses => .counted (.bytes 8)
  | .enclosingMethod => .bytes 4
  -- components, each with a name and a type in front of its attributes
  | .record => .deeper (.counted (.after 4 .table))
  | .code => .code
  | .localVariables | .localVariableTypes => .counted (.bytes 10)
  | .annotations => .counted .annotationBody
  | .parameterAnnotations => .few (.counted .annotationBody)
  | .annotationDefault => .value
  | .typeAnnotations => .counted .typeAnnotationBody
  | .other => .bytes 0

/-- How the parts of an attribute table are laid out. The depth of a part is the number of arrays,
annotations, elements and tables that it stands in. -/
inductive Part.Laid (names : NameTable) : Part → Nat → Bytes → List Site → Prop
  | bytes {depth width : Nat} (text : Bytes) (size : text.length = width) : Laid names (.bytes width) depth text []
  | after {depth width : Nat} {part : Part} {text : Bytes} {sites : List Site} (front : Bytes)
      (size : front.length = width) (laid : Laid names part depth text sites) :
      Laid names (.after width part) depth (front ++ text) sites
  | noMore {depth : Nat} {part : Part} : Laid names (.many 0 part) depth [] []
  | more {depth n : Nat} {part : Part} {one rest : Bytes} {s t : List Site} (first : Laid names part depth one s)
      (later : Laid names (.many n part) depth rest t) : Laid names (.many (n + 1) part) depth (one ++ rest) (s ++ t)
  | counted {depth : Nat} {part : Part} {text : Bytes} {sites : List Site} (count : UInt16)
      (laid : Laid names (.many count.toNat part) depth text sites) :
      Laid names (.counted part) depth (word16 count ++ text) sites
  | few {depth : Nat} {part : Part} {text : Bytes} {sites : List Site} (count : UInt8)
      (laid : Laid names (.many count.toNat part) depth text sites) : Laid names (.few part) depth (count :: text) sites
  | deeper {depth : Nat} {part : Part} {text : Bytes} {sites : List Site}
      (laid : Laid names part (depth + 1) text sites) : Laid names (.deeper part) depth text sites
  | value {depth : Nat} {part : Part} {text : Bytes} {sites : List Site} (kind : UInt8)
      (known : Part.ofKind? kind = some part) (laid : Laid names part depth text sites) :
      Laid names .value depth (kind :: text) (⟨.values, depth⟩ :: sites)
  -- a type, then elements with a name in front of each value
  | annotationBody {depth : Nat} {text : Bytes} {sites : List Site}
      (laid : Laid names (.deeper (.after 2 (.counted (.after 2 .value)))) depth text sites) :
      Laid names .annotationBody depth text (⟨.annotations, depth⟩ :: sites)
  | typeAnnotationBody {depth : Nat} {text : Bytes} {sites : List Site} (code : UInt8) {counter : Bytes} {width : Nat}
      (info : TargetInfo code counter width) (target : Bytes) (size : target.length = width) (steps : UInt8)
      (path : Bytes) (paced : path.length = steps.toNat * 2) (laid : Laid names .annotationBody depth text sites) :
      Laid names .typeAnnotationBody depth ([code] ++ (counter ++ (target ++ ([steps] ++ (path ++ text))))) sites
  | code {depth : Nat} {text : Bytes} {sites : List Site} (limits : Bytes) (width : limits.length = 4) (length : UInt32)
      (instructions : Bytes) (size : instructions.length = length.toNat) (handlers : UInt16) (ranges : Bytes)
      (covered : ranges.length = handlers.toNat * 8) (laid : Laid names (.deeper .table) depth text sites) :
      Laid names .code depth (limits ++ (word32 length ++ (instructions ++ (word16 handlers ++ (ranges ++ text))))) sites
  -- what follows in the attribute is not looked at
  | item {depth : Nat} {text : Bytes} {sites : List Site} (index : UInt16) {name : Name}
      (named : names.get index.toNat = .ok name) (length : UInt32)
      (laid : Laid names (AttributeKind.ofName name).inside depth text sites) (rest : Bytes)
      (whole : (text ++ rest).length = length.toNat) :
      Laid names .item depth (word16 index ++ (word32 length ++ (text ++ rest))) sites
  | table {depth : Nat} {text : Bytes} {sites : List Site} (laid : Laid names (.counted .item) depth text sites) :
      Laid names .table depth text (⟨.tables, depth⟩ :: sites)

def Part.form (names : NameTable) (part : Part) (depth : Nat) : Survey.Form Unit :=
  fun text _ sites => part.Laid names depth text sites

namespace Survey

variable {α : Type} {names : NameTable} {limit depth : Nat} {part : Part}

theorem scans_bytes {act : Survey Unit} {width : Nat} (wide : Wide width act) :
    Scans limit act ((Part.bytes width).form names depth) where
  judges pos text _ sites tail facts spelled _ := by
    cases spelled with
    | bytes _ size =>
        obtain ⟨_, noted, ran⟩ := wide.takes pos (text ++ tail) facts (by rw [List.length_append]; omega)
        rw [ran, ← size, List.drop_left]
        exact .accepted noted (by simp)
  spelled pos bytes facts _ r _ ran := by
    by_cases enough : width ≤ bytes.length
    · obtain ⟨_, noted, takes⟩ := wide.takes pos bytes facts enough
      rw [takes] at ran
      cases ran
      have size : (bytes.take width).length = width := List.length_take_of_le enough
      exact ⟨bytes.take width, bytes.drop width, [], (List.take_append_drop width bytes).symm, by rw [size],
        .bytes _ size⟩
    · obtain ⟨e, stop, failed⟩ := wide.starves pos bytes facts (by omega)
      rw [failed] at ran
      cases ran

theorem scans_deeper {act : Survey Unit} (one : Scans limit act (part.form names (depth + 1))) :
    Scans limit act ((Part.deeper part).form names depth) := by
  refine scans_congr one fun text _ sites => ⟨.deeper, fun laid => ?_⟩
  cases laid with
  | deeper laid => exact laid

theorem scans_many (n : Nat) {act : Survey Unit} (one : Scans limit act (part.form names depth)) :
    Scans limit (times n act) ((Part.many n part).form names depth) := by
  induction n with
  | zero =>
      have nothing : Scans limit (pure ()) ((Part.bytes 0).form names depth) := scans_bytes (wide_pure ())
      refine scans_congr nothing fun text _ sites => ⟨fun laid => ?_, fun laid => ?_⟩
      · cases laid with
        | bytes _ size =>
            rw [List.length_eq_zero_iff.mp size]
            exact .noMore
      · cases laid
        exact .bytes [] rfl
  | succ n ih =>
      rw [times_succ]
      refine scans_congr (scans_then one ih) fun text _ sites => ⟨fun laid => ?_, fun laid => ?_⟩
      · cases laid with
        | mk first later => exact .more first later
      · cases laid with
        | more first later => exact .mk first later

theorem scans_counted {act : Survey Unit} (one : Scans limit act (part.form names depth)) :
    Scans (limit + 2) (do times (← Read.index) act) ((Part.counted part).form names depth) := by
  -- The number in front takes two bytes, so fewer are left for each part.
  refine scans_congr (scans_behind 2 reads_index ?_ fun count => scans_many count one) fun text _ sites =>
    ⟨?_, fun laid => ?_⟩
  · rintro _ _ ⟨word⟩
    exact Nat.le_of_eq (word16_length word).symm
  · rintro ⟨_, ⟨count⟩, laid⟩
    exact .counted count laid
  · cases laid with
    | counted count laid => exact .mk _ (.mk count) laid

theorem scans_few {act : Survey Unit} (one : Scans limit act (part.form names depth)) :
    Scans limit (do times (← Read.u8).toNat act) ((Part.few part).form names depth) := by
  refine scans_congr (scans_reading reads_u8 fun count => scans_many count.toNat one) fun text _ sites =>
    ⟨?_, fun laid => ?_⟩
  · rintro ⟨count, ⟨⟩, laid⟩
    exact .few count laid
  · cases laid with
    | few count laid => exact .mk count (ByteText.mk count) laid

theorem scans_after_nothing {act : Survey Unit} (one : Scans limit act (part.form names depth)) :
    Scans limit act ((Part.after 0 part).form names depth) := by
  refine scans_congr one fun text _ sites => ⟨fun laid => .after [] rfl laid, fun laid => ?_⟩
  cases laid with
  | after front size laid =>
      rw [List.length_eq_zero_iff.mp size]
      exact laid

theorem scans_after {x : Survey α} {f : α → Survey Unit} {first second : Nat} (wide : Wide first x)
    (rest : ∀ a, Scans limit (f a) ((Part.after second part).form names depth)) :
    Scans limit (x >>= f) ((Part.after (first + second) part).form names depth) where
  judges pos text _ sites tail facts spelled short := by
    cases spelled with
    | @after _ _ _ text _ front size laid =>
        obtain ⟨a, noted, ran⟩ := wide.takes pos (front ++ text ++ tail) facts (by simp only [List.length_append]; omega)
        have split : (front ++ text ++ tail).drop first = front.drop first ++ text ++ tail := by
          rw [List.append_assoc, List.drop_append_of_le_length (by omega), List.append_assoc]
        have stop : pos + first + (front.drop first ++ text).length = pos + (front ++ text).length := by
          simp only [List.length_append, List.length_drop]
          omega
        rw [split] at ran
        rw [bind_ok ran, ← stop]
        refine (rest a).judges _ _ () sites tail noted
          (.after (front.drop first) (by rw [List.length_drop]; omega) laid) ?_
        simp only [List.length_append, List.length_drop] at short ⊢
        omega
  spelled pos bytes facts _ r short ran := by
    obtain ⟨a, middle, ranFirst, ranRest⟩ := bind_ok_inv ran
    -- The bytes in front are read in two steps, and the first may already run out of them.
    by_cases enough : first ≤ bytes.length
    · obtain ⟨b, noted, takes⟩ := wide.takes pos bytes facts enough
      rw [takes] at ranFirst
      cases ranFirst
      obtain ⟨text, tail, sites, split, stop, spelled⟩ :=
        (rest a).spelled _ _ noted () r (by rw [List.length_drop]; omega) ranRest
      have size : (bytes.take first).length = first := List.length_take_of_le enough
      refine ⟨bytes.take first ++ text, tail, sites, ?_, ?_, ?_⟩
      · rw [List.append_assoc, ← split, List.take_append_drop]
      · rw [stop, List.length_append, size, Nat.add_assoc]
      · cases spelled with
        | after front length laid =>
            rw [← List.append_assoc]
            exact .after _ (by rw [List.length_append, size, length]) laid
    · obtain ⟨e, stop, failed⟩ := wide.starves pos bytes facts (by omega)
      rw [failed] at ranFirst
      cases ranFirst

theorem scans_table_of {act : Survey Unit} (one : Scans limit act (part.form names depth)) :
    Scans limit (do times (← Read.index) act) ((Part.counted part).form names depth) :=
  scans_fewer (scans_counted one) (Nat.le_add_right limit 2)

theorem scans_annotation_at {value : Survey Unit} (valued : Scans limit value (Part.value.form names (depth + 1))) :
    Scans limit (annotationAt depth value) (Part.annotationBody.form names depth) := by
  by_cases deep : maxNesting < depth
  · rw [annotationAt, if_pos deep]
    constructor
    · intro pos text _ sites tail facts spelled _
      cases spelled with
      | annotationBody laid =>
          refine .rejected ⟨.annotations, depth⟩ (.head _) (fun allowed => ?_) pos _
          exact Nat.not_lt_of_le (allowed rfl) deep
    · intro pos bytes facts _ r _ ran
      cases ran
  · rw [annotationAt, if_neg deep]
    have elements := scans_table_of (scans_after (wide_skip 2) fun _ => scans_after_nothing valued)
    have whole := scans_deeper (scans_after wide_index fun index =>
      scans_after (wide_note (.use index .descriptor)) fun _ => scans_after_nothing elements)
    refine scans_congr (scans_under ⟨.annotations, depth⟩ (fun _ => Nat.le_of_not_lt deep) whole) fun text _ sites =>
      ⟨fun laid => ?_, fun laid => ?_⟩
    · cases laid with
      | mk laid => exact .annotationBody laid
    · cases laid with
      | annotationBody laid => exact .mk laid

def kindForm (names : NameTable) (depth : Nat) (kind : UInt8) : Form Unit := fun text _ sites =>
  ∃ part, Part.ofKind? kind = some part ∧ part.Laid names depth text sites

theorem scans_kind {kind : UInt8} {act : Survey Unit} (known : Part.ofKind? kind = some part)
    (scans : Scans limit act (part.form names depth)) : Scans limit act (kindForm names depth kind) := by
  refine scans_congr scans fun text _ sites => ⟨fun laid => ⟨part, known, laid⟩, ?_⟩
  rintro ⟨_, also, laid⟩
  rw [known] at also
  cases also
  exact laid

theorem scans_value_of {act : Nat → UInt8 → Survey Unit}
    (each : ∀ offset kind, Scans limit (act offset kind) (kindForm names depth kind)) :
    Scans (limit + 1) (do
      let offset ← Read.position
      act offset (← Read.u8)) (Part.value.form names depth) := by
  refine scans_congr (scans_position fun offset => scans_under ⟨.values, depth⟩ (fun other => nomatch other)
    (scans_behind 1 reads_u8 ?_ (each offset))) fun text _ sites => ⟨?_, fun laid => ?_⟩
  · rintro _ _ ⟨⟩
    exact Nat.le_refl 1
  · rintro ⟨⟨kind, ⟨⟩, ⟨part, known, laid⟩⟩⟩
    exact .value kind known laid
  · cases laid with
    | value kind known laid => exact .mk (.mk kind (ByteText.mk kind) ⟨_, known, laid⟩)

theorem scans_element_value (fuel depth : Nat) : Scans fuel (elementValue fuel depth) (Part.value.form names depth) := by
  -- A value takes at least the byte of its kind, so the fuel lasts on as many bytes.
  induction fuel generalizing depth with
  | zero =>
      apply scans_failing
      · intro pos bytes facts short
        exact (wide_skip 1).starves pos bytes facts (by omega)
      · intro text _ sites short laid
        cases laid
        cases short
  | succ fuel ih =>
      refine scans_value_of fun offset kind => ?_
      by_cases constant : kind ∈ constantKinds
      · rw [if_pos constant]
        exact scans_kind (if_pos constant) (scans_bytes (wide_skip 2))
      by_cases enumerated : kind = 'e'.toUInt8
      · subst enumerated
        exact scans_kind rfl (scans_bytes (wide_bind wide_index fun _ => wide_bind (wide_note _) fun _ => wide_skip 2))
      by_cases literal : kind = 'c'.toUInt8
      · subst literal
        exact scans_kind rfl (scans_bytes (wide_bind wide_index fun _ => wide_note _))
      by_cases nested : kind = '@'.toUInt8
      · subst nested
        -- the annotation is a level deeper, and its elements another one
        exact scans_kind rfl (scans_deeper (scans_annotation_at (ih (depth + 2))))
      by_cases array : kind = '['.toUInt8
      · subst array
        exact scans_kind rfl (scans_deeper (scans_table_of (ih (depth + 1))))
      · rw [if_neg constant, if_neg enumerated, if_neg literal, if_neg nested, if_neg array]
        refine scans_failing (fun _ _ _ _ => ⟨_, _, rfl⟩) ?_
        rintro text _ sites _ ⟨part, known, _⟩
        rw [Part.ofKind?, if_neg constant, if_neg enumerated, if_neg literal, if_neg nested, if_neg array] at known
        cases known

theorem scans_value_here (names : NameTable) (depth : Nat) :
    Scans limit (valueHere depth) (Part.value.form names depth) :=
  scans_remaining fun left => scans_element_value left depth

theorem scans_annotation_here (names : NameTable) (depth : Nat) :
    Scans limit (annotationHere depth) (Part.annotationBody.form names depth) :=
  scans_remaining fun left => scans_annotation_at (scans_element_value left (depth + 1))

theorem scans_annotations (names : NameTable) (depth : Nat) :
    Scans limit (annotations depth) ((Part.counted .annotationBody).form names depth) :=
  scans_table_of (scans_annotation_here names depth)

theorem target_width_cases (code : UInt8) :
    (∃ width, ∀ offset, targetWidth offset code = pure width) ∨
      (∀ offset, targetWidth offset code = do return (← Read.index) * 6) ∨
      ∀ offset, targetWidth offset code = throw (.malformedAttribute "type annotation target" offset) := by
  unfold targetWidth
  split
  · exact .inl ⟨0, fun _ => rfl⟩
  · split
    · exact .inl ⟨1, fun _ => rfl⟩
    · split
      · exact .inl ⟨2, fun _ => rfl⟩
      · split
        · exact .inl ⟨3, fun _ => rfl⟩
        · split
          · exact .inr (.inl fun _ => rfl)
          · exact .inr (.inr fun _ => rfl)

theorem reads_target_width (offset : Nat) (code : UInt8) : Reads (targetWidth offset code) (TargetInfo code) := by
  -- Where there are no bytes left, the three ways to find the width end differently.
  have apart {x y : Survey Nat} (one : targetWidth offset code = x) (two : targetWidth offset code = y) :
      x ⟨ahead 0 [], #[]⟩ = y ⟨ahead 0 [], #[]⟩ := by rw [← one, two]
  rcases target_width_cases code with ⟨width, fixed⟩ | counted | unknown
  · rw [fixed]
    constructor
    · intro pos text value tail facts info
      cases info with
      | fixed _ also =>
          cases apart (fixed offset) (also offset)
          exact ⟨facts, rfl⟩
      | counted also => cases apart (fixed offset) (also offset)
    · intro pos bytes facts value r ran
      cases ran
      exact ⟨[], bytes, rfl, rfl, .fixed width fixed⟩
  · rw [counted]
    constructor
    · intro pos text value tail facts info
      cases info with
      | fixed _ also => cases apart (counted offset) (also offset)
      | counted _ count =>
          obtain ⟨noted, ran⟩ := reads_index.takes pos _ _ tail facts (.mk count)
          exact ⟨noted, by rw [bind_ok ran]; rfl⟩
    · intro pos bytes facts value r ran
      obtain ⟨count, middle, ranIndex, ran⟩ := bind_ok_inv ran
      cases ran
      obtain ⟨_, tail, split, stop, ⟨word⟩⟩ := reads_index.spelled pos bytes facts count r ranIndex
      exact ⟨_, tail, split, stop, .counted counted word⟩
  · rw [unknown]
    constructor
    · intro pos text value tail facts info
      cases info with
      | fixed _ also => cases apart (unknown offset) (also offset)
      | counted also => cases apart (unknown offset) (also offset)
    · intro pos bytes facts value r ran
      cases ran

theorem scans_type_annotation_here (names : NameTable) (depth : Nat) :
    Scans limit (typeAnnotationHere depth) (Part.typeAnnotationBody.form names depth) := by
  refine scans_congr (scans_position fun offset => scans_reading reads_u8 fun code =>
    scans_reading (reads_target_width offset code) fun width => scans_reading (reads_skip width) fun _ =>
    scans_reading reads_u8 fun steps => scans_reading (reads_skip (steps.toNat * 2)) fun _ =>
      scans_annotation_here names depth)
    fun text _ sites => ⟨?_, fun laid => ?_⟩
  · rintro ⟨code, ⟨⟩, width, info, _, ⟨size⟩, steps, ⟨⟩, _, ⟨paced⟩, laid⟩
    exact .typeAnnotationBody code info _ size steps _ paced laid
  · cases laid with
    | typeAnnotationBody code info target size steps path paced laid =>
        exact .mk code (.mk code) (.mk _ info (.mk () (.mk target size)
          (.mk steps (.mk steps) (.mk () (.mk path paced) laid))))

theorem scans_local_variables (role : Role) :
    Scans limit (localVariables role) ((Part.counted (.bytes 10)).form names depth) := by
  have row (index : Nat) := wide_bind (wide_note (.use index role)) fun _ => wide_skip 2
  exact scans_table_of (scans_bytes (wide_bind (wide_skip 6) fun _ => wide_bind wide_index row))

theorem scans_code {nested : Survey Unit} (tabled : Scans limit nested (Part.table.form names (depth + 1))) :
    Scans limit (attributeBody depth nested .code) (Part.code.form names depth) := by
  refine scans_congr (scans_reading (reads_skip 4) fun _ => scans_reading reads_u32 fun length =>
    scans_reading (reads_skip length.toNat) fun _ => scans_reading reads_index fun handlers =>
    scans_reading (reads_skip (handlers * 8)) fun _ => scans_deeper tabled) fun text _ sites => ⟨?_, fun laid => ?_⟩
  · rintro ⟨_, ⟨width⟩, length, ⟨⟩, _, ⟨size⟩, _, ⟨handlers⟩, _, ⟨covered⟩, laid⟩
    exact .code _ width length _ size handlers _ covered laid
  · cases laid with
    | code limits width length instructions size handlers ranges covered laid =>
        exact .mk () (.mk limits width) (.mk length (.mk length) (.mk () (.mk instructions size) (.mk _ (.mk handlers)
          (.mk () (.mk ranges covered) laid))))

theorem scans_attribute_body {nested : Survey Unit} (tabled : Scans limit nested (Part.table.form names (depth + 1)))
    (kind : AttributeKind) : Scans limit (attributeBody depth nested kind) (kind.inside.form names depth) := by
  cases kind with
  | signature => exact scans_bytes (wide_bind wide_index fun _ => wide_note _)
  | sourceFile => exact scans_bytes (wide_bind wide_index fun _ => wide_note _)
  | innerClasses => exact scans_table_of (scans_bytes wide_inner_class)
  | enclosingMethod => exact scans_bytes wide_enclosing_method
  | record =>
      have typed (index : Nat) := scans_after (wide_note (.use index .descriptor)) fun _ => scans_after_nothing tabled
      exact scans_deeper (scans_table_of (scans_after (wide_skip 2) fun _ => scans_after wide_index typed))
  | code => exact scans_code tabled
  | localVariables => exact scans_local_variables .descriptor
  | localVariableTypes => exact scans_local_variables .signature
  | annotations => exact scans_annotations names depth
  | parameterAnnotations => exact scans_few (scans_annotations names depth)
  | annotationDefault => exact scans_value_here names depth
  | typeAnnotations => exact scans_table_of (scans_type_annotation_here names depth)
  | other => exact scans_bytes (wide_pure ())

theorem scans_item {body : AttributeKind → Survey Unit}
    (each : ∀ kind, Scans limit (body kind) (kind.inside.form names depth)) :
    Scans limit (do
      let name ← Read.index
      let length ← Read.u32
      within length.toNat do
        body (AttributeKind.ofName (← names.get name))) (Part.item.form names depth) := by
  refine scans_congr (scans_reading reads_index fun index => scans_reading reads_u32 fun length =>
    scans_within length.toNat (scans_answered (names.get index) fun name => each (.ofName name)))
    fun text _ sites => ⟨?_, fun laid => ?_⟩
  · rintro ⟨_, ⟨index⟩, length, ⟨⟩, ⟨⟨name, named, laid⟩, rest, whole⟩⟩
    exact .item index named length laid rest whole
  · cases laid with
    | item index named length laid rest whole =>
        exact .mk _ (.mk index) (.mk _ (.mk length) (.mk ⟨_, named, laid⟩ rest whole))

theorem scans_attribute_table {body : AttributeKind → Survey Unit}
    (each : ∀ kind, Scans limit (body kind) (kind.inside.form names depth)) :
    Scans (limit + 2) (attributeTable names body) (Part.table.form names depth) := by
  refine scans_congr (scans_under ⟨.tables, depth⟩ (fun other => nomatch other) (scans_counted (scans_item each)))
    fun text _ sites => ⟨fun laid => ?_, fun laid => ?_⟩
  · cases laid with
    | mk laid => exact .table laid
  · cases laid with
    | table laid => exact .mk laid

theorem scans_nested_attributes (names : NameTable) (fuel depth : Nat) :
    Scans fuel (nestedAttributes names fuel depth) (Part.table.form names depth) := by
  induction fuel generalizing depth with
  | zero =>
      apply scans_failing
      · intro pos bytes facts short
        exact (wide_skip 2).starves pos bytes facts (by omega)
      · intro text _ sites short laid
        cases laid with
        | table laid =>
            cases laid with
            | counted count laid =>
                rw [List.length_append, word16_length] at short
                omega
  | succ fuel ih =>
      exact scans_fewer (scans_attribute_table (scans_attribute_body (ih (depth + 1)))) (Nat.le_succ (fuel + 1))

theorem scans_attributes (names : NameTable) : Scans limit (attributes .interpret names) (Part.table.form names 0) := by
  have outer (kind : AttributeKind) : Scans limit (do attributeBody 0 (nestedAttributes names (← Read.remaining) 1) kind)
      (kind.inside.form names 0) :=
    scans_remaining fun left => scans_attribute_body (scans_nested_attributes names left 1) kind
  exact scans_fewer (scans_attribute_table outer) (Nat.le_add_right limit 2)

theorem scans_member (names : NameTable) (kind : MemberKind) :
    Scans limit (member .interpret names kind) ((Part.after 6 .table).form names 0) := by
  have attributed : Scans limit (attributes .interpret names) (Part.table.form names 0) := scans_attributes names
  have declared (name descriptor : Nat) := scans_after (wide_note (.declares name descriptor kind)) fun _ =>
    scans_after_nothing attributed
  exact scans_after (wide_skip 2) fun _ => scans_after wide_index fun name => scans_after wide_index (declared name)

theorem scans_members (names : NameTable) (kind : MemberKind) :
    Scans limit (members .interpret names kind) ((Part.counted (.after 6 .table)).form names 0) :=
  scans_table_of (scans_member names kind)

end Survey

inductive ClassLaid (names : NameTable) : Bytes → Outline → List Site → Prop
  | mk {fields methods attributes : Bytes} {s t u : List Site} (access : Bytes) (size : access.length = 2)
      (thisClass superClass count : UInt16) (interfaces : List UInt16) (listed : interfaces.length = count.toNat)
      -- flags, a name and a descriptor stand in front of the attributes of a member
      (fielded : (Part.counted (.after 6 .table)).Laid names 0 fields s)
      (methodical : (Part.counted (.after 6 .table)).Laid names 0 methods t)
      (attributed : Part.table.Laid names 0 attributes u) :
      ClassLaid names (access ++ (word16 thisClass ++ (word16 superClass ++ (word16 count ++ (interfaces.flatMap word16 ++
        (fields ++ (methods ++ attributes))))))) ⟨thisClass.toNat, superClass.toNat, interfaces.map UInt16.toNat⟩
          (s ++ (t ++ u))

theorem Survey.scans_outline (limit : Nat) (names : NameTable) :
    Scans limit (outline .interpret names) (ClassLaid names) := by
  rw [outline_steps]
  have members (outline : Outline) : Scans limit _ _ := scans_then (scans_members names .field)
    (scans_then (scans_members names .method) (scans_return (scans_attributes names) outline))
  refine scans_congr (scans_reading (reads_skip 2) fun _ => scans_reading reads_index fun thisClass =>
    scans_reading reads_index fun superClass => scans_past (wide_note _) fun _ =>
    scans_past (wide_optional_class superClass) fun _ => scans_reading reads_index fun count =>
    scans_reading (reads_classes count) fun interfaces => members ⟨thisClass, superClass, interfaces⟩)
    fun text found sites => ⟨?_, ?_⟩
  · rintro ⟨_, ⟨size⟩, _, ⟨thisClass⟩, _, ⟨superClass⟩, _, ⟨count⟩, _, ⟨interfaces, listed⟩,
      ⟨fielded, ⟨methodical, attributed, rfl⟩⟩⟩
    exact .mk _ size thisClass superClass count interfaces listed fielded methodical attributed
  · rintro ⟨access, size, thisClass, superClass, count, interfaces, listed, fielded, methodical, attributed⟩
    exact .mk () (.mk access size) (.mk _ (.mk thisClass) (.mk _ (.mk superClass) (.mk _ (.mk count)
      (.mk _ (.mk interfaces listed) (.mk fielded (.mk methodical ⟨attributed, rfl⟩))))))

end Relabel
