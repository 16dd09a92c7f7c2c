import Relabel.Proofs.BlindSurvey

set_option autoImplicit false

namespace Relabel

open Cursor (ahead)

abbrev Token (α : Type) := Bytes → α → Prop

inductive AnyText (width : Nat) : Bytes → Unit → Prop
  | mk (text : Bytes) (size : text.length = width) : AnyText width text ()

inductive ByteText : Bytes → UInt8 → Prop
  | mk (value : UInt8) : ByteText [value] value

inductive IndexText : Bytes → Nat → Prop
  | mk (word : UInt16) : IndexText (word16 word) word.toNat

inductive LengthText : Bytes → UInt32 → Prop
  | mk (value : UInt32) : LengthText (word32 value) value

inductive IndicesText (count : Nat) : Bytes → List Nat → Prop
  | mk (words : List UInt16) (size : words.length = count) :
      IndicesText count (words.flatMap word16) (words.map UInt16.toNat)

namespace Survey

variable {α β : Type}

structure Reads (act : Survey α) (token : Token α) : Prop where
  takes : ∀ pos text a tail facts, token text a →
    ∃ noted, act ⟨ahead pos (text ++ tail), facts⟩ = .ok a ⟨ahead (pos + text.length) tail, noted⟩
  spelled : ∀ pos bytes facts a r, act ⟨ahead pos bytes, facts⟩ = .ok a r →
    ∃ text tail, bytes = text ++ tail ∧ r.cursor = ahead (pos + text.length) tail ∧ token text a

theorem reads_read {act : Read α} {token : Token α} (takes : ∀ pos text a, token text a → Read.Takes act pos text a)
    (spelled : ∀ pos bytes a c, act (ahead pos bytes) = .ok a c →
      ∃ text tail, bytes = text ++ tail ∧ c = ahead (pos + text.length) tail ∧ token text a) :
    Reads (act : Survey α) token where
  takes pos text a tail facts known := ⟨facts, read_ok facts ((takes pos text a known).passes tail)⟩
  spelled pos bytes facts a r ran := by
    cases read : act (ahead pos bytes) with
    | error e c =>
        rw [read_error facts read] at ran
        cases ran
    | ok b c =>
        rw [read_ok facts read] at ran
        cases ran
        exact spelled pos bytes a c read

theorem reads_skip (width : Nat) : Reads (Read.skip width : Survey Unit) (AnyText width) := by
  apply reads_read
  · rintro pos text _ ⟨rfl⟩
    exact Read.takes_skip pos text
  · intro pos bytes _ c ran
    obtain ⟨taken, ran, _⟩ := map_ok_inv ran
    obtain ⟨size, tail, rfl, rfl⟩ := Read.bytes_inv ran
    exact ⟨taken, tail, rfl, by rw [size], .mk taken size⟩

theorem reads_u8 : Reads (Read.u8 : Survey UInt8) ByteText := by
  apply reads_read
  · rintro pos _ value ⟨⟩
    exact Read.takes_u8 pos value
  · intro pos bytes value c ran
    obtain ⟨tail, rfl, rfl⟩ := Read.u8_inv ran
    exact ⟨[value], tail, rfl, rfl, .mk value⟩

theorem reads_u32 : Reads (Read.u32 : Survey UInt32) LengthText := by
  apply reads_read
  · rintro pos _ value ⟨⟩
    exact Read.takes_u32 pos value
  · intro pos bytes value c ran
    obtain ⟨tail, rfl, rfl⟩ := Read.u32_inv ran
    exact ⟨word32 value, tail, rfl, by rw [word32_length], .mk value⟩

theorem reads_index : Reads (Read.index : Survey Nat) IndexText := by
  apply reads_read
  · rintro pos _ _ ⟨word⟩
    exact Read.takes_index pos word
  · intro pos bytes value c ran
    obtain ⟨word, found, rfl⟩ := map_ok_inv ran
    obtain ⟨tail, rfl, rfl⟩ := Read.u16_inv found
    exact ⟨word16 word, tail, rfl, by rw [word16_length], .mk word⟩

theorem reads_class_index : Reads classIndex IndexText where
  takes pos text index tail facts known := by
    obtain ⟨noted, ran⟩ := reads_index.takes pos text index tail facts known
    exact ⟨noted.push (.addresses .classRef index), by rw [classIndex, bind_ok ran]; rfl⟩
  spelled pos bytes facts index r ran := by
    obtain ⟨found, middle, ranIndex, ran⟩ := bind_ok_inv ran
    cases ran
    exact reads_index.spelled pos bytes facts index middle ranIndex

theorem reads_classes_onto (done : List Nat) (count : Nat) : Reads (collectOnto done count classIndex) fun text found =>
    ∃ indices, IndicesText count text indices ∧ found = done.reverse ++ indices := by
  induction count generalizing done with
  | zero =>
      constructor
      · rintro pos _ _ tail facts ⟨_, ⟨words, none⟩, rfl⟩
        rw [List.length_eq_zero_iff.mp none]
        exact ⟨facts, by simp [collectOnto]⟩
      · intro pos bytes facts found r ran
        cases ran
        exact ⟨[], bytes, rfl, rfl, [], .mk [] rfl, (List.append_nil _).symm⟩
  | succ count ih =>
      rw [collect_onto_succ]
      constructor
      · rintro pos _ _ tail facts ⟨_, ⟨words, size⟩, rfl⟩
        obtain ⟨word, rest, rfl⟩ := List.exists_cons_of_length_eq_add_one size
        obtain ⟨middle, ran⟩ := reads_class_index.takes pos _ _ (rest.flatMap word16 ++ tail) facts (.mk word)
        obtain ⟨noted, later⟩ := (ih (word.toNat :: done)).takes (pos + (word16 word).length) _ _ tail middle
          ⟨_, .mk rest (Nat.succ.inj size), rfl⟩
        refine ⟨noted, ?_⟩
        rw [List.flatMap_cons, List.append_assoc, bind_ok ran, later, List.length_append, Nat.add_assoc]
        simp
      · intro pos bytes facts found r ran
        obtain ⟨index, ⟨cursor, middle⟩, ranFirst, ran⟩ := bind_ok_inv ran
        obtain ⟨_, rest, rfl, rfl, ⟨word⟩⟩ := reads_class_index.spelled pos bytes facts index _ ranFirst
        obtain ⟨_, tail, rfl, stop, _, ⟨words, size⟩, rfl⟩ := (ih _).spelled _ rest middle found r ran
        refine ⟨word16 word ++ words.flatMap word16, tail, (List.append_assoc _ _ _).symm, ?_, _,
          .mk (word :: words) ?_, ?_⟩
        · rw [stop, List.length_append, Nat.add_assoc]
        · rw [List.length_cons, size]
        · simp

theorem reads_classes (count : Nat) : Reads (collect count classIndex) (IndicesText count) where
  takes pos text found tail facts known := (reads_classes_onto [] count).takes pos text found tail facts
    ⟨found, known, rfl⟩
  spelled pos bytes facts found r ran := by
    obtain ⟨text, tail, split, stop, _, known, rfl⟩ := (reads_classes_onto [] count).spelled pos bytes facts found r ran
    exact ⟨text, tail, split, stop, known⟩

structure Wide (width : Nat) (act : Survey α) : Prop where
  takes : ∀ pos bytes facts, width ≤ bytes.length →
    ∃ a noted, act ⟨ahead pos bytes, facts⟩ = .ok a ⟨ahead (pos + width) (bytes.drop width), noted⟩
  starves : ∀ pos bytes facts, bytes.length < width → ∃ e r, act ⟨ahead pos bytes, facts⟩ = .error e r

theorem wide_read {act : Read α} {width : Nat} {value : Bytes → α} (fixed : act.Fixed width value) :
    Wide width (act : Survey α) where
  takes pos bytes facts enough := by
    have inside : (ahead pos bytes).pos + width ≤ (ahead pos bytes).bound := Nat.add_le_add_left enough pos
    have ran := fixed (ahead pos bytes)
    rw [if_pos inside, Cursor.ahead_advance pos width bytes enough] at ran
    exact ⟨_, facts, read_ok facts ran⟩
  starves pos bytes facts short := by
    have outside : ¬ (ahead pos bytes).pos + width ≤ (ahead pos bytes).bound := by
      change ¬ pos + width ≤ pos + bytes.length
      omega
    have ran := fixed (ahead pos bytes)
    rw [if_neg outside] at ran
    exact ⟨_, _, read_error facts ran⟩

theorem wide_index : Wide 2 (Read.index : Survey Nat) := wide_read Read.fixed_index

theorem wide_skip (width : Nat) : Wide width (Read.skip width : Survey Unit) := wide_read (Read.fixed_skip width)

theorem wide_pure (a : α) : Wide 0 (pure a : Survey α) where
  takes _ _ facts _ := ⟨a, facts, rfl⟩
  starves _ _ _ short := absurd short (Nat.not_lt_zero _)

theorem wide_note (fact : Fact) : Wide 0 (note fact) where
  takes _ _ facts _ := ⟨(), facts.push fact, rfl⟩
  starves _ _ _ short := absurd short (Nat.not_lt_zero _)

theorem wide_bind {x : Survey α} {f : α → Survey β} {first second : Nat} (one : Wide first x)
    (two : ∀ a, Wide second (f a)) : Wide (first + second) (x >>= f) where
  takes pos bytes facts enough := by
    obtain ⟨a, middle, ran⟩ := one.takes pos bytes facts (by omega)
    rw [bind_ok ran, ← Nat.add_assoc, ← List.drop_drop]
    exact (two a).takes _ _ middle (by rw [List.length_drop]; omega)
  starves pos bytes facts short := by
    by_cases enough : first ≤ bytes.length
    · obtain ⟨a, middle, ran⟩ := one.takes pos bytes facts enough
      rw [bind_ok ran]
      exact (two a).starves _ _ middle (by rw [List.length_drop]; omega)
    · obtain ⟨e, r, ran⟩ := one.starves pos bytes facts (by omega)
      exact ⟨e, r, bind_error ran⟩

theorem wide_optional_class (index : Nat) : Wide 0 (optionalClass index) := by
  unfold optionalClass
  split
  · exact wide_note _
  · exact wide_pure ()

theorem wide_inner_class : Wide (2 + (2 + (2 + (2 + 0)))) innerClass := by
  refine wide_bind wide_index fun inner => wide_bind (wide_skip 2) fun _ => wide_bind wide_index fun name => ?_
  refine wide_bind (wide_skip 2) fun _ => ?_
  split
  · exact wide_note _
  · exact wide_pure ()

theorem wide_enclosing_method : Wide (2 + (2 + 0)) enclosingMethod := by
  refine wide_bind wide_index fun owner => wide_bind wide_index fun nameAndType => ?_
  split
  · exact wide_note _
  · exact wide_pure ()

end Survey

inductive Layer where
  | values
  | annotations
  | tables
deriving DecidableEq

structure Site where
  layer : Layer
  depth : Nat
deriving DecidableEq

def Site.Allowed (site : Site) : Prop := site.layer = .annotations → site.depth ≤ Survey.maxNesting

abbrev Survey.Form (α : Type) := Bytes → α → List Site → Prop

namespace Survey.Form

variable {α β : Type}

inductive Reading (token : Token α) (form : α → Form β) : Bytes → β → List Site → Prop
  | mk {left right : Bytes} (a : α) {b : β} {sites : List Site} (here : token left a) (there : form a right b sites) :
      Reading token form (left ++ right) b sites

inductive Then (first : Form Unit) (second : Form β) : Bytes → β → List Site → Prop
  | mk {left right : Bytes} {b : β} {s t : List Site} (here : first left () s) (there : second right b t) :
      Then first second (left ++ right) b (s ++ t)

inductive Under (site : Site) (form : Form α) : Bytes → α → List Site → Prop
  | mk {text : Bytes} {a : α} {inner : List Site} (spelled : form text a inner) : Under site form text a (site :: inner)

inductive Within (length : Nat) (form : Form α) : Bytes → α → List Site → Prop
  | mk {inner : Bytes} {a : α} {sites : List Site} (spelled : form inner a sites) (rest : Bytes)
      (size : (inner ++ rest).length = length) : Within length form (inner ++ rest) a sites

end Survey.Form

namespace Survey

variable {α β : Type}

inductive Judged (a : α) (sites : List Site) (stop : Cursor) : EStateM.Result Fault Reading α → Prop
  | accepted (noted : Array Fact) (allowed : ∀ site ∈ sites, site.Allowed) : Judged a sites stop (.ok a ⟨stop, noted⟩)
  | rejected (site : Site) (member : site ∈ sites) (deep : ¬ site.Allowed) (offset : Nat) (r : Reading) :
      Judged a sites stop (.error (.malformedAttribute "annotation" offset) r)

/-- On so many bytes at most, the survey accepts the texts of a form whose annotations stand no
deeper than allowed, and nothing else. -/
structure Scans (limit : Nat) (act : Survey α) (form : Form α) : Prop where
  judges : ∀ pos text a sites tail facts, form text a sites → (text ++ tail).length ≤ limit →
    Judged a sites (ahead (pos + text.length) tail) (act ⟨ahead pos (text ++ tail), facts⟩)
  spelled : ∀ pos bytes facts a r, bytes.length ≤ limit → act ⟨ahead pos bytes, facts⟩ = .ok a r →
    ∃ text tail sites, bytes = text ++ tail ∧ r.cursor = ahead (pos + text.length) tail ∧ form text a sites

variable {limit : Nat}

theorem scans_congr {act : Survey α} {form other : Form α} (scans : Scans limit act form)
    (same : ∀ text a sites, form text a sites ↔ other text a sites) : Scans limit act other where
  judges pos text a sites tail facts spelled short :=
    scans.judges pos text a sites tail facts ((same text a sites).mpr spelled) short
  spelled pos bytes facts a r short ran := by
    obtain ⟨text, tail, sites, split, stop, spelled⟩ := scans.spelled pos bytes facts a r short ran
    exact ⟨text, tail, sites, split, stop, (same text a sites).mp spelled⟩

theorem scans_fewer {act : Survey α} {form : Form α} {fewer : Nat} (scans : Scans limit act form) (less : fewer ≤ limit) :
    Scans fewer act form where
  judges pos text a sites tail facts spelled short :=
    scans.judges pos text a sites tail facts spelled (Nat.le_trans short less)
  spelled pos bytes facts a r short ran := scans.spelled pos bytes facts a r (Nat.le_trans short less) ran

theorem scans_behind {x : Survey α} {f : α → Survey β} {token : Token α} {form : α → Form β} (width : Nat)
    (reads : Reads x token) (wide : ∀ text a, token text a → width ≤ text.length)
    (rest : ∀ a, Scans limit (f a) (form a)) : Scans (limit + width) (x >>= f) (.Reading token form) where
  judges pos text b sites tail facts spelled short := by
    cases spelled with
    | @mk left right a _ _ here there =>
        have some := wide left a here
        obtain ⟨noted, ran⟩ := reads.takes pos left a (right ++ tail) facts here
        rw [List.append_assoc, List.length_append] at short
        rw [List.append_assoc, bind_ok ran, List.length_append, ← Nat.add_assoc]
        exact (rest a).judges (pos + left.length) right b sites tail noted there (by omega)
  spelled pos bytes facts b r short ran := by
    obtain ⟨a, ⟨cursor, noted⟩, ranFirst, ranRest⟩ := bind_ok_inv ran
    obtain ⟨left, behind, rfl, rfl, here⟩ := reads.spelled pos bytes facts a _ ranFirst
    have some := wide left a here
    rw [List.length_append] at short
    obtain ⟨right, tail, sites, rfl, stop, there⟩ := (rest a).spelled _ behind noted b r (by omega) ranRest
    refine ⟨left ++ right, tail, sites, (List.append_assoc left right tail).symm, ?_, .mk a here there⟩
    rw [stop, List.length_append, Nat.add_assoc]

theorem scans_reading {x : Survey α} {f : α → Survey β} {token : Token α} {form : α → Form β} (reads : Reads x token)
    (rest : ∀ a, Scans limit (f a) (form a)) : Scans limit (x >>= f) (.Reading token form) :=
  scans_behind 0 reads (fun _ _ _ => Nat.zero_le _) rest

theorem scans_then {x : Survey Unit} {y : Survey β} {first : Form Unit} {second : Form β} (one : Scans limit x first)
    (two : Scans limit y second) : Scans limit (do x; y) (.Then first second) where
  judges pos text b sites tail facts spelled short := by
    cases spelled with
    | @mk left right _ s t here there =>
        rw [List.append_assoc] at short ⊢
        have judged := one.judges pos left () s (right ++ tail) facts here short
        generalize ran : x ⟨ahead pos (left ++ (right ++ tail)), facts⟩ = result at judged
        cases judged with
        | rejected site member deep offset r =>
            rw [bind_error ran]
            exact .rejected site (List.mem_append_left t member) deep offset r
        | accepted noted allowed =>
            rw [bind_ok ran, List.length_append, ← Nat.add_assoc]
            rw [List.length_append] at short
            have judged := two.judges (pos + left.length) right b t tail noted there (by omega)
            generalize y ⟨ahead (pos + left.length) (right ++ tail), noted⟩ = result at judged ⊢
            cases judged with
            | rejected site member deep offset r => exact .rejected site (List.mem_append_right s member) deep offset r
            | accepted noted also =>
                refine .accepted noted fun site member => ?_
                exact (List.mem_append.mp member).elim (allowed site) (also site)
  spelled pos bytes facts b r short ran := by
    obtain ⟨_, ⟨cursor, noted⟩, ranFirst, ranSecond⟩ := bind_ok_inv ran
    obtain ⟨left, rest, s, rfl, rfl, here⟩ := one.spelled pos bytes facts () _ short ranFirst
    rw [List.length_append] at short
    obtain ⟨right, tail, t, rfl, stop, there⟩ := two.spelled _ rest noted b r (by omega) ranSecond
    refine ⟨left ++ right, tail, s ++ t, (List.append_assoc left right tail).symm, ?_, .mk here there⟩
    rw [stop, List.length_append, Nat.add_assoc]

theorem scans_past {x : Survey α} {f : α → Survey β} {form : Form β} (still : Wide 0 x)
    (rest : ∀ a, Scans limit (f a) form) : Scans limit (x >>= f) form where
  judges pos text b sites tail facts spelled short := by
    obtain ⟨a, noted, ran⟩ := still.takes pos (text ++ tail) facts (Nat.zero_le _)
    rw [bind_ok ran]
    exact (rest a).judges pos text b sites tail noted spelled short
  spelled pos bytes facts b r short ran := by
    obtain ⟨a, noted, takes⟩ := still.takes pos bytes facts (Nat.zero_le _)
    rw [bind_ok takes] at ran
    exact (rest a).spelled pos bytes noted b r short ran

theorem scans_pure (b : β) : Scans limit (pure b) fun text found sites => text = [] ∧ found = b ∧ sites = [] where
  judges pos text found sites tail facts spelled _ := by
    obtain ⟨rfl, rfl, rfl⟩ := spelled
    exact .accepted facts (by simp)
  spelled pos bytes facts found r _ ran := by
    cases ran
    exact ⟨[], bytes, [], rfl, rfl, rfl, rfl, rfl⟩

theorem scans_return {x : Survey Unit} {form : Form Unit} (scans : Scans limit x form) (b : β) :
    Scans limit (do x; return b) fun text found sites => form text () sites ∧ found = b := by
  refine scans_congr (scans_then scans (scans_pure b)) fun text found sites => ⟨?_, ?_⟩
  · rintro ⟨spelled, rfl, rfl, rfl⟩
    rw [List.append_nil, List.append_nil]
    exact ⟨spelled, rfl⟩
  · rintro ⟨spelled, rfl⟩
    rw [← List.append_nil text, ← List.append_nil sites]
    exact .mk spelled ⟨rfl, rfl, rfl⟩

theorem scans_under {act : Survey α} {form : Form α} (site : Site) (allowed : site.Allowed)
    (scans : Scans limit act form) : Scans limit act (.Under site form) where
  judges pos text a sites tail facts spelled short := by
    cases spelled with
    | @mk inner spelled =>
        have judged := scans.judges pos text a inner tail facts spelled short
        generalize act ⟨ahead pos (text ++ tail), facts⟩ = result at judged ⊢
        cases judged with
        | rejected other member deep offset r => exact .rejected other (.tail _ member) deep offset r
        | accepted noted others =>
            refine .accepted noted fun other member => ?_
            cases member with
            | head => exact allowed
            | tail _ member => exact others other member
  spelled pos bytes facts a r short ran := by
    obtain ⟨text, tail, inner, split, stop, spelled⟩ := scans.spelled pos bytes facts a r short ran
    exact ⟨text, tail, site :: inner, split, stop, .mk spelled⟩

theorem scans_failing {act : Survey α} {form : Form α}
    (fails : ∀ pos bytes facts, bytes.length ≤ limit → ∃ e r, act ⟨ahead pos bytes, facts⟩ = .error e r)
    (none : ∀ text a sites, text.length ≤ limit → ¬ form text a sites) : Scans limit act form where
  judges pos text a sites tail facts spelled short := by
    rw [List.length_append] at short
    exact absurd spelled (none text a sites (by omega))
  spelled pos bytes facts a r short ran := by
    obtain ⟨e, stop, failed⟩ := fails pos bytes facts short
    rw [failed] at ran
    cases ran

theorem scans_answered (answer : Except Fault α) {f : α → Survey β} {form : α → Form β}
    (rest : ∀ a, Scans limit (f a) (form a)) :
    Scans limit ((answer : Survey α) >>= f) fun text b sites => ∃ a, answer = .ok a ∧ form a text b sites where
  judges pos text b sites tail facts spelled short := by
    obtain ⟨a, rfl, spelled⟩ := spelled
    exact (rest a).judges pos text b sites tail facts spelled short
  spelled pos bytes facts b r short ran := by
    cases answer with
    | error e => cases ran
    | ok a =>
        obtain ⟨text, tail, sites, split, stop, spelled⟩ := (rest a).spelled pos bytes facts b r short ran
        exact ⟨text, tail, sites, split, stop, a, rfl, spelled⟩

theorem scans_position {f : Nat → Survey α} {form : Form α} (rest : ∀ offset, Scans limit (f offset) form) :
    Scans limit (do f (← Read.position)) form where
  judges pos text a sites tail facts spelled short := (rest pos).judges pos text a sites tail facts spelled short
  spelled pos bytes facts a r short ran := (rest pos).spelled pos bytes facts a r short ran

theorem remaining_ahead (f : Nat → Survey α) (pos : Nat) (bytes : Bytes) (facts : Array Fact) :
    (do f (← Read.remaining) : Survey α) ⟨ahead pos bytes, facts⟩ = f bytes.length ⟨ahead pos bytes, facts⟩ := by
  have left : (ahead pos bytes).remaining = bytes.length := Nat.add_sub_cancel_left _ _
  rw [← left]
  rfl

theorem scans_remaining {f : Nat → Survey α} {form : Form α} (rest : ∀ left, Scans left (f left) form) :
    Scans limit (do f (← Read.remaining)) form where
  judges pos text a sites tail facts spelled _ := by
    rw [remaining_ahead]
    exact (rest _).judges pos text a sites tail facts spelled (Nat.le_refl _)
  spelled pos bytes facts a r _ ran := by
    rw [remaining_ahead] at ran
    exact (rest _).spelled pos bytes facts a r (Nat.le_refl _) ran

theorem scans_within (length : Nat) {act : Survey α} {form : Form α} (scans : Scans limit act form) :
    Scans limit (within length act) (.Within length form) where
  judges pos text a sites tail facts spelled short := by
    cases spelled with
    | @mk inner _ _ spelled rest size =>
        have set_apart := Read.split_ahead length pos (inner ++ rest ++ tail) (by rw [List.length_append, size]; omega)
        rw [← size, List.take_left, List.drop_left] at set_apart
        rw [List.length_append] at short
        have judged := scans.judges pos inner a sites rest facts spelled (by omega)
        rw [within, ← size, set_apart]
        dsimp only
        -- What the survey leaves of the bytes set apart is passed over with them.
        generalize act ⟨ahead pos (inner ++ rest), facts⟩ = result at judged
        cases judged with
        | rejected site member deep offset r => exact .rejected site member deep offset r
        | accepted noted allowed => exact .accepted noted allowed
  spelled pos bytes facts a r short ran := by
    rw [within] at ran
    by_cases enough : length ≤ bytes.length
    · rw [Read.split_ahead length pos bytes enough] at ran
      dsimp only at ran
      have size : (bytes.take length).length = length := List.length_take_of_le enough
      cases inside : act ⟨ahead pos (bytes.take length), facts⟩ with
      | error e stop =>
          rw [inside] at ran
          cases ran
      | ok b stop =>
          rw [inside] at ran
          cases ran
          obtain ⟨inner, rest, sites, split, _, spelled⟩ := scans.spelled pos _ facts a _ (by omega) inside
          refine ⟨bytes.take length, bytes.drop length, sites,
            (List.take_append_drop length bytes).symm, by rw [size], ?_⟩
          rw [split] at size ⊢
          exact .mk spelled rest size
    · obtain ⟨needed, failed⟩ := Read.split_ahead_short length pos bytes (by omega)
      rw [failed] at ran
      cases ran

end Survey

end Relabel
