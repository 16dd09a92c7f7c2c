import Relabel.Name
import Relabel.Proofs.StandardText

set_option autoImplicit false

namespace Relabel.Text

namespace Utf16

def unitsOf (c : Char) : List Nat := if c.toNat < 0x10000 then [c.toNat] else [high c, low c]

theorem decode_onto_append (done before : List Char) (units : List Nat) :
    decodeOnto (done ++ before) units = before.reverse ++ decodeOnto done units := by
  induction done, units using decodeOnto.induct with
  | case1 done => simp [decodeOnto]
  | case2 done u => simp [decodeOnto]
  | case3 done u v rest pair ih =>
      rw [decodeOnto, if_pos pair, decodeOnto, if_pos pair, ← ih, List.cons_append]
  | case4 done u v rest apart ih =>
      rw [decodeOnto, if_neg apart, decodeOnto, if_neg apart, ← ih, List.cons_append]

theorem single_char {c : Char} (low : c.toNat < 0x10000) : isHigh c.toNat = false ∧ single c.toNat = c := by
  -- No character is a surrogate, so its unit never waits for another.
  have bounds : c.toNat < 0xD800 ∨ 0xDFFF < c.toNat ∧ c.toNat < 0x110000 := c.valid
  have notHigh : isHigh c.toNat = false := by
    simp only [isHigh, Bool.and_eq_false_iff, decide_eq_false_iff_not]
    omega
  have notLow : isLow c.toNat = false := by
    simp only [isLow, Bool.and_eq_false_iff, decide_eq_false_iff_not]
    omega
  refine ⟨notHigh, ?_⟩
  rw [single, notHigh, notLow]
  exact Char.ofNat_toNat c

theorem pair_char {c : Char} (beyond : 0x10000 ≤ c.toNat) :
    isHigh (high c) = true ∧ isLow (low c) = true ∧ join (high c) (low c) = c := by
  have bounds : c.toNat < 0xD800 ∨ 0xDFFF < c.toNat ∧ c.toNat < 0x110000 := c.valid
  refine ⟨?_, ?_, ?_⟩
  · rw [isHigh, Bool.and_eq_true, decide_eq_true_iff, decide_eq_true_iff, high]
    omega
  · rw [isLow, Bool.and_eq_true, decide_eq_true_iff, decide_eq_true_iff, low]
    omega
  · have number : 0x10000 + (high c - 0xD800) * 1024 + (low c - 0xDC00) = c.toNat := by
      simp only [high, low]
      omega
    rw [join, number, Char.ofNat_toNat]

theorem decode_onto_char (done : List Char) (c : Char) (rest : List Nat) :
    decodeOnto done (unitsOf c ++ rest) = decodeOnto (c :: done) rest := by
  by_cases low : c.toNat < 0x10000
  · obtain ⟨notHigh, alone⟩ := single_char low
    rw [unitsOf, if_pos low]
    cases rest with
    | nil => simp [decodeOnto, alone]
    | cons v rest => simp [decodeOnto, notHigh, alone]
  · obtain ⟨first, second, joined⟩ := pair_char (Nat.le_of_not_lt low)
    rw [unitsOf, if_neg low]
    simp [decodeOnto, first, second, joined]

theorem decode_onto_text (done text : List Char) (rest : List Nat) :
    decodeOnto done (text.flatMap unitsOf ++ rest) = decodeOnto (text.reverse ++ done) rest := by
  induction text generalizing done with
  | nil => rfl
  | cons c text ih =>
      rw [List.flatMap_cons, List.append_assoc, decode_onto_char, ih]
      simp

end Utf16

namespace Modified

open Utf16 (unitsOf)

theorem units_onto_append (done before : List Nat) (bytes : Bytes) :
    unitsOnto (done ++ before) bytes = before.reverse ++ unitsOnto done bytes := by
  induction done, bytes using unitsOnto.induct with
  | case1 done => simp [unitsOnto]
  | case2 done a => simp [unitsOnto]
  | case3 done a b one _ => simp [unitsOnto, one]
  | case4 done a b one two => simp [unitsOnto, one, two]
  | case5 done a b one two _ => simp [unitsOnto, one, two]
  | case6 done a b c rest one ih => simpa [unitsOnto, one] using ih
  | case7 done a b c rest one two ih => simpa [unitsOnto, one, two] using ih
  | case8 done a b c rest one two three ih => simpa [unitsOnto, one, two, three] using ih
  | case9 done a b c rest one two three ih => simpa [unitsOnto, one, two, three] using ih

section Next

variable (done : List Nat) (rest : Bytes)

theorem units_one {n : Nat} (low : n < 0x80) : unitsOnto done (n.toUInt8 :: rest) = unitsOnto (n :: done) rest := by
  have value : n.toUInt8.toNat = n := UInt8.toNat_ofNat_of_lt' (show _ < 256 by omega)
  have one : n.toUInt8 < 0x80 := by simpa only [UInt8.lt_iff_toNat_lt, value, UInt8.reduceToNat] using low
  rcases rest with _ | ⟨b, _ | ⟨c, rest⟩⟩ <;> simp only [unitsOnto, if_pos one, value]

theorem units_two {high low : Nat} (upper : high < 32) (lower : low < 64) :
    unitsOnto done ((0xC0 + high).toUInt8 :: (0x80 + low).toUInt8 :: rest) = unitsOnto ((high * 64 + low) :: done) rest := by
  have first : (0xC0 + high).toUInt8.toNat = 0xC0 + high := UInt8.toNat_ofNat_of_lt' (show _ < 256 by omega)
  have second : (0x80 + low).toUInt8.toNat = 0x80 + low := UInt8.toNat_ofNat_of_lt' (show _ < 256 by omega)
  have number : (0xC0 + high) % 32 * 64 + (0x80 + low) % 64 = high * 64 + low := by omega
  have one : ¬ (0xC0 + high).toUInt8 < 0x80 := by
    simp only [UInt8.lt_iff_toNat_lt, first, UInt8.reduceToNat]
    omega
  have two : 0xC0 ≤ (0xC0 + high).toUInt8 ∧ (0xC0 + high).toUInt8 < 0xE0 := by
    simp only [UInt8.le_iff_toNat_le, UInt8.lt_iff_toNat_lt, first, UInt8.reduceToNat]
    omega
  cases rest <;> simp only [unitsOnto, if_neg one, if_pos two, first, second, number]

theorem units_three {n : Nat} (small : n < 0x10000) :
    unitsOnto done (Utf8.threeBytes n ++ rest) = unitsOnto (n :: done) rest := by
  have first : (0xE0 + n / 4096).toUInt8.toNat = 0xE0 + n / 4096 := UInt8.toNat_ofNat_of_lt' (show _ < 256 by omega)
  have second := tail_value (n / 64)
  have third := tail_value n
  have number : (0xE0 + n / 4096) % 16 * 4096 + (0x80 + n / 64 % 64) % 64 * 64 + (0x80 + n % 64) % 64 = n := by omega
  have one : ¬ (0xE0 + n / 4096).toUInt8 < 0x80 := by
    simp only [UInt8.lt_iff_toNat_lt, first, UInt8.reduceToNat]
    omega
  have two : ¬ (0xC0 ≤ (0xE0 + n / 4096).toUInt8 ∧ (0xE0 + n / 4096).toUInt8 < 0xE0) := by
    simp only [UInt8.le_iff_toNat_le, UInt8.lt_iff_toNat_lt, first, UInt8.reduceToNat]
    omega
  have three : 0xE0 ≤ (0xE0 + n / 4096).toUInt8 ∧ (0xE0 + n / 4096).toUInt8 < 0xF0 := by
    simp only [UInt8.le_iff_toNat_le, UInt8.lt_iff_toNat_lt, first, UInt8.reduceToNat]
    omega
  simp only [Utf8.threeBytes, List.cons_append, List.nil_append, unitsOnto, if_neg one, if_neg two, if_pos three, first,
    second, third, number]

end Next

theorem units_onto_char (done : List Nat) (c : Char) (rest : Bytes) :
    unitsOnto done (encodeChar c ++ rest) = unitsOnto ((unitsOf c).reverse ++ done) rest := by
  have bounds : c.toNat < 0xD800 ∨ 0xDFFF < c.toNat ∧ c.toNat < 0x110000 := c.valid
  by_cases beyond : 0x10000 ≤ c.toNat
  · rw [encodeChar, if_neg (by omega), if_neg (by omega), unitsOf, if_neg (by omega), List.append_assoc,
      units_three _ _ (by rw [Utf16.high]; omega), units_three _ _ (by rw [Utf16.low]; omega)]
    rfl
  rw [unitsOf, if_pos (by omega), List.reverse_singleton, List.singleton_append]
  by_cases zero : c.toNat = 0
  · rw [encodeChar, if_pos zero, zero]
    exact units_two done rest (by decide : 0 < 32) (by decide : 0 < 64)
  rw [encodeChar, if_neg zero, if_pos (by omega)]
  by_cases one : c.toNat < 0x80
  · rw [Utf8.encode_one one]
    exact units_one done rest one
  by_cases two : c.toNat < 0x800
  · have read := units_two done rest (show c.toNat / 64 < 32 by omega) (show c.toNat % 64 < 64 by omega)
    rw [Nat.div_add_mod'] at read
    rw [Utf8.encode_two (by omega) two]
    exact read
  · rw [Utf8.encode_three (by omega) (by omega)]
    exact units_three done rest (by omega)

theorem units_onto_text (done : List Nat) (text : List Char) (rest : Bytes) :
    unitsOnto done (text.flatMap encodeChar ++ rest) = unitsOnto ((text.flatMap unitsOf).reverse ++ done) rest := by
  induction text generalizing done with
  | nil => rfl
  | cons c text ih =>
      rw [List.flatMap_cons, List.append_assoc, units_onto_char, ih]
      simp

theorem units_text (text : List Char) (rest : Bytes) :
    units (text.flatMap encodeChar ++ rest) = text.flatMap unitsOf ++ units rest := by
  have read := units_onto_append [] (text.flatMap unitsOf).reverse rest
  rw [List.nil_append, List.reverse_reverse] at read
  rw [units, units_onto_text, List.append_nil, read, units]

theorem decode_append (text : String) (rest : Bytes) : decode (encode text ++ rest) = text ++ decode rest := by
  have read := Utf16.decode_onto_append [] text.toList.reverse (units rest)
  rw [List.nil_append, List.reverse_reverse] at read
  rw [decode, Utf16.decodeLossy, encode, units_text, Utf16.decode_onto_text, List.append_nil, read, String.ofList_append,
    String.ofList_toList, decode, Utf16.decodeLossy]

theorem decode_encode (text : String) : decode (encode text) = text := by
  have read := decode_append text []
  rw [List.append_nil] at read
  exact read.trans String.append_empty

def Shared (c : Char) : Prop := c.toNat ≠ 0 ∧ c.toNat < 0x10000

instance (c : Char) : Decidable (Shared c) := inferInstanceAs (Decidable (_ ∧ _))

theorem encode_char_shared {c : Char} (shared : Shared c) : encodeChar c = Utf8.encodeChar c := by
  rw [encodeChar, if_neg shared.1, if_pos shared.2]

theorem encode_shared {text : String} (shared : ∀ c ∈ text.toList, Shared c) : encode text = Utf8.encode text := by
  rw [encode, Utf8.encode, List.flatMap_def, List.flatMap_def,
    List.map_congr_left fun c member => encode_char_shared (shared c member)]

theorem three_bytes_bounds {n : Nat} (small : n < 0x10000) (b : UInt8) (member : b ∈ Utf8.threeBytes n) :
    0 < b.toNat ∧ b.toNat < 0xF0 := by
  have first : (0xE0 + n / 4096).toUInt8.toNat = 0xE0 + n / 4096 := UInt8.toNat_ofNat_of_lt' (show _ < 256 by omega)
  have second := tail_value (n / 64)
  have third := tail_value n
  simp only [Utf8.threeBytes, List.mem_cons, List.not_mem_nil, or_false] at member
  rcases member with rfl | rfl | rfl <;> omega

theorem encode_char_bounds (c : Char) (b : UInt8) (member : b ∈ encodeChar c) : 0 < b.toNat ∧ b.toNat < 0xF0 := by
  have bounds : c.toNat < 0xD800 ∨ 0xDFFF < c.toNat ∧ c.toNat < 0x110000 := c.valid
  by_cases zero : c.toNat = 0
  · rw [encodeChar, if_pos zero] at member
    simp only [List.mem_cons, List.not_mem_nil, or_false] at member
    rcases member with rfl | rfl <;> decide
  rw [encodeChar, if_neg zero] at member
  by_cases beyond : 0x10000 ≤ c.toNat
  · rw [if_neg (by omega), List.mem_append] at member
    rcases member with member | member
    · exact three_bytes_bounds (by rw [Utf16.high]; omega) b member
    · exact three_bytes_bounds (by rw [Utf16.low]; omega) b member
  rw [if_pos (by omega)] at member
  by_cases one : c.toNat < 0x80
  · rw [Utf8.encode_one one, List.mem_singleton] at member
    rw [member, UInt8.toNat_ofNat_of_lt' (show _ < 256 by omega)]
    omega
  by_cases two : c.toNat < 0x800
  · have first : (0xC0 + c.toNat / 64).toUInt8.toNat = 0xC0 + c.toNat / 64 :=
      UInt8.toNat_ofNat_of_lt' (show _ < 256 by omega)
    have second := tail_value c.toNat
    rw [Utf8.encode_two (by omega) two] at member
    simp only [List.mem_cons, List.not_mem_nil, or_false] at member
    rcases member with rfl | rfl <;> omega
  · rw [Utf8.encode_three (by omega) (by omega)] at member
    exact three_bytes_bounds (by omega) b member

theorem standard_byte {c : Char} (apart : ¬ Shared c) : ∃ b ∈ Utf8.encodeChar c, ¬ (0 < b.toNat ∧ b.toNat < 0xF0) := by
  have bounds : c.toNat < 0xD800 ∨ 0xDFFF < c.toNat ∧ c.toNat < 0x110000 := c.valid
  by_cases zero : c.toNat = 0
  · refine ⟨0, ?_, by decide⟩
    rw [Utf8.encode_one (by omega), zero]
    exact .head _
  · have beyond : 0x10000 ≤ c.toNat := by
      rw [Shared] at apart
      omega
    refine ⟨(0xF0 + c.toNat / 262144).toUInt8, ?_, ?_⟩
    · rw [Utf8.encode_four beyond]
      exact .head _
    · rw [UInt8.toNat_ofNat_of_lt' (show _ < 256 by omega)]
      omega

theorem encode_bounds (text : String) (b : UInt8) (member : b ∈ encode text) : 0 < b.toNat ∧ b.toNat < 0xF0 := by
  obtain ⟨c, _, inside⟩ := List.mem_flatMap.mp member
  exact encode_char_bounds c b inside

theorem standard_begins_iff (start text : String) :
    Utf8.encode start <+: encode text ↔ (∀ c ∈ start.toList, Shared c) ∧ start.toList <+: text.toList := by
  constructor
  · intro begins
    -- A character that is stored in another form has a byte here that no stored text has.
    have shared : ∀ c ∈ start.toList, Shared c := by
      intro c member
      by_contra apart
      obtain ⟨b, inside, odd⟩ := standard_byte apart
      exact odd (encode_bounds text b (begins.subset (List.mem_flatMap.mpr ⟨c, member, inside⟩)))
    refine ⟨shared, ?_⟩
    obtain ⟨rest, whole⟩ := begins
    have read := decode_append start rest
    rw [encode_shared shared, whole, decode_encode] at read
    rw [read, String.toList_append]
    exact List.prefix_append _ _
  · rintro ⟨shared, rest, whole⟩
    refine ⟨rest.flatMap encodeChar, ?_⟩
    rw [← encode_shared shared, encode, encode, ← whole, List.flatMap_append]

theorem standard_iff (other text : String) :
    encode text = Utf8.encode other ↔ other = text ∧ ∀ c ∈ text.toList, Shared c := by
  constructor
  · intro same
    have shared := ((standard_begins_iff other text).mp ⟨[], by rw [List.append_nil, same]⟩).1
    have equal : other = text := by rw [← decode_encode text, same, ← encode_shared shared, decode_encode]
    exact ⟨equal, equal ▸ shared⟩
  · rintro ⟨rfl, shared⟩
    exact encode_shared shared

theorem display_encode (text : String) : display (encode text) = text := by
  rw [display, decode_encode]
  cases read : Utf8.decode? (encode text) with
  | none => rfl
  | some other => exact ((standard_iff other text).mp ((Utf8.decode_iff _ _).mp read)).1

end Modified

end Relabel.Text

namespace Relabel

open Text
open Text.Modified (Shared)

theorem Name.display_of_string (text : String) : (Name.ofString text).display = text := Modified.display_encode text

theorem Name.of_string_injective : Function.Injective Name.ofString := Function.LeftInverse.injective Name.display_of_string

/-- A text is shown as it was stored. The bytes by themselves tell how to read them: they are in
standard form only if every character is stored so, and then both ways to read them agree. -/
theorem stored_text_reads_back (text : String) :
    (Name.ofString text).display = text ∧
    Modified.decode (Name.ofString text).bytes = text ∧
    (∀ other, Utf8.decode? (Name.ofString text).bytes = some other ↔ other = text ∧ ∀ c ∈ text.toList, Shared c) ∧
    (∀ other, Name.ofString other = Name.ofString text → other = text) ∧
    0 ∉ (Name.ofString text).bytes := by
  refine ⟨Name.display_of_string text, Modified.decode_encode text, fun other => ?_,
    fun other same => Name.of_string_injective same, fun member => ?_⟩
  · exact (Utf8.decode_iff _ _).trans (Modified.standard_iff other text)
  · exact Nat.lt_irrefl 0 (Modified.encode_bounds text 0 member).1

theorem stored_text_reads_back_mixed :
    (Name.ofString "a\x00é€😀").bytes =
      [0x61, 0xC0, 0x80, 0xC3, 0xA9, 0xE2, 0x82, 0xAC, 0xED, 0xA0, 0xBD, 0xED, 0xB8, 0x80] ∧
    Utf8.decode? (Name.ofString "a\x00é€😀").bytes = none ∧ (Name.ofString "a\x00é€😀").display = "a\x00é€😀" := by
  obtain ⟨shown, _, standard, _⟩ := stored_text_reads_back "a\x00é€😀"
  refine ⟨by decide, ?_, shown⟩
  cases read : Utf8.decode? (Name.ofString "a\x00é€😀").bytes with
  | none => rfl
  | some other => exact absurd (((standard other).mp read).2 '\x00' (by decide)) (by decide)

end Relabel
