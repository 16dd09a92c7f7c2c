import Mathlib.Tactic.IntervalCases
import Relabel.Text.Utf8

set_option autoImplicit false

namespace Relabel.Text

theorem tail_value (n : Nat) : (0x80 + n % 64).toUInt8.toNat = 0x80 + n % 64 :=
  UInt8.toNat_ofNat_of_lt' (show _ < 256 by omega)

theorem value_byte (b : UInt8) {n : Nat} (same : n = b.toNat) : n.toUInt8 = b := by
  rw [same]
  exact UInt8.ofNat_toNat

theorem char_value {n : Nat} (valid : n.isValidChar) : (Char.ofNat n).toNat = n := by
  rw [Char.ofNat, dif_pos valid]
  rfl

end Relabel.Text

namespace Relabel.Text.Utf8

section Forms

variable {c : Char}

theorem encode_one (low : c.toNat < 0x80) : encodeChar c = [c.toNat.toUInt8] := if_pos low

theorem encode_two (low : 0x80 ≤ c.toNat) (high : c.toNat < 0x800) :
    encodeChar c = [(0xC0 + c.toNat / 64).toUInt8, (0x80 + c.toNat % 64).toUInt8] := by
  rw [encodeChar, if_neg (by omega), if_pos high]

theorem encode_three (low : 0x800 ≤ c.toNat) (high : c.toNat < 0x10000) : encodeChar c = threeBytes c.toNat := by
  rw [encodeChar, if_neg (by omega), if_neg (by omega), if_pos high]

theorem encode_four (low : 0x10000 ≤ c.toNat) :
    encodeChar c = [(0xF0 + c.toNat / 262144).toUInt8, (0x80 + c.toNat / 4096 % 64).toUInt8,
      (0x80 + c.toNat / 64 % 64).toUInt8, (0x80 + c.toNat % 64).toUInt8] := by
  rw [encodeChar, if_neg (by omega), if_neg (by omega), if_neg (by omega)]

end Forms

namespace Pending

def two (bits : Nat) : Pending := ⟨1, bits, 0x80, 0xBF⟩

def three (bits : Nat) : Pending := ⟨2, bits, if bits = 0 then 0xA0 else 0x80, if bits = 13 then 0x9F else 0xBF⟩

def four (bits : Nat) : Pending := ⟨3, bits, if bits = 0 then 0x90 else 0x80, if bits = 4 then 0x8F else 0xBF⟩

def after (p : Pending) (b : UInt8) : Pending := ⟨p.owed - 1, p.value * 64 + (b.toNat - 0x80), 0x80, 0xBF⟩

inductive Finishes : Pending → Bytes → Char → Prop
  | last (p : Pending) (b : UInt8) (fits : p.low ≤ b ∧ b ≤ p.high) (one : p.owed ≤ 1) :
      Finishes p [b] (Char.ofNat (p.value * 64 + (b.toNat - 0x80)))
  | more (p : Pending) (b : UInt8) (rest : Bytes) (c : Char) (fits : p.low ≤ b ∧ b ≤ p.high) (several : ¬ p.owed ≤ 1)
      (finishes : Finishes (p.after b) rest c) : Finishes p (b :: rest) c

end Pending

section Lead

theorem lead_one (c : Char) (low : c.toNat < 0x80) : lead c.toNat.toUInt8 = .char c := by
  have less : c.toNat.toUInt8 < 0x80 := by
    rw [UInt8.lt_iff_toNat_lt, UInt8.toNat_ofNat_of_lt' (show _ < 256 by omega)]
    exact low
  rw [lead, if_pos less, UInt8.toNat_ofNat_of_lt' (show _ < 256 by omega), Char.ofNat_toNat]

theorem lead_two {bits : Nat} (low : 2 ≤ bits) (high : bits < 32) :
    lead (0xC0 + bits).toUInt8 = .pending (.two bits) := by
  interval_cases bits <;> rfl

theorem lead_three {bits : Nat} (high : bits < 16) : lead (0xE0 + bits).toUInt8 = .pending (.three bits) := by
  interval_cases bits <;> rfl

theorem lead_four {bits : Nat} (high : bits < 5) : lead (0xF0 + bits).toUInt8 = .pending (.four bits) := by
  interval_cases bits <;> rfl

theorem lead_char {b : UInt8} {c : Char} (led : lead b = .char c) : encodeChar c = [b] := by
  unfold lead at led
  split at led
  · rename_i less
    rw [UInt8.lt_iff_toNat_lt] at less
    cases led
    have value : (Char.ofNat b.toNat).toNat = b.toNat := char_value (.inl (Nat.lt_trans less (by decide)))
    rw [encode_one (by rw [value]; exact less), value, value_byte b rfl]
  · split_ifs at led

theorem lead_bounds {b : UInt8} {p : Pending} (led : lead b = .pending p) : 0xC2 ≤ b.toNat ∧ b.toNat < 0xF5 := by
  simp only [lead, UInt8.lt_iff_toNat_lt, ← UInt8.toNat_inj, UInt8.reduceToNat] at led
  by_cases one : b.toNat < 0x80
  · rw [if_pos one] at led
    cases led
  by_cases low : b.toNat < 0xC2
  · rw [if_neg one, if_pos low] at led
    cases led
  by_cases high : b.toNat < 0xF5
  · exact ⟨Nat.le_of_not_lt low, high⟩
  · rw [if_neg one, if_neg low, if_neg (by omega), if_neg (by omega), if_neg (by omega), if_neg (by omega),
      if_neg (by omega), if_neg (by omega), if_neg (by omega)] at led
    cases led

theorem lead_pending {b : UInt8} {p : Pending} (led : lead b = .pending p) :
    (∃ bits, 2 ≤ bits ∧ bits < 32 ∧ b = (0xC0 + bits).toUInt8 ∧ p = .two bits) ∨
    (∃ bits, bits < 16 ∧ b = (0xE0 + bits).toUInt8 ∧ p = .three bits) ∨
    ∃ bits, bits < 5 ∧ b = (0xF0 + bits).toUInt8 ∧ p = .four bits := by
  have bounds := lead_bounds led
  by_cases two : b.toNat < 0xE0
  · have same : b = (0xC0 + (b.toNat - 0xC0)).toUInt8 := (value_byte b (by omega)).symm
    rw [same, lead_two (by omega) (by omega)] at led
    exact .inl ⟨_, by omega, by omega, same, (Lead.pending.inj led).symm⟩
  by_cases three : b.toNat < 0xF0
  · have same : b = (0xE0 + (b.toNat - 0xE0)).toUInt8 := (value_byte b (by omega)).symm
    rw [same, lead_three (by omega)] at led
    exact .inr (.inl ⟨_, by omega, same, (Lead.pending.inj led).symm⟩)
  · have same : b = (0xF0 + (b.toNat - 0xF0)).toUInt8 := (value_byte b (by omega)).symm
    rw [same, lead_four (by omega)] at led
    exact .inr (.inr ⟨_, by omega, same, (Lead.pending.inj led).symm⟩)

end Lead

namespace Pending

variable {bits : Nat} {b : UInt8} {rest : Bytes} {c : Char}

theorem after_fits {p : Pending} {first : UInt8} :
    (p.after first).low ≤ b ∧ b ≤ (p.after first).high ↔ 0x80 ≤ b.toNat ∧ b.toNat ≤ 0xBF := by
  rw [UInt8.le_iff_toNat_le, UInt8.le_iff_toNat_le]
  rfl

theorem two_fits : (two bits).low ≤ b ∧ b ≤ (two bits).high ↔ 0x80 ≤ b.toNat ∧ b.toNat ≤ 0xBF := by
  rw [UInt8.le_iff_toNat_le, UInt8.le_iff_toNat_le]
  rfl

theorem three_fits : (three bits).low ≤ b ∧ b ≤ (three bits).high ↔
    0x80 ≤ b.toNat ∧ b.toNat ≤ 0xBF ∧ (bits = 0 → 0xA0 ≤ b.toNat) ∧ (bits = 13 → b.toNat ≤ 0x9F) := by
  simp only [three, UInt8.le_iff_toNat_le]
  split_ifs <;> simp only [UInt8.reduceToNat] <;> omega

theorem four_fits : (four bits).low ≤ b ∧ b ≤ (four bits).high ↔
    0x80 ≤ b.toNat ∧ b.toNat ≤ 0xBF ∧ (bits = 0 → 0x90 ≤ b.toNat) ∧ (bits = 4 → b.toNat ≤ 0x8F) := by
  simp only [four, UInt8.le_iff_toNat_le]
  split_ifs <;> simp only [UInt8.reduceToNat] <;> omega

theorem finishes_one (p : Pending) (one : p.owed = 1) : p.Finishes rest c ↔
    ∃ b, rest = [b] ∧ (p.low ≤ b ∧ b ≤ p.high) ∧ c = Char.ofNat (p.value * 64 + (b.toNat - 0x80)) := by
  constructor
  · intro finishes
    cases finishes with
    | last _ b fits _ => exact ⟨b, rfl, fits, rfl⟩
    | more _ _ _ _ _ several _ => omega
  · rintro ⟨b, rfl, fits, same⟩
    rw [same]
    exact .last p b fits (by omega)

theorem finishes_more (p : Pending) (several : 1 < p.owed) : p.Finishes rest c ↔
    ∃ b others, rest = b :: others ∧ (p.low ≤ b ∧ b ≤ p.high) ∧ (p.after b).Finishes others c := by
  constructor
  · intro finishes
    cases finishes with
    | last _ _ _ one => omega
    | more _ b others _ fits _ finishes => exact ⟨b, others, rfl, fits, finishes⟩
  · rintro ⟨b, others, rfl, fits, finishes⟩
    exact .more p b others c fits (by omega) finishes

theorem two_finished (low : 2 ≤ bits) (high : bits < 32) (finishes : (two bits).Finishes rest c) :
    encodeChar c = (0xC0 + bits).toUInt8 :: rest := by
  obtain ⟨x, rfl, fits, same⟩ := ((two bits).finishes_one rfl).mp finishes
  rw [two_fits] at fits
  rw [same]
  simp only [two]
  generalize number : bits * 64 + (x.toNat - 0x80) = n
  have value : (Char.ofNat n).toNat = n := char_value (.inl (by omega))
  have first : n / 64 = bits := by omega
  have second : (0x80 + n % 64).toUInt8 = x := value_byte x (by omega)
  rw [encode_two (by omega) (by omega), value, first, second]

theorem three_finished (high : bits < 16) (finishes : (three bits).Finishes rest c) :
    encodeChar c = (0xE0 + bits).toUInt8 :: rest := by
  obtain ⟨x, others, rfl, fits, finishes⟩ := ((three bits).finishes_more (by simp [three])).mp finishes
  obtain ⟨y, rfl, following, same⟩ := (((three bits).after x).finishes_one rfl).mp finishes
  rw [three_fits] at fits
  rw [after_fits] at following
  rw [same]
  simp only [after, three]
  generalize number : (bits * 64 + (x.toNat - 0x80)) * 64 + (y.toNat - 0x80) = n
  have value : (Char.ofNat n).toNat = n := char_value (by unfold Nat.isValidChar; omega)
  have first : n / 4096 = bits := by omega
  have second : (0x80 + n / 64 % 64).toUInt8 = x := value_byte x (by omega)
  have third : (0x80 + n % 64).toUInt8 = y := value_byte y (by omega)
  rw [encode_three (by omega) (by omega), threeBytes, value, first, second, third]

theorem four_finished (high : bits < 5) (finishes : (four bits).Finishes rest c) :
    encodeChar c = (0xF0 + bits).toUInt8 :: rest := by
  obtain ⟨x, others, rfl, fits, finishes⟩ := ((four bits).finishes_more (by simp [four])).mp finishes
  obtain ⟨y, others, rfl, following, finishes⟩ :=
    (((four bits).after x).finishes_more (by simp [after, four])).mp finishes
  obtain ⟨z, rfl, last, same⟩ := ((((four bits).after x).after y).finishes_one rfl).mp finishes
  rw [four_fits] at fits
  rw [after_fits] at following last
  rw [same]
  simp only [after, four]
  generalize number : ((bits * 64 + (x.toNat - 0x80)) * 64 + (y.toNat - 0x80)) * 64 + (z.toNat - 0x80) = n
  have value : (Char.ofNat n).toNat = n := char_value (.inr (by omega))
  have first : n / 262144 = bits := by omega
  have second : (0x80 + n / 4096 % 64).toUInt8 = x := value_byte x (by omega)
  have third : (0x80 + n / 64 % 64).toUInt8 = y := value_byte y (by omega)
  have fourth : (0x80 + n % 64).toUInt8 = z := value_byte z (by omega)
  rw [encode_four (by omega), value, first, second, third, fourth]

theorem lead_finished {p : Pending} (led : lead b = .pending p) (finishes : p.Finishes rest c) :
    encodeChar c = b :: rest := by
  rcases lead_pending led with ⟨bits, low, high, rfl, rfl⟩ | ⟨bits, high, rfl, rfl⟩ | ⟨bits, high, rfl, rfl⟩
  · exact two_finished low high finishes
  · exact three_finished high finishes
  · exact four_finished high finishes

theorem finishes_two (c : Char) :
    (two (c.toNat / 64)).Finishes [(0x80 + c.toNat % 64).toUInt8] c := by
  have second := tail_value c.toNat
  refine (finishes_one _ rfl).mpr ⟨_, rfl, two_fits.mpr (by omega), ?_⟩
  rw [second, two, show c.toNat / 64 * 64 + (0x80 + c.toNat % 64 - 0x80) = c.toNat by omega, Char.ofNat_toNat]

theorem finishes_three (low : 0x800 ≤ c.toNat) (high : c.toNat < 0x10000) :
    (three (c.toNat / 4096)).Finishes [(0x80 + c.toNat / 64 % 64).toUInt8, (0x80 + c.toNat % 64).toUInt8] c := by
  have bounds : c.toNat < 0xD800 ∨ 0xDFFF < c.toNat ∧ c.toNat < 0x110000 := c.valid
  have second := tail_value (c.toNat / 64)
  have third := tail_value c.toNat
  refine (finishes_more _ (by simp [three])).mpr ⟨_, _, rfl, three_fits.mpr (by omega), ?_⟩
  refine (finishes_one _ rfl).mpr ⟨_, rfl, after_fits.mpr (by omega), ?_⟩
  have number : (c.toNat / 4096 * 64 + (0x80 + c.toNat / 64 % 64 - 0x80)) * 64 + (0x80 + c.toNat % 64 - 0x80) =
      c.toNat := by omega
  rw [after, three, second, third, number, Char.ofNat_toNat]

theorem finishes_four (low : 0x10000 ≤ c.toNat) :
    (four (c.toNat / 262144)).Finishes [(0x80 + c.toNat / 4096 % 64).toUInt8, (0x80 + c.toNat / 64 % 64).toUInt8,
      (0x80 + c.toNat % 64).toUInt8] c := by
  have bounds : c.toNat < 0xD800 ∨ 0xDFFF < c.toNat ∧ c.toNat < 0x110000 := c.valid
  have second := tail_value (c.toNat / 4096)
  have third := tail_value (c.toNat / 64)
  have fourth := tail_value c.toNat
  refine (finishes_more _ (by simp [four])).mpr ⟨_, _, rfl, four_fits.mpr (by omega), ?_⟩
  refine (finishes_more _ (by simp [after, four])).mpr ⟨_, _, rfl, after_fits.mpr (by omega), ?_⟩
  refine (finishes_one _ rfl).mpr ⟨_, rfl, after_fits.mpr (by omega), ?_⟩
  have number : ((c.toNat / 262144 * 64 + (0x80 + c.toNat / 4096 % 64 - 0x80)) * 64 +
      (0x80 + c.toNat / 64 % 64 - 0x80)) * 64 + (0x80 + c.toNat % 64 - 0x80) = c.toNat := by omega
  simp only [after, four, second, third, fourth, number, Char.ofNat_toNat]

end Pending

theorem encode_char_forms (c : Char) : (∃ b, encodeChar c = [b] ∧ lead b = .char c) ∨
    ∃ b rest p, encodeChar c = b :: rest ∧ lead b = .pending p ∧ p.Finishes rest c := by
  have bounds : c.toNat < 0xD800 ∨ 0xDFFF < c.toNat ∧ c.toNat < 0x110000 := c.valid
  by_cases one : c.toNat < 0x80
  · exact .inl ⟨_, encode_one one, lead_one c one⟩
  right
  by_cases two : c.toNat < 0x800
  · exact ⟨_, _, _, encode_two (by omega) two, lead_two (by omega) (by omega), Pending.finishes_two c⟩
  by_cases three : c.toNat < 0x10000
  · exact ⟨_, _, _, encode_three (by omega) three, lead_three (by omega), Pending.finishes_three (by omega) three⟩
  · exact ⟨_, _, _, encode_four (by omega), lead_four (by omega), Pending.finishes_four (by omega)⟩

namespace Machine

variable {m : Machine} {bytes : Bytes}

theorem step_fits {p : Pending} {b : UInt8} (done : List (Option Char)) (fits : p.low ≤ b ∧ b ≤ p.high) :
    step ⟨done, some p⟩ b = if p.owed ≤ 1 then ⟨some (Char.ofNat (p.value * 64 + (b.toNat - 0x80))) :: done, none⟩
      else ⟨done, some (p.after b)⟩ := if_pos fits

theorem run_finishes {p : Pending} {rest : Bytes} {c : Char} (finishes : p.Finishes rest c) (done : List (Option Char)) :
    rest.foldl step ⟨done, some p⟩ = ⟨some c :: done, none⟩ := by
  induction finishes with
  | last p b fits one => rw [List.foldl_cons, List.foldl_nil, step_fits done fits, if_pos one]
  | more p b rest c fits several _ ih => rw [List.foldl_cons, step_fits done fits, if_neg several, ih]

theorem run_char (c : Char) (done : List (Option Char)) :
    (encodeChar c).foldl step ⟨done, none⟩ = ⟨some c :: done, none⟩ := by
  rcases encode_char_forms c with ⟨b, same, led⟩ | ⟨b, rest, p, same, led, finishes⟩
  · rw [same]
    simp only [List.foldl_cons, List.foldl_nil, step, start, led]
  · have first : step ⟨done, none⟩ b = ⟨done, some p⟩ := by simp only [step, start, led]
    rw [same, List.foldl_cons, first, run_finishes finishes]

theorem run_text (text : List Char) (done : List (Option Char)) :
    (text.flatMap encodeChar).foldl step ⟨done, none⟩ = ⟨(text.map some).reverse ++ done, none⟩ := by
  induction text generalizing done with
  | nil => rfl
  | cons c rest ih =>
      rw [List.flatMap_cons, List.foldl_append, run_char, ih]
      simp

inductive Holds : Machine → Bytes → Prop
  | between (text : List Char) : Holds ⟨(text.map some).reverse, none⟩ (text.flatMap encodeChar)
  | within (text : List Char) (begun : Bytes) (p : Pending)
      (finished : ∀ rest c, p.Finishes rest c → encodeChar c = begun ++ rest) :
      Holds ⟨(text.map some).reverse, some p⟩ (text.flatMap encodeChar ++ begun)

theorem Holds.read {text : List Char} {c : Char} {begun : Bytes} (same : encodeChar c = begun) :
    Holds ⟨some c :: (text.map some).reverse, none⟩ (text.flatMap encodeChar ++ begun) := by
  have snoc := Holds.between (text ++ [c])
  rw [List.map_append, List.reverse_append, List.flatMap_append, List.flatMap_singleton, same] at snoc
  exact snoc

theorem start_keeps (done : List (Option Char)) (b : UInt8) (one : Option Char) (member : one ∈ done) :
    one ∈ (start done b).done := by
  unfold start
  split <;> simp [member]

theorem step_keeps (m : Machine) (b : UInt8) (one : Option Char) (member : one ∈ m.done) : one ∈ (m.step b).done := by
  unfold step
  split
  · exact start_keeps m.done b one member
  · split_ifs
    · exact List.mem_cons_of_mem _ member
    · exact member
    · exact start_keeps _ b one (List.mem_cons_of_mem _ member)

theorem run_keeps (bytes : Bytes) (m : Machine) (one : Option Char) (member : one ∈ m.done) :
    one ∈ (bytes.foldl step m).done := by
  induction bytes generalizing m with
  | nil => exact member
  | cons b rest ih => exact ih (m.step b) (step_keeps m b one member)

theorem Holds.step (holds : m.Holds bytes) (b : UInt8) (sound : none ∉ (m.step b).done) :
    (m.step b).Holds (bytes ++ [b]) := by
  cases holds with
  | between text =>
      unfold Machine.step at sound ⊢
      dsimp only at sound ⊢
      unfold start at sound ⊢
      cases led : lead b with
      | char c => exact .read (lead_char led)
      | pending p => exact .within text [b] p fun rest c finishes => Pending.lead_finished led finishes
      | invalid => simp [led] at sound
  | within text begun p finished =>
      by_cases fits : p.low ≤ b ∧ b ≤ p.high
      · rw [step_fits _ fits, List.append_assoc]
        split_ifs with one
        · exact .read (finished [b] _ (.last p b fits one))
        · refine .within text (begun ++ [b]) (p.after b) fun rest c finishes => ?_
          rw [finished (b :: rest) c (.more p b rest c fits one finishes)]
          simp
      · refine absurd ?_ sound
        unfold Machine.step
        simp only [fits, if_false]
        exact start_keeps _ b none (.head _)

theorem Holds.run (holds : m.Holds bytes) (more : Bytes) (sound : none ∉ (more.foldl Machine.step m).done) :
    (more.foldl Machine.step m).Holds (bytes ++ more) := by
  induction more generalizing m bytes with
  | nil => rwa [List.append_nil]
  | cons b rest ih =>
      have first : none ∉ (m.step b).done := fun member => sound (run_keeps rest (m.step b) none member)
      have whole := ih (holds.step b first) sound
      rwa [List.append_assoc] at whole

end Machine

theorem characters_encoded (text : List Char) : characters (text.flatMap encodeChar) = text.map some := by
  rw [characters, Machine.run_text]
  simp [Machine.finish]

theorem characters_sound {bytes : Bytes} (sound : none ∉ characters bytes) :
    ∃ text : List Char, bytes = text.flatMap encodeChar := by
  unfold characters Machine.finish at sound
  have inside : none ∉ (bytes.foldl Machine.step ⟨[], none⟩).done := by
    intro member
    split at sound <;> simp [member] at sound
  have start : Machine.Holds ⟨[], none⟩ [] := .between []
  have holds := start.run bytes inside
  rw [List.nil_append] at holds
  generalize bytes.foldl Machine.step ⟨[], none⟩ = m at sound holds
  cases holds with
  | between text => exact ⟨text, rfl⟩
  | within text begun p finished => simp at sound

theorem decode_iff (bytes : Bytes) (text : String) : decode? bytes = some text ↔ bytes = encode text := by
  have written (chars : List Char) : decode? (chars.flatMap encodeChar) = some (String.ofList chars) := by
    simp [decode?, characters_encoded]
  constructor
  · intro read
    have sound : none ∉ characters bytes := by
      intro member
      rw [decode?, if_neg] at read
      · cases read
      · rw [List.all_eq_true]
        exact fun all => absurd (all none member) (by decide)
    obtain ⟨chars, rfl⟩ := characters_sound sound
    rw [written] at read
    rw [encode, ← Option.some.inj read, String.toList_ofList]
  · rintro rfl
    rw [encode, written, String.ofList_toList]

end Relabel.Text.Utf8
