import Relabel.Cursor
import Relabel.Proofs.Bytes
import Relabel.Proofs.Steps

set_option autoImplicit false

namespace Relabel

theorem cut_cases {left right part rest : Bytes} (cut : left ++ right = part ++ rest) :
    (∃ inner, part = left ++ inner ∧ right = inner ++ rest) ∨ ∃ missing, missing ≠ [] ∧ left = part ++ missing := by
  obtain behind | ⟨missing, leftEq, restEq⟩ := List.append_eq_append_iff.mp cut
  · exact .inl behind
  · by_cases none : missing = []
    · subst none
      exact .inl ⟨[], by simpa using leftEq.symm, restEq.symm⟩
    · exact .inr ⟨missing, none, leftEq⟩

namespace Cursor

def ahead (pos : Nat) (bytes : Bytes) : Cursor :=
  ⟨pos, pos + bytes.length, bytes, by rw [Nat.add_sub_cancel_left]⟩

theorem eq_of_fields (c d : Cursor) (pos : c.pos = d.pos) (bound : c.bound = d.bound) (rest : c.rest = d.rest) :
    c = d := by
  cases c
  cases d
  cases pos
  cases bound
  cases rest
  rfl

theorem start_at_ahead (data : Bytes) (pos : Nat) (inside : pos ≤ data.length) :
    startAt data pos = ahead pos (data.drop pos) := by
  apply eq_of_fields
  · rfl
  · change data.length = pos + (data.drop pos).length
    rw [List.length_drop]
    omega
  · rfl

theorem start_ahead (data : Bytes) : start data = ahead 0 data := start_at_ahead data 0 (Nat.zero_le _)

theorem ahead_advance (pos length : Nat) (bytes : Bytes) (enough : length ≤ bytes.length) :
    (ahead pos bytes).advance length = ahead (pos + length) (bytes.drop length) := by
  apply eq_of_fields
  · rfl
  · change pos + bytes.length = pos + length + (bytes.drop length).length
    rw [List.length_drop]
    omega
  · rfl

theorem ahead_window (pos length : Nat) (bytes : Bytes) (inside : pos + length ≤ pos + bytes.length) :
    (ahead pos bytes).window length inside = ahead pos (bytes.take length) := by
  apply eq_of_fields
  · rfl
  · change pos + length = pos + (bytes.take length).length
    rw [List.length_take]
    omega
  · rfl

end Cursor

namespace Read

open Cursor (ahead)

variable {α β : Type}

theorem bytes_ahead (length pos : Nat) (bytes : Bytes) (enough : length ≤ bytes.length) :
    Read.bytes length (ahead pos bytes) = .ok (bytes.take length) (ahead (pos + length) (bytes.drop length)) := by
  have inside : (ahead pos bytes).pos + length ≤ (ahead pos bytes).bound := Nat.add_le_add_left enough pos
  rw [Read.bytes, if_pos inside, Cursor.ahead_advance pos length bytes enough]
  rfl

theorem bytes_ahead_short (length pos : Nat) (bytes : Bytes) (short : bytes.length < length) :
    ∃ needed, Read.bytes length (ahead pos bytes) = .error (.truncated pos needed) (ahead pos bytes) := by
  have outside : ¬ (ahead pos bytes).pos + length ≤ (ahead pos bytes).bound := by
    change ¬ pos + length ≤ pos + bytes.length
    omega
  rw [Read.bytes, if_neg outside]
  exact ⟨_, rfl⟩

theorem bytes_inv {length pos : Nat} {bytes taken : Bytes} {c : Cursor}
    (ran : Read.bytes length (ahead pos bytes) = .ok taken c) :
    taken.length = length ∧ ∃ tail, bytes = taken ++ tail ∧ c = ahead (pos + length) tail := by
  by_cases enough : length ≤ bytes.length
  · rw [bytes_ahead length pos bytes enough] at ran
    cases ran
    refine ⟨?_, bytes.drop length, (List.take_append_drop length bytes).symm, rfl⟩
    rw [List.length_take]
    omega
  · obtain ⟨needed, failed⟩ := bytes_ahead_short length pos bytes (by omega)
    rw [failed] at ran
    cases ran

/-- Where these bytes come first, the step takes them, gives the value and looks at nothing else.
Where they are cut off, it ends for want of bytes. -/
structure Takes (act : Read α) (pos : Nat) (bytes : Bytes) (a : α) : Prop where
  passes : ∀ tail, act (ahead pos (bytes ++ tail)) = .ok a (ahead (pos + bytes.length) tail)
  starves : ∀ part rest, bytes = part ++ rest → rest ≠ [] →
    ∃ offset needed c, act (ahead pos part) = .error (.truncated offset needed) c

def Exact (act : Read α) : Prop :=
  ∀ pos bytes a c, act (ahead pos bytes) = .ok a c →
    ∃ taken tail, bytes = taken ++ tail ∧ c = ahead (pos + taken.length) tail ∧ Takes act pos taken a

theorem takes_pure (pos : Nat) (a : α) : Takes (pure a) pos [] a where
  passes _ := rfl
  starves part rest cut more := by
    have empty := List.append_eq_nil_iff.mp cut.symm
    exact absurd empty.2 more

theorem takes_position (pos : Nat) : Takes position pos [] pos where
  passes _ := rfl
  starves part rest cut more := by
    have empty := List.append_eq_nil_iff.mp cut.symm
    exact absurd empty.2 more

theorem takes_bytes (pos : Nat) (taken : Bytes) : Takes (Read.bytes taken.length) pos taken taken where
  passes tail := by
    rw [bytes_ahead _ pos _ (by simp)]
    simp
  starves part rest cut more := by
    have missing : 0 < rest.length := List.length_pos_iff.mpr more
    have short : part.length < taken.length := by
      rw [cut, List.length_append]
      omega
    obtain ⟨needed, failed⟩ := bytes_ahead_short taken.length pos part short
    exact ⟨pos, needed, ahead pos part, failed⟩

theorem takes_bind {x : Read α} {f : α → Read β} {pos : Nat} {left right : Bytes} {a : α} {b : β}
    (first : Takes x pos left a) (second : Takes (f a) (pos + left.length) right b) :
    Takes (x >>= f) pos (left ++ right) b where
  passes tail := by
    rw [List.append_assoc, bind_ok (first.passes (right ++ tail)), second.passes tail, List.length_append,
      Nat.add_assoc]
  starves part rest cut more := by
    obtain ⟨inner, rfl, rightEq⟩ | ⟨missing, some, leftEq⟩ := cut_cases cut
    · rw [bind_ok (first.passes inner)]
      exact second.starves inner rest rightEq more
    · obtain ⟨offset, needed, c, failed⟩ := first.starves part missing leftEq some
      exact ⟨offset, needed, c, bind_error failed⟩

theorem takes_after {x : Read α} {f : α → Read β} {pos : Nat} {bytes : Bytes} {a : α} {b : β}
    (first : Takes x pos [] a) (second : Takes (f a) pos bytes b) : Takes (x >>= f) pos bytes b :=
  takes_bind first second

theorem exact_pure (a : α) : Exact (pure a : Read α) := by
  intro pos bytes b c ran
  cases ran
  exact ⟨[], bytes, rfl, rfl, takes_pure pos a⟩

theorem exact_bytes (length : Nat) : Exact (Read.bytes length) := by
  intro pos bytes taken c ran
  obtain ⟨size, tail, split, stop⟩ := bytes_inv ran
  subst size
  exact ⟨taken, tail, split, stop, takes_bytes pos taken⟩

theorem exact_bind {x : Read α} {f : α → Read β} (first : Exact x) (second : ∀ a, Exact (f a)) :
    Exact (x >>= f) := by
  intro pos bytes b c ran
  obtain ⟨a, middle, ranFirst, ranSecond⟩ := bind_ok_inv ran
  obtain ⟨left, rest, rfl, rfl, takesLeft⟩ := first pos bytes a middle ranFirst
  obtain ⟨right, tail, rfl, rfl, takesRight⟩ := second a _ rest b c ranSecond
  refine ⟨left ++ right, tail, (List.append_assoc left right tail).symm, ?_, takes_bind takesLeft takesRight⟩
  rw [List.length_append, Nat.add_assoc]

theorem exact_times (n : Nat) {act : Read Unit} (one : Exact act) : Exact (times n act) := by
  induction n with
  | zero => exact exact_pure ()
  | succ n ih =>
      rw [times_succ]
      exact exact_bind one fun _ => ih

theorem exact_skip (length : Nat) : Exact (skip length) := exact_bind (exact_bytes length) fun _ => exact_pure ()
theorem exact_u16 : Exact u16 := exact_bind (exact_bytes 2) fun _ => exact_pure _
theorem exact_u32 : Exact u32 := exact_bind (exact_bytes 4) fun _ => exact_pure _
theorem exact_index : Exact index := exact_bind exact_u16 fun _ => exact_pure _

theorem exact_skip_attributes : Exact skipAttributes := by
  apply exact_bind exact_index
  intro count
  apply exact_times
  apply exact_bind exact_u16
  intro name
  apply exact_bind exact_u32
  intro length
  exact exact_skip length.toNat

theorem takes_map {x : Read α} {pos : Nat} {bytes : Bytes} {a : α} (takes : Takes x pos bytes a) (g : α → β) :
    Takes (do return g (← x)) pos bytes (g a) := by
  have whole : Takes (do return g (← x)) pos (bytes ++ []) (g a) := takes_bind takes (takes_pure _ (g a))
  rwa [List.append_nil] at whole

theorem takes_u8 (pos : Nat) (value : UInt8) : Takes u8 pos [value] value := by
  have back : (BigEndian.decode [value]).toUInt8 = value := by
    simp [BigEndian.decode]
  have whole := takes_map (takes_bytes pos [value]) fun bytes => (BigEndian.decode bytes).toUInt8
  rwa [back] at whole

theorem takes_u16 (pos : Nat) (value : UInt16) : Takes u16 pos (word16 value) value := by
  have whole := takes_map (takes_bytes pos (word16 value)) fun bytes => (BigEndian.decode bytes).toUInt16
  rwa [decode_word16, word16_length] at whole

theorem takes_u32 (pos : Nat) (value : UInt32) : Takes u32 pos (word32 value) value := by
  have whole := takes_map (takes_bytes pos (word32 value)) fun bytes => (BigEndian.decode bytes).toUInt32
  rwa [decode_word32, word32_length] at whole

theorem takes_u64 (pos : Nat) (value : UInt64) : Takes u64 pos (word64 value) value := by
  have whole := takes_map (takes_bytes pos (word64 value)) fun bytes => (BigEndian.decode bytes).toUInt64
  rwa [decode_word64, word64_length] at whole

theorem takes_skip (pos : Nat) (bytes : Bytes) : Takes (skip bytes.length) pos bytes () :=
  takes_map (takes_bytes pos bytes) fun _ => ()

theorem takes_index (pos : Nat) (value : UInt16) : Takes index pos (word16 value) value.toNat :=
  takes_map (takes_u16 pos value) UInt16.toNat

theorem u8_inv {pos : Nat} {bytes : Bytes} {value : UInt8} {c : Cursor} (ran : u8 (ahead pos bytes) = .ok value c) :
    ∃ tail, bytes = value :: tail ∧ c = ahead (pos + 1) tail := by
  obtain ⟨taken, ranBytes, rfl⟩ := map_ok_inv ran
  obtain ⟨size, tail, rfl, rfl⟩ := bytes_inv ranBytes
  obtain ⟨byte, rfl⟩ := List.length_eq_one_iff.mp size
  exact ⟨tail, by simp [BigEndian.decode], rfl⟩

theorem u16_inv {pos : Nat} {bytes : Bytes} {value : UInt16} {c : Cursor}
    (ran : u16 (ahead pos bytes) = .ok value c) : ∃ tail, bytes = word16 value ++ tail ∧ c = ahead (pos + 2) tail := by
  obtain ⟨taken, ranBytes, rfl⟩ := map_ok_inv ran
  obtain ⟨size, tail, rfl, rfl⟩ := bytes_inv ranBytes
  exact ⟨tail, by rw [word16_decode taken size], rfl⟩

theorem u32_inv {pos : Nat} {bytes : Bytes} {value : UInt32} {c : Cursor}
    (ran : u32 (ahead pos bytes) = .ok value c) : ∃ tail, bytes = word32 value ++ tail ∧ c = ahead (pos + 4) tail := by
  obtain ⟨taken, ranBytes, rfl⟩ := map_ok_inv ran
  obtain ⟨size, tail, rfl, rfl⟩ := bytes_inv ranBytes
  exact ⟨tail, by rw [word32_decode taken size], rfl⟩

theorem u64_inv {pos : Nat} {bytes : Bytes} {value : UInt64} {c : Cursor}
    (ran : u64 (ahead pos bytes) = .ok value c) : ∃ tail, bytes = word64 value ++ tail ∧ c = ahead (pos + 8) tail := by
  obtain ⟨taken, ranBytes, rfl⟩ := map_ok_inv ran
  obtain ⟨size, tail, rfl, rfl⟩ := bytes_inv ranBytes
  exact ⟨tail, by rw [word64_decode taken size], rfl⟩

end Read

end Relabel
