import Relabel.Proofs.Reading

set_option autoImplicit false

namespace Relabel

namespace Cursor

def slice (data : Bytes) (pos length : Nat) : Bytes := (data.drop pos).take length

structure In (data : Bytes) (c : Cursor) : Prop where
  bound : c.bound ≤ data.length
  rest : c.rest = (data.take c.bound).drop c.pos

section

variable {data : Bytes} {c : Cursor} {length : Nat}

theorem start_in (data : Bytes) (pos : Nat) : (startAt data pos).In data where
  bound := Nat.le_refl _
  rest := by
    change data.drop pos = (data.take data.length).drop pos
    rw [List.take_length]

theorem take_rest (inData : c.In data) (inside : c.pos + length ≤ c.bound) :
    c.rest.take length = slice data c.pos length := by
  rw [inData.rest, List.drop_take, List.take_take, slice, Nat.min_eq_left (by omega)]

theorem bytes_inside (inData : c.In data) (inside : c.pos + length ≤ c.bound) :
    Read.bytes length c = .ok (slice data c.pos length) (c.advance length) := by
  rw [Read.bytes, if_pos inside, take_rest inData inside]

theorem slice_length (inData : c.In data) (inside : c.pos + length ≤ c.bound) :
    (slice data c.pos length).length = length := by
  have enough := inData.bound
  rw [slice, List.length_take, List.length_drop]
  omega

theorem advance_in (inData : c.In data) : (c.advance length).In data where
  bound := inData.bound
  rest := by
    change c.rest.drop length = (data.take c.bound).drop (c.pos + length)
    rw [inData.rest, List.drop_drop]

theorem window_in (inData : c.In data) (inside : c.pos + length ≤ c.bound) : (c.window length inside).In data where
  bound := Nat.le_trans inside inData.bound
  rest := by
    change c.rest.take length = (data.take (c.pos + length)).drop c.pos
    rw [take_rest inData inside, slice, List.drop_take, Nat.add_sub_cancel_left]

theorem eq_start_at (inData : c.In data) : c = startAt (data.take c.bound) c.pos := by
  apply eq_of_fields
  · rfl
  · change c.bound = (data.take c.bound).length
    rw [List.length_take, Nat.min_eq_left inData.bound]
  · exact inData.rest

end

inductive Request where
  | u8
  | u16
  | u32
  | bytes (length : Nat)
  | skip (length : Nat)
  | split (length : Nat)

inductive Answer where
  | u8 (value : UInt8)
  | u16 (value : UInt16)
  | u32 (value : UInt32)
  | bytes (taken : Bytes)
  | skipped
  | child (c : Cursor)

namespace Request

def length : Request → Nat
  | .u8 => 1
  | .u16 => 2
  | .u32 => 4
  | .bytes length | .skip length | .split length => length

def run : Request → Read Answer
  | .u8 => do return .u8 (← Read.u8)
  | .u16 => do return .u16 (← Read.u16)
  | .u32 => do return .u32 (← Read.u32)
  | .bytes length => do return .bytes (← Read.bytes length)
  | .skip length => do
      Read.skip length
      return .skipped
  | .split length => do return .child (← Read.split length)

def Tells (data : Bytes) (pos : Nat) : Request → Answer → Prop
  | .u8, .u8 value => [value] = slice data pos 1
  | .u16, .u16 value => word16 value = slice data pos 2
  | .u32, .u32 value => word32 value = slice data pos 4
  | .bytes length, .bytes taken => taken = slice data pos length
  | .skip _, .skipped => True
  | .split length, .child c => c = startAt (data.take (pos + length)) pos
  | _, _ => False

variable {c : Cursor} {request : Request}

theorem run_outside (outside : ¬ c.pos + request.length ≤ c.bound) :
    request.run c = .error (c.shortfall request.length) c := by
  have short : ∀ length, ¬ c.pos + length ≤ c.bound → Read.bytes length c = .error (c.shortfall length) c :=
    fun _ beyond => if_neg beyond
  cases request with
  | u8 => exact bind_error (bind_error (short 1 outside))
  | u16 => exact bind_error (bind_error (short 2 outside))
  | u32 => exact bind_error (bind_error (short 4 outside))
  | bytes length => exact bind_error (short length outside)
  | skip length => exact bind_error (bind_error (short length outside))
  | split length => exact bind_error (dif_neg outside)

theorem run_inside {data : Bytes} (inData : c.In data) (inside : c.pos + request.length ≤ c.bound) :
    ∃ answer, request.run c = .ok answer (c.advance request.length) ∧ request.Tells data c.pos answer := by
  have taken := bytes_inside inData inside
  have size := slice_length inData inside
  cases request with
  | u8 =>
      obtain ⟨byte, single⟩ := List.length_eq_one_iff.mp size
      have back : [(BigEndian.decode (slice data c.pos 1)).toUInt8] = slice data c.pos 1 := by
        change slice data c.pos 1 = _ at single
        rw [single]
        simp [BigEndian.decode]
      exact ⟨_, bind_ok (bind_ok taken), back⟩
  | u16 => exact ⟨_, bind_ok (bind_ok taken), word16_decode _ size⟩
  | u32 => exact ⟨_, bind_ok (bind_ok taken), word32_decode _ size⟩
  | bytes length => exact ⟨_, bind_ok taken, rfl⟩
  | skip length => exact ⟨_, bind_ok (bind_ok taken), trivial⟩
  | split length => exact ⟨_, bind_ok (dif_pos inside), eq_start_at (window_in inData inside)⟩

theorem answered_inv {data : Bytes} {answer : Answer} {next : Cursor} (inData : c.In data)
    (ran : request.run c = .ok answer next) : c.pos + request.length ≤ c.bound ∧ next = c.advance request.length := by
  by_cases inside : c.pos + request.length ≤ c.bound
  · obtain ⟨_, passed, _⟩ := run_inside inData inside
    rw [passed] at ran
    cases ran
    exact ⟨inside, rfl⟩
  · rw [run_outside inside] at ran
    cases ran

theorem refused_inv {data : Bytes} {fault : Fault} {next : Cursor} (inData : c.In data)
    (ran : request.run c = .error fault next) : next = c := by
  by_cases inside : c.pos + request.length ≤ c.bound
  · obtain ⟨_, passed, _⟩ := run_inside inData inside
    rw [passed] at ran
    cases ran
  · rw [run_outside inside] at ran
    cases ran
    rfl

theorem split_inv {length : Nat} {child next : Cursor} (ran : Read.split length c = .ok child next) :
    ∃ inside : c.pos + length ≤ c.bound, child = c.window length inside ∧ next = c.advance length := by
  by_cases inside : c.pos + length ≤ c.bound
  · rw [Read.split, dif_pos inside] at ran
    cases ran
    exact ⟨inside, rfl, rfl⟩
  · rw [Read.split, dif_neg inside] at ran
    cases ran

end Request

/-- A cursor, all that it is after requests that it answers or refuses, and all that is split off on
the way and used in turn. -/
inductive Leads (c : Cursor) : Cursor → Prop where
  | here : Leads c c
  | answered {d next : Cursor} {request : Request} {answer : Answer} (before : Leads c d)
      (ran : request.run d = .ok answer next) : Leads c next
  | refused {d next : Cursor} {request : Request} {fault : Fault} (before : Leads c d)
      (ran : request.run d = .error fault next) : Leads c next
  | child {d child next : Cursor} {length : Nat} (before : Leads c d) (ran : Read.split length d = .ok child next) :
      Leads c child

structure Under (data : Bytes) (c d : Cursor) : Prop where
  inData : d.In data
  pos : c.pos ≤ d.pos
  bound : d.bound ≤ c.bound
  ordered : d.pos ≤ d.bound ∨ d = c

theorem leads_under {data : Bytes} {c d : Cursor} (inData : c.In data) (leads : Leads c d) : Under data c d := by
  induction leads with
  | here => exact ⟨inData, Nat.le_refl _, Nat.le_refl _, .inr rfl⟩
  | answered _ ran ih =>
      obtain ⟨inside, rfl⟩ := Request.answered_inv ih.inData ran
      exact ⟨advance_in ih.inData, Nat.le_trans ih.pos (Nat.le_add_right _ _), ih.bound, .inl inside⟩
  | refused _ ran ih => exact Request.refused_inv ih.inData ran ▸ ih
  | child _ ran ih =>
      obtain ⟨inside, rfl, _⟩ := Request.split_inv ran
      exact ⟨window_in ih.inData inside, ih.pos, Nat.le_trans inside ih.bound, .inl (Nat.le_add_right _ _)⟩

theorem checked_sum {c : Cursor} {pos bound : UInt64} (length : UInt64) (here : pos.toNat = c.pos)
    (stop : bound.toNat = c.bound) : c.pos + length.toNat ≤ c.bound ↔ pos ≤ pos + length ∧ pos + length ≤ bound := by
  -- In words of 64 bits a sum that wraps around is less than its parts.
  rw [UInt64.le_iff_toNat_le, UInt64.le_iff_toNat_le, UInt64.toNat_add]
  have small := pos.toNat_lt
  have short := length.toNat_lt
  have bounded := bound.toNat_lt
  omega

end Cursor

namespace Read

def oneAttribute : Read (UInt16 × Bytes) := do
  let name ← u16
  let length ← u32
  return (name, ← bytes length.toNat)

def attributeTable : Read (List (UInt16 × Bytes)) := do
  let count ← index
  collect count oneAttribute

theorem times_collect {α : Type} (n : Nat) (act : Read α) (done : List α) :
    times n (do let _ ← act) = (do let _ ← collectOnto done n act) := by
  induction n generalizing done with
  | zero => rfl
  | succ n ih =>
      rw [times_succ, collect_onto_succ, bind_assoc, bind_assoc]
      refine bind_congr fun a => ?_
      rw [pure_bind, ih (a :: done)]

theorem skip_attribute_read : skipAttribute = (do let _ ← oneAttribute) := by
  simp only [skipAttribute, oneAttribute, skip, bind_assoc, pure_bind]

theorem skip_attributes_read : skipAttributes = (do let _ ← attributeTable) := by
  rw [skipAttributes, attributeTable, bind_assoc, skip_attribute_read]
  exact bind_congr fun count => times_collect count oneAttribute []

theorem skip_attributes_iff (c next : Cursor) :
    skipAttributes c = .ok () next ↔ ∃ table, attributeTable c = .ok table next := by
  rw [skip_attributes_read]
  constructor
  · intro ran
    obtain ⟨table, read, _⟩ := map_ok_inv (g := fun _ => ()) ran
    exact ⟨table, read⟩
  · rintro ⟨table, read⟩
    exact bind_ok read

end Read

open Cursor

/-- Whatever was asked before, of the cursor or of those it was split off from, a request is
answered just if its bytes end within the bound. It takes them where they stand in the string and no
others, and otherwise leaves the cursor where it is. What is split off reads what was passed over,
however long it is used, and never more. Words of 64 bits are enough for all of it. -/
theorem requests_answered_in_bounds {data : Bytes} {start : Nat} {c : Cursor} (reached : Leads (.startAt data start) c) :
    c.bound ≤ data.length ∧ (c.pos ≤ c.bound ∨ c.pos = start) ∧
    (∀ request : Request,
      (c.pos + request.length ≤ c.bound → ∃ answer next, request.run c = .ok answer next ∧
        request.Tells data c.pos answer ∧ next.pos = c.pos + request.length ∧ next.bound = c.bound) ∧
      (c.bound < c.pos + request.length → ∃ needed, needed + c.remaining = request.length ∧
        request.run c = .error (.truncated c.pos needed) c)) ∧
    (∀ length child next, Read.split length c = .ok child next →
      child.pos = c.pos ∧ child.bound = c.pos + length ∧ next.pos = c.pos + length ∧
      (∃ stop, Read.bytes length child = .ok (slice data c.pos length) stop) ∧
      ∀ d, Leads child d → c.pos ≤ d.pos ∧ d.pos ≤ d.bound ∧ d.bound ≤ c.pos + length) ∧
    (∀ next, Read.skipAttributes c = .ok () next ↔ ∃ table, Read.attributeTable c = .ok table next) ∧
    ∀ pos bound length : UInt64, pos.toNat = c.pos → bound.toNat = c.bound →
      (c.pos + length.toNat ≤ c.bound ↔ pos ≤ pos + length ∧ pos + length ≤ bound) := by
  -- Whatever was asked on the way, the cursor stays in the string and within its bound.
  have under := leads_under (start_in data start) reached
  refine ⟨under.inData.bound, ?_, fun request => ⟨fun inside => ?_, fun outside => ?_⟩, ?_, Read.skip_attributes_iff c,
    fun _ _ length here stop => checked_sum length here stop⟩
  · rcases under.ordered with ordered | rfl
    · exact .inl ordered
    · exact .inr rfl
  · obtain ⟨answer, ran, told⟩ := Request.run_inside under.inData inside
    exact ⟨answer, _, ran, told, rfl, rfl⟩
  · refine ⟨_, ?_, Request.run_outside (Nat.not_le.mpr outside)⟩
    rw [remaining]
    omega
  · intro length child next ran
    obtain ⟨inside, rfl, rfl⟩ := Request.split_inv ran
    have childIn := window_in under.inData inside
    refine ⟨rfl, rfl, rfl, ⟨_, bytes_inside childIn (Nat.le_refl _)⟩, fun d leads => ?_⟩
    have below := leads_under childIn leads
    refine ⟨below.pos, ?_, below.bound⟩
    rcases below.ordered with ordered | rfl
    · exact ordered
    · exact Nat.le_add_right _ _

theorem requests_answered_in_bounds_split :
    Leads (.startAt [1, 2, 3, 4, 5] 0) (.startAt [1, 2, 3] 3) ∧
      ∃ needed, needed + 0 = 1 ∧
        Request.u8.run (.startAt [1, 2, 3] 3) = .error (.truncated 3 needed) (.startAt [1, 2, 3] 3) := by
  have skipped : Leads (.startAt [1, 2, 3, 4, 5] 0) (.startAt [1, 2, 3, 4, 5] 1) :=
    .answered .here (show (Request.skip 1).run (.startAt [1, 2, 3, 4, 5] 0) = _ from rfl)
  have split : Leads (.startAt [1, 2, 3, 4, 5] 0) (.startAt [1, 2, 3] 1) :=
    .child skipped (show Read.split 2 (.startAt [1, 2, 3, 4, 5] 1) = _ from rfl)
  have reached : Leads (.startAt [1, 2, 3, 4, 5] 0) (.startAt [1, 2, 3] 3) :=
    .answered split (show Request.u16.run (.startAt [1, 2, 3] 1) = _ from rfl)
  obtain ⟨_, _, answered, _⟩ := requests_answered_in_bounds reached
  exact ⟨reached, (answered .u8).2 (by decide)⟩

end Relabel
