import Relabel.Pool.Walk
import Relabel.Proofs.Constant

set_option autoImplicit false

namespace Relabel

open Cursor (ahead)
open Read (Takes)

theorem takes_entry (index pos : Nat) (constant : Constant) (storable : constant.Storable) :
    Takes (Entry.read index) pos constant.encoded ⟨index, pos, constant⟩ := by
  apply Read.takes_after (Read.takes_position pos)
  refine Read.takes_bind (Read.takes_u8 pos constant.tag.code) ?_
  rw [of_code_code]
  exact Read.takes_map (Constant.takes_body (pos + 1) constant storable) fun c => Entry.mk index pos c

theorem entry_read_inv {index pos : Nat} {bytes : Bytes} {entry : Entry} {c : Cursor}
    (ran : Entry.read index (ahead pos bytes) = .ok entry c) :
    ∃ constant tail, constant.Storable ∧ entry = ⟨index, pos, constant⟩ ∧ bytes = constant.encoded ++ tail ∧
      c = ahead (pos + constant.encoded.length) tail := by
  obtain ⟨offset, here, ranOffset, rest⟩ := bind_ok_inv ran
  cases ranOffset
  obtain ⟨code, middle, ranCode, rest⟩ := bind_ok_inv rest
  obtain ⟨afterCode, rfl, rfl⟩ := Read.u8_inv ranCode
  cases found : Tag.ofCode? code with
  | none =>
      rw [found] at rest
      cases rest
  | some tag =>
      rw [found] at rest
      obtain ⟨constant, ranConstant, rfl⟩ := map_ok_inv rest
      obtain ⟨tagEq, storable, tail, rfl, rfl⟩ := Constant.read_inv ranConstant
      have codeEq : code = constant.tag.code := by
        rw [tagEq]
        exact (code_of_code code tag found).symm
      refine ⟨constant, tail, storable, rfl, ?_, ?_⟩
      · rw [codeEq]
        rfl
      · rw [Constant.encoded, List.length_cons, Nat.add_assoc, Nat.add_comm 1]

namespace Walk

def live (index : Nat) : Bool → Nat
  | true => index + 1
  | false => index

theorem live_after (index : Nat) (tag : Tag) : live (index + 1) tag.isWide = index + tag.slots := by
  cases tag <;> rfl

theorem slots_pos (tag : Tag) : 0 < tag.slots := by cases tag <;> decide

/-- Constants that take up all the slots that are left. A wide constant in the last slot stands as
well, although its second slot lies past the end. -/
inductive Fill : Nat → Bool → List Constant → Prop
  | done (dead : Bool) : Fill 0 dead []
  | skip (left : Nat) (constants : List Constant) : Fill left false constants → Fill (left + 1) true constants
  | take (left : Nat) (constant : Constant) (constants : List Constant) (storable : constant.Storable) :
      Fill left constant.tag.isWide constants → Fill (left + 1) false (constant :: constants)

def placed (index offset : Nat) : List Constant → List Entry
  | [] => []
  | constant :: rest =>
      ⟨index, offset, constant⟩ :: placed (index + constant.tag.slots) (offset + constant.encoded.length) rest

def encodedAll (constants : List Constant) : Bytes := constants.flatMap Constant.encoded

theorem encoded_all_cons (constant : Constant) (rest : List Constant) :
    encodedAll (constant :: rest) = constant.encoded ++ encodedAll rest := List.flatMap_cons

def slotCount : List Constant → Nat
  | [] => 0
  | constant :: rest => constant.tag.slots + slotCount rest

theorem slot_count_append (front back : List Constant) : slotCount (front ++ back) = slotCount front + slotCount back := by
  induction front with
  | nil => simp [slotCount]
  | cons constant rest ih => simp [slotCount, ih, Nat.add_assoc]

theorem fill_slots (constants : List Constant) (storable : ∀ constant ∈ constants, constant.Storable) :
    Fill (slotCount constants) false constants := by
  induction constants with
  | nil => exact .done false
  | cons constant rest ih =>
      have others := ih fun one member => storable one (.tail _ member)
      have first := storable constant (.head _)
      rw [slotCount, Tag.slots, Nat.add_comm]
      cases wide : constant.tag.isWide with
      | true => exact .take _ constant rest first (by rw [wide]; exact .skip _ rest others)
      | false => exact .take _ constant rest first (by rw [wide]; exact others)

theorem slots_fill (left : Nat) (dead : Bool) (constants : List Constant) (fill : Fill left dead constants)
    (seen : List Entry) (index pos : Nat) (tail : Bytes) :
    slots seen left index dead (ahead pos (encodedAll constants ++ tail)) =
      (seen.reverse ++ placed (live index dead) pos constants, .ok (ahead (pos + (encodedAll constants).length) tail)) := by
  induction fill generalizing seen index pos with
  | done dead => simp [slots, placed, encodedAll]
  | skip left constants fill ih => exact ih seen (index + 1) pos
  | take left constant constants storable fill ih =>
      have step := (takes_entry index pos constant storable).passes (encodedAll constants ++ tail)
      rw [encoded_all_cons, List.append_assoc, slots, step]
      dsimp only
      rw [ih (⟨index, pos, constant⟩ :: seen) (index + 1) (pos + constant.encoded.length), live_after]
      simp only [List.reverse_cons, List.append_assoc, List.singleton_append, live, placed, List.length_append,
        Nat.add_assoc]

theorem slots_starve (left : Nat) (dead : Bool) (constants : List Constant) (fill : Fill left dead constants)
    (seen : List Entry) (index pos : Nat) (part rest : Bytes) (cut : encodedAll constants = part ++ rest)
    (more : rest ≠ []) :
    ∃ shown offset needed, shown <+: placed (live index dead) pos constants ∧
      slots seen left index dead (ahead pos part) = (seen.reverse ++ shown, .error (.truncated offset needed)) := by
  induction fill generalizing seen index pos part with
  | done dead => exact absurd (List.append_eq_nil_iff.mp cut.symm).2 more
  | skip left constants fill ih => exact ih seen (index + 1) pos part cut
  | take left constant constants storable fill ih =>
      have takes := takes_entry index pos constant storable
      rw [encoded_all_cons] at cut
      obtain ⟨inner, rfl, restEq⟩ | ⟨missing, some, leftEq⟩ := cut_cases cut
      · obtain ⟨shown, offset, needed, before, failed⟩ := ih (⟨index, pos, constant⟩ :: seen) (index + 1)
          (pos + constant.encoded.length) inner restEq
        rw [live_after] at before
        refine ⟨⟨index, pos, constant⟩ :: shown, offset, needed, List.cons_prefix_cons.mpr ⟨rfl, before⟩, ?_⟩
        rw [slots, takes.passes inner]
        dsimp only
        rw [failed, List.reverse_cons, List.append_assoc, List.singleton_append]
      · obtain ⟨offset, needed, c, failed⟩ := takes.starves part missing leftEq some
        refine ⟨[], offset, needed, List.nil_prefix, ?_⟩
        rw [slots, failed, List.append_nil]

theorem slots_inv (left : Nat) (dead : Bool) (seen entries : List Entry) (index pos : Nat) (bytes : Bytes) (c : Cursor)
    (ran : slots seen left index dead (ahead pos bytes) = (entries, .ok c)) :
    ∃ constants tail, Fill left dead constants ∧ bytes = encodedAll constants ++ tail := by
  induction left generalizing dead seen index pos bytes with
  | zero => exact ⟨[], bytes, .done dead, rfl⟩
  | succ left ih =>
      cases dead with
      | true =>
          obtain ⟨constants, tail, fill, split⟩ := ih false seen (index + 1) pos bytes ran
          exact ⟨constants, tail, .skip left constants fill, split⟩
      | false =>
          rw [slots] at ran
          cases step : Entry.read index (ahead pos bytes) with
          | error e stop =>
              rw [step] at ran
              cases ran
          | ok entry next =>
              rw [step] at ran
              obtain ⟨constant, rest, storable, rfl, rfl, rfl⟩ := entry_read_inv step
              obtain ⟨constants, tail, fill, rfl⟩ := ih constant.tag.isWide _ _ _ rest ran
              refine ⟨constant :: constants, tail, .take left constant constants storable fill, ?_⟩
              rw [encoded_all_cons, List.append_assoc]

theorem slots_placed (left : Nat) (dead : Bool) (seen : List Entry) (index pos : Nat) (bytes : Bytes) :
    ∃ constants, constants.length ≤ left ∧ (∀ constant ∈ constants, constant.Storable) ∧
      (slots seen left index dead (ahead pos bytes)).1 = seen.reverse ++ placed (live index dead) pos constants := by
  -- The slot after a wide constant is dead, so the next constant stands where `live` says.
  induction left generalizing dead seen index pos bytes with
  | zero => exact ⟨[], Nat.le_refl 0, by simp, by simp [slots, placed]⟩
  | succ left ih =>
      cases dead with
      | true =>
          obtain ⟨constants, few, storable, shown⟩ := ih false seen (index + 1) pos bytes
          exact ⟨constants, by omega, storable, shown⟩
      | false =>
          rw [slots]
          cases step : Entry.read index (ahead pos bytes) with
          | error e stop => exact ⟨[], Nat.zero_le _, by simp, by simp [placed]⟩
          | ok entry next =>
              obtain ⟨constant, rest, storable, rfl, rfl, rfl⟩ := entry_read_inv step
              obtain ⟨constants, few, others, shown⟩ := ih constant.tag.isWide (⟨index, pos, constant⟩ :: seen)
                (index + 1) (pos + constant.encoded.length) rest
              refine ⟨constant :: constants, by simpa using few, ?_, ?_⟩
              · intro one member
                cases member with
                | head => exact storable
                | tail _ member => exact others one member
              · dsimp only
                rw [shown, live_after]
                simp only [List.reverse_cons, List.append_assoc, List.singleton_append, live, placed]

theorem fill_same_tags (left : Nat) (dead : Bool) (constants others : List Constant)
    (fill : Fill left dead constants) (same : others.map Constant.tag = constants.map Constant.tag)
    (storable : ∀ constant ∈ others, constant.Storable) : Fill left dead others := by
  induction fill generalizing others with
  | done dead =>
      have empty : others = [] := by simpa using same
      subst empty
      exact .done dead
  | skip left constants fill ih => exact .skip left others (ih others same storable)
  | take left constant constants _ fill ih =>
      cases others with
      | nil => cases same
      | cons other others =>
          obtain ⟨tagEq, restEq⟩ := List.cons.inj same
          have rest := ih others restEq fun one member => storable one (.tail _ member)
          rw [← tagEq] at rest
          exact .take left other others (storable other (.head _)) rest

theorem fill_storable {left : Nat} {dead : Bool} {constants : List Constant} (fill : Fill left dead constants) :
    ∀ constant ∈ constants, constant.Storable := by
  induction fill with
  | done dead => exact fun _ none => nomatch none
  | skip left constants fill ih => exact ih
  | take left constant constants storable fill ih =>
      intro one member
      cases member with
      | head => exact storable
      | tail _ member => exact ih one member

theorem placed_indices (left : Nat) (dead : Bool) (constants : List Constant) (fill : Fill left dead constants)
    (index pos : Nat) (entry : Entry) (member : entry ∈ placed (live index dead) pos constants) :
    index ≤ entry.index ∧ entry.index < index + left := by
  induction fill generalizing index pos with
  | done dead => cases member
  | skip left constants fill ih =>
      have bounds := ih (index + 1) pos member
      omega
  | take left constant constants storable fill ih =>
      cases member with
      | head => exact ⟨Nat.le_refl _, by dsimp only [live]; omega⟩
      | tail _ member =>
          have bounds := ih (index + 1) (pos + constant.encoded.length) (by rw [live_after]; exact member)
          omega

theorem placed_from (constants : List Constant) (index pos : Nat) (entry : Entry)
    (member : entry ∈ placed index pos constants) : index ≤ entry.index := by
  induction constants generalizing index pos with
  | nil => cases member
  | cons constant constants ih =>
      cases member with
      | head => exact Nat.le_refl _
      | tail _ member =>
          have later := ih _ _ member
          omega

theorem placed_increasing (constants : List Constant) (index pos : Nat) :
    (placed index pos constants).Pairwise fun earlier later => earlier.index < later.index := by
  induction constants generalizing index pos with
  | nil => exact .nil
  | cons constant constants ih =>
      refine .cons ?_ (ih _ _)
      intro later member
      have bound := placed_from constants _ _ later member
      have room := slots_pos constant.tag
      dsimp only
      omega

theorem placed_constants (constants : List Constant) (index pos : Nat) :
    (placed index pos constants).map Entry.constant = constants := by
  induction constants generalizing index pos with
  | nil => rfl
  | cons constant constants ih => simp only [placed, List.map_cons, ih]

theorem placed_bytes (constants : List Constant) (index pos : Nat) (entry : Entry)
    (member : entry ∈ placed index pos constants) :
    ∃ before after, constants = before ++ entry.constant :: after ∧ entry.offset = pos + (encodedAll before).length := by
  induction constants generalizing index pos with
  | nil => cases member
  | cons constant constants ih =>
      cases member with
      | head => exact ⟨[], constants, rfl, rfl⟩
      | tail _ member =>
          obtain ⟨before, after, split, offset⟩ := ih _ _ member
          refine ⟨constant :: before, after, by rw [split]; rfl, ?_⟩
          rw [offset, encoded_all_cons, List.length_append, Nat.add_assoc]

theorem placed_append (front back : List Constant) (index pos : Nat) :
    placed index pos (front ++ back) =
      placed index pos front ++ placed (index + slotCount front) (pos + (encodedAll front).length) back := by
  induction front generalizing index pos with
  | nil => rfl
  | cons constant front ih =>
      rw [List.cons_append, placed, placed, ih, List.cons_append, slotCount, encoded_all_cons, List.length_append,
        Nat.add_assoc, Nat.add_assoc]

theorem placed_same_tags (constants others : List Constant) (index pos pos' : Nat)
    (same : others.map Constant.tag = constants.map Constant.tag) :
    (placed index pos' others).map (fun entry => (entry.index, entry.constant.tag)) =
      (placed index pos constants).map fun entry => (entry.index, entry.constant.tag) := by
  induction constants generalizing others index pos pos' with
  | nil =>
      have empty : others = [] := by simpa using same
      rw [empty]
      rfl
  | cons constant constants ih =>
      cases others with
      | nil => cases same
      | cons other others =>
          obtain ⟨tagEq, restEq⟩ := List.cons.inj same
          simp only [placed, List.map_cons, tagEq]
          exact congrArg (List.cons _) (ih others _ _ _ restEq)

theorem encoded_bound (constant : Constant) (storable : constant.Storable) : constant.encoded.length ≤ 65538 := by
  -- The longest form is that of the longest text: a tag, a length and the text.
  cases constant with
  | text value =>
      have bound : value.bytes.length ≤ 65535 := storable
      simp only [Constant.encoded, Constant.body, List.length_cons, List.length_append, word16_length]
      omega
  | _ =>
      simp only [Constant.encoded, Constant.body, List.length_cons, List.length_append, word16_length, word32_length,
        word64_length]
      omega

theorem encoded_all_bound (constants : List Constant) (storable : ∀ constant ∈ constants, constant.Storable) :
    (encodedAll constants).length ≤ constants.length * 65538 := by
  induction constants with
  | nil => exact Nat.le_refl 0
  | cons constant constants ih =>
      have first := encoded_bound constant (storable constant (.head _))
      have rest := ih fun one member => storable one (.tail _ member)
      rw [encoded_all_cons, List.length_append, List.length_cons]
      omega

theorem placed_offset_bound (constants : List Constant) (storable : ∀ constant ∈ constants, constant.Storable)
    (index pos : Nat) (entry : Entry) (member : entry ∈ placed index pos constants) :
    entry.offset ≤ pos + (constants.length - 1) * 65538 := by
  obtain ⟨before, after, split, offset⟩ := placed_bytes constants index pos entry member
  have size : constants.length - 1 = before.length + after.length := by
    rw [split, List.length_append, List.length_cons]
    omega
  have earlier := encoded_all_bound before fun one inside => storable one (by rw [split]; exact List.mem_append_left _ inside)
  rw [offset, size, Nat.add_mul]
  omega

end Walk

open Walk

theorem takes_header (found : UInt32) (version : Bytes) (count : UInt16) (right : found.toNat = ClassFile.magic)
    (size : version.length = 4) :
    Takes ClassFile.header 0 (word32 found ++ (version ++ word16 count)) count.toNat := by
  have skips := Read.takes_map (Read.takes_bytes (0 + (word32 found).length) version) fun _ => ()
  rw [size] at skips
  have counts := Read.takes_map (Read.takes_u16 (0 + (word32 found).length + version.length) count) UInt16.toNat
  apply Read.takes_bind (Read.takes_u32 0 found)
  rw [if_neg (not_not_intro right)]
  exact Read.takes_bind skips counts

theorem header_inv {bytes : Bytes} {count : Nat} {c : Cursor} (ran : ClassFile.header (ahead 0 bytes) = .ok count c) :
    ∃ head tail, bytes = head ++ tail ∧ head.length = ClassFile.poolStart ∧ count ≤ 65535 ∧
      Takes ClassFile.header 0 head count := by
  obtain ⟨found, afterMagic, ranMagic, rest⟩ := bind_ok_inv ran
  obtain ⟨bytes, rfl, rfl⟩ := Read.u32_inv ranMagic
  by_cases wrong : found.toNat ≠ ClassFile.magic
  · rw [if_pos wrong] at rest
    cases rest
  · rw [if_neg wrong] at rest
    obtain ⟨_, afterVersion, ranVersion, rest⟩ := bind_ok_inv rest
    obtain ⟨version, ranVersion, _⟩ := map_ok_inv ranVersion
    obtain ⟨size, bytes, rfl, rfl⟩ := Read.bytes_inv ranVersion
    obtain ⟨value, ranValue, rfl⟩ := map_ok_inv rest
    obtain ⟨tail, rfl, rfl⟩ := Read.u16_inv ranValue
    refine ⟨word32 found ++ (version ++ word16 value), tail, ?_, ?_, ?_,
      takes_header found version value (Decidable.not_not.mp wrong) size⟩
    · simp only [List.append_assoc]
    · simp only [List.length_append, word32_length, word16_length, size, ClassFile.poolStart]
    · exact Nat.le_of_lt_succ value.toNat_lt

structure Pooled (data : Bytes) where
  head : Bytes
  count : Nat
  constants : List Constant
  body : Bytes
  split : data = head ++ (encodedAll constants ++ body)
  head_length : head.length = ClassFile.poolStart
  headed : Takes ClassFile.header 0 head count
  small : count ≤ 65535
  filled : Fill (count - 1) false constants

namespace Pooled

variable {data : Bytes} (pooled : Pooled data)

def entries : List Entry := placed 1 ClassFile.poolStart pooled.constants

def stop : Nat := ClassFile.poolStart + (encodedAll pooled.constants).length

theorem pool_count : ClassFile.poolCount data = .ok pooled.count := by
  have ran := pooled.headed.passes (encodedAll pooled.constants ++ pooled.body)
  rw [← pooled.split] at ran
  rw [ClassFile.poolCount, Cursor.start_ahead, ran]

theorem drop_start : data.drop ClassFile.poolStart = encodedAll pooled.constants ++ pooled.body := by
  have cut := congrArg (List.drop ClassFile.poolStart) pooled.split
  rwa [← pooled.head_length, List.drop_left, pooled.head_length] at cut

theorem take_start : data.take ClassFile.poolStart = pooled.head := by
  have cut := congrArg (List.take ClassFile.poolStart) pooled.split
  rwa [← pooled.head_length, List.take_left, pooled.head_length] at cut

theorem drop_stop : data.drop pooled.stop = pooled.body := by
  rw [stop, ← List.drop_drop, pooled.drop_start, List.drop_left]

theorem stop_inside : pooled.stop ≤ data.length := by
  have total := congrArg List.length pooled.split
  rw [List.length_append, List.length_append, pooled.head_length] at total
  rw [stop]
  omega

theorem start_cursor :
    Cursor.startAt data ClassFile.poolStart =
      ahead ClassFile.poolStart (encodedAll pooled.constants ++ pooled.body) := by
  have inside := pooled.stop_inside
  rw [Cursor.start_at_ahead data _ (by rw [stop] at inside; omega), pooled.drop_start]

theorem walk : Walk.ofBytes data = ⟨pooled.entries, .ok ⟨pooled.count, pooled.stop⟩⟩ := by
  have ran := slots_fill _ _ _ pooled.filled [] 1 ClassFile.poolStart pooled.body
  rw [Walk.ofBytes, pooled.pool_count]
  dsimp only
  rw [pooled.start_cursor, ran]
  rfl

theorem entry_indices (entry : Entry) (member : entry ∈ pooled.entries) :
    0 < entry.index ∧ entry.index < pooled.count := by
  have bounds := placed_indices _ _ _ pooled.filled 1 ClassFile.poolStart entry member
  omega

theorem drop_entry (entry : Entry) (member : entry ∈ pooled.entries) :
    ∃ rest, data.drop entry.offset = entry.constant.encoded ++ rest := by
  obtain ⟨before, after, split, offset⟩ := placed_bytes pooled.constants 1 ClassFile.poolStart entry member
  refine ⟨encodedAll after ++ pooled.body, ?_⟩
  rw [offset, ← List.drop_drop, pooled.drop_start, split]
  simp only [encodedAll, List.flatMap_append, List.flatMap_cons, List.append_assoc, List.drop_left]

theorem entry_storable (entry : Entry) (member : entry ∈ pooled.entries) : entry.constant.Storable := by
  apply fill_storable pooled.filled
  rw [← placed_constants pooled.constants 1 ClassFile.poolStart]
  exact List.mem_map_of_mem member

def replace (others : List Constant) (same : others.map Constant.tag = pooled.constants.map Constant.tag)
    (storable : ∀ constant ∈ others, constant.Storable) : Pooled (pooled.head ++ (encodedAll others ++ pooled.body)) where
  head := pooled.head
  count := pooled.count
  constants := others
  body := pooled.body
  split := rfl
  head_length := pooled.head_length
  headed := pooled.headed
  small := pooled.small
  filled := fill_same_tags _ _ _ others pooled.filled same storable

end Pooled

theorem pool_cursor (head rest : Bytes) (size : head.length = ClassFile.poolStart) :
    Cursor.startAt (head ++ rest) ClassFile.poolStart = ahead ClassFile.poolStart rest := by
  have inside : ClassFile.poolStart ≤ (head ++ rest).length := by
    rw [List.length_append, size]
    omega
  rw [Cursor.start_at_ahead _ _ inside, ← size, List.drop_left]

theorem walk_pooled (data : Bytes) (layout : Layout) (walked : (Walk.ofBytes data).outcome = .ok layout) :
    ∃ pooled : Pooled data, layout = ⟨pooled.count, pooled.stop⟩ := by
  cases counted : ClassFile.header (ahead 0 data) with
  | error e c =>
      rw [Walk.ofBytes, ClassFile.poolCount, Cursor.start_ahead, counted] at walked
      cases walked
  | ok count c =>
      obtain ⟨head, rest, rfl, size, small, headed⟩ := header_inv counted
      rw [Walk.ofBytes, ClassFile.poolCount, Cursor.start_ahead, counted] at walked
      dsimp only at walked
      rw [pool_cursor head rest size] at walked
      cases ran : slots [] (count - 1) 1 false (ahead ClassFile.poolStart rest) with
      | mk entries last =>
          rw [ran] at walked
          cases last with
          | error e => cases walked
          | ok stop =>
              obtain ⟨constants, body, filled, rfl⟩ := slots_inv _ _ _ _ _ _ _ _ ran
              let pooled : Pooled (head ++ (encodedAll constants ++ body)) :=
                ⟨head, count, constants, body, rfl, size, headed, small, filled⟩
              refine ⟨pooled, ?_⟩
              rw [slots_fill _ _ _ filled] at ran
              cases ran
              cases walked
              rfl

theorem walk_offset_bound (data : Bytes) (entry : Entry) (member : entry ∈ (Walk.ofBytes data).entries) :
    entry.offset < UInt32.size := by
  -- With the most constants that a pool can have, each of the longest form, the last one still
  -- starts below four gibibytes.
  cases counted : ClassFile.header (ahead 0 data) with
  | error e c =>
      rw [Walk.ofBytes, ClassFile.poolCount, Cursor.start_ahead, counted] at member
      cases member
  | ok count c =>
      obtain ⟨head, rest, rfl, size, small, _⟩ := header_inv counted
      rw [Walk.ofBytes, ClassFile.poolCount, Cursor.start_ahead, counted] at member
      dsimp only at member
      rw [pool_cursor head rest size] at member
      obtain ⟨constants, few, storable, shown⟩ := slots_placed (count - 1) false [] 1 ClassFile.poolStart rest
      rw [shown] at member
      have bound := placed_offset_bound constants storable 1 ClassFile.poolStart entry member
      simp only [ClassFile.poolStart] at bound
      change entry.offset < 4294967296
      omega

end Relabel
