import Relabel.Constant.Basic
import Relabel.Proofs.Reading

set_option autoImplicit false

namespace Relabel

theorem of_code_code (tag : Tag) : Tag.ofCode? tag.code = some tag := by cases tag <;> rfl

theorem code_of_code (code : UInt8) (tag : Tag) (found : Tag.ofCode? code = some tag) : tag.code = code := by
  simpa using List.find?_some found

namespace Constant

open Cursor (ahead)
open Read

def Storable : Constant → Prop
  | .text value => value.length ≤ maxTextLength
  | _ => True

def encoded (constant : Constant) : Bytes := constant.tag.code :: constant.body

theorem encode_inv (constant : Constant) (bytes : Bytes) (written : constant.encode = .ok bytes) :
    constant.Storable ∧ bytes = constant.encoded := by
  cases constant with
  | text value =>
      by_cases long : maxTextLength < value.length
      · rw [encode, if_pos long] at written
        cases written
      · rw [encode, if_neg long] at written
        cases written
        exact ⟨Nat.not_lt.mp long, rfl⟩
  | _ =>
      cases written
      exact ⟨trivial, rfl⟩

theorem encode_storable (constant : Constant) (storable : constant.Storable) : constant.encode = .ok constant.encoded := by
  cases constant with
  | text value => exact if_neg (Nat.not_lt.mpr storable)
  | _ => rfl

theorem width_body (constant : Constant) (width : Nat) (fixed : constant.tag.width? = some width) :
    constant.body.length = width := by
  cases constant with
  | text value => cases fixed
  | _ =>
      cases fixed
      simp only [body, List.length_append, List.length_cons, word16_length, word32_length, word64_length]

theorem text_length_back (value : Name) (storable : value.length ≤ maxTextLength) :
    value.length.toUInt16.toNat = value.length := by
  apply UInt16.toNat_ofNat_of_lt'
  exact Nat.lt_succ_of_le storable

theorem takes_pair (make : UInt16 → UInt16 → Constant) (pos : Nat) (a b : UInt16) :
    Takes (do return make (← u16) (← u16)) pos (word16 a ++ word16 b) (make a b) :=
  takes_bind (takes_u16 pos a) (takes_map (takes_u16 _ b) (make a))

theorem takes_body (pos : Nat) (constant : Constant) (storable : constant.Storable) :
    Takes (read constant.tag) pos constant.body constant := by
  cases constant with
  | text value =>
      have content := takes_map (takes_bytes (pos + (word16 value.length.toUInt16).length) value.bytes)
        fun bytes => Constant.text ⟨bytes⟩
      have length := text_length_back value storable
      apply takes_bind (takes_u16 pos value.length.toUInt16)
      rw [length]
      exact content
  | integer value =>
      have whole := takes_map (takes_u32 pos value.toUInt32) fun bits => Constant.integer bits.toInt32
      rwa [Int32.toInt32_toUInt32] at whole
  | float bits => exact takes_map (takes_u32 pos bits) Constant.float
  | long value =>
      have whole := takes_map (takes_u64 pos value.toUInt64) fun bits => Constant.long bits.toInt64
      rwa [Int64.toInt64_toUInt64] at whole
  | double bits => exact takes_map (takes_u64 pos bits) Constant.double
  | classRef a => exact takes_map (takes_u16 pos a) Constant.classRef
  | string a => exact takes_map (takes_u16 pos a) Constant.string
  | methodType a => exact takes_map (takes_u16 pos a) Constant.methodType
  | moduleRef a => exact takes_map (takes_u16 pos a) Constant.moduleRef
  | packageRef a => exact takes_map (takes_u16 pos a) Constant.packageRef
  | fieldRef a b => exact takes_pair .fieldRef pos a b
  | methodRef a b => exact takes_pair .methodRef pos a b
  | interfaceMethodRef a b => exact takes_pair .interfaceMethodRef pos a b
  | nameAndType a b => exact takes_pair .nameAndType pos a b
  | dynamic a b => exact takes_pair .dynamic pos a b
  | invokeDynamic a b => exact takes_pair .invokeDynamic pos a b
  | methodHandle kind target =>
      exact takes_bind (takes_u8 pos kind) (takes_map (takes_u16 _ target) (methodHandle kind))

def FoundAs (tag : Tag) (pos : Nat) (bytes : Bytes) (constant : Constant) (c : Cursor) : Prop :=
  constant.tag = tag ∧ constant.Storable ∧
    ∃ tail, bytes = constant.body ++ tail ∧ c = ahead (pos + constant.body.length) tail

theorem single_inv {make : UInt16 → Constant} {pos : Nat} {bytes : Bytes} {constant : Constant} {c : Cursor}
    (ran : (do return make (← u16) : Read Constant) (ahead pos bytes) = .ok constant c) :
    ∃ a tail, constant = make a ∧ bytes = word16 a ++ tail ∧ c = ahead (pos + (word16 a).length) tail := by
  obtain ⟨a, ranA, rfl⟩ := map_ok_inv ran
  obtain ⟨tail, split, stop⟩ := u16_inv ranA
  exact ⟨a, tail, rfl, split, by rw [stop, word16_length]⟩

theorem pair_inv {make : UInt16 → UInt16 → Constant} {pos : Nat} {bytes : Bytes} {constant : Constant} {c : Cursor}
    (ran : (do return make (← u16) (← u16) : Read Constant) (ahead pos bytes) = .ok constant c) :
    ∃ a b tail, constant = make a b ∧ bytes = word16 a ++ word16 b ++ tail ∧
      c = ahead (pos + (word16 a ++ word16 b).length) tail := by
  obtain ⟨a, middle, ranA, rest⟩ := bind_ok_inv ran
  obtain ⟨afterA, rfl, rfl⟩ := u16_inv ranA
  obtain ⟨b, tail, rfl, rfl, stop⟩ := single_inv rest
  refine ⟨a, b, tail, rfl, (List.append_assoc _ _ _).symm, ?_⟩
  rw [stop, List.length_append, word16_length a, Nat.add_assoc]

theorem read_inv {tag : Tag} {pos : Nat} {bytes : Bytes} {constant : Constant} {c : Cursor}
    (ran : read tag (ahead pos bytes) = .ok constant c) : FoundAs tag pos bytes constant c := by
  cases tag with
  | text =>
      obtain ⟨length, middle, ranLength, rest⟩ := bind_ok_inv ran
      obtain ⟨afterLength, rfl, rfl⟩ := u16_inv ranLength
      obtain ⟨content, ranContent, rfl⟩ := map_ok_inv rest
      obtain ⟨size, tail, rfl, rfl⟩ := bytes_inv ranContent
      have lengthBack : content.length.toUInt16 = length := by
        rw [size]
        exact UInt16.ofNat_toNat
      have bodyEq : (Constant.text ⟨content⟩).body = word16 length ++ content := by
        rw [← lengthBack]
        rfl
      refine ⟨rfl, ?_, tail, ?_, ?_⟩
      · have bound := length.toNat_lt
        change content.length ≤ 65535
        omega
      · rw [bodyEq, List.append_assoc]
      · rw [bodyEq, List.length_append, word16_length, size, Nat.add_assoc]
  | integer =>
      obtain ⟨bits, ranBits, rfl⟩ := map_ok_inv ran
      obtain ⟨tail, split, stop⟩ := u32_inv ranBits
      have back : (Constant.integer bits.toInt32).body = word32 bits := by
        rw [body, UInt32.toUInt32_toInt32]
      exact ⟨rfl, trivial, tail, by rw [back, split], by rw [back, stop, word32_length]⟩
  | float =>
      obtain ⟨bits, ranBits, rfl⟩ := map_ok_inv ran
      obtain ⟨tail, split, stop⟩ := u32_inv ranBits
      exact ⟨rfl, trivial, tail, split, by rw [body, stop, word32_length]⟩
  | long =>
      obtain ⟨bits, ranBits, rfl⟩ := map_ok_inv ran
      obtain ⟨tail, split, stop⟩ := u64_inv ranBits
      have back : (Constant.long bits.toInt64).body = word64 bits := by
        rw [body, UInt64.toUInt64_toInt64]
      exact ⟨rfl, trivial, tail, by rw [back, split], by rw [back, stop, word64_length]⟩
  | double =>
      obtain ⟨bits, ranBits, rfl⟩ := map_ok_inv ran
      obtain ⟨tail, split, stop⟩ := u64_inv ranBits
      exact ⟨rfl, trivial, tail, split, by rw [body, stop, word64_length]⟩
  | classRef | string | methodType | moduleRef | packageRef =>
      obtain ⟨a, tail, rfl, split, stop⟩ := single_inv ran
      exact ⟨rfl, trivial, tail, split, stop⟩
  | fieldRef | methodRef | interfaceMethodRef | nameAndType | dynamic | invokeDynamic =>
      obtain ⟨a, b, tail, rfl, split, stop⟩ := pair_inv ran
      exact ⟨rfl, trivial, tail, split, stop⟩
  | methodHandle =>
      obtain ⟨kind, middle, ranKind, rest⟩ := bind_ok_inv ran
      obtain ⟨afterKind, rfl, rfl⟩ := u8_inv ranKind
      obtain ⟨target, tail, rfl, rfl, stop⟩ := single_inv rest
      refine ⟨rfl, trivial, tail, rfl, ?_⟩
      rw [stop, body, List.length_cons, word16_length]

end Constant

end Relabel
