import Mathlib.Algebra.Group.Nat.Defs
import Relabel.Bytes

set_option autoImplicit false

namespace Relabel

namespace BigEndian

theorem encode_length (width n : Nat) : (encode width n).length = width := by
  induction width generalizing n with
  | zero => rfl
  | succ width ih => simp only [encode, List.length_append, ih, List.length_singleton]

theorem decode_snoc (bytes : Bytes) (b : UInt8) : decode (bytes ++ [b]) = decode bytes * 256 + b.toNat := by
  simp only [decode, List.foldl_append, List.foldl_cons, List.foldl_nil]

theorem decode_encode (width n : Nat) : decode (encode width n) = n % 256 ^ width := by
  induction width generalizing n with
  | zero => simp [encode, decode, Nat.mod_one]
  | succ width ih =>
      have digit : n.toUInt8.toNat = n % 256 := UInt8.toNat_ofNat'
      rw [encode, decode_snoc, ih, digit, Nat.pow_succ', Nat.mod_mul]
      omega

theorem encode_decode (bytes : Bytes) (width : Nat) (size : bytes.length = width) :
    encode width (decode bytes) = bytes := by
  -- The last byte is the lowest digit, so the string is taken apart from its end.
  induction width generalizing bytes with
  | zero => rw [List.length_eq_zero_iff.mp size]; rfl
  | succ width ih =>
      obtain rfl | ⟨front, b, rfl⟩ := List.eq_nil_or_concat bytes
      · cases size
      · rw [List.concat_eq_append] at size ⊢
        have frontSize : front.length = width := by simpa using size
        have small := b.toNat_lt
        have high : (decode front * 256 + b.toNat) / 256 = decode front := by omega
        have low : (decode front * 256 + b.toNat).toUInt8 = b := by
          apply UInt8.toNat_inj.mp
          have digit : (decode front * 256 + b.toNat).toUInt8.toNat = (decode front * 256 + b.toNat) % 256 :=
            UInt8.toNat_ofNat'
          omega
        rw [decode_snoc, encode, high, low, ih front frontSize]

theorem decode_bound (bytes : Bytes) (width : Nat) (size : bytes.length = width) : decode bytes < 256 ^ width := by
  have back := decode_encode width (decode bytes)
  rw [encode_decode bytes width size] at back
  rw [back]
  exact Nat.mod_lt _ (Nat.pow_pos (by decide))

end BigEndian

theorem word16_length (value : UInt16) : (word16 value).length = 2 := BigEndian.encode_length 2 _
theorem word32_length (value : UInt32) : (word32 value).length = 4 := BigEndian.encode_length 4 _
theorem word64_length (value : UInt64) : (word64 value).length = 8 := BigEndian.encode_length 8 _

theorem decode_word16 (value : UInt16) : (BigEndian.decode (word16 value)).toUInt16 = value := by
  apply UInt16.toNat_inj.mp
  have small : value.toNat < 256 ^ 2 := value.toNat_lt
  rw [word16, BigEndian.decode_encode, Nat.mod_eq_of_lt small]
  exact UInt16.toNat_ofNat_of_lt' small

theorem decode_word32 (value : UInt32) : (BigEndian.decode (word32 value)).toUInt32 = value := by
  apply UInt32.toNat_inj.mp
  have small : value.toNat < 256 ^ 4 := value.toNat_lt
  rw [word32, BigEndian.decode_encode, Nat.mod_eq_of_lt small]
  exact UInt32.toNat_ofNat_of_lt' small

theorem decode_word64 (value : UInt64) : (BigEndian.decode (word64 value)).toUInt64 = value := by
  apply UInt64.toNat_inj.mp
  have small : value.toNat < 256 ^ 8 := value.toNat_lt
  rw [word64, BigEndian.decode_encode, Nat.mod_eq_of_lt small]
  exact UInt64.toNat_ofNat_of_lt' small

theorem word16_decode (bytes : Bytes) (size : bytes.length = 2) :
    word16 (BigEndian.decode bytes).toUInt16 = bytes := by
  have value : (BigEndian.decode bytes).toUInt16.toNat = BigEndian.decode bytes :=
    UInt16.toNat_ofNat_of_lt' (BigEndian.decode_bound bytes 2 size)
  rw [word16, value, BigEndian.encode_decode bytes 2 size]

theorem word32_decode (bytes : Bytes) (size : bytes.length = 4) :
    word32 (BigEndian.decode bytes).toUInt32 = bytes := by
  have value : (BigEndian.decode bytes).toUInt32.toNat = BigEndian.decode bytes :=
    UInt32.toNat_ofNat_of_lt' (BigEndian.decode_bound bytes 4 size)
  rw [word32, value, BigEndian.encode_decode bytes 4 size]

theorem word64_decode (bytes : Bytes) (size : bytes.length = 8) :
    word64 (BigEndian.decode bytes).toUInt64 = bytes := by
  have value : (BigEndian.decode bytes).toUInt64.toNat = BigEndian.decode bytes :=
    UInt64.toNat_ofNat_of_lt' (BigEndian.decode_bound bytes 8 size)
  rw [word64, value, BigEndian.encode_decode bytes 8 size]

end Relabel
