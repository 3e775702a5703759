import Mathlib.Data.Nat.Digits.Lemmas

/-!
# Bytes as a number

A list of bytes read as one number, the first byte being the lowest.
-/

namespace MLKit.Lib.LittleEndian

open List Nat

/-- The number that the bytes make up. -/
def value (bytes : List (BitVec 8)) : Nat := Nat.ofDigits 256 (bytes.map BitVec.toNat)

variable {bytes : List (BitVec 8)}

theorem value_cons (byte : BitVec 8) (bytes : List (BitVec 8)) :
    value (byte :: bytes) = byte.toNat + 256 * value bytes :=
  ofDigits_cons

theorem value_append (bytes bytes' : List (BitVec 8)) :
    value (bytes ++ bytes') = value bytes + 256 ^ bytes.length * value bytes' := by
  rw [value, map_append, ofDigits_append, length_map]
  rfl

theorem value_replicate_zero (n : Nat) : value (List.replicate n 0) = 0 := by
  rw [value, map_replicate]
  exact ofDigits_replicate_zero

theorem digits_lt : ∀ digit ∈ bytes.map BitVec.toNat, digit < 256 := by
  intro digit hmem
  obtain ⟨byte, -, rfl⟩ := mem_map.1 hmem
  exact byte.isLt

variable {k i : Nat} {low : BitVec 8}

/-- Bytes that hold nothing may be left out at the end. -/
theorem value_take (h : value bytes < 256 ^ k) : value (bytes.take k) = value bytes := by
  rw [value, map_take, ← ofDigits_mod_pow_eq_ofDigits_take k (by simp) _ (digits_lt)]
  exact mod_eq_of_lt h

theorem value_drop (hk : k < bytes.length) :
    value bytes / 256 ^ k = bytes[k].toNat + 256 * value (bytes.drop (k + 1)) := by
  rw [value, ofDigits_div_pow_eq_ofDigits_drop k (by simp) _ (digits_lt), ← map_drop,
    drop_eq_getElem_cons hk]
  exact value_cons _ _

/-- A byte is a digit of the number. -/
theorem toNat_getElem (hk : k < bytes.length) : bytes[k].toNat = value bytes / 256 ^ k % 2 ^ 8 := by
  rw [value_drop hk]
  exact ((add_mul_mod_self_left _ _ _).trans (mod_eq_of_lt bytes[k].isLt)).symm

theorem value_set (hk : k < bytes.length) (byte : BitVec 8) :
    value (bytes.set k byte) + 256 ^ k * bytes[k].toNat = value bytes + 256 ^ k * byte.toNat := by
  have hcons : ∀ b, value (bytes.take k ++ b :: bytes.drop (k + 1)) =
      value (bytes.take k) + 256 ^ k * (b.toNat + 256 * value (bytes.drop (k + 1))) := fun b => by
    rw [value_append, length_take_of_le hk.le, value_cons]
  have hold := hcons bytes[k]
  rw [← drop_eq_getElem_cons hk, take_append_drop] at hold
  rw [set_eq_take_append_cons_drop, if_pos hk, hcons, hold]
  ring

/-- A byte with one part below bit `i` and the other from it on. -/
theorem toNat_or_shiftLeft (high : BitVec 8) (hi : i ≤ 8)
    (hlow : low.toNat < 2 ^ i) :
    (low ||| high <<< i).toNat = low.toNat + 2 ^ i * (high.toNat % 2 ^ (8 - i)) := by
  have hshift : (high <<< i).toNat = 2 ^ i * (high.toNat % 2 ^ (8 - i)) := by
    rw [BitVec.toNat_shiftLeft, shiftLeft_eq, mul_comm, ← mul_mod_mul_left, ← pow_add,
      Nat.add_sub_cancel' hi]
  rw [BitVec.toNat_or, hshift, Nat.or_comm, ← Nat.two_pow_add_eq_or_of_lt hlow, Nat.add_comm]

end MLKit.Lib.LittleEndian
