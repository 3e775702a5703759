import Mathlib.Algebra.Ring.Nat
import MLKit.Backend.LineStmt

/-!
# Descriptors

The descriptor words of `BackendInfo` that head the objects of the heap when
values are tagged, and the fields the garbage collector reads out of them
(`Tagging.h`).
-/

namespace MLKit.Backend.BI

open BitVec Nat

def orBits (w1 w2 : Word32) : Word32 := w1 ||| w2

def shiftLeft (numBits : Nat) (w : Word32) : Word32 := w <<< numBits

/-- `off` is the offset at which values are traversed. -/
def genRecordTag (s off : Nat) (i : Bool) (t : Nat) : Word32 :=
  let size := BitVec.ofNat 32 s
  let offset := BitVec.ofNat 32 off
  let immovable := if i then BitVec.ofNat 32 1 else BitVec.ofNat 32 0
  let tag := BitVec.ofNat 32 t
  let wSize := shiftLeft 19 size
  let wOffset := orBits wSize (shiftLeft 6 offset)
  let wImmovable := orBits wOffset (shiftLeft 5 immovable)
  orBits wImmovable tag

def genStringTag (s : Nat) (i : Bool) (t : Nat) : Word32 :=
  let size := BitVec.ofNat 32 s
  let immovable := if i then BitVec.ofNat 32 1 else BitVec.ofNat 32 0
  let tag := BitVec.ofNat 32 t
  let wSize := shiftLeft 6 size
  let wImmovable := orBits wSize (shiftLeft 5 immovable)
  orBits wImmovable tag

def tagCon0 (i : Bool) (cTag : Nat) : Word32 := genStringTag cTag i 2
def tagCon1 (i : Bool) (cTag : Nat) : Word32 := genStringTag cTag i 3
def tagClos (i : Bool) (size nSkip : Nat) : Word32 := genRecordTag size nSkip i 6
def tagSclos (i : Bool) (size nSkip : Nat) : Word32 := genRecordTag size nSkip i 6

/-- The number of fields of a record that the collector passes over. -/
def getRecordSkip (s : Nat) : Nat := (s >>> 6) &&& 0x1FFF

variable {t s off : Nat} {i : Bool}

/-- The field has 13 bits: a longer offset runs into the size. -/
theorem getRecordSkip_genRecordTag (ht : t < 2 ^ 6) :
    getRecordSkip (genRecordTag s off i t).toNat = off % 2 ^ 13 := by
  apply eq_of_testBit_eq
  intro j
  have hmask : (0x1FFF : Nat) = 2 ^ 13 - 1 := by decide
  rw [getRecordSkip, hmask, testBit_and, testBit_shiftRight, testBit_two_pow_sub_one,
    Nat.testBit_mod_two_pow, testBit_toNat]
  by_cases hj : j < 13
  · have himmovable : (if i then BitVec.ofNat 32 1 else BitVec.ofNat 32 0).getLsbD (j + 1) =
        false := by
      cases i with
      | true | false => simp
    have htag : (BitVec.ofNat 32 t).getLsbD (6 + j) = false := by
      have hbit : t.testBit (6 + j) = false :=
        Nat.testBit_lt_two_pow (Nat.lt_of_lt_of_le ht (Nat.pow_le_pow_right (by decide) (by omega)))
      simp [getLsbD_ofNat, hbit]
    have hoff : (BitVec.ofNat 32 off).getLsbD j = off.testBit j := by
      rw [getLsbD_ofNat, decide_eq_true (show j < 32 by omega), Bool.true_and]
    have hsize : 6 + j < 19 := by omega
    have hword : 6 + j < 32 := by omega
    have hlow : 6 + j - 5 = j + 1 := by omega
    have hfirst : ¬ 6 + j < 5 := by omega
    have hsecond : ¬ 6 + j < 6 := by omega
    simp only [genRecordTag, orBits, shiftLeft, getLsbD_or, getLsbD_shiftLeft, hlow,
      Nat.add_sub_cancel_left, himmovable, htag, hoff, hsize, hword, hj, hfirst, hsecond,
      decide_true, decide_false, Bool.not_true, Bool.not_false, Bool.and_false, Bool.true_and,
      Bool.false_and, Bool.or_false, Bool.false_or, Bool.and_true]
  · simp [hj]

/-- Descriptors of fewer than `2 ^ 12` fields have their highest bit clear. -/
theorem genRecordTag_lt {s off t : Nat} {i : Bool} (hs : s < 2 ^ 12) (hoff : off < 2 ^ 25)
    (ht : t < 2 ^ 6) : (genRecordTag s off i t).toNat < 2 ^ 31 := by
  simp only [genRecordTag, orBits, shiftLeft, toNat_or]
  refine or_lt_two_pow (or_lt_two_pow (or_lt_two_pow ?_ ?_) ?_) ?_
  · simp only [toNat_shiftLeft, toNat_ofNat, Nat.shiftLeft_eq]
    omega
  · simp only [toNat_shiftLeft, toNat_ofNat, Nat.shiftLeft_eq]
    omega
  · cases i with
    | true | false => decide
  · rw [toNat_ofNat]
    omega

/-- The size has 26 bits; the type of object is below it. -/
theorem toNat_genStringTag (ht : t < 2 ^ 5) :
    (genStringTag s false t).toNat = 2 ^ 6 * (s % 2 ^ 26) + t := by
  have hsize : (shiftLeft 6 (BitVec.ofNat 32 s)).toNat = 2 ^ 6 * (s % 2 ^ 26) := by
    simp only [shiftLeft, toNat_shiftLeft, toNat_ofNat, Nat.shiftLeft_eq]
    omega
  have htag : (BitVec.ofNat 32 t).toNat = t := by
    rw [toNat_ofNat, Nat.mod_eq_of_lt (by omega)]
  simp only [genStringTag, orBits, Bool.false_eq_true, if_false, toNat_or, hsize, htag]
  rw [show (shiftLeft 5 (BitVec.ofNat 32 0)).toNat = 0 from rfl, Nat.or_zero,
    two_pow_add_eq_or_of_lt (show t < 2 ^ 6 by omega)]

end MLKit.Backend.BI
