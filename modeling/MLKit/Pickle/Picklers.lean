import MLKit.Pickle.RoundTrip

/-!
# Picklers of words and integers

The model of `word` and `int` in `Pickle`, without hashing and without the
tables for sharing, which the two do not use.  Integers of the host are words in
two's complement.
-/

namespace MLKit.Pickle

open MLKit.Lib BitVec

structure PU (α : Type) where
  pickler : α → Stream → Except Exn Stream
  unpickler : Stream → Except Exn (α × Stream)

variable {wordSize : Nat} {α : Type}

def wordGen (toWord : α → BitVec wordSize) (fromWord : BitVec wordSize → Except Exn α) : PU α where
  pickler v s := outcw (toWord v) s
  unpickler s := do
    let (w, s) ← getcw s
    return (← fromWord w, s)

def word32Gen (toWord : α → BitVec 32) (fromWord : BitVec 32 → Except Exn α) : PU α where
  pickler v s := outcw32 (toWord v) s
  unpickler s := do
    let (w, s) ← getcw32 s
    return (← fromWord w, s)

def word : PU (BitVec wordSize) := wordGen id .ok

/-- `Int.fromLarge`. -/
def fromLarge (i : Int) : Except Exn (BitVec wordSize) :=
  if -2 ^ (wordSize - 1) ≤ i ∧ i < 2 ^ (wordSize - 1) then .ok (.ofInt wordSize i)
  else .error .overflow

def int : PU (BitVec wordSize) := word32Gen (fun i => .ofInt 32 i.toInt) fun w => fromLarge w.toInt

def pickle (pu : PU α) (v : α) : Except Exn (List (BitVec 8)) := do
  let os ← pu.pickler v openOut
  toBytes os

def unpickle (pu : PU α) (s : List (BitVec 8)) : Except Exn α := do
  let (v, _) ← pu.unpickler (openInBytes s)
  return v

/-- What comes back is the word modulo the 32 bits that are written. -/
theorem unpickle_wordGen (toWord : α → BitVec wordSize) (fromWord : BitVec wordSize → Except Exn α)
    (v : α) : ∃ s, pickle (wordGen toWord fromWord) v = .ok s ∧ unpickle (wordGen toWord fromWord) s
    = fromWord (.ofNat wordSize ((toWord v).toNat % 2 ^ 32)) := by
  obtain ⟨os, s, hos, hs, is, his⟩ := (outcw_codes).roundTrip
  refine ⟨s, (ok_bind hos).trans hs, ?_⟩
  have hun : (wordGen toWord fromWord).unpickler (openInBytes s) =
    fromWord (.ofNat wordSize ((toWord v).toNat % 2 ^ 32)) >>= fun v => .ok (v, is) := ok_bind his
  rw [unpickle, hun]
  cases fromWord (.ofNat wordSize ((toWord v).toNat % 2 ^ 32)) <;> rfl

theorem pickle_word {w : BitVec wordSize} :
    ∃ s, pickle word w = .ok s ∧ unpickle word s = .ok (.ofNat wordSize (w.toNat % 2 ^ 32)) :=
  unpickle_wordGen id .ok w

theorem pickle_int {i : BitVec wordSize} :
    ∃ s, pickle int i = .ok s ∧
      unpickle int s = (fromLarge (i.toInt.bmod (2 ^ 32)) : Except Exn (BitVec wordSize)) := by
  obtain ⟨s, hs, hun⟩ := unpickle_wordGen (fun i : BitVec wordSize => .ofInt 32 i.toInt)
    (fun w => fromLarge w.toInt) i
  rw [ofNat_mod (BitVec.isLt _), toInt_ofInt] at hun
  exact ⟨s, hs, hun⟩

variable {β : Type*} {r : Except Exn α}

theorem exists_ok_iff {p : Except Exn β} {f : β → Except Exn α} (h : ∃ s, p = .ok s ∧ f s = r)
    (v : α) : (∃ s, p = .ok s ∧ f s = .ok v) ↔ r = .ok v := by
  obtain ⟨s, rfl, rfl⟩ := h
  simp

theorem ofNat_mod_eq_iff (w : BitVec wordSize) :
    BitVec.ofNat wordSize (w.toNat % 2 ^ 32) = w ↔ w.toNat < 2 ^ 32 := by
  refine ⟨fun heq => ?_, ofNat_mod⟩
  rw [← heq, toNat_ofNat]
  exact (Nat.mod_le _ _).trans_lt (Nat.mod_lt _ (by simp))

theorem fromLarge_bmod_iff (i : BitVec wordSize) :
    fromLarge (i.toInt.bmod (2 ^ 32)) = .ok i ↔ -2 ^ 31 ≤ i.toInt ∧ i.toInt < 2 ^ 31 := by
  constructor
  · intro h
    rcases Nat.eq_zero_or_pos wordSize with rfl | hpos
    · rw [toInt_zero_length]
      decide
    · unfold fromLarge at h
      split at h
      · rename_i hrange
        have heq := congrArg BitVec.toInt (Except.ok.inj h)
        rw [toInt_ofInt_eq_self hpos hrange.1 hrange.2] at heq
        rw [← heq]
        exact ⟨Int.le_bmod (by simp), Int.bmod_lt (by simp)⟩
      · cases h
  · rintro ⟨hlo, hhi⟩
    rw [Int.bmod_eq_of_le hlo hhi, fromLarge, if_pos ⟨le_toInt i, toInt_lt⟩, ofInt_toInt]

/-- A word is unpickled unchanged if and only if it is below `2 ^ 32`, and an
integer if and only if it has at most 32 bits; so all are with words of 31 or 32
bits, and not all with words of 63 or 64 bits. -/
theorem picklers_lossless_iff (wordSize : Nat) :
    (∀ w : BitVec wordSize, (∃ s, pickle word w = .ok s ∧ unpickle word s = .ok w) ↔
      w.toNat < 2 ^ 32) ∧
    ∀ i : BitVec wordSize, (∃ s, pickle int i = .ok s ∧ unpickle int s = .ok i) ↔
      -2 ^ 31 ≤ i.toInt ∧ i.toInt < 2 ^ 31 := by
  refine ⟨fun w => ?_, fun i => ?_⟩
  · rw [exists_ok_iff (pickle_word), Except.ok.injEq, ofNat_mod_eq_iff]
  · rw [exists_ok_iff (pickle_int), fromLarge_bmod_iff]

/-- With words of 64 bits the largest word and the largest integer do not come back. -/
theorem largest_not_unpickled :
    (∃ s, pickle word (-1 : BitVec 64) = .ok s ∧ unpickle word s = .ok (4294967295 : BitVec 64)) ∧
    ∃ s, pickle int (9223372036854775807 : BitVec 64) = .ok s ∧
      unpickle int s = .ok (-1 : BitVec 64) :=
  ⟨pickle_word, pickle_int⟩

end MLKit.Pickle
