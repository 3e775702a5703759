import MLKit.Pickle.Bitstream

/-!
# Bit streams round trip

The bytes of a stream are read as one number.  A write adds its bits to the
number above the bits written before, and a getter takes the bits off again.
-/

namespace MLKit.Pickle

open MLKit.Lib MLKit.Lib.LittleEndian List BitVec Nat

/-- What every write keeps: nothing is in the buffer beyond the position, and the
position is inside the buffer. -/
structure Room (s : Stream) : Prop where
  within : s.pos < capacity s.buf
  below : value s.buf < 2 ^ s.pos

/-- The write adds the `n` bits of `v`. -/
def Puts (out : Stream → Except Exn Stream) (n v : Nat) : Prop :=
  ∀ s, Room s → ∃ s', out s = .ok s' ∧ Room s' ∧ s'.pos = s.pos + n ∧
    value s'.buf = value s.buf + 2 ^ s.pos * v

/-- Where the next `n` bits are `v` the getter takes them and returns `a`. -/
def Reads {α : Type} (get : Stream → Except Exn (α × Stream)) (n v : Nat) (a : α) : Prop :=
  ∀ s, s.pos + n ≤ capacity s.buf → value s.buf / 2 ^ s.pos % 2 ^ n = v →
    get s = .ok (a, { s with pos := s.pos + n })

/-- The getter returns `a` where the write has been. -/
def Codes {α : Type} (out : Stream → Except Exn Stream) (get : Stream → Except Exn (α × Stream))
    (a : α) : Prop :=
  ∃ n v, Puts out n v ∧ Reads get n v a

section Sequences

variable {α β : Type} {out out' : Stream → Except Exn Stream}
  {get : Stream → Except Exn (α × Stream)}

theorem Puts.seq (h : Puts out n v) (h' : Puts out' n' v') :
    Puts (fun s => out s >>= out') (n + n') (v + 2 ^ n * v') := by
  intro s hs
  obtain ⟨s1, h1, hs1, hpos, hvalue⟩ := h s hs
  obtain ⟨s2, h2, hs2, hpos', hvalue'⟩ := h' s1 hs1
  refine ⟨s2, (ok_bind h1).trans h2, hs2, by omega, ?_⟩
  rw [hvalue', hvalue, hpos, pow_add]
  ring

/-- The write into an empty stream. -/
theorem Puts.openOut (h : Puts out n v) :
    ∃ s, out openOut = .ok s ∧ Room s ∧ s.pos = n ∧ value s.buf = v := by
  have hempty : value Pickle.openOut.buf = 0 := value_replicate_zero 1024
  have hcap : capacity Pickle.openOut.buf = 8 * 1024 := congrArg (8 * ·) length_replicate
  obtain ⟨s, hs, hroom, hpos, hvalue⟩ := h Pickle.openOut
    ⟨hcap.symm ▸ by decide, hempty.symm ▸ Nat.two_pow_pos _⟩
  refine ⟨s, hs, hroom, hpos.trans (zero_add n), hvalue.trans ?_⟩
  rw [hempty, zero_add]
  exact one_mul v

theorem Puts.lt (h : Puts out n v) : v < 2 ^ n := by
  obtain ⟨s, -, hroom, rfl, rfl⟩ := h.openOut
  exact hroom.below

theorem Reads.bind (hv : v < 2 ^ n) (h : Reads get n v a)
    (h' : Reads (fun s => get' (a, s)) n' v' b) :
    Reads (fun s => get s >>= get') (n + n') (v + 2 ^ n * v') b := by
  intro s hcap hvalue
  rw [pow_add, mod_mul] at hvalue
  have hlow : value s.buf / 2 ^ s.pos % 2 ^ n = v := by
    have hmod := congrArg (· % 2 ^ n) hvalue
    simpa [add_mul_mod_self_left, mod_eq_of_lt hv] using hmod
  have hhigh : value s.buf / 2 ^ (s.pos + n) % 2 ^ n' = v' := by
    rw [hlow] at hvalue
    rw [pow_add, ← Nat.div_div_eq_div_mul]
    exact Nat.eq_of_mul_eq_mul_left (Nat.two_pow_pos n) (Nat.add_left_cancel hvalue)
  have hnext := h' ⟨s.pos + n, s.buf⟩ ((add_assoc _ _ _).trans_le hcap) hhigh
  rw [add_assoc] at hnext
  exact (ok_bind (h s (by omega) hlow)).trans hnext

theorem Reads.pure (a : α) : Reads (fun s => .ok (a, s)) 0 0 a := fun _ _ _ => rfl

theorem Reads.map (h : Reads get n v a) (f : α → β) :
    Reads (fun s => get s >>= fun r => .ok (f r.1, r.2)) n v (f a) :=
  fun s hcap hvalue => ok_bind (h s hcap hvalue)

end Sequences

/-! ## At most eight bits -/

theorem toNat_mask (hn : n ≤ 8) (w : BitVec 8) : (mask n w).toNat = w.toNat % 2 ^ n := by
  have hle : 2 ^ n ≤ 2 ^ 8 := Nat.pow_le_pow_right (by simp) hn
  rw [mask, toNat_and, toNat_ofNat, Nat.one_shiftLeft, Nat.mod_eq_of_lt (by omega),
    and_two_pow_sub_one_eq_mod]

theorem alignmentProperties_eq (pos : Nat) : alignmentProperties pos = (pos % 8, pos / 8) := by
  have hmod : pos - pos / 2 ^ 3 * 2 ^ 3 = pos % 8 := by omega
  simp only [alignmentProperties, Nat.shiftRight_eq_div_pow, Nat.shiftLeft_eq, hmod]

theorem two_pow_pos_eq (pos : Nat) : 2 ^ pos = 256 ^ (pos / 8) * 2 ^ (pos % 8) := by
  rw [show 256 = 2 ^ 8 from rfl, ← pow_mul, ← pow_add, Nat.div_add_mod]

theorem sub_eq (h : i < buf.length) : sub buf i = .ok buf[i] := dif_pos h

theorem update_eq (h : i < buf.length) (w : BitVec 8) : update buf i w = .ok (buf.set i w) :=
  if_pos h

theorem Room.ensurespace (h : Room s) (hn : n ≤ 8) :
    Room (ensurespace s n) ∧ (ensurespace s n).pos = s.pos ∧
      value (ensurespace s n).buf = value s.buf ∧
      s.pos + n < capacity (ensurespace s n).buf := by
  have hwithin := h.within
  unfold Pickle.ensurespace
  split
  · exact ⟨h, rfl, rfl, by assumption⟩
  · have hvalue : value (double s.buf) = value s.buf := by
      rw [double, value_append, value_replicate_zero, Nat.mul_zero, Nat.add_zero]
    have hcap : capacity (double s.buf) = 2 * capacity s.buf := by
      simp only [capacity, double, length_append, length_replicate]
      omega
    have hlen : 8 ≤ capacity s.buf := by
      simp only [capacity] at hwithin ⊢
      omega
    refine ⟨⟨?_, hvalue.symm ▸ h.below⟩, rfl, hvalue, ?_⟩
    · show s.pos < capacity (double s.buf)
      omega
    · show s.pos + n < capacity (double s.buf)
      omega

section Bytes

/-- The byte at the position is free from the position on. -/
theorem toNat_byte_lt (hbelow : value buf < 2 ^ pos) (hbyte : pos / 8 < buf.length) :
    buf[pos / 8].toNat < 2 ^ (pos % 8) := by
  rw [toNat_getElem hbyte]
  rw [two_pow_pos_eq] at hbelow
  exact (Nat.mod_le _ _).trans_lt (Nat.div_lt_of_lt_mul hbelow)

/-- The bytes behind it are free. -/
theorem toNat_next_byte (hbelow : value buf < 2 ^ pos) (hbyte : pos / 8 + 1 < buf.length) :
    buf[pos / 8 + 1].toNat = 0 := by
  have hle : 2 ^ pos ≤ 256 ^ (pos / 8 + 1) := by
    rw [show 256 = 2 ^ 8 from rfl, ← pow_mul]
    exact Nat.pow_le_pow_right (by simp) (by omega)
  rw [toNat_getElem hbyte, div_eq_of_lt (hbelow.trans_le hle), zero_mod]

/-- What `outwN` stores. -/
theorem stores_bits (hn : n ≤ 8) (he : e.toNat < 2 ^ n)
    (hcap : pos + n < capacity buf) (hbelow : value buf < 2 ^ pos) :
    ∃ buf', (if pos % 8 = 0 then update buf (pos / 8) e
      else do
        let w ← sub buf (pos / 8)
        let buf ← update buf (pos / 8) (w ||| e <<< (pos % 8))
        if n ≤ 8 - pos % 8 then .ok buf
        else update buf (pos / 8 + 1) (e >>> (8 - pos % 8))) = .ok buf' ∧
      buf'.length = buf.length ∧ value buf' = value buf + 2 ^ pos * e.toNat := by
  have hbyte : pos / 8 < buf.length := by
    simp only [capacity] at hcap
    omega
  have hlow := toNat_byte_lt hbelow hbyte
  have hset := value_set hbyte
  rw [two_pow_pos_eq]
  split
  · rename_i hbits
    rw [hbits, pow_zero, Nat.lt_one_iff] at hlow
    refine ⟨_, update_eq hbyte e, length_set, ?_⟩
    have hset := hset e
    rw [hlow, Nat.mul_zero, Nat.add_zero] at hset
    rw [hset, hbits, pow_zero, mul_one]
  · rename_i hbits
    have hle : pos % 8 ≤ 8 := by omega
    have hset := hset (buf[pos / 8] ||| e <<< (pos % 8))
    rw [toNat_or_shiftLeft e hle hlow, Nat.mul_add, Nat.add_left_comm, Nat.add_comm] at hset
    have hset := add_left_cancel hset
    rw [← mul_assoc] at hset
    by_cases hfit : n ≤ 8 - pos % 8
    · refine ⟨_, (ok_bind (sub_eq hbyte)).trans ((ok_bind (update_eq hbyte _)).trans (if_pos hfit)),
        length_set, ?_⟩
      rw [hset, Nat.mod_eq_of_lt (he.trans_le (Nat.pow_le_pow_right (by simp) hfit))]
    · have hnext : pos / 8 + 1 < buf.length := by
        simp only [capacity] at hcap
        omega
      have hnext' : pos / 8 + 1 < (buf.set (pos / 8) (buf[pos / 8] ||| e <<< (pos % 8))).length :=
        hnext.trans_eq length_set.symm
      refine ⟨_, (ok_bind (sub_eq hbyte)).trans ((ok_bind (update_eq hbyte _)).trans
        ((if_neg hfit).trans (update_eq hnext' _))), by simp, ?_⟩
      have hset' := value_set hnext' (e >>> (8 - pos % 8))
      rw [getElem_set_ne (by simp), toNat_next_byte hbelow hnext, Nat.mul_zero, Nat.add_zero,
        hset, toNat_ushiftRight, shiftRight_eq_div_pow] at hset'
      have hsplit : 256 ^ (pos / 8 + 1) = 256 ^ (pos / 8) * 2 ^ (pos % 8) * 2 ^ (8 - pos % 8) := by
        rw [Nat.mul_assoc, ← pow_add, Nat.add_sub_cancel' hle, pow_succ]
        rfl
      rw [hset', hsplit, Nat.add_assoc, Nat.mul_assoc _ (2 ^ (8 - _)), ← Nat.mul_add, Nat.mod_add_div]

end Bytes

theorem outwN_puts (hn : n ≤ 8) (e : BitVec 8) : Puts (outwN n e) n (e.toNat % 2 ^ n) := by
  intro s0 hs0
  obtain ⟨hs, hpos, hvalue, hcap⟩ := hs0.ensurespace hn
  rw [← hpos, ← hvalue]
  rw [← hpos] at hcap
  have hmask := toNat_mask hn e
  obtain ⟨buf', hbuf', hlen, hvalue'⟩ := stores_bits hn
    (hmask.trans_lt (Nat.mod_lt _ (Nat.two_pow_pos n))) hcap hs.below
  rw [hmask] at hvalue'
  refine ⟨⟨(ensurespace s0 n).pos + n, buf'⟩, ?_, ⟨?_, ?_⟩, rfl, hvalue'⟩
  · simp only [outwN, alignmentProperties_eq]
    exact ok_bind hbuf'
  · simpa only [capacity, hlen] using hcap
  · have hlt := Nat.mul_le_mul_left (2 ^ (ensurespace s0 n).pos)
      (Nat.succ_le_of_lt (Nat.mod_lt e.toNat (Nat.two_pow_pos n)))
    rw [Nat.mul_succ, ← pow_add] at hlt
    have hbelow := hs.below
    show value buf' < 2 ^ ((ensurespace s0 n).pos + n)
    omega

/-- What `getwN` fetches. -/
theorem fetches_bits (hpos : 0 < n) (hn : n ≤ 8) (hcap : pos + n ≤ capacity buf) :
    ∃ e, (if pos % 8 = 0 then sub buf (pos / 8)
      else do
        let w1 ← sub buf (pos / 8)
        let e1 := w1 >>> (pos % 8)
        if n ≤ 8 - pos % 8 then .ok e1
        else do
          let w2 ← sub buf (pos / 8 + 1)
          .ok (e1 ||| w2 <<< (8 - pos % 8))) = .ok e ∧
      e.toNat % 2 ^ n = value buf / 2 ^ pos % 2 ^ n := by
  have hbyte : pos / 8 < buf.length := by
    simp only [capacity] at hcap
    omega
  rw [two_pow_pos_eq pos, ← Nat.div_div_eq_div_mul]
  have hdvd : ∀ {i}, n ≤ i → 2 ^ n ∣ 2 ^ i := Nat.pow_dvd_pow 2
  split
  · rename_i hbits
    refine ⟨_, sub_eq hbyte, ?_⟩
    rw [toNat_getElem hbyte, hbits, pow_zero, Nat.div_one, Nat.mod_mod_of_dvd _ (hdvd hn)]
  · have hle : pos % 8 ≤ 8 := by omega
    have hpow : 2 ^ 8 = 2 ^ (pos % 8) * 2 ^ (8 - pos % 8) := by
      rw [← pow_add, Nat.add_sub_cancel' hle]
    have hlow : (buf[pos / 8] >>> (pos % 8)).toNat =
        value buf / 256 ^ (pos / 8) / 2 ^ (pos % 8) % 2 ^ (8 - pos % 8) := by
      rw [toNat_ushiftRight, shiftRight_eq_div_pow, toNat_getElem hbyte, hpow,
        mod_mul_right_div_self]
    by_cases hfit : n ≤ 8 - pos % 8
    · refine ⟨_, (ok_bind (sub_eq hbyte)).trans (if_pos hfit), ?_⟩
      rw [hlow, mod_mod_of_dvd _ (hdvd hfit)]
    · have hnext : pos / 8 + 1 < buf.length := by
        simp only [capacity] at hcap
        omega
      refine ⟨_, (ok_bind (sub_eq hbyte)).trans ((if_neg hfit).trans (ok_bind (sub_eq hnext))), ?_⟩
      rw [toNat_or_shiftLeft _ (sub_le _ _), hlow, toNat_getElem hnext]
      · -- the low part of the second byte continues the first byte
        have hnextByte : value buf / 256 ^ (pos / 8 + 1) =
            value buf / 256 ^ (pos / 8) / 2 ^ (pos % 8) / 2 ^ (8 - pos % 8) := by
          rw [Nat.div_div_eq_div_mul _ (2 ^ _), ← hpow, Nat.div_div_eq_div_mul, pow_succ]
          rfl
        rw [hnextByte, Nat.sub_sub_self hle, Nat.mod_mod_of_dvd _ (Nat.pow_dvd_pow 2 hle),
          ← Nat.mod_mul, ← pow_add, Nat.sub_add_cancel hle, Nat.mod_mod_of_dvd _ (hdvd hn)]
      · rw [hlow]
        exact Nat.mod_lt _ (Nat.two_pow_pos _)

theorem getwN_reads (hpos : 0 < n) (hn : n ≤ 8) : Reads (getwN n) n v (.ofNat 8 v) := by
  intro s hcap hvalue
  obtain ⟨e, he, hbits⟩ := fetches_bits hpos hn hcap
  have hmask : mask n e = .ofNat 8 v := by
    rw [← toNat_inj, toNat_mask hn, hbits, hvalue, toNat_ofNat, mod_eq_of_lt]
    rw [← hvalue]
    exact (Nat.mod_lt _ (Nat.two_pow_pos n)).trans_le (Nat.pow_le_pow_right (by simp) hn)
  rw [getwN, if_neg (Nat.not_lt.2 hcap), alignmentProperties_eq, ← hmask]
  exact ok_bind he

/-! ## Words -/

theorem outw8_puts (e : BitVec 8) : Puts (outw8 e) 8 e.toNat := by
  have h := outwN_puts (le_refl 8) e
  rwa [mod_eq_of_lt e.isLt] at h

theorem getw8_reads : Reads getw8 8 v (.ofNat 8 v) := getwN_reads (by simp) (le_refl 8)

variable {wordSize : Nat}

theorem word8ToWord_ofNat (hv : v < 2 ^ 8) :
    (word8ToWord (.ofNat 8 v) : BitVec wordSize) = .ofNat wordSize v := by
  rw [word8ToWord, ← ofNat_toNat, toNat_ofNat, mod_eq_of_lt hv]

theorem ofNat_shiftLeft (v i : Nat) :
    (BitVec.ofNat wordSize v) <<< i = .ofNat wordSize (2 ^ i * v) := by
  rw [← toNat_inj, toNat_shiftLeft, toNat_ofNat, toNat_ofNat,
    Nat.shiftLeft_eq, Nat.mod_mul_mod, Nat.mul_comm]

theorem toNat_extract (w : BitVec wordSize) (i : Nat) :
    (wordToWord8 (w >>> i)).toNat = w.toNat / 2 ^ i % 2 ^ 8 := by
  rw [wordToWord8, toNat_setWidth, toNat_ushiftRight, Nat.shiftRight_eq_div_pow]

theorem outw_puts : Puts (outw w) 32 (w.toNat % 2 ^ 32) := by
  have h := (outw8_puts (wordToWord8 (w >>> 0))).seq ((outw8_puts (wordToWord8 (w >>> 8))).seq
    ((outw8_puts (wordToWord8 (w >>> 16))).seq (outw8_puts (wordToWord8 (w >>> 24)))))
  simp only [toNat_extract] at h
  have hvalue : w.toNat / 2 ^ 0 % 2 ^ 8 + 2 ^ 8 * (w.toNat / 2 ^ 8 % 2 ^ 8 + 2 ^ 8 *
      (w.toNat / 2 ^ 16 % 2 ^ 8 + 2 ^ 8 * (w.toNat / 2 ^ 24 % 2 ^ 8))) = w.toNat % 2 ^ 32 := by
    omega
  rw [hvalue] at h
  exact h

theorem getw_reads (hv : v < 2 ^ 32) : Reads getw 32 v (BitVec.ofNat wordSize v) := by
  have hlt : ∀ i, v / 2 ^ i % 2 ^ 8 < 2 ^ 8 := fun i => mod_lt _ (by simp)
  have hvalue : v / 2 ^ 0 % 2 ^ 8 + 2 ^ 8 * (v / 2 ^ 8 % 2 ^ 8 + 2 ^ 8 *
      (v / 2 ^ 16 % 2 ^ 8 + 2 ^ 8 * (v / 2 ^ 24 % 2 ^ 8 + 2 ^ 8 * 0))) = v := by
    omega
  have h : Reads (@getw wordSize) (8 + (8 + (8 + (8 + 0)))) _ _ := .bind (hlt 0) (getw8_reads)
    (.bind (hlt 8) (getw8_reads) (.bind (hlt 16) (getw8_reads)
      (.bind (hlt 24) (getw8_reads) (.pure _))))
  rw [hvalue] at h
  simp only [word8ToWord_ofNat (hlt _), ofNat_shiftLeft, ← ofNat_add] at h
  convert! h using 2
  omega

/-- Long writes go byte by byte. -/
theorem outwN'_puts (hn : n ≤ 31) (w : BitVec wordSize) :
    Puts (outwN' n w) n (w.toNat % 2 ^ n) := by
  induction n using Nat.strongRecOn generalizing w with
  | ind n ih =>
    have hbyte := toNat_extract w 0
    rw [ushiftRight_zero, pow_zero, Nat.div_one] at hbyte
    intro s
    unfold outwN'
    rw [if_neg (not_lt.2 hn)]
    split
    · rename_i hzero
      subst hzero
      exact fun hs => ⟨s, rfl, hs, rfl, by simp [mod_one]⟩
    · split
      · have h := outwN_puts (by omega : n ≤ 8) (wordToWord8 w)
        rw [hbyte, mod_mod_of_dvd _ (pow_dvd_pow 2 (by omega))] at h
        exact h s
      · have h := (outw8_puts (wordToWord8 w)).seq (ih (n - 8) (by omega) (by omega) (w >>> 8))
        rw [hbyte, toNat_ushiftRight, shiftRight_eq_div_pow, ← mod_mul, ← pow_add,
          Nat.add_sub_cancel' (by omega)] at h
        exact h s

theorem word8ToWord_or (hx : x < 2 ^ off) (hb : b < 2 ^ 8) :
    word8ToWord (.ofNat 8 b) <<< off ||| .ofNat wordSize x =
      BitVec.ofNat wordSize (x + 2 ^ off * b) := by
  rw [word8ToWord_ofNat hb, ofNat_shiftLeft, ← ofNat_or, ← two_pow_add_eq_or_of_lt hx, add_comm]

theorem getwN'Loop_reads {n off v x : Nat} (hv : v < 2 ^ n) (hx : x < 2 ^ off) :
    Reads (getwN'Loop n off (.ofNat wordSize x)) n v (.ofNat wordSize (x + 2 ^ off * v)) := by
  induction n using Nat.strongRecOn generalizing off v x with
  | ind n ih =>
    intro s
    unfold getwN'Loop
    split
    · rename_i hzero
      subst hzero
      rw [pow_zero, Nat.lt_one_iff] at hv
      rw [hv, Nat.mul_zero, Nat.add_zero]
      exact Reads.pure _ s
    · split
      · have hbyte : v < 2 ^ 8 := hv.trans_le (Nat.pow_le_pow_right (by simp) (by omega))
        rw [← word8ToWord_or hx hbyte]
        exact (getwN_reads (by omega) (by omega : n ≤ 8)).map
          (fun w8 => word8ToWord w8 <<< off ||| .ofNat wordSize x) s
      · have hlt : v % 2 ^ 8 < 2 ^ 8 := mod_lt _ (by simp)
        have hhigh : v / 2 ^ 8 < 2 ^ (n - 8) := by
          apply Nat.div_lt_of_lt_mul
          rwa [← pow_add, Nat.add_sub_cancel' (by omega)]
        have hlow : x + 2 ^ off * (v % 2 ^ 8) < 2 ^ (off + 8) := by
          rw [pow_add]
          nlinarith [mul_le_mul_left (2 ^ off) (succ_le_of_lt hlt)]
        have hrest := ih (n - 8) (by omega) hhigh hlow
        rw [← word8ToWord_or hx hlt, Nat.add_assoc, pow_add, Nat.mul_assoc, ← Nat.mul_add,
          mod_add_div] at hrest
        have h : Reads (fun s => getw8 s >>= fun r => getwN'Loop (n - 8) (off + 8)
            (word8ToWord r.1 <<< off ||| .ofNat wordSize x) r.2) _ _ _ :=
          .bind hlt (getw8_reads) hrest
        rw [Nat.add_sub_cancel' (by omega), Nat.mod_add_div] at h
        exact h s

/-! ## Prefix codes -/

theorem long_puts (w : BitVec wordSize) :
    Puts (fun s => outw8 255 s >>= outw w) (8 + 32) (255 + 2 ^ 8 * (w.toNat % 2 ^ 32)) :=
  (outw8_puts 255).seq (outw_puts)

/-- What is not the escape byte is not read as one. -/
theorem ofNat_ne_escape (hv : v ≤ 254) : BitVec.ofNat 8 v ≠ 255 := by
  intro heq
  have hnat := congrArg BitVec.toNat heq
  exact absurd hnat (by simpa using by omega)

theorem outcw_codes :
    Codes (outcw w) getcw (BitVec.ofNat wordSize (w.toNat % 2 ^ 32)) := by
  have hlt : w.toNat % 2 ^ 32 < 2 ^ 32 := mod_lt _ (by simp)
  by_cases hsmall : w.toNat ≤ 254
  · refine ⟨8 + 0, w.toNat + 2 ^ 8 * 0, fun s => ?_, ?_⟩
    · have h := outw8_puts (wordToWord8 w)
      rw [wordToWord8, toNat_setWidth, mod_eq_of_lt (by omega)] at h
      rw [outcw, if_pos hsmall]
      exact h s
    · refine .bind (by omega) (getw8_reads) fun s _ _ => (if_neg (ofNat_ne_escape hsmall)).trans ?_
      rw [word8ToWord_ofNat (by omega), mod_eq_of_lt (by omega)]
      rfl
  · refine ⟨8 + 32, 255 + 2 ^ 8 * (w.toNat % 2 ^ 32), fun s => ?_, ?_⟩
    · rw [outcw, if_neg hsmall]
      exact long_puts w s
    · exact .bind (by simp) (getw8_reads) (getw_reads hlt)

theorem outcw2_codes (w : BitVec wordSize) :
    Codes (outcw2 w) getcw2 (BitVec.ofNat wordSize (w.toNat % 2 ^ 32)) := by
  have hlt : w.toNat % 2 ^ 32 < 2 ^ 32 := mod_lt _ (by simp)
  by_cases hsmall : w.toNat ≤ 65279
  · have hhigh : w.toNat / 256 < 2 ^ 8 := by omega
    have hlow : w.toNat % 256 < 2 ^ 8 := mod_lt _ (by simp)
    refine ⟨8 + 8, w.toNat / 256 + 2 ^ 8 * (w.toNat % 256), fun s => ?_, ?_⟩
    · have h := (outw8_puts (.ofNat 8 (w.toNat / 256))).seq (outw8_puts (.ofNat 8 (w.toNat % 256)))
      rw [toNat_ofNat, toNat_ofNat, mod_eq_of_lt hhigh, mod_eq_of_lt hlow] at h
      rw [outcw2, if_pos hsmall]
      exact h s
    · have hvalue : w.toNat % 2 ^ 32 = w.toNat / 256 * 256 + w.toNat % 256 := by omega
      rw [hvalue, ofNat_add, ofNat_mul, ← word8ToWord_ofNat hhigh, ← word8ToWord_ofNat hlow]
      refine .bind hhigh (getw8_reads) fun s hcap hs =>
        (if_neg (ofNat_ne_escape (by omega))).trans ?_
      exact (getw8_reads).map (fun w2 => _ + word8ToWord w2) s hcap hs
  · refine ⟨8 + 32, 255 + 2 ^ 8 * (w.toNat % 2 ^ 32), fun s => ?_, ?_⟩
    · rw [outcw2, if_neg hsmall]
      exact long_puts w s
    · exact .bind (by simp) (getw8_reads) (getw_reads hlt)

/-! ## Sequences of writes -/

/-- The bytes of a stream that was written from an empty one are read back. -/
theorem Codes.roundTrip {get : Stream → Except Exn (α × Stream)} (h : Codes out get a) :
    ∃ s bytes, out openOut = .ok s ∧ toBytes s = .ok bytes ∧
      ∃ s', get (openInBytes bytes) = .ok (a, s') := by
  obtain ⟨n, v, hputs, hreads⟩ := h
  have hv := hputs.lt
  obtain ⟨s, hs, hroom, rfl, rfl⟩ := hputs.openOut
  have hwithin := hroom.within
  simp only [capacity] at hwithin
  have hlen : s.pos >>> 3 + 1 ≤ s.buf.length := by omega
  have hbelow : value s.buf < 256 ^ (s.pos >>> 3 + 1) := by
    refine hv.trans_le ?_
    rw [show 256 = 2 ^ 8 from rfl, ← pow_mul]
    exact Nat.pow_le_pow_right (by simp) (by omega)
  refine ⟨s, _, hs, if_pos hlen, _, hreads _ ?_ ?_⟩
  · simp only [openInBytes, capacity, length_take_of_le hlen]
    omega
  · simp only [openInBytes, value_take hbelow, pow_zero, Nat.div_one, Nat.mod_eq_of_lt hv]

/-- A write, with the value it writes. -/
inductive Write (wordSize : Nat) where
  | bits (n : Nat) (e : BitVec 8)
  | cword (w : BitVec wordSize)
  | cword2 (w : BitVec wordSize)
  | word (w : BitVec wordSize)
  | word32 (w : BitVec 32)
  | bits' (n : Nat) (w : BitVec wordSize)

namespace Write

/-- The value is one that the write is for. -/
def Within : Write wordSize → Prop
  | bits n e => 1 ≤ n ∧ n ≤ 8 ∧ e.toNat < 2 ^ n
  | cword w | cword2 w | word w => w.toNat < 2 ^ 32
  | word32 _ => True
  | bits' n w => n ≤ 31 ∧ w.toNat < 2 ^ n

def out : Write wordSize → Stream → Except Exn Stream
  | bits n e => outwN n e
  | cword w => outcw w
  | cword2 w => outcw2 w
  | word w => outw w
  | word32 w => outw32 w
  | bits' n w => outwN' n w

/-- The corresponding getter. -/
def get : Write wordSize → Stream → Except Exn (Write wordSize × Stream)
  | bits n _, s => do let (e, s) ← getwN n s; return (bits n e, s)
  | cword _, s => do let (w, s) ← getcw s; return (cword w, s)
  | cword2 _, s => do let (w, s) ← getcw2 s; return (cword2 w, s)
  | word _, s => do let (w, s) ← getw s; return (word w, s)
  | word32 _, s => do let (w, s) ← getw32 s; return (word32 w, s)
  | bits' n _, s => do let (w, s) ← getwN' n s; return (bits' n w, s)

end Write

def outAll : List (Write wordSize) → Stream → Except Exn Stream
  | [], s => .ok s
  | write :: writes, s => do
    let s ← write.out s
    outAll writes s

def getAll : List (Write wordSize) → Stream → Except Exn (List (Write wordSize) × Stream)
  | [], s => .ok ([], s)
  | write :: writes, s => do
    let (value, s) ← write.get s
    let (values, s) ← getAll writes s
    return (value :: values, s)

theorem Codes.map {get : Stream → Except Exn (α × Stream)} (h : Codes out get a)
    (heq : a = b) (f : α → β) : Codes out (fun s => get s >>= fun r => .ok (f r.1, r.2)) (f b) := by
  obtain ⟨n, v, hputs, hreads⟩ := h
  exact ⟨n, v, hputs, heq ▸ hreads.map f⟩

theorem ofNat_mod {w : BitVec k} (h : w.toNat < 2 ^ n) : .ofNat k (w.toNat % 2 ^ n) = w := by
  rw [mod_eq_of_lt h, ofNat_toNat, setWidth_eq]

theorem outw_codes (w : BitVec wordSize) :
    Codes (outw w) getw (BitVec.ofNat wordSize (w.toNat % 2 ^ 32)) :=
  ⟨32, _, outw_puts, getw_reads (outw_puts).lt⟩

theorem Write.codes (write : Write wordSize) (h : write.Within) :
    Codes write.out write.get write := by
  cases write with
  | bits n e =>
    have hcodes : Codes (outwN n e) (getwN n) (.ofNat 8 (e.toNat % 2 ^ n)) :=
      ⟨n, _, outwN_puts h.2.1 e, getwN_reads h.1 h.2.1⟩
    exact hcodes.map (ofNat_mod h.2.2) (bits n)
  | cword w => exact (outcw_codes).map (ofNat_mod h) cword
  | cword2 w => exact (outcw2_codes w).map (ofNat_mod h) cword2
  | word w => exact (outw_codes w).map (ofNat_mod h) word
  | word32 w => exact (outw_codes w).map (ofNat_mod w.isLt) word32
  | bits' n w =>
    have hputs := outwN'_puts h.1 w
    have hcodes : Codes (outwN' n w) (getwN' n) (.ofNat wordSize (w.toNat % 2 ^ n)) := by
      refine ⟨n, _, hputs, fun s hcap hs => ?_⟩
      have hreads := @getwN'Loop_reads wordSize n 0 _ 0 hputs.lt (one_pos) s hcap hs
      rw [pow_zero, one_mul, zero_add] at hreads
      rw [getwN', if_neg (not_lt.2 h.1)]
      exact hreads
    exact hcodes.map (ofNat_mod h.2) (bits' n)

theorem all_codes {writes : List (Write wordSize)} (h : ∀ write ∈ writes, write.Within) :
    Codes (outAll writes) (getAll writes) writes := by
  induction writes with
  | nil => exact ⟨0, 0, fun s hs => ⟨s, rfl, hs, rfl, rfl⟩, .pure []⟩
  | cons write writes ih =>
    rw [forall_mem_cons] at h
    obtain ⟨n, v, hputs, hreads⟩ := write.codes h.1
    obtain ⟨n', v', hputs', hreads'⟩ := ih h.2
    exact ⟨n + n', v + 2 ^ n * v', hputs.seq hputs',
      hreads.bind hputs.lt (hreads'.map (write :: ·))⟩

/-- Whatever is written into an empty stream is read back, in order, from its
bytes, and no access is outside the buffer on either side. -/
theorem bitstream_round_trip (wordSize : Nat) (writes : List (Write wordSize))
    (h : ∀ write ∈ writes, write.Within) :
    ∃ s bytes, outAll writes openOut = .ok s ∧ toBytes s = .ok bytes ∧
      ∃ s', getAll writes (openInBytes bytes) = .ok (writes, s') :=
  (all_codes h).roundTrip

theorem three_bits_and_a_word :
    ∃ s bytes, outAll [.bits 3 5, .cword (1000 : BitVec 63)] openOut = .ok s ∧
      toBytes s = .ok bytes ∧
      ∃ s', getAll [.bits 3 5, .cword (1000 : BitVec 63)] (openInBytes bytes) =
        .ok ([.bits 3 5, .cword 1000], s') :=
  bitstream_round_trip 63 _ (by simp [Write.Within])

end MLKit.Pickle
