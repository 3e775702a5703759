import MLKit.X64.CodeGenUtil

/-!
# Integer and word literals

`of_scon` says which types a literal may have, and `maybeTagIntOrWord` how it is represented in a
word of the machine. The two agree at every width but one: the bounds of `fits63bits` are those of
`fits64bits`, so that a literal of type `int63` may be too large for its type.
-/

namespace MLKit.X64.Literals

open MLKit.Lib MLKit.Backend

/-- The names of number types. -/
inductive NumType where
  | int31 | int32 | int63 | int64 | intInf
  | word8 | word31 | word32 | word63 | word64
  deriving DecidableEq

inductive Literal where
  | integer (i : Int)
  | word (w : Nat)

def Literal.value : Literal → Int
  | .integer i => i
  | .word w => w

def fits31bits (i : Int) : Bool := -2 ^ 30 ≤ i ∧ i ≤ 2 ^ 30 - 1

def fits32bits (i : Int) : Bool := -2 ^ 31 ≤ i ∧ i ≤ 2 ^ 31 - 1

def fits64bits (i : Int) : Bool :=
  let maxi64 := 7 * 7 * 73 * 127 * 337 * 92737 * 649657
  let mini64 := -maxi64 - 1
  mini64 ≤ i ∧ i ≤ maxi64

def fits63bits (i : Int) : Bool :=
  let maxi63 := 7 * 7 * 73 * 127 * 337 * 92737 * 649657
  let mini63 := -maxi63 - 1
  mini63 ≤ i ∧ i ≤ maxi63

/-- The types that a literal may have. -/
def ofScon (values64bit : Bool) : Literal → Except String (List NumType)
  | .integer i =>
    if fits31bits i then
      .ok ([.intInf, .int32, .int31] ++ if values64bit then [.int64, .int63] else [])
    else if fits32bits i then
      .ok ([.intInf, .int32] ++ if values64bit then [.int64, .int63] else [])
    else if fits63bits i then .ok ([.intInf] ++ if values64bit then [.int64, .int63] else [])
    else if fits64bits i then .ok ([.intInf] ++ if values64bit then [.int64] else [])
    else .ok [.intInf]
  | .word w =>
    if w ≤ 0xFF then
      .ok ([.word32, .word31, .word8] ++ if values64bit then [.word64, .word63] else [])
    else if w ≤ 0x7FFFFFFF then
      .ok ([.word32, .word31] ++ if values64bit then [.word64, .word63] else [])
    else if w ≤ 0x7FFFFFFF * 2 + 1 then
      .ok ([.word32] ++ if values64bit then [.word64, .word63] else [])
    else if w ≤ 2 ^ 63 - 1 ∧ values64bit then .ok [.word64, .word63]
    else if w ≤ 2 ^ 64 - 1 ∧ values64bit then .ok [.word64]
    else .error ("StatObject.immediate word constant 0w" ++ toString w ++ " is not representable in " ++
      if values64bit then "64 bits" else "32 bits")

section Representation

variable (flags : Flags) (values64bit : Bool)

def wordDefault : NumType :=
  match flags.tagValues, values64bit with
  | true, true => .word63
  | true, false => .word31
  | false, true => .word64
  | false, false => .word32

/-- `word8` is compiled to the default word type. -/
def compileTyName : NumType → NumType
  | .word8 => wordDefault flags values64bit
  | tn => tn

def precisionNumType : NumType → Except String Nat
  | .int31 | .word31 => .ok 31
  | .int32 | .word32 => .ok 32
  | .int63 | .word63 => .ok 63
  | .int64 | .word64 => .ok 64
  | .intInf | .word8 => .error "ClosExp:precisionNumType.wrong tyname"

/-- The word of the machine for a literal that has been given a type. -/
def machineWord (lit : Literal) (tn : NumType) : Except String (Nat × BitVec 64) := do
  let precision ← precisionNumType (compileTyName flags values64bit tn)
  let num ← maybeTagIntOrWord lit.value precision
  .ok (precision, BitVec.ofInt 64 num)

end Representation

/-! ## What a word stands for -/

/-- Whether the numbers of a type are signed, and how many bits they have. -/
def NumType.bits : NumType → Option (Bool × Nat)
  | .int31 => some (true, 31)
  | .int32 => some (true, 32)
  | .int63 => some (true, 63)
  | .int64 => some (true, 64)
  | .intInf => none
  | .word8 => some (false, 8)
  | .word31 => some (false, 31)
  | .word32 => some (false, 32)
  | .word63 => some (false, 63)
  | .word64 => some (false, 64)

def InBits (signed : Bool) (n : Nat) (i : Int) : Prop :=
  if signed then -2 ^ (n - 1) ≤ i ∧ i < 2 ^ (n - 1) else 0 ≤ i ∧ i < 2 ^ n

/-- The number that a word holds; numbers of 31 and of 63 bits are tagged. -/
def decode (signed : Bool) (precision : Nat) (w : BitVec 64) : Int :=
  let num : Int := if signed then w.toInt else w.toNat
  if precision = 31 ∨ precision = 63 then num / 2 else num

/-- The literal is a number of its type, and the word that is made for it holds that number. -/
def Kept (flags : Flags) (values64bit : Bool) (lit : Literal) (tn : NumType) : Prop :=
  ∃ signed n precision w, tn.bits = some (signed, n) ∧ InBits signed n lit.value ∧
    machineWord flags values64bit lit tn = .ok (precision, w) ∧
    decode signed precision w = lit.value

variable {signed : Bool} {num i : Int} {precision n : Nat} {lit : Literal} {tns : List NumType}

section

variable {flags : Flags} {values64bit : Bool} {tn : NumType}

theorem decode_ofInt (h : InBits signed 64 num) : decode signed precision (BitVec.ofInt 64 num) =
    if precision = 31 ∨ precision = 63 then num / 2 else num := by
  have hword : (if signed then (BitVec.ofInt 64 num).toInt else (BitVec.ofInt 64 num).toNat) = num := by
    cases signed with
    | true =>
      rw [if_pos rfl, BitVec.toInt_ofInt]
      exact Int.bmod_eq_of_le h.1 h.2
    | false =>
      obtain ⟨hlow, hhigh⟩ := h
      rw [if_neg Bool.false_ne_true, BitVec.toNat_ofInt]
      omega
  simp only [decode, hword]

/-- A number of the given precision is found in the word that is made for it. -/
theorem decode_maybeTag (hp : precision = 31 ∨ precision = 32 ∨ precision = 63 ∨ precision = 64)
    (hi : InBits signed precision i) : ∃ num, maybeTagIntOrWord i precision = .ok num ∧
      decode signed precision (BitVec.ofInt 64 num) = i := by
  have htagged : InBits signed 63 i → InBits signed 64 (2 * i + 1) ∧ (2 * i + 1) / 2 = i := by
    cases signed <;> simp only [InBits, reduceIte, Bool.false_eq_true] <;> omega
  have hmono : ∀ n ∈ [31, 32], InBits signed n i → InBits signed 63 i ∧ InBits signed 64 i := by
    cases signed <;> simp [InBits] <;> omega
  rcases hp with rfl | rfl | rfl | rfl
  · obtain ⟨hin, hhalf⟩ := htagged (hmono _ (by decide) hi).1
    exact ⟨_, rfl, (decode_ofInt hin).trans hhalf⟩
  · exact ⟨_, rfl, decode_ofInt (hmono _ (by decide) hi).2⟩
  · obtain ⟨hin, hhalf⟩ := htagged hi
    exact ⟨_, rfl, (decode_ofInt hin).trans hhalf⟩
  · exact ⟨_, rfl, decode_ofInt hi⟩

theorem precision_of_bits (h : tn.bits = some (signed, n)) (hi : InBits signed n i) :
    ∃ precision, precisionNumType (compileTyName flags values64bit tn) = .ok precision ∧
      (precision = 31 ∨ precision = 32 ∨ precision = 63 ∨ precision = 64) ∧
      InBits signed precision i := by
  cases tn with
  | intInf => cases h
  | word8 =>
    -- a byte is a word of the default precision
    cases h
    obtain ⟨hlow, hhigh⟩ := hi
    simp only [compileTyName, wordDefault]
    split
    all_goals exact ⟨_, rfl, by decide, hlow, by omega⟩
  | _ =>
    cases h
    exact ⟨_, rfl, by decide, hi⟩

/-- The types of a literal hold it, apart from `int63`. -/
theorem ofScon_inBits (h : ofScon values64bit lit = .ok tns) (htn : tn ∈ tns) (hne : tn ≠ .intInf) :
    ∃ signed n, tn.bits = some (signed, n) ∧ (tn ≠ .int63 → InBits signed n lit.value) := by
  cases lit <;>
    simp only [ofScon, fits31bits, fits32bits, fits63bits, fits64bits, decide_eq_true_eq] at h
  all_goals
    -- one goal for every test and every type that passes it
    split_ifs at h <;> cases h <;> cases tn <;> simp_all [InBits, NumType.bits, Literal.value] <;>
      omega

end

/-- A literal keeps its value at every type it may be given, except that one of type `int63` has to
be a number of 63 bits. -/
theorem literal_kept_iff (flags : Flags) (values64bit : Bool) (lit : Literal) (tn : NumType)
    (tns : List NumType) (h : ofScon values64bit lit = .ok tns) (htn : tn ∈ tns)
    (hne : tn ≠ .intInf) : Kept flags values64bit lit tn ↔
      (tn = .int63 → -2 ^ 62 ≤ lit.value ∧ lit.value < 2 ^ 62) := by
  obtain ⟨signed, n, hbits, hin⟩ := ofScon_inBits h htn hne
  constructor
  · rintro ⟨_, _, _, _, hbits', hrange, -⟩ rfl
    cases hbits'
    exact hrange
  · intro hint63
    have hrange : InBits signed n lit.value := by
      by_cases heq : tn = .int63
      · subst heq
        cases hbits
        exact hint63 rfl
      · exact hin heq
    obtain ⟨precision, hprecision, hcases, hvalue⟩ :=
      @precision_of_bits signed lit.value n flags values64bit tn hbits hrange
    obtain ⟨num, hnum, hdecode⟩ := decode_maybeTag hcases hvalue
    refine ⟨signed, n, precision, _, hbits, hrange, ?_, hdecode⟩
    rw [machineWord, ok_bind hprecision, ok_bind hnum]

theorem literal_kept_max : Kept ⟨true, true, false, false⟩ true (.integer (2 ^ 62 - 1)) .int63 :=
  (literal_kept_iff ⟨true, true, false, false⟩ true (.integer (2 ^ 62 - 1)) .int63
    [.intInf, .int64, .int63] (by decide) (by decide) (by decide)).mpr (by decide)

/-- The first integer above the range of `int63` may have that type, and its word holds a negative
number. -/
theorem int63_literal_wraps : ofScon true (.integer (2 ^ 62)) = .ok [.intInf, .int64, .int63] ∧
    ∃ w, machineWord ⟨true, true, false, false⟩ true (.integer (2 ^ 62)) .int63 = .ok (63, w) ∧
      decode true 63 w = -2 ^ 62 :=
  ⟨by decide, _, rfl, by decide⟩

end MLKit.X64.Literals
