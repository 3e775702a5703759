import MLKit.OptLambda.LambdaExp

/-!
# Folding of comparisons by ranges

`constantFolding` decides a comparison of a variable with a constant when the range of the variable
does.  Constants proper are folded before that, which takes two of them.
-/

namespace MLKit.OptLambda

inductive Cmp where
  | lt
  | lte
  | gt
  | gte

namespace Cmp

def not : Cmp → Cmp
  | lt => gte
  | lte => gt
  | gt => lte
  | gte => lt

/-- What the comparison returns at run time. -/
def holds : Cmp → Int → Int → Bool
  | lt, a, b => a < b
  | lte, a, b => a ≤ b
  | gt, a, b => a > b
  | gte, a, b => a ≥ b

end Cmp

def rightlift : Cmp → Int → Option Int → Option Int → Bool
  | .lt, i, some j, none => i < j
  | .lte, i, some j, none => i ≤ j
  | .gt, i, none, some j => i > j
  | .gte, i, none, some j => i ≥ j
  | _, _, _, _ => false

/-- `try`, on the arguments of a comparison. -/
def tryCmp (env : Lvar → Option Cv) (opr : Cmp) : List LambdaExp → Option LambdaExp
  | [.integer i, .var lvar] =>
    match env lvar with
    | some (.crng low high) =>
      if rightlift opr i low high then some (lexpBool true)
      else if rightlift opr.not i low high then some (lexpBool false)
      else none
    | _ => none
  | [.var lvar, .integer i] =>
    match env lvar with
    | some (.crng low high) =>
      if rightlift opr.not i low high then some (lexpBool true)
      else if rightlift opr i low high then some (lexpBool false)
      else none
    | _ => none
  | _ => none

/-- The second part of `constantFolding`. -/
def rangeFolding (env : Lvar → Option Cv) : LambdaExp → Option LambdaExp
  | .prim (.ccall "__less_int64ub") xs => tryCmp env .lt xs
  | .prim (.ccall "__less_int63") xs => tryCmp env .lt xs
  | .prim (.ccall "__lesseq_int64ub") xs => tryCmp env .lte xs
  | .prim (.ccall "__lesseq_int63") xs => tryCmp env .lte xs
  | .prim (.ccall "__greater_int64ub") xs => tryCmp env .gt xs
  | .prim (.ccall "__greater_int63") xs => tryCmp env .gt xs
  | .prim (.ccall "__greatereq_int64ub") xs => tryCmp env .gte xs
  | .prim (.ccall "__greatereq_int63") xs => tryCmp env .gte xs
  | _ => none

inductive IntType where
  | int63
  | int64ub

/-- The primitive that compares. -/
def Cmp.name : Cmp → IntType → String
  | lt, .int63 => "__less_int63"
  | lt, .int64ub => "__less_int64ub"
  | lte, .int63 => "__lesseq_int63"
  | lte, .int64ub => "__lesseq_int64ub"
  | gt, .int63 => "__greater_int63"
  | gt, .int64ub => "__greater_int64ub"
  | gte, .int63 => "__greatereq_int63"
  | gte, .int64ub => "__greatereq_int64ub"

/-- A comparison of variable `x` and constant `i`, in either order. -/
def comparison (opr : Cmp) (ty : IntType) (x : Lvar) (i : Int) (varFirst : Bool) : LambdaExp :=
  .prim (.ccall (opr.name ty)) (if varFirst then [.var x, .integer i] else [.integer i, .var x])

/-- What it returns when `x` has the value `v`. -/
def comparisonValue (opr : Cmp) (v i : Int) (varFirst : Bool) : Bool :=
  if varFirst then opr.holds v i else opr.holds i v

theorem rangeFolding_comparison (env : Lvar → Option Cv) (opr : Cmp) (ty : IntType) (x : Lvar)
    (i : Int) (varFirst : Bool) : rangeFolding env (comparison opr ty x i varFirst) =
      tryCmp env opr (if varFirst then [.var x, .integer i] else [.integer i, .var x]) := by
  cases opr <;> cases ty <;> rfl

@[simp] theorem lexpBool_inj {b b' : Bool} : lexpBool b = lexpBool b' ↔ b = b' := by
  cases b <;> cases b' <;> simp [lexpBool]

/-- The constant is the only bound of the range, on the side where the comparison changes. -/
def AtBound (i : Int) (low high : Option Int) : Cmp → Prop
  | .lt | .gte => low = none ∧ high = some i
  | .lte | .gt => low = some i ∧ high = none

theorem Cmp.holds_not (opr : Cmp) (a b : Int) : opr.not.holds a b = !opr.holds a b := by
  cases opr <;> grind [Cmp.not, holds]

theorem Cmp.holds_swap (opr : Cmp) {a b : Int} (h : a ≠ b) : opr.holds b a = !opr.holds a b := by
  cases opr <;> grind [holds]

section Ranges

variable {opr : Cmp} {low high : Option Int} {v i : Int}

/-- The table is right for `i opr v`. -/
theorem holds_of_rightlift (hv : InRange low high v) (h : rightlift opr i low high = true) :
    opr.holds i v = true := by
  unfold rightlift at h
  split at h <;> simp_all [InRange, Cmp.holds] <;> omega

/-- When the constant is in the range, only the bound itself is decided. -/
theorem rightlift_iff_atBound (hi : InRange low high i) :
    rightlift opr.not i low high = true ∨ rightlift opr i low high = true ↔
      AtBound i low high opr := by
  cases opr <;> cases low <;> cases high <;> simp_all [InRange, rightlift, Cmp.not, AtBound] <;>
    omega

variable {env : Lvar → Option Cv} {x : Lvar} (henv : env x = some (.crng low high))

include henv

/-- The two orders of the arguments differ in which test answers `true`. -/
theorem tryCmp_eq_some_iff {b varFirst : Bool} :
    tryCmp env opr (if varFirst then [.var x, .integer i] else [.integer i, .var x]) =
        some (lexpBool b) ↔
      if rightlift (if varFirst then opr.not else opr) i low high then b = true
      else rightlift (if varFirst then opr else opr.not) i low high = true ∧ b = false := by
  cases varFirst with
  | false | true =>
    simp only [tryCmp, henv, if_true, if_false, Bool.false_eq_true]
    split
    · simp only [Option.some.injEq, lexpBool_inj, Bool.true_eq]
    · split <;> simp_all

/-- The folding is right, but for a variable that is compared with the bound of its range and has
that value. -/
theorem rangeFolding_sound_iff (hv : InRange low high v) (ty : IntType) (varFirst : Bool) :
    (∀ b, rangeFolding env (comparison opr ty x i varFirst) = some (lexpBool b) →
      b = comparisonValue opr v i varFirst) ↔
    ¬ (varFirst = true ∧ v = i ∧ AtBound i low high opr) := by
  have hopr : ∀ opr, rightlift opr i low high = true → opr.holds i v = true :=
    fun _ => holds_of_rightlift hv
  simp only [rangeFolding_comparison, tryCmp_eq_some_iff henv, comparisonValue]
  cases varFirst with
  | false =>
    simp only [Bool.false_eq_true, if_false, false_and, not_false_eq_true, iff_true]
    intro b hb
    split at hb
    · next h => rw [hb, hopr _ h]
    · have h := hopr _ hb.1
      rw [Cmp.holds_not, Bool.not_eq_true'] at h
      rw [hb.2, h]
  | true =>
    simp only [if_true, true_and, not_and]
    constructor
    · rintro h rfl hbound
      -- whatever is answered for equal numbers, `holds` says the opposite
      by_cases hnot : rightlift opr.not v low high = true
      · have htrue := hopr _ hnot
        rw [Cmp.holds_not, ← h true (by rw [if_pos hnot])] at htrue
        cases htrue
      · have hpos := ((rightlift_iff_atBound hv).2 hbound).resolve_left hnot
        have htrue := hopr _ hpos
        rw [← h false (by rw [if_neg hnot]; exact ⟨hpos, rfl⟩)] at htrue
        cases htrue
    · intro h b hb
      by_cases hvi : i = v
      · subst hvi
        have hno := mt (rightlift_iff_atBound hv).1 (h rfl)
        simp_all
      · rw [Cmp.holds_swap opr hvi]
        split at hb
        · next h => rw [hb, ← Cmp.holds_not, hopr _ h]
        · rw [hb.2, hopr _ hb.1]
          rfl

end Ranges

/-- A variable that is at most 5, and is 5. -/
theorem rangeFolding_sound_iff_five :
    (∀ b, rangeFolding (fun _ => some (.crng none (some 5))) (comparison .lt .int64ub 0 5 true) =
      some (lexpBool b) → b = comparisonValue .lt 5 5 true) ↔
    ¬ (true = true ∧ (5 : Int) = 5 ∧ AtBound 5 none (some 5) .lt) :=
  rangeFolding_sound_iff rfl (by simp [InRange]) .int64ub true

/-- `x < 5` is folded to `true` for an `x` that is at most 5, and is not true of 5. -/
theorem lt_bound_folded :
    rangeFolding (fun _ => some (.crng none (some 5))) (comparison .lt .int64ub 0 5 true) =
        some (lexpBool true) ∧
      InRange none (some 5) 5 ∧ comparisonValue .lt 5 5 true = false :=
  ⟨rfl, by simp [InRange], rfl⟩

end MLKit.OptLambda
