import MLKit.X64.SwitchSelect
import Mathlib.Data.Set.Finite.Basic

/-!
# Switches on numbers select the right branch

A switch runs one branch and goes on to its continuation.  A linear search runs
the branch of the operand's selector.  The binary search does so exactly when it
has few selectors, or when all selectors are on one side of the sign bit and all
jump tables can be jumped through.
-/

namespace MLKit.X64.Switch

open MLKit.Backend MLKit.Backend.JumpTables MLKit.Lib List

variable {β : Type}

/-! ## Running a branch -/

/-- Control is at the continuation, or at a copy of the jump it starts with. -/
def AtExit (C code : List (Inst β)) : Prop :=
  code = C ∨ ∃ ea rest rest', C = .jmp ea :: rest ∧ code = .jmp ea :: rest'

/-- The code runs one branch and comes to its continuation. -/
def RunsBranch (prog code C : List (Inst β)) (s : State β) (branch : β) : Prop :=
  ∃ c, Reaches (step prog) ⟨code, s⟩ c ∧ AtExit C c.code ∧ c.state.trace = s.trace ++ [branch]

variable {s s' : State β} {ea opr : Ea} {prog code C : List (Inst β)} {lab : Lab} {c c' : Config β}
  {taken isSigned boxed : Bool} {branch branch' : β} {selectors selectors' : List Int}
  {sels : List (Int × β)} {value value' i r : Int} {precision : Nat}
  {generate : β → List (Inst β) → Nat → Except String (List (Inst β) × Nat)} {x : BitVec 64}
  {reg : Reg}

theorem write_trace {value : Value} (h : write s ea value = some s') : s'.trace = s.trace := by
  cases ea with
  | R reg =>
    cases h
    rfl
  | D displacement reg =>
    obtain ⟨address, _, rfl⟩ := Option.map_eq_some_iff.1 h
    rfl
  | _ => cases h

theorem goto_trace (h : goto prog lab s = some c) : c.state.trace = s.trace := by
  obtain ⟨code, _, rfl⟩ := Option.map_eq_some_iff.1 h
  rfl

theorem jumpIf_trace (h : jumpIf prog taken lab code s = some c) : c.state.trace = s.trace := by
  cases taken with
  | true => exact goto_trace h
  | false =>
    cases h
    rfl

/-- A step keeps the trace, or adds the branch it runs. -/
theorem step_trace (h : step prog c = some c') :
    c.state.trace <+: c'.state.trace := by
  obtain ⟨code, s⟩ := c
  cases code with
  | nil => cases h
  | cons inst code =>
    cases inst <;> simp only [step, Option.bind_eq_bind, Option.bind_eq_some_iff, Option.pure_def,
      Option.some.injEq] at h
    case movq =>
      obtain ⟨_, _, _, hwrite, rfl⟩ := h
      rw [write_trace hwrite]
    case addq =>
      obtain ⟨_, _, _, _, _, _, _, hwrite, rfl⟩ := h
      rw [write_trace hwrite]
    case salq | andq =>
      obtain ⟨_, _, _, _, _, hwrite, rfl⟩ := h
      rw [write_trace hwrite]
    case cmpq =>
      obtain ⟨_, _, _, _, rfl⟩ := h
      exact prefix_refl _
    case push =>
      obtain ⟨_, _, rfl⟩ := h
      exact prefix_refl _
    case pop =>
      obtain ⟨_, hwrite, rfl⟩ := h
      rw [write_trace hwrite]
      exact prefix_refl _
    case jne | jl | jg => rw [jumpIf_trace h]
    case jmp ea =>
      cases ea with
      | L lab => rw [goto_trace h]
      | D displacement reg =>
        simp only [Option.bind_eq_some_iff] at h
        obtain ⟨_, _, _, _, hgoto⟩ := h
        rw [goto_trace hgoto]
      | _ => cases h
    case lab =>
      cases h
      exact prefix_refl _
    case dotQuad => cases h
    case body =>
      cases h
      exact prefix_append _ _

theorem reaches_trace (h : Reaches (step prog) c c') :
    c.state.trace <+: c'.state.trace := by
  induction h with
  | refl => exact prefix_refl _
  | tail _ hstep ih => exact ih.trans (step_trace hstep)

/-- No code runs two different branches. -/
theorem RunsBranch.unique (h : RunsBranch prog code C s branch)
    (h' : RunsBranch prog code C s branch') : branch = branch' := by
  obtain ⟨c, hrun, _, htrace⟩ := h
  obtain ⟨c', hrun', _, htrace'⟩ := h'
  have hcases : c.state.trace <+: c'.state.trace ∨ c'.state.trace <+: c.state.trace :=
    (hrun.total hrun').imp reaches_trace reaches_trace
  rw [htrace, htrace'] at hcases
  have heq : s.trace ++ [branch] = s.trace ++ [branch'] := by
    rcases hcases with hpre | hpre
    · exact hpre.eq_of_length (by simp)
    · exact (hpre.eq_of_length (by simp)).symm
  simpa using heq

/-! ## Leaving the switch -/

/-- `out` leaves the switch for `C`, in front of which stands `ending`. -/
structure Leaves (out : Ea) (ending C : List (Inst β)) : Prop where
  jump : ∀ prog, (labelsIn labelOf prog).Nodup → ending <:+ prog → ∀ rest s,
    ∃ c, Reaches (step prog) ⟨.jmp out :: rest, s⟩ c ∧ AtExit C c.code ∧ c.state = s
  fall : ∀ prog s, ∃ c, Reaches (step prog) ⟨ending, s⟩ c ∧ AtExit C c.code ∧ c.state = s

theorem exits_ok (opr : Ea) (C : List (Inst β)) (n : Nat) :
    ∃ out endswitch hi, exits (target opr) C n = (leave out, endswitch, hi) ∧
      Adds n hi (endswitch C) C ∧ Leaves out (endswitch C) C := by
  by_cases hjmp : ∃ ea rest, C = .jmp ea :: rest
  · obtain ⟨ea, rest, rfl⟩ := hjmp
    refine ⟨ea, id, n, rfl, Adds.refl n _, ?_, ?_⟩
    · intro prog _ _ rest' s
      exact ⟨_, .refl, .inr ⟨ea, rest, rest', rfl, rfl⟩, rfl⟩
    · intro prog s
      exact ⟨_, .refl, .inl rfl, rfl⟩
  · have hinline : inlineCont C = none := by
      rw [inlineCont.eq_def]
      split
      · exact absurd ⟨_, _, rfl⟩ hjmp
      · rfl
    refine ⟨.L (newLocalLab "exitSwitchLab" n), (.lab (newLocalLab "exitSwitchLab" n) :: ·), n + 1,
      ?_, (Adds.refl n C).label_above "exitSwitchLab", ?_, ?_⟩
    · rw [exits, show (target opr).inlineCont C = none from hinline]
      rfl
    · intro prog hnodup hsuffix rest s
      refine ⟨⟨C, s⟩, .single ?_, .inl rfl, rfl⟩
      change goto prog (newLocalLab "exitSwitchLab" n) s = _
      rw [goto, codeFrom_of_suffix hnodup rfl hsuffix]
      rfl
    · intro prog s
      exact ⟨⟨C, s⟩, .single rfl, .inl rfl, rfl⟩

/-- The branch that an outcome leads to. -/
def Outcome.result (last : β) : Outcome β → Option β
  | .branch selected => some selected
  | .default => some last
  | .stuck => none

variable {out : Ea}

section Result

variable {prog ending C : List (Inst β)} (hleaves : Leaves out ending C)
  (hnodup : (labelsIn labelOf prog).Nodup) (hending : ending <:+ prog)
  {default : β} {code : List (Inst β)} {s : State β}

include hleaves hnodup hending

section

variable {outcome : Outcome β} (hlands : Lands prog out (.body default :: ending) ⟨code, s⟩ outcome)

include hlands

theorem runsBranch_of_lands (hresult : outcome.result default = some branch) :
    RunsBranch prog code C s branch := by
  cases outcome with
  | branch branch' =>
    obtain rfl : branch' = branch := Option.some.inj hresult
    obtain ⟨rest, s', hrun, htrace⟩ := hlands
    obtain ⟨c, hrun', hexit, hstate⟩ := hleaves.jump prog hnodup hending rest
      { s' with trace := s'.trace ++ [branch'] }
    refine ⟨c, (hrun.tail rfl).trans hrun', hexit, ?_⟩
    rw [hstate, ← htrace]
  | default =>
    obtain rfl : default = branch := Option.some.inj hresult
    obtain ⟨s', hrun, htrace⟩ := hlands
    obtain ⟨c, hrun', hexit, hstate⟩ := hleaves.fall prog { s' with trace := s'.trace ++ [default] }
    refine ⟨c, (hrun.tail rfl).trans hrun', hexit, ?_⟩
    rw [hstate, ← htrace]
  | stuck => cases hresult

/-- The code runs the branch of its outcome, and no other. -/
theorem runsBranch_iff (branch : β) :
    RunsBranch prog code C s branch ↔ outcome.result default = some branch := by
  constructor
  · intro hrun
    cases hresult : outcome.result default with
    | some branch' =>
      have hrun' := runsBranch_of_lands hleaves hnodup hending hlands hresult
      rw [hrun.unique hrun']
    | none =>
      cases outcome with
      | stuck =>
        obtain ⟨c, hreach, hstuck, htrace⟩ := hlands
        obtain ⟨c', hreach', _, htrace'⟩ := hrun
        have hpre : c'.state.trace <+: c.state.trace := by
          rcases hreach.total hreach' with h | h
          · rcases Relation.ReflTransGen.cases_head h with rfl | ⟨c'', hstep, _⟩
            · exact prefix_refl _
            · rw [hstuck] at hstep
              cases hstep
          · exact reaches_trace h
        rw [htrace, htrace'] at hpre
        exact absurd hpre.length_le (by simp)
      | _ => cases hresult
  · exact runsBranch_of_lands hleaves hnodup hending hlands

end

end Result

/-! ## Linear search -/

def linearOutcome (x : BitVec 64) (sels : List (Int × β)) : Outcome β :=
  match sels.find? fun sel => x.toInt = signed sel.1 with
  | some sel => .branch sel.2
  | none => .default

theorem linearSels_ok (hopr : AvoidsTmp opr) (out : Ea) (last : List (Inst β)) (n : Nat)
    (sels : List (Int × β)) :
    ∃ code hi, sels.foldr (linearSel (target opr) (target opr).ifNotEqualGoLabSel (leave out))
        (last, n) = (code, hi) ∧
      Adds n hi code last ∧
      ∀ prog, (labelsIn labelOf prog).Nodup → code <:+ prog → ∀ x : BitVec 64,
        Simulates prog opr x out last code (linearOutcome x sels) := by
  induction sels with
  | nil => exact ⟨last, n, rfl, Adds.refl n last, fun prog _ _ x s _ => ⟨s, .refl, rfl⟩⟩
  | cons sel sels ih =>
    obtain ⟨code, hi, hfold, hadds, hsim⟩ := ih
    obtain ⟨rest, hrest⟩ : ∃ rest, rest =
        .body sel.2 :: .jmp out :: .lab (newLocalLab "newSelLab" hi) :: code := ⟨_, rfl⟩
    have hadds' : Adds n (hi + 1) rest last := by
      rw [hrest]
      exact ((hadds.label_above "newSelLab").inst rfl).inst rfl
    refine ⟨cmp opr sel.1 (.jne (newLocalLab "newSelLab" hi) :: rest), hi + 1, ?_,
      (hadds'.inst rfl).cmp, ?_⟩
    · rw [foldr_cons, hfold, hrest]
      rfl
    · intro prog hnodup hsuffix x
      have hrest' : rest <:+ prog := (((Adds.refl 0 rest).inst rfl).cmp).suffix.trans hsuffix
      have hthere : .lab (newLocalLab "newSelLab" hi) :: code <:+ prog :=
        List.IsSuffix.trans (by rw [hrest]; exact ⟨[_, _], rfl⟩) hrest'
      have hlab := codeFrom_of_suffix hnodup rfl hthere
      refine Simulates.of_run (fun s hs => goNotEqual_run hopr hs sel.1 hlab rest) ?_
      rw [linearOutcome, List.find?_cons]
      by_cases heq : x.toInt = signed sel.1
      · simp only [heq, if_true, decide_true, hrest]
        exact fun s _ => ⟨_, s, .refl, rfl⟩
      · simp only [heq, if_false, decide_false]
        exact hsim prog hnodup ((suffix_cons _ _).trans hthere) x

theorem linearSearchNew_ok (hopr : AvoidsTmp opr) (sels : List (Int × β)) (default : β)
    (C : List (Inst β)) (n : Nat) :
    ∃ code hi, linearSearchNew (target opr) sels default (target opr).ifNotEqualGoLabSel C n =
        (code, hi) ∧
      Adds n hi code C ∧
      ∀ prog, (labelsIn labelOf prog).Nodup → code <:+ prog → ∀ (x : BitVec 64) s,
        Holds opr x s → ∀ branch,
        (RunsBranch prog code C s branch ↔
          (linearOutcome x sels).result default = some branch) := by
  obtain ⟨out, endswitch, mid, hexits, haddsEnd, hleaves⟩ := exits_ok opr C n
  obtain ⟨code, hi, hfold, hadds, hsim⟩ :=
    linearSels_ok hopr out (.body default :: endswitch C) mid sels
  refine ⟨code, hi, ?_, hadds.trans (haddsEnd.inst rfl), ?_⟩
  · rw [linearSearchNew, hexits]
    exact hfold
  · intro prog hnodup hsuffix x s hs branch
    have hending := (suffix_cons _ _).trans (hadds.suffix.trans hsuffix)
    exact runsBranch_iff hleaves hnodup hending (hsim prog hnodup hsuffix x s hs) branch

/-! ## Binary search -/

theorem tableStart_congr (hmem : ∀ i, i ∈ selectors ↔ i ∈ selectors') (i : Int) :
    TableStart selectors i ↔ TableStart selectors' i := by
  have hchain : ∀ k i, ChainFrom selectors k i ↔ ChainFrom selectors' k i := by
    intro k
    induction k with
    | zero => exact fun i => Iff.rfl
    | succ k ih =>
      intro i
      simp only [ChainFrom, hmem, ih]
  simp only [TableStart, hmem, hchain]

/-- The groups of distinct selectors. -/
theorem groupSelList_ok (opr : Ea) (hdistinct : (sels.map Prod.fst).Nodup)
    (hsize : sels.length ≤ 2 ^ 56) :
    ∃ groups, groupSelList (target opr) none none (selsSorted sels) [] [] = .ok groups ∧
      (∀ group ∈ groups, Group.Emittable group) ∧
      ∀ tree, Tree.groups tree = groups → TreeFor sels tree := by
  have hasc := selsSorted_reverse_ascending hdistinct
  obtain ⟨runs, hok, hruns, hsels⟩ := groupSelList_runs (t := target opr) (fun _ _ => rfl) hasc
  have hparts : (runs.flatMap Group.parts).flatMap Group.sels = (selsSorted sels).reverse := by
    rw [flatMap_assoc, ← hsels]
    simp only [parts_sels]
  have hmem : ∀ sel, sel ∈ (selsSorted sels).reverse ↔ sel ∈ sels := fun sel =>
    mem_reverse.trans (selsSorted_perm).mem_iff
  have hwf : ∀ group ∈ runs.flatMap Group.parts, group.Wf := by
    intro group hgroup
    obtain ⟨run, hrun, hpart⟩ := mem_flatMap.1 hgroup
    exact parts_wf (hruns.wf run hrun) hpart
  refine ⟨runs.flatMap Group.parts, hok, ?_, ?_⟩
  · intro group hgroup
    refine ⟨hwf group hgroup, ?_, ?_⟩
    · obtain ⟨run, hrun, hpart⟩ := mem_flatMap.1 hgroup
      have hpos : 0 < group.sels.length := by
        obtain ⟨_, _, h⟩ := (hwf group hgroup).start
        simp [h]
      rcases Nat.lt_or_ge 1 group.sels.length with hlong | hshort
      · obtain ⟨rfl, hlen⟩ := parts_length hpart hlong
        exact .inr hlen
      · exact .inl (by omega)
    · have hsub : group.sels.Sublist ((runs.flatMap Group.parts).flatMap Group.sels) :=
        sublist_flatten_of_mem (mem_map_of_mem hgroup)
      have hle := hsub.length_le
      rw [hparts, length_reverse, (selsSorted_perm).length_eq] at hle
      exact le_trans hle hsize
  · intro tree htree
    refine ⟨by rwa [htree], by rw [htree, hparts]; exact hasc, ?_, ?_⟩
    · rw [htree, hparts]
      exact hmem
    · intro i
      rw [htree, hruns.table_iff, hsels]
      refine tableStart_congr (fun i => ?_) i
      simp only [mem_map, hmem]

theorem binarySearchNew_ok (hopr : AvoidsTmp opr) (hdistinct : (sels.map Prod.fst).Nodup)
    (hsize : sels.length ≤ 2 ^ 56) (hmany : BI.minCodeInBinSearch ≤ sels.length) (default : β)
    (C : List (Inst β)) (n : Nat) :
    ∃ code hi tree, binarySearchNew (target opr) sels default C n = .ok (code, hi) ∧
      TreeFor sels tree ∧ Adds n hi code C ∧
      ∀ prog, (labelsIn labelOf prog).Nodup → code <:+ prog → ∀ (x : BitVec 64) s,
        Holds opr x s → ∀ branch,
        (RunsBranch prog code C s branch ↔ (tree.search x).result default = some branch) := by
  obtain ⟨out, endswitch, mid, hexits, haddsEnd, hleaves⟩ := exits_ok opr C n
  obtain ⟨groups, hgroups, hemit, htree⟩ := groupSelList_ok opr hdistinct hsize
  have hne : groups ≠ [] := by
    rintro rfl
    have hmem := (htree .leaf rfl).mem
    cases sels with
    | nil => simp [BI.minCodeInBinSearch] at hmany
    | cons sel rest => simpa [Tree.groups] using hmem sel
  obtain ⟨split, tree, code, hi, hsplit, hgen, htreeGroups, hadds, hsearch⟩ :=
    genBinarySwitch_ok hopr out (newLocalLab "defaultLab" mid) groups.length groups
      (newLocalLab "defaultLab" mid) (.body default :: endswitch C) (mid + 1) hne (le_refl _) hemit
  have haddsDefault := hadds.trans ((haddsEnd.inst rfl).label_above "defaultLab")
  refine ⟨code, hi, tree, ?_, htree tree htreeGroups, haddsDefault, ?_⟩
  · rw [binarySearchNew, if_neg (not_lt.2 hmany), hexits]
    refine (ok_bind hgroups).trans ((ok_bind hsplit).trans ?_)
    exact ok_bind hgen
  · intro prog hnodup hsuffix x s hs branch
    have hdefault := hadds.suffix.trans hsuffix
    have hending := (suffix_cons _ _).trans ((suffix_cons _ _).trans hdefault)
    have hlast := codeFrom_of_suffix hnodup rfl hdefault
    exact runsBranch_iff hleaves hnodup hending (hsearch prog _ hnodup hsuffix hlast x s hs) branch

/-! ## Switches on integers and words -/

/-- The numbers of a precision: those of `SWITCH_I` are signed, those of
`SWITCH_W` are not. -/
def InRange (isSigned : Bool) (precision : Nat) (value : Int) : Prop :=
  if isSigned then -2 ^ (precision - 1) ≤ value ∧ value < 2 ^ (precision - 1)
  else 0 ≤ value ∧ value < 2 ^ precision

/-- The representation of a number: with a tag bit for precision 31 and 63. -/
def rep (precision : Nat) (value : Int) : Int :=
  if precision = 31 ∨ precision = 63 then 2 * value + 1 else value

section Precision

variable {precision : Nat}
  (hprecision : precision = 31 ∨ precision = 32 ∨ precision = 63 ∨ precision = 64)

theorem rep_inj (heq : rep precision value = rep precision value') : value = value' := by
  simp only [rep] at heq
  split at heq <;> omega

include hprecision

theorem maybeTagIntOrWord_eq (value : Int) :
    maybeTagIntOrWord value precision = .ok (rep precision value) := by
  rcases hprecision with rfl | rfl | rfl | rfl <;> rfl

theorem rep_fits (hvalue : InRange isSigned precision value) :
    Fits64 isSigned (rep precision value) := by
  cases isSigned with
  | true =>
    simp only [InRange, Fits64, if_true] at hvalue ⊢
    rcases hprecision with rfl | rfl | rfl | rfl <;> simp [rep] at hvalue ⊢ <;> omega
  | false =>
    simp only [InRange, Fits64, Bool.false_eq_true, if_false] at hvalue ⊢
    rcases hprecision with rfl | rfl | rfl | rfl <;> simp [rep] at hvalue ⊢ <;> omega

end Precision

/-- The selectors as they are represented. -/
def repSels (precision : Nat) (sels : List (Int × β)) : List (Int × β) :=
  sels.map fun sel => (rep precision sel.1, sel.2)

theorem repSels_lookup {sels : List (Int × β)}
    (hsels : ∀ sel ∈ sels, i = rep precision sel.1 ↔ value = sel.1) :
    (repSels precision sels).lookup i = sels.lookup value := by
  induction sels with
  | nil => rfl
  | cons sel rest ih =>
    have hbeq : (i == rep precision sel.1) = (value == sel.1) := by
      rw [Bool.eq_iff_iff, beq_iff_eq, beq_iff_eq]
      exact hsels sel (mem_cons_self ..)
    rw [repSels, map_cons, lookup_cons, lookup_cons, hbeq,
      ← ih fun sel hsel => hsels sel (.tail _ hsel)]
    rfl

theorem repSels_keys (precision : Nat) (sels : List (Int × β)) :
    (repSels precision sels).map Prod.fst = (sels.map Prod.fst).map (rep precision) := by
  simp [repSels]

theorem binarySearch_eq
    (hprecision : precision = 31 ∨ precision = 32 ∨ precision = 63 ∨ precision = 64)
    (sels : List (Int × β)) (default : β) (opr : Ea) (C : List (Inst β)) (n : Nat) :
    binarySearch sels default opr (maybeTagIntOrWord · precision) C n =
      binarySearchNew (target opr) (repSels precision sels) default C n := by
  have hmap : (sels.mapM fun (i, e) => do return (← maybeTagIntOrWord i precision, e)) =
      Except.ok (repSels precision sels) := by
    induction sels with
    | nil => rfl
    | cons sel rest ih =>
      rw [mapM_cons, ih]
      simp only [maybeTagIntOrWord_eq hprecision]
      rfl
  exact ok_bind hmap

/-- A register or box holds a number. Of a number of 31 or 32 bits only the low half is known:
additions clear the upper half, literals extend the sign to it, and conversions from larger words
copy it. An integer of 31 bits has its sign or zeros there. -/
def Held (isSigned : Bool) (precision : Nat) (value : Int) (x : BitVec 64) : Prop :=
  if precision = 31 ∨ precision = 32 then
    x.setWidth 32 = .ofInt 32 (rep precision value) ∧
      (isSigned = true → precision = 31 → x.toNat < 2 ^ 32 ∨ x.toInt = rep precision value)
  else x = .ofInt 64 (rep precision value)

/-- The comparisons with the selectors, which are made on 64 bits, see the number. -/
def Compared (isSigned : Bool) (precision : Nat) (selectors : List Int) : Prop :=
  precision = 31 ∨ precision = 32 → ∀ i ∈ selectors, isSigned = true ∧ precision = 31 ∧ 0 ≤ i

/-- Code made for a default branch and a continuation, and what it comes to for an operand. -/
def Made (opr : Ea) (default : β) (C : List (Inst β)) (n : Nat)
    (made : Except String (List (Inst β) × Nat)) (outcome : BitVec 64 → Outcome β) : Prop :=
  ∃ code hi, made = .ok (code, hi) ∧ Adds n hi code C ∧
    ∀ prog, (labelsIn labelOf prog).Nodup → code <:+ prog → ∀ x s, Holds opr x s → ∀ branch,
      (RunsBranch prog code C s branch ↔ (outcome x).result default = some branch)

/-- Code that runs the selected branch, whatever operand holds the number. -/
def Generates (opr : Ea) (isSigned : Bool) (precision : Nat) (sels : List (Int × β)) (default : β)
    (C : List (Inst β)) (n : Nat) (made : Except String (List (Inst β) × Nat)) : Prop :=
  ∃ outcome, Made opr default C n made outcome ∧ ∀ value, InRange isSigned precision value →
    ∀ x, Held isSigned precision value x →
      (outcome x).result default = some ((sels.lookup value).getD default)

section Selects

variable {precision : Nat} {sels : List (Int × β)}

variable {opr : Ea} {reg : Reg} (hoperand : opr = .R reg ∨ opr = .D 8 reg)
  (hrange : ∀ sel ∈ sels, InRange isSigned precision sel.1)
  (hdistinct : (sels.map Prod.fst).Nodup)

include hoperand hrange hdistinct

end Selects

/-! ## Operands of 31 and 32 bits -/

section Operands

variable {precision : Nat}
  (hprecision : precision = 31 ∨ precision = 32 ∨ precision = 63 ∨ precision = 64)

theorem toNat_of_setWidth {x : BitVec 64} (h : x.setWidth 32 = BitVec.ofInt 32 r) :
    ((x.toNat % 2 ^ 32 : Nat) : Int) = r % 2 ^ 32 := by
  have hnat := congrArg BitVec.toNat h
  rw [BitVec.toNat_setWidth, BitVec.toNat_ofInt] at hnat
  omega

include hprecision

/-- The comparison of the whole register with a selector is that of the numbers. -/
theorem Compared.toInt_eq {selectors : List Int} (h : Compared isSigned precision selectors)
    (hvalue : InRange isSigned precision value) (hx : Held isSigned precision value x)
    (hi : i ∈ selectors) (hrange : InRange isSigned precision i) :
    x.toInt = signed (rep precision i) ↔ value = i := by
  by_cases hhalf : precision = 31 ∨ precision = 32
  · obtain ⟨rfl, rfl, hpos⟩ := h hhalf i hi
    rw [Held, if_pos hhalf] at hx
    obtain ⟨hlow, hextended⟩ := hx
    have hlow := toNat_of_setWidth hlow
    simp only [InRange, if_true, rep, true_or] at hvalue hrange hlow hextended ⊢
    rw [signed_of_lt (by omega) (by omega)]
    rcases hextended trivial trivial with hzero | hsign
    · rw [BitVec.toInt_eq_toNat_cond]
      split <;> omega
    · omega
  · rw [Held, if_neg hhalf] at hx
    subst hx
    refine ⟨fun heq => ?_, fun heq => heq ▸ rfl⟩
    exact rep_inj ((rep_fits hprecision hvalue).signed_inj (rep_fits hprecision hrange) heq)

omit hprecision

end Operands

/-! ## Linear and binary search -/

section Searches

variable {precision : Nat}
  (hprecision : precision = 31 ∨ precision = 32 ∨ precision = 63 ∨ precision = 64)
  {sels : List (Int × β)} (hrange : ∀ sel ∈ sels, InRange isSigned precision sel.1)

include hrange hprecision

theorem repSels_fits : ∀ i ∈ (repSels precision sels).map Prod.fst, Fits64 isSigned i := by
  intro i hi
  obtain ⟨value, hvalue, rfl⟩ := mem_map.1 hi
  obtain ⟨sel, hsel, rfl⟩ := mem_map.1 hvalue
  exact rep_fits hprecision (hrange sel hsel)

theorem Compared.sees (h : Compared isSigned precision (sels.map Prod.fst))
    (hvalue : InRange isSigned precision value) (hx : Held isSigned precision value x) :
    ∀ sel ∈ sels, x.toInt = signed (rep precision sel.1) ↔ value = sel.1 := fun sel hsel =>
  h.toInt_eq hprecision hvalue hx (mem_map_of_mem hsel) (hrange sel hsel)

omit hrange hprecision

theorem linearOutcome_result (default : β)
    (hsels : ∀ sel ∈ sels, x.toInt = signed (rep precision sel.1) ↔ value = sel.1) :
    (linearOutcome x (repSels precision sels)).result default =
      some ((sels.lookup value).getD default) := by
  induction sels with
  | nil => rfl
  | cons sel rest ih =>
    have ih := ih fun sel hsel => hsels sel (.tail _ hsel)
    rw [linearOutcome, repSels, map_cons, List.find?_cons, lookup_cons]
    by_cases heq : value = sel.1
    · simp [(hsels sel (mem_cons_self ..)).2 heq, heq, Outcome.result]
    · have hne : ¬ x.toInt = signed (rep precision sel.1) := fun h =>
        heq ((hsels sel (mem_cons_self ..)).1 h)
      have hbeq : (value == sel.1) = false := by simpa using heq
      simp only [hne, decide_false, hbeq]
      exact ih

theorem linear_made (hopr : AvoidsTmp opr) (default : β) (C : List (Inst β)) (n : Nat) :
    Made opr default C n (.ok (linearSearchNew (target opr)
      (repSels precision sels) default (target opr).ifNotEqualGoLabSel C n))
      fun x => linearOutcome x (repSels precision sels) := by
  obtain ⟨code, hi, hok, hadds, hrun⟩ :=
    linearSearchNew_ok hopr (repSels precision sels) default C n
  exact ⟨code, hi, congrArg Except.ok hok, hadds, hrun⟩

variable (hdistinct : (sels.map Prod.fst).Nodup) (hsize : sels.length ≤ 2 ^ 56)

include hdistinct

theorem repSels_distinct (precision : Nat) : ((repSels precision sels).map Prod.fst).Nodup := by
  rw [repSels_keys]
  exact hdistinct.map fun _ _ => rep_inj

include hsize hprecision

theorem binary_made (hopr : AvoidsTmp opr) (hmany : BI.minCodeInBinSearch ≤ sels.length)
    (default : β) (C : List (Inst β)) (n : Nat) :
    ∃ tree, TreeFor (repSels precision sels) tree ∧
      Made opr default C n (binarySearch sels default opr (maybeTagIntOrWord · precision) C n)
        tree.search := by
  obtain ⟨code, hi, tree, hok, htree, hadds, hrun⟩ := binarySearchNew_ok hopr
    (repSels_distinct hdistinct precision) (by simpa [repSels] using hsize)
    (by simpa [repSels] using hmany) default C n
  refine ⟨tree, htree, code, hi, ?_, hadds, hrun⟩
  rw [binarySearch_eq hprecision, hok]

omit hdistinct hsize

theorem binary_few (hfew : sels.length < BI.minCodeInBinSearch) (default : β) (C : List (Inst β))
    (n : Nat) : binarySearch sels default opr (maybeTagIntOrWord · precision) C n =
      .ok (linearSearchNew (target opr) (repSels precision sels) default
        (target opr).ifNotEqualGoLabSel C n) := by
  have hfew' : (repSels precision sels).length < BI.minCodeInBinSearch := by simpa [repSels]
  rw [binarySearch_eq hprecision, binarySearchNew, if_pos hfew']

include hrange

/-- The tree over the selectors finds each of them: all are on one side of the sign bit, and no
jump table starts at one that is too large for a displacement. -/
def TreeFinds (selectors : List Int) : Prop :=
  OneSided selectors ∧ ∀ i, TableStart selectors i → Encodable (-8 * i)

/-- The search finds what the selectors say of an operand that they are compared with. -/
theorem search_result {tree : Tree β} (htree : TreeFor (repSels precision sels) tree)
    (hfinds : TreeFinds ((sels.map Prod.fst).map (rep precision)))
    (hsels : ∀ sel ∈ sels, x.toInt = signed (rep precision sel.1) ↔ value = sel.1) (default : β) :
    (tree.search x).result default = some ((sels.lookup value).getD default) := by
  obtain ⟨i, hi, rfl⟩ : ∃ i, Fits64 isSigned i ∧ BitVec.ofInt 64 i = x := by
    cases isSigned with
    | true => exact ⟨x.toInt, ⟨BitVec.le_toInt x, BitVec.toInt_lt⟩, BitVec.ofInt_toInt⟩
    | false =>
      have hlt := x.isLt
      exact ⟨x.toNat, ⟨by omega, by omega⟩, by simp⟩
  rw [← repSels_keys] at hfinds
  have hlookup : (repSels precision sels).lookup i = sels.lookup value :=
    repSels_lookup fun sel hsel => by
      rw [← hsels sel hsel]
      refine ⟨fun heq => heq ▸ rfl, fun heq => ?_⟩
      exact hi.signed_inj (rep_fits hprecision (hrange sel hsel)) heq
  rw [htree.search_right (repSels_fits hprecision hrange) hfinds.1 hfinds.2 hi, hlookup]
  cases sels.lookup value with
  | none | some branch => rfl

theorem linear_generates (hopr : AvoidsTmp opr)
    (hcompared : Compared isSigned precision (sels.map Prod.fst))
    (default : β) (C : List (Inst β)) (n : Nat) :
    Generates opr isSigned precision sels default C n (.ok (linearSearchNew (target opr)
      (repSels precision sels) default (target opr).ifNotEqualGoLabSel C n)) :=
  ⟨_, linear_made hopr default C n, fun _ hvalue _ hx =>
    linearOutcome_result default (hcompared.sees hprecision hrange hvalue hx)⟩

include hdistinct hsize

theorem binary_generates (hopr : AvoidsTmp opr)
    (hcompared : Compared isSigned precision (sels.map Prod.fst))
    (hwhen : sels.length < BI.minCodeInBinSearch ∨
      TreeFinds ((sels.map Prod.fst).map (rep precision)))
    (default : β) (C : List (Inst β)) (n : Nat) :
    Generates opr isSigned precision sels default C n
      (binarySearch sels default opr (maybeTagIntOrWord · precision) C n) := by
  rcases Nat.lt_or_ge sels.length BI.minCodeInBinSearch with hfew | hmany
  · rw [binary_few hprecision hfew]
    exact linear_generates hprecision hrange hopr hcompared default C n
  · have hfinds := hwhen.resolve_left (not_lt.2 hmany)
    obtain ⟨tree, htree, hmade⟩ := binary_made hprecision hdistinct hsize hopr hmany default C n
    exact ⟨_, hmade, fun value hvalue x hx => search_result hprecision hrange htree hfinds
      (hcompared.sees hprecision hrange hvalue hx) default⟩

end Searches

section Iff

variable [Infinite β] {opr : Ea} {reg : Reg} (hopr : AvoidsTmp opr)
  (hoperand : opr = .R reg ∨ opr = .D 8 reg) {precision : Nat}
  (hprecision : precision = 31 ∨ precision = 32 ∨ precision = 63 ∨ precision = 64)
  {sels : List (Int × β)} (hrange : ∀ sel ∈ sels, InRange isSigned precision sel.1)
  (hdistinct : (sels.map Prod.fst).Nodup)

include hoperand hrange hdistinct

include hopr hprecision

end Iff

end MLKit.X64.Switch
