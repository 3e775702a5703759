import MLKit.Lib.Except
import MLKit.X64.SwitchSim

/-!
# The emitted search code

What `genBinarySwitch` emits for groups of selectors: new labels only, and code
that simulates a search tree over the groups.
-/

namespace MLKit.X64.Switch

open MLKit.Backend MLKit.Backend.JumpTables MLKit.Lib List Option BitVec

variable {β : Type}

/-! ## New labels -/

/-- Local labels with numbers from `lo` up to `hi`, none of them twice. -/
structure FreshLabels (lo hi : Nat) (labs : List Lab) : Prop where
  nodup : labs.Nodup
  range : ∀ lab ∈ labs, ∃ name i, lab = .localLab name i ∧ lo ≤ i ∧ i < hi

/-- `code` is `C` behind instructions that define new labels only. -/
def Adds (lo hi : Nat) (code C : List (Inst β)) : Prop :=
  lo ≤ hi ∧ ∃ front, code = front ++ C ∧ FreshLabels lo hi (labelsIn labelOf front)

variable {lo hi n lo' hi' mid : Nat} {code C code' front prog last : List (Inst β)} {opr out : Ea}
  {i sel start finish key : Int} {lab lab' leftLab rightLab defaultLab : Lab} {found : Option β}
  {s : State β} {offset : BitVec 64} {tree left right : Tree β}

namespace Adds

theorem refl (lo : Nat) (C : List (Inst β)) : Adds lo lo C C :=
  ⟨le_refl lo, [], rfl, nodup_nil, by simp⟩

theorem suffix (h : Adds lo hi code C) : C <:+ code := by
  obtain ⟨_, front, rfl, _⟩ := h
  exact ⟨front, rfl⟩

theorem inst {lo hi : Nat} {code C : List (Inst β)}
    {inst : Inst β} (hinst : labelOf inst = none) (h : Adds lo hi code C) :
    Adds lo hi (inst :: code) C := by
  obtain ⟨hle, front, rfl, hfresh⟩ := h
  refine ⟨hle, inst :: front, rfl, ?_⟩
  simpa [labelsIn_cons, hinst] using hfresh

/-- A label with a number outside the range of the later ones. -/
theorem label (name : String) (h : Adds lo hi code C) (hn : n < lo ∨ hi ≤ n)
    (hlo : lo' ≤ lo ∧ lo' ≤ n) (hhi : hi ≤ hi' ∧ n < hi') :
    Adds lo' hi' (.lab (newLocalLab name n) :: code) C := by
  obtain ⟨hle, front, rfl, hfresh⟩ := h
  refine ⟨by omega, .lab (newLocalLab name n) :: front, rfl, ?_, ?_⟩
  · refine nodup_cons.2 ⟨?_, hfresh.nodup⟩
    intro hmem
    obtain ⟨name', i, heq, hi⟩ := hfresh.range _ hmem
    cases heq
    omega
  · refine forall_mem_cons.2 ⟨⟨name, n, rfl, by omega⟩, ?_⟩
    intro lab hlab
    obtain ⟨name', i, heq, hi⟩ := hfresh.range lab hlab
    exact ⟨name', i, heq, by omega⟩

theorem label_below (name : String) (h : Adds (n + 1) hi code C) :
    Adds n hi (.lab (newLocalLab name n) :: code) C :=
  h.label name (by omega) (by omega) ⟨le_refl hi, h.1⟩

theorem label_above (name : String) (h : Adds lo n code C) :
    Adds lo (n + 1) (.lab (newLocalLab name n) :: code) C :=
  h.label name (by omega) ⟨le_refl lo, h.1⟩ (by omega)

/-- Code emitted later, with greater label numbers, stands in front. -/
theorem trans (h : Adds mid hi code' code) (h' : Adds lo mid code C) : Adds lo hi code' C := by
  obtain ⟨hle, front, rfl, hfresh⟩ := h
  obtain ⟨hle', front', rfl, hfresh'⟩ := h'
  refine ⟨le_trans hle' hle, front ++ front', by simp, ?_, ?_⟩
  · rw [labelsIn_append]
    refine nodup_append.2 ⟨hfresh.nodup, hfresh'.nodup, ?_⟩
    intro lab hlab lab' hlab'
    obtain ⟨name, i, rfl, hi⟩ := hfresh.range lab hlab
    obtain ⟨name', i', rfl, hi'⟩ := hfresh'.range lab' hlab'
    intro heq
    cases heq
    omega
  · rw [labelsIn_append]
    refine forall_mem_append.2 ⟨?_, ?_⟩
    · intro lab hlab
      obtain ⟨name, i, heq, hi⟩ := hfresh.range lab hlab
      exact ⟨name, i, heq, by omega⟩
    · intro lab hlab
      obtain ⟨name, i, heq, hi⟩ := hfresh'.range lab hlab
      exact ⟨name, i, heq, by omega⟩

theorem cmp (h : Adds lo hi code C) :
    Adds lo hi (Switch.cmp opr i code) C := by
  rw [Switch.cmp]
  split
  · exact h.inst rfl
  · exact (h.inst rfl).inst rfl

theorem quads {lo hi : Nat} {code C : List (Inst β)} {quads : List Lab} (h : Adds lo hi code C) :
    Adds lo hi (quads.map Inst.dotQuad ++ code) C := by
  induction quads with
  | nil => exact h
  | cons quad quads ih => exact ih.inst rfl

theorem jumpTableHeader (h : Adds lo hi (.lab lab' :: code) C) :
    Adds lo hi (Switch.jumpTableHeader opr lab sel (.lab lab' :: code)) C := by
  refine inst rfl (inst rfl (inst rfl (inst rfl (inst rfl (inst rfl (inst rfl ?_))))))
  exact h

theorem binSearchCode (h : Adds lo hi code C) :
    Adds lo hi (JumpTables.binSearchCode (target opr) leftLab start finish rightLab code) C := by
  rw [JumpTables.binSearchCode]
  split
  · split
    · exact (h.inst rfl).cmp
    · exact (((h.inst rfl).cmp).inst rfl).cmp
  · exact (((h.inst rfl).cmp).inst rfl).cmp

/-- Labels of a whole program: those around the new code have smaller numbers. -/
theorem nodup (h : Adds lo hi code C)
    (hold : ∀ lab ∈ labelsIn labelOf (front ++ C), ∀ name i, lab = .localLab name i → i < lo)
    (hnodup : (labelsIn labelOf (front ++ C)).Nodup) :
    (labelsIn labelOf (front ++ code)).Nodup := by
  obtain ⟨hle, new, rfl, hfresh⟩ := h
  have hperm : (labelsIn labelOf (front ++ (new ++ C))).Perm
      (labelsIn labelOf new ++ labelsIn labelOf (front ++ C)) := by
    simp only [labelsIn_append]
    exact perm_append_comm_assoc _ _ _
  refine hperm.nodup_iff.2 (nodup_append.2 ⟨hfresh.nodup, hnodup, ?_⟩)
  intro lab hlab lab' hlab'
  obtain ⟨name, i, rfl, hi⟩ := hfresh.range lab hlab
  rintro rfl
  have := hold _ hlab' name i rfl
  omega

end Adds

/-! ## Jump tables -/

/-- How a branch leaves the switch. -/
def leave (out : Ea) (C : List (Inst β)) : List (Inst β) := .jmp out :: remDeadCode C

/-- The label of a jump table's word: that of a selected branch, or of the default branch. -/
def WordFor (out : Ea) (defaultLab : Lab) (code : List (Inst β)) (lab : Lab) : Option β → Prop
  | some branch => ∃ rest, .lab lab :: .body branch :: .jmp out :: rest <:+ code
  | none => lab = defaultLab

theorem WordFor.mono (h : WordFor out defaultLab code lab found) (hsuffix : code <:+ code') :
    WordFor out defaultLab code' lab found := by
  cases found with
  | none => exact h
  | some branch => exact h.imp fun _ hrest => hrest.trans hsuffix

/-- The words of a jump table from selector `next` on. -/
structure TableFor (out : Ea) (defaultLab : Lab) (code : List (Inst β)) (next : Int)
    (sels : List (Int × β)) (quads : List Lab) : Prop where
  covers : ∀ sel ∈ sels, (sel.1 - next).toNat < quads.length
  word : ∀ (i : Nat) lab, quads[i]? = some lab →
    WordFor out defaultLab code lab (sels.lookup (next + i))

theorem lookup_of_lt {sels : List (Int × β)} (hlt : ∀ sel ∈ sels, key < sel.1) :
    sels.lookup key = none := by
  refine lookup_eq_none_iff.2 fun sel hsel => ?_
  have := hlt sel hsel
  simp only [bne_iff_ne, ne_eq]
  omega

theorem makeSelCode_ok (opr out : Ea) (defaultLab : Lab) (fuel : Nat) :
    ∀ (next : Int) (sels : List (Int × β)) (lab : Lab) (C : List (Inst β)) (n : Nat),
    Ascending sels → (∀ sel ∈ sels, next ≤ sel.1 ∧ sel.1 < next + fuel) →
    ∃ (quads : List Lab) (lab' : Lab) (code : List (Inst β)) (hi : Nat),
      makeSelCode (target opr) (leave out) defaultLab fuel next sels (.lab lab :: C) n =
        .ok (quads.map Inst.dotQuad, .lab lab' :: code, hi) ∧
      Adds n hi (.lab lab' :: code) (.lab lab :: C) ∧
      TableFor out defaultLab (.lab lab' :: code) next sels quads := by
  induction fuel with
  | zero =>
    intro next sels lab C n _ hrange
    cases sels with
    | nil => exact ⟨[], lab, C, n, rfl, Adds.refl n _, by simp, by simp⟩
    | cons sel rest =>
      have := hrange sel (mem_cons_self ..)
      omega
  | succ fuel ih =>
    intro next sels lab C n hasc hrange
    cases sels with
    | nil => exact ⟨[], lab, C, n, rfl, Adds.refl n _, by simp, by simp⟩
    | cons sel rest =>
      obtain ⟨key, branch⟩ := sel
      have hasc' := pairwise_cons.1 hasc
      have hkey : next ≤ key ∧ key < next + (fuel + 1 : Nat) := hrange _ (mem_cons_self ..)
      by_cases heq : next = key
      · subst heq
        obtain ⟨quads, lab', code, hi, hok, hadds, htable⟩ :=
          ih (next + 1) rest lab C n hasc'.2 fun sel hsel => by
            have h1 : next < sel.1 := hasc'.1 sel hsel
            have h2 := hrange sel (.tail _ hsel)
            omega
        refine ⟨newLocalLab "selLab" hi :: quads, newLocalLab "selLab" hi,
          .body branch :: .jmp out :: .lab lab' :: code, hi + 1, ?_, ?_, ?_, ?_⟩
        · rw [makeSelCode, if_pos rfl, hok]
          rfl
        · exact Adds.label_above "selLab" ((hadds.inst rfl).inst rfl)
        · refine forall_mem_cons.2 ⟨by simp, fun sel hsel => ?_⟩
          have h1 : next < sel.1 := hasc'.1 sel hsel
          have h2 := htable.covers sel hsel
          rw [length_cons]
          omega
        · intro i lab hquad
          cases i with
          | zero =>
            rw [Nat.cast_zero, Int.add_zero, lookup_cons_self]
            cases hquad
            exact ⟨.lab lab' :: code, suffix_refl _⟩
          | succ i =>
            have hne : (next + (i + 1 : Nat) == next) = false := by
              simp only [beq_eq_false_iff_ne]
              omega
            have hword := htable.word i lab hquad
            rw [Int.add_assoc, Int.add_comm 1] at hword
            rw [lookup_cons, hne]
            exact hword.mono ⟨[_, _, _], rfl⟩
      · -- A hole: the selectors stay, the next word is for the next number.
        obtain ⟨quads, lab', code, hi, hok, hadds, htable⟩ :=
          ih (next + 1) ((key, branch) :: rest) lab C n hasc fun sel hsel => by
            have h1 := hrange sel hsel
            rcases mem_cons.1 hsel with rfl | hsel
            · omega
            · have h2 : key < sel.1 := hasc'.1 sel hsel
              omega
        have hlt : ∀ sel ∈ (key, branch) :: rest, next < sel.1 := by
          refine forall_mem_cons.2 ⟨by simp only; omega, fun sel hsel => ?_⟩
          have h2 : key < sel.1 := hasc'.1 sel hsel
          omega
        refine ⟨defaultLab :: quads, lab', code, hi, ?_, hadds, ?_, ?_⟩
        · rw [makeSelCode, if_neg heq, hok]
          rfl
        · intro sel hsel
          have h1 := htable.covers sel hsel
          rw [length_cons]
          omega
        · intro i lab hquad
          cases i with
          | zero =>
            rw [Nat.cast_zero, Int.add_zero, lookup_of_lt hlt]
            cases hquad
            rfl
          | succ i =>
            have hword := htable.word i lab hquad
            rwa [Int.add_assoc, Int.add_comm 1] at hword

variable {x : BitVec 64}

theorem jumpTableHeader_run (prog : List (Inst β)) (hs : Holds opr x s) (lab : Lab)
    (sel : Int) (C : List (Inst β)) :
    ∃ s', Reaches (step prog) ⟨jumpTableHeader opr lab sel C, s⟩
        ⟨.jmp (.D (-8 * sel) RI.tmpReg0) :: remDeadCode C, s'⟩ ∧
      s'.regs RI.tmpReg0 = .ptr lab (x <<< 3) ∧ s'.trace = s.trace := by
  rw [Holds] at hs
  have hmove : step prog ⟨jumpTableHeader opr lab sel C, s⟩ =
      some ⟨(jumpTableHeader opr lab sel C).tail, s.setReg RI.tmpReg0 (.num x)⟩ := by
    simp [jumpTableHeader, step, hs, write]
  refine ⟨_, .head hmove (.head rfl (.head rfl (.head rfl (.head rfl (.single rfl))))), ?_, rfl⟩
  simp [State.setReg, State.setMem, RI.tmpReg0, RI.tmpReg1]

theorem tableWord_eq {i : Nat} (hnodup : (labelsIn labelOf prog).Nodup) {quads : List Lab}
    (hsuffix : .lab lab :: (quads.map Inst.dotQuad ++ Inst.lab lab' :: code) <:+ prog)
    (hoffset : offset.toNat = 8 * i) :
    tableWord prog lab offset = quads[i]? := by
  have hfrom := codeFrom_of_suffix hnodup rfl hsuffix
  have htake : (quads.map Inst.dotQuad ++ Inst.lab lab' :: code).takeWhile
      (fun inst => (quadOf inst).isSome) = quads.map Inst.dotQuad := by
    rw [takeWhile_append_of_pos]
    · simp [quadOf]
    · intro inst hinst
      obtain ⟨quad, _, rfl⟩ := mem_map.1 hinst
      rfl
  simp only [tableWord, hfrom, bind_eq_bind, bind_some, htake, hoffset]
  rw [if_pos (Nat.mul_mod_right 8 i), Nat.mul_div_cancel_left i (by decide), getElem?_map]
  cases quads[i]? with
  | none | some quad => rfl

/-- The distance of the operand's word from the label of its table. -/
theorem table_offset {i : Nat} (hi : x.toInt - signed sel = i) (hlt : i < 2 ^ 60) :
    (x <<< 3 + BitVec.ofInt 64 (-8 * sel)).toNat = 8 * i := by
  have hx := toInt_eq_toNat_bmod x
  have hsel : signed sel = sel.bmod (2 ^ 64) := toInt_ofInt ..
  rw [hsel, hx] at hi
  simp only [toNat_add, toNat_shiftLeft, toNat_ofInt, Nat.shiftLeft_eq]
  simp only [Int.bmod_def] at hi
  omega

/-- Between bounds less than a word apart, signed order does not change
distances. -/
theorem signed_sub (hle : start ≤ finish) (hlt : finish - start < 2 ^ 64)
    (hsigned : signed start ≤ signed finish) : signed finish - signed start = finish - start := by
  have hstart : signed start = start.bmod (2 ^ 64) := toInt_ofInt ..
  have hfinish : signed finish = finish.bmod (2 ^ 64) := toInt_ofInt ..
  rw [hstart, hfinish, Int.bmod_def, Int.bmod_def] at hsigned ⊢
  omega

/-- Groups of the binary search whose words fit in the address space. -/
structure Group.Emittable (group : JumpTables.Group β) : Prop where
  wf : group.Wf
  size : group.sels.length = 1 ∨ BI.minJumpTabSize ≤ group.sels.length
  small : group.sels.length ≤ 2 ^ 56

namespace Group.Emittable

variable {group : JumpTables.Group β} (hgroup : Group.Emittable group)

include hgroup

theorem finishSel_sub_lt : group.finishSel - group.startSel < 2 ^ 60 := by
  have h1 := hgroup.wf.finishSel_le
  have h2 := hgroup.small
  simp only [BI.maxDiff] at h1
  omega

/-- The operand's place in a group that it is inside of. -/
theorem exists_index (hge : signed group.startSel ≤ x.toInt)
    (hle : x.toInt ≤ signed group.finishSel) :
    ∃ i : Nat, x.toInt - signed group.startSel = i ∧
      i ≤ (group.finishSel - group.startSel).toNat ∧ i < 2 ^ 60 := by
  have h1 := hgroup.wf.startSel_le_finishSel
  have h2 := hgroup.finishSel_sub_lt
  have h3 := signed_sub h1 (by omega) (le_trans hge hle)
  exact ⟨(x.toInt - signed group.startSel).toNat, by omega, by omega, by omega⟩

end Group.Emittable

variable {group : JumpTables.Group β}

section Emitted

variable {prog : List (Inst β)} (hnodup : (labelsIn labelOf prog).Nodup) {last : List (Inst β)}
  (hlast : codeFrom labelOf defaultLab prog = some last)

include hnodup hlast

theorem table_simulates {quads : List Lab}
    (hgroup : Group.Emittable group) (hlong : 1 < group.sels.length)
    (htable : TableFor out defaultLab (.lab lab' :: code) group.startSel group.sels quads)
    (hsuffix : .lab lab :: (quads.map Inst.dotQuad ++ Inst.lab lab' :: code) <:+ prog)
    (hge : signed group.startSel ≤ x.toInt) (hle : x.toInt ≤ signed group.finishSel) :
    Simulates prog opr x out last (jumpTableHeader opr lab group.startSel
      (.lab lab :: (quads.map Inst.dotQuad ++ Inst.lab lab' :: code))) (enter x group) := by
  intro s hs
  obtain ⟨s', hrun, htmp, htrace⟩ := jumpTableHeader_run prog hs lab group.startSel
    (.lab lab :: (quads.map Inst.dotQuad ++ Inst.lab lab' :: code))
  refine Lands.of_reaches ?_ hrun htrace
  by_cases henc : Encodable (-8 * group.startSel)
  · obtain ⟨i, hi, hile, hilt⟩ := hgroup.exists_index hge hle
    obtain ⟨selCode, hfinish⟩ := hgroup.wf.finishSel_mem
    have hcovers := htable.covers _ hfinish
    obtain ⟨quad, hquad⟩ : ∃ quad, quads[i]? = some quad :=
      ⟨_, getElem?_eq_getElem (by simp only at hcovers; omega)⟩
    have hword := (tableWord_eq hnodup hsuffix (table_offset hi hilt)).trans hquad
    have hjump : ∀ rest, step prog ⟨.jmp (.D (-8 * group.startSel) RI.tmpReg0) :: rest, s'⟩ =
        goto prog quad s' := by
      intro rest
      simp only [step, address, if_pos henc, htmp, Value.shift, bind_eq_bind,
        bind_some, indirect, hword]
    have htarget := htable.word i quad hquad
    rw [enter, if_neg (fun h => h.2 henc), hi]
    cases hlook : group.sels.lookup (group.startSel + i) with
    | some branch =>
      rw [hlook] at htarget
      obtain ⟨rest, hbranch⟩ := htarget
      have hcode := codeFrom_of_suffix hnodup rfl
        (hbranch.trans ((suffix_append _ _).trans ((suffix_cons _ _).trans hsuffix)))
      refine ⟨rest, s', .single ?_, rfl⟩
      rw [hjump, goto, hcode]
      rfl
    | none =>
      rw [hlook] at htarget
      obtain rfl := htarget
      refine ⟨s', .single ?_, rfl⟩
      rw [hjump, goto, hlast]
      rfl
  · rw [enter, if_pos ⟨hlong, henc⟩]
    refine ⟨_, .refl, ?_, rfl⟩
    simp only [step, address, if_neg henc, bind_eq_bind, bind_none]

end Emitted

variable {group : JumpTables.Group β}

/-- What code does in every program in which its labels are defined once. -/
def Wherever (defaultLab : Lab) (code : List (Inst β))
    (P : List (Inst β) → List (Inst β) → Prop) : Prop :=
  ∀ prog last, (labelsIn labelOf prog).Nodup → code <:+ prog →
    codeFrom labelOf defaultLab prog = some last → P prog last

/-- The code of a group, for an operand inside its bounds. -/
def GroupCode (opr out : Ea) (defaultLab : Lab) (code : List (Inst β))
    (group : JumpTables.Group β) : Prop :=
  Wherever defaultLab code fun prog last => ∀ x : BitVec 64, signed group.startSel ≤ x.toInt →
    x.toInt ≤ signed group.finishSel → Simulates prog opr x out last code (enter x group)

/-- What is emitted for one group. -/
theorem switchWithJumpTable_ok (hgroup : Group.Emittable group) :
    ∃ code hi, switchWithJumpTable (target opr) (leave out) defaultLab (.lab lab :: C) n
        group.sels = .ok (code, hi) ∧
      Adds n hi code (.lab lab :: C) ∧ GroupCode opr out defaultLab code group := by
  have hwf := hgroup.wf
  obtain ⟨branch, rest, hsels⟩ := hwf.start
  cases rest with
  | nil =>
    have hfinish : group.finishSel = group.startSel := by
      obtain ⟨selCode, hmem⟩ := hwf.finishSel_mem
      rw [hsels] at hmem
      exact (Prod.mk.inj (mem_singleton.1 hmem)).1
    refine ⟨.body branch :: .jmp out :: .lab lab :: C, n, ?_,
      ((Adds.refl n _).inst rfl).inst rfl, ?_⟩
    · rw [hsels]
      rfl
    · intro prog last _ _ _ x hge hle s _
      rw [hfinish] at hle
      have hsub : x.toInt - signed group.startSel = 0 := by omega
      rw [enter, hsub, hsels]
      simp only [length_singleton, lt_irrefl, false_and, if_false, Int.add_zero, lookup_cons_self]
      exact ⟨_, s, .refl, rfl⟩
  | cons next rest =>
    have hlong : 1 < group.sels.length := by simp [hsels]
    have hsize : ¬ group.sels.length < BI.minJumpTabSize := by
      have := hgroup.size
      omega
    have hlen : ((next :: rest).getLast (cons_ne_nil next rest)).1 = group.finishSel := by
      obtain ⟨selCode, front, hfront⟩ := hwf.finish
      have hlast := congrArg List.getLast? (hsels.symm.trans hfront)
      rw [getLast?_cons_cons, getLast?_concat,
        getLast?_eq_some_getLast (cons_ne_nil next rest)] at hlast
      rw [Option.some.inj hlast]
    have hrange : ∀ sel ∈ group.sels, group.startSel ≤ sel.1 ∧
        sel.1 < group.startSel + (group.finishSel - group.startSel + 1).toNat := by
      intro sel hsel
      have h1 := hwf.startSel_le hsel
      have h2 := hwf.le_finishSel hsel
      omega
    obtain ⟨quads, lab', code, hi, hok, hadds, htable⟩ := makeSelCode_ok opr out
      defaultLab _ group.startSel group.sels lab C (n + 1) hwf.ascending hrange
    refine ⟨jumpTableHeader opr (newLocalLab "jumpTabLab" n) group.startSel
      (.lab (newLocalLab "jumpTabLab" n) :: (quads.map Inst.dotQuad ++ .lab lab' :: code)),
      hi, ?_, ?_, ?_⟩
    · rw [hsels] at hok hsize
      rw [hsels, switchWithJumpTable, hlen]
      simp only [hok]
      exact if_neg hsize
    · exact Adds.jumpTableHeader (hadds.quads.label_below "jumpTabLab")
    · intro prog last hnodup hsuffix hlast x hge hle
      exact table_simulates hnodup hlast hgroup hlong htable
        (List.IsSuffix.trans ⟨[_, _, _, _, _, _, _], rfl⟩ hsuffix) hge hle

/-! ## The search tree -/

/-- Wherever it stands in a program, the code runs the search of a tree. -/
def SearchCode (opr out : Ea) (defaultLab : Lab) (code : List (Inst β)) (tree : Tree β) : Prop :=
  Wherever defaultLab code fun prog last => ∀ x, Simulates prog opr x out last code (tree.search x)

theorem leaf_simulates : Simulates prog opr x out last last (Tree.leaf.search x) :=
  fun s _ => ⟨s, .refl, rfl⟩

theorem binSearchCode_suffix (C : List (Inst β)) :
    C <:+ binSearchCode (target opr) leftLab start finish rightLab C :=
  (Adds.refl 0 C).binSearchCode.suffix

/-- A jump to the label continues with the search of a tree. -/
def LeadsTo (opr out : Ea) (defaultLab lab : Lab) (code : List (Inst β)) (tree : Tree β) : Prop :=
  Wherever defaultLab code fun prog last => ∃ there, codeFrom labelOf lab prog = some there ∧
    ∀ x, Simulates prog opr x out last there (tree.search x)

theorem leadsTo_default : LeadsTo opr out defaultLab defaultLab code .leaf :=
  fun _ last _ _ hlast => ⟨last, hlast, fun _ => leaf_simulates⟩

theorem SearchCode.leadsTo (hcode : SearchCode opr out defaultLab code tree)
    (hlab : .lab lab :: code <:+ code') : LeadsTo opr out defaultLab lab code' tree := by
  intro prog last hnodup hsuffix hlast
  have hthere := hlab.trans hsuffix
  exact ⟨code, codeFrom_of_suffix hnodup rfl hthere,
    hcode prog last hnodup ((suffix_cons _ _).trans hthere) hlast⟩

theorem searchCode_node (hopr : AvoidsTmp opr)
    (hgroup : GroupCode opr out defaultLab code group)
    (hleft : LeadsTo opr out defaultLab leftLab code left)
    (hright : LeadsTo opr out defaultLab rightLab code right) :
    SearchCode opr out defaultLab
      (binSearchCode (target opr) leftLab group.startSel group.finishSel rightLab code)
      (.node left group right) := by
  intro prog last hnodup hsuffix hlast x
  have hcode := (binSearchCode_suffix code).trans hsuffix
  obtain ⟨leftCode, hl, hsimLeft⟩ := hleft prog last hnodup hcode hlast
  obtain ⟨rightCode, hr, hsimRight⟩ := hright prog last hnodup hcode hlast
  exact simulates_node hopr hl hr (hsimLeft x) (hsimRight x) (hgroup prog last hnodup hcode hlast x)

theorem genBinarySwitch_ok (hopr : AvoidsTmp opr) (out : Ea) (defaultLab : Lab) (fuel : Nat) :
    ∀ (groups : List (JumpTables.Group β)) (lab : Lab) (C : List (Inst β)) (n : Nat),
    groups ≠ [] → groups.length ≤ fuel → (∀ group ∈ groups, Group.Emittable group) → ∃ split tree
    code hi, splitList groups = .ok split ∧ genBinarySwitch (target opr) (leave out) defaultLab fuel
    split (.lab lab :: C) n = .ok (code, hi) ∧ Tree.groups tree = groups ∧ Adds n hi code
    (.lab lab :: C) ∧ SearchCode opr out defaultLab code tree := by
  induction fuel with
  | zero =>
    intro groups lab C n hne hlen _
    exact absurd (length_eq_zero_iff.1 (Nat.le_zero.1 hlen)) hne
  | succ fuel ih =>
    intro groups lab C n hne hlen hgroups
    obtain ⟨left, group, right, rfl, hsplit⟩ := splitList_eq hne
    have hgroup := hgroups group (by simp)
    -- The code is built from its end: right side, left side, group, tests.
    cases left with
    | nil =>
      cases right with
      | nil =>
        obtain ⟨code, hi, hok, hadds, hsim⟩ := switchWithJumpTable_ok hgroup
        refine ⟨_, .node .leaf group .leaf, _, hi, hsplit, ?_, rfl,
          hadds.binSearchCode, searchCode_node hopr hsim leadsTo_default leadsTo_default⟩
        simp only [nonEmpty, genBinarySwitch, hok]
        rfl
      | cons g right =>
        obtain ⟨split, tree, code1, hi1, hsplit1, hok1, htree, hadds1, hcode1⟩ :=
          ih (g :: right) lab C (n + 1) (cons_ne_nil g right) (by simpa using hlen)
            fun g' hg' => hgroups g' (.tail _ hg')
        obtain ⟨code2, hi2, hok2, hadds2, hsim⟩ := switchWithJumpTable_ok hgroup
        have hadds := hadds2.trans (hadds1.label_below "")
        refine ⟨_, .node .leaf group tree, _, hi2, hsplit, ?_, by simp [Tree.groups, htree],
          hadds.binSearchCode, searchCode_node hopr hsim leadsTo_default (hcode1.leadsTo hadds2.suffix)⟩
        refine (ok_bind hsplit1).trans ((ok_bind hok1).trans ?_)
        exact ok_bind hok2
    | cons g left =>
      have hleft : ∀ g' ∈ g :: left, Group.Emittable g' :=
        fun g' hg' => hgroups g' (mem_append_left _ hg')
      cases right with
      | nil =>
        obtain ⟨split, tree, code1, hi1, hsplit1, hok1, htree, hadds1, hcode1⟩ :=
          ih (g :: left) lab C (n + 1) (cons_ne_nil g left) (by simpa using hlen) hleft
        obtain ⟨code2, hi2, hok2, hadds2, hsim⟩ := switchWithJumpTable_ok hgroup
        have hadds := hadds2.trans (hadds1.label_below "")
        refine ⟨_, .node tree group .leaf, _, hi2, hsplit, ?_, by simp [Tree.groups, htree],
          hadds.binSearchCode, searchCode_node hopr hsim (hcode1.leadsTo hadds2.suffix) leadsTo_default⟩
        refine (ok_bind hsplit1).trans ((ok_bind hok1).trans ?_)
        exact ok_bind hok2
      | cons g' right =>
        have hright : ∀ g'' ∈ g' :: right, Group.Emittable g'' :=
          fun g'' hg'' => hgroups g'' (mem_append_right _ (.tail _ hg''))
        obtain ⟨splitR, treeR, codeR, hiR, hsplitR, hokR, htreeR, haddsR, hcodeR⟩ :=
          ih (g' :: right) lab C (n + 2) (cons_ne_nil g' right) (by simp at hlen ⊢; omega) hright
        obtain ⟨splitL, treeL, codeL, hiL, hsplitL, hokL, htreeL, haddsL, hcodeL⟩ :=
          ih (g :: left) (newLocalLab "" (n + 1)) codeR hiR (cons_ne_nil g left)
            (by simp at hlen ⊢; omega) hleft
        obtain ⟨code, hi, hok, hadds, hsim⟩ := switchWithJumpTable_ok hgroup
        have hall := hadds.trans ((haddsL.trans (haddsR.label_below "")).label_below "")
        have hlab : .lab (newLocalLab "" (n + 1)) :: codeR <:+ code :=
          haddsL.suffix.trans ((suffix_cons _ _).trans hadds.suffix)
        refine ⟨_, .node treeL group treeR, _, hi, hsplit, ?_,
          by simp [Tree.groups, htreeL, htreeR],
          hall.binSearchCode,
          searchCode_node hopr hsim (hcodeL.leadsTo hadds.suffix) (hcodeR.leadsTo hlab)⟩
        refine (ok_bind hsplitL).trans ((ok_bind hsplitR).trans ?_)
        refine (ok_bind hokR).trans ((ok_bind hokL).trans ?_)
        exact ok_bind hok

end MLKit.X64.Switch
