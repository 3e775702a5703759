import Mathlib.Data.List.Basic
import Mathlib.Tactic.Basic

/-!
# The peephole optimiser of the X64 target

The instructions of `InstsX64` and the passes of `optimise`. Instructions with the same operands are
one constructor with the name of the instruction as an argument. The labels of one list come from one
compilation unit, so that a label is its number.
-/

namespace MLKit.X64.InstsX64

inductive Reg where
  | rax | rbx | rcx | rdx | rsi | rdi | rbp | rsp
  | r8 | r9 | r10 | r11 | r12 | r13 | r14 | r15
  | eax | ebx | ecx | edx | esi | edi | ebp | esp
  | r8d | r9d | r10d | r11d | r12d | r13d | r14d | r15d
  | ah | al | cl | r10b
  | xmm (i : Fin 16)
  deriving DecidableEq

abbrev Label := Nat

inductive Lab where
  | datLab (l : Label)
  | localLab (l : Label)
  | nameLab (s : String)
  | mlFunLab (l : Label)
  deriving DecidableEq

inductive Ea where
  | R (r : Reg)
  | L (l : Lab)
  | LA (l : Lab)
  | I (s : String)
  | D (s : String) (r : Reg)
  | DD (s1 : String) (r1 r2 : Reg) (s2 : String)
  deriving DecidableEq

/-- Instructions with two operands. -/
inductive BinOp where
  | movq | mov | movb | movzbq | movslq | leaq | andb
  | addl | subl | imull | orl | xorl | andl | sarl | shrl | sall | cmpl | btl | btrl
  | addq | subq | imulq | orq | xorq | andq | sarq | shrq | salq | cmpq | btq | btrq | cmpxchgq
  | movsd | mulsd | divsd | addsd | subsd | maxsd | minsd | ucomisd | xorps | sqrtsd | cvtsi2sdq
  deriving DecidableEq

/-- Instructions with one operand. -/
inductive UnOp where
  | push | pop | negl | decl | incl | notl | negq | decq | incq | notq | fstpq | fldq
  deriving DecidableEq

/-- Instructions without operands that control passes through. -/
inductive NulOp where
  | fldz | faddp | fsubp | fmulp | fdivp | fcompp | fabs | fchs | fnstsw | leave
  deriving DecidableEq

/-- The conditions of the conditional jumps. -/
inductive Cond where
  | l | g | le | ge | e | ne | c | nc | a | b | ae | be | o
  deriving DecidableEq

inductive Inst where
  | bin (op : BinOp) (ea1 ea2 : Ea)
  | un (op : UnOp) (ea : Ea)
  | nul (op : NulOp)
  | jmp (ea : Ea)
  | jcc (cond : Cond) (l : Lab)
  | call (l : Lab)
  | callEa (ea : Ea)
  | ret
  | dotAlign (n : Nat)
  | dotP2align (s : String)
  | dotGlobl (l : Lab)
  | dotText
  | dotData
  | dotSection (s : String)
  | dotByte (s : String)
  | dotLong (s : String)
  | dotQuad (s : String)
  | dotQuadLab (l : Lab)
  | dotDouble (s : String)
  | dotString (s : String)
  | dotSize (l : Lab) (n : Nat)
  | lab (l : Lab)
  | comment (s : String)
  deriving DecidableEq

/-- The instructions at which `rem_dead_code` stops. -/
def stops : Inst → Bool
  | .lab _ => true
  | .dotLong _ => true
  | .dotQuad _ => true
  | .dotQuadLab _ => true
  | .dotByte _ => true
  | .dotAlign _ => true
  | .dotP2align _ => true
  | .dotGlobl _ => true
  | .dotText => true
  | .dotData => true
  | _ => false

def isComment : Inst → Bool
  | .comment _ => true
  | _ => false

def remDeadCode : List Inst → List Inst
  | [] => []
  | i :: C =>
    if stops i then i :: C
    else if isComment i then i :: remDeadCode C
    else remDeadCode C

/-- `Em`: the operand under a map of registers and a map of labels. -/
def onEa (Rm : Reg → Reg) (Lm : Lab → Lab) : Ea → Ea
  | .R r => .R (Rm r)
  | .L l => .L (Lm l)
  | .LA l => .LA (Lm l)
  | .I s => .I s
  | .D s r => .D s (Rm r)
  | .DD s1 r1 r2 s2 => .DD s1 (Rm r1) (Rm r2) s2

def onI (Rm : Reg → Reg) (Lm : Lab → Lab) : Inst → Inst
  | .bin op ea1 ea2 => .bin op (onEa Rm Lm ea1) (onEa Rm Lm ea2)
  | .un op ea => .un op (onEa Rm Lm ea)
  | .jmp ea => .jmp (onEa Rm Lm ea)
  | .jcc cond l => .jcc cond (Lm l)
  | .call l => .call (Lm l)
  | .callEa ea => .callEa (onEa Rm Lm ea)
  | .dotGlobl l => .dotGlobl (Lm l)
  | .dotSize l i => .dotSize (Lm l) i
  | .lab l => .lab (Lm l)
  | .dotQuadLab l => .dotQuadLab (Lm l)
  | i => i

/-- The labels that `onI` meets in an operand. -/
def labelsOfEa : Ea → List Lab
  | .L l => [l]
  | .LA l => [l]
  | _ => []

/-- The labels that `onI` meets in an instruction. -/
def labelsOf : Inst → List Lab
  | .bin _ ea1 ea2 => labelsOfEa ea1 ++ labelsOfEa ea2
  | .un _ ea => labelsOfEa ea
  | .jmp ea => labelsOfEa ea
  | .jcc _ l => [l]
  | .call l => [l]
  | .callEa ea => labelsOfEa ea
  | .dotGlobl l => [l]
  | .dotSize l _ => [l]
  | .lab l => [l]
  | .dotQuadLab l => [l]
  | _ => []

/-- A finite map of labels; every label has at most one entry. -/
abbrev LabelMap := List (Label × Label)

def imAdd (l1 l2 : Label) (im : LabelMap) : LabelMap := (l1, l2) :: im.filter (·.1 ≠ l1)

def imLook (im : LabelMap) (l : Label) : Option Label := im.lookup l

/-- The numbers of the labels that are used outside label definitions. -/
def labsUsedInsts (is : List Inst) : List Label :=
  is.flatMap fun i =>
    match i with
    | .lab _ => []
    | i =>
      (labelsOf i).filterMap fun l =>
        match l with
        | .localLab l => some l
        | .datLab l => some l
        | .mlFunLab l => some l
        | .nameLab _ => none

/-- `labs` of `elim_jmp_jmp`. -/
def labs (im : LabelMap) : List Inst → LabelMap
  | [] => im
  | .lab (.localLab l1) :: .lab (.localLab l2) :: is =>
    labs (imAdd l2 l1 im) (.lab (.localLab l1) :: is)
  | .dotQuad q :: .lab (.localLab l1) :: .lab (.localLab l2) :: is =>
    labs (imAdd l2 l1 im) (.dotQuad q :: .lab (.localLab l1) :: is)
  | .dotQuad _ :: .lab _ :: is => labs im is
  | .lab (.localLab l1) :: .jmp (.L (.localLab l2)) :: is => labs (imAdd l1 l2 im) is
  | _ :: is => labs im is
termination_by is => is.length

/-- `close`, with a bound on the number of links that are followed. -/
def close (im : LabelMap) : Nat → Label → Option Label
  | 0, _ => none
  | n + 1, l =>
    match imLook im l with
    | some l' => if l = l' then some l else close im n l'
    | none => some l

/-- `closure`: every entry is closed. -/
def closure (n : Nat) (im : LabelMap) : Option LabelMap :=
  im.mapM fun (l, l') => (close im n l').map fun l'' => (l, l'')

/-- `Lm`: the substitution on the labels of an instruction. -/
def labSubst (im : LabelMap) : Lab → Lab
  | .localLab l =>
    match imLook im l with
    | some l' => .localLab l'
    | none => .localLab l
  | l => l

/-- `loop` of `elim_jmp_jmp`. -/
def elimLoop (im : LabelMap) : List Inst → List Inst → List Inst
  | [], acc => acc.reverse
  | .lab (.localLab l) :: is, acc =>
    match imLook im l with
    | some _ => elimLoop im is acc
    | none => elimLoop im is (.lab (.localLab l) :: acc)
  | i :: is, acc => elimLoop im is (onI id (labSubst im) i :: acc)

def elimJmpJmp (n : Nat) (is : List Inst) : Option (List Inst) :=
  (closure n (labs [] is)).map fun im => elimLoop im is []

/-- The conditions that `simpl_jmp` inverts. -/
def invert : Cond → Option Cond
  | .g => some .le
  | .ge => some .l
  | .l => some .ge
  | .le => some .g
  | .a => some .be
  | .ae => some .b
  | .b => some .ae
  | .be => some .a
  | .e => some .ne
  | .ne => some .e
  | _ => none

def labEq : Lab → Lab → Bool
  | .localLab l1, .localLab l2 => decide (l1 = l2)
  | _, _ => false

def simplJmp : List Inst → List Inst → List Inst
  | [], acc => acc.reverse
  | .jcc cond l1 :: .jmp (.L l2) :: .lab l3 :: is, acc =>
    match invert cond with
    | some inverted =>
      simplJmp is
        (if labEq l1 l3 then .lab l3 :: .jcc inverted l2 :: acc
          else .lab l3 :: .jmp (.L l2) :: .jcc cond l1 :: acc)
    | none => simplJmp (.jmp (.L l2) :: .lab l3 :: is) (.jcc cond l1 :: acc)
  | i :: is, acc => simplJmp is (i :: acc)
termination_by is => is.length

theorem remDeadCode_length (C : List Inst) : (remDeadCode C).length ≤ C.length := by
  induction C with
  | nil => exact Nat.le_refl _
  | cons i C ih =>
    rw [remDeadCode]
    split
    · exact Nat.le_refl _
    · split
      · exact Nat.succ_le_succ ih
      · exact Nat.le_succ_of_le ih

/-- The code begins with the definition of a label. -/
def beginsWith (l1 : Label) : List Inst → Bool
  | .lab (.localLab l2) :: _ => decide (l1 = l2)
  | _ => false

/-- `p` of `peep`. -/
def peepLoop : List Inst → List Inst → List Inst
  | [], acc => acc.reverse
  | .bin .movq (.I "1") (.R r1) :: .bin .movq (.I "1") (.R r2) :: is, acc =>
    if r1 = r2 then peepLoop (.bin .movq (.I "1") (.R r2) :: is) acc
    else peepLoop (.bin .movq (.I "1") (.R r2) :: is) (.bin .movq (.I "1") (.R r1) :: acc)
  | .jmp (.L (.localLab l1)) :: is, acc =>
    if beginsWith l1 (remDeadCode is) then peepLoop (remDeadCode is) acc
    else peepLoop (remDeadCode is) (.jmp (.L (.localLab l1)) :: acc)
  | i :: is, acc => peepLoop is (i :: acc)
termination_by is => is.length
decreasing_by
  all_goals simp only [List.length_cons]
  all_goals first
    | omega
    | exact Nat.lt_succ_of_le (remDeadCode_length is)

def remUnusedLabs (usedLabs : List Label) : List Inst → List Inst → List Inst
  | [], acc => acc.reverse
  | .lab (.localLab l) :: is, acc =>
    remUnusedLabs usedLabs is (if l ∈ usedLabs then .lab (.localLab l) :: acc else acc)
  | i :: is, acc => remUnusedLabs usedLabs is (i :: acc)

def peep (is : List Inst) : List Inst :=
  let is := peepLoop is []
  let is := simplJmp is []
  remUnusedLabs (labsUsedInsts is) is []

/-- `loop` of `alignlabs`. -/
def alignLoop : List Inst → List Inst → List Inst
  | [], acc => acc.reverse
  | .dotQuad q :: .lab l :: is, acc => alignLoop is (.lab l :: .dotQuad q :: acc)
  | .lab (.localLab l) :: is, acc =>
    alignLoop is (.lab (.localLab l) :: .dotP2align "0x4" :: acc)
  | i :: is, acc => alignLoop is (i :: acc)

def alignlabs (is : List Inst) : List Inst := alignLoop is []

/-- `opt` of `optimise`, on the code of one function. -/
def opt (n : Nat) (is : List Inst) : Option (List Inst) :=
  (elimJmpJmp n is).map fun is => alignlabs (peep is)

inductive TopDecl where
  | FUN (l : Label) (insts : List Inst)
  | FN (l : Label) (insts : List Inst)

def TopDecl.insts : TopDecl → List Inst
  | .FUN _ insts => insts
  | .FN _ insts => insts

structure AsmPrg where
  topDecls : List TopDecl
  initCode : List Inst
  staticData : List Inst

/-- `onT` of `optimise`. -/
def onT (n : Nat) : TopDecl → Option TopDecl
  | .FUN l insts => (opt n insts).map (.FUN l)
  | .FN l insts => (opt n insts).map (.FN l)

def optimise (n : Nat) (prg : AsmPrg) : Option AsmPrg :=
  (prg.topDecls.mapM (onT n)).map fun topDecls => { prg with topDecls := topDecls }

end MLKit.X64.InstsX64
