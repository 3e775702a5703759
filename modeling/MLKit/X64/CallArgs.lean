import MLKit.X64.CallResults
import MLKit.Backend.ResolveCalls

/-!
# Arguments of calls

A call from the statement that the register allocator leaves: the moves of the
operands that are passed in registers, one after the other, and the call
itself, which pushes the other operands.  At the jump every actual is where the
callee's convention puts the formal, provided that no move overwrites the
register of an operand that is moved or pushed later.
-/

namespace MLKit.X64

open MLKit.Lib MLKit.Backend MLKit.Backend.CallConv MLKit.Backend.SubstAndSimplify List
open MLKit.Backend.RegAlloc

/-- The positions of atoms; a register is where it is. -/
structure Positions where
  aty : Atom → Aty
  phreg : ∀ reg, aty (.phreg (.phreg reg)) = .phreg reg

/-- The positions that variables and regions have in `SubstAndSimplify`. -/
def Positions.ofMaps (atyMap : AtyMap) (rhoMap : RhoMap) : Positions where
  aty atom :=
    match atomToAty atom atyMap rhoMap with
    | .ok aty => aty
    | .error _ => .droppedRvar
  phreg _ := rfl

def mapFnApp {α β : Type} (f : α → β) (app : FnApp α) : FnApp β :=
  { opr := f app.opr, args := app.args.map f, clos := app.clos.map f, res := app.res.map f,
    bv := app.bv }

def mapFunApp {α β : Type} (f : α → β) (app : FunApp α) : FunApp β :=
  { opr := app.opr, args := app.args.map f, regVec := app.regVec.map f,
    regArgs := app.regArgs.map f, clos := app.clos.map f, res := app.res.map f, bv := app.bv }

section Code

variable {ο : Type} (flags : Flags) (pos : Positions) (sizeFf sizeCcf : Int) (returnLab : Lab)

/-- The statements that a call is made of: `CG_ls` with the operands at their
positions. -/
def cgCallLs : BasicStmt ο Atom → List Inst → Except String (List Inst)
  | .assign pat (.atom src), C => moveAtyToAty flags (pos.aty src) (pos.aty pat) sizeFf C
  | .fncall app, C => cgFncall flags sizeFf returnLab (mapFnApp pos.aty app) C
  | .funcall app, C => cgFuncall flags sizeFf returnLab (mapFunApp pos.aty app) C
  | .fnjmp app, C => cgFnjmp flags sizeFf sizeCcf returnLab (mapFnApp pos.aty app) C
  | .jmp app, C => cgJmp flags sizeFf sizeCcf (mapFunApp pos.aty app) C
  | _, _ => die "CG_ls: neither a move nor a call"

def cgCallLss : List (BasicStmt ο Atom) → List Inst → Except String (List Inst)
  | [], C => .ok C
  | ls :: lss, C => do
    let C ← cgCallLss lss C
    cgCallLs flags pos sizeFf sizeCcf returnLab ls C

end Code

/-! ## Moving operands to registers -/

variable {lv : Lvar} {s s' s1 s2 : State} {atom : Atom} {reg : Reg} {v sizeCcf : Int}
  {returnLab : Lab} {ο : Type} {lss : List (BasicStmt ο Atom)} {C C' : List Inst} {app : FunApp Aty}
  {cc : CallConv.CC} {atys : List Aty} {app' : App Atom} {resMoves : List (Atom × Lvar)}

section Shuffle

variable (flags : Flags) (labAddr : Lab → Int) (pos : Positions) (sizeFf : Int)

/-- No move puts another operand in the register of `aty`. -/
def Survives (aty : Aty) (moves : List (Atom × Lvar)) : Prop :=
  ∀ move ∈ moves, aty = pos.aty (.phreg move.2) → pos.aty move.1 = aty

/-- Moves in an order in which each operand is moved while it is there.  The
moves are done from the last one to the first. -/
def InOrder (moves : List (Atom × Lvar)) : Prop :=
  moves.Pairwise fun later earlier =>
    pos.aty later.1 = pos.aty (.phreg earlier.2) → pos.aty earlier.1 = pos.aty later.1

/-- The operands of moves to argument registers. -/
structure CanMove (moves : List (Atom × Lvar)) : Prop where
  target : ∀ move ∈ moves, move.2 ∈ RI.argsPhreg
  nodup : (moves.map Prod.snd).Nodup
  operand : ∀ move ∈ moves, IsOperand (pos.aty move.1)
  inOrder : InOrder pos moves

/-- The moves put every operand in its register, and change nothing else. -/
structure Moved (moves : List (Atom × Lvar)) (s s' : State) : Prop where
  loaded : ∀ atom reg v, (atom, Lvar.phreg reg) ∈ moves →
    atyValue flags labAddr s sizeFf (pos.aty atom) = some v → s'.regs reg = v
  regs : ∀ reg, (∀ atom, (atom, Lvar.phreg reg) ∉ moves) → s'.regs reg = s.regs reg
  mem : s'.mem = s.mem

theorem argsPhreg_reg (h : lv ∈ RI.argsPhreg) :
    ∃ reg, lv = .phreg reg ∧ isXmm reg = false ∧ reg ≠ .rsp ∧ reg ≠ RI.tmpReg1 := by
  simp only [RI.argsPhreg, RI.regArgs, map_cons, map_nil, mem_cons, not_mem_nil, or_false] at h
  rcases h with rfl | rfl | rfl
  all_goals exact ⟨_, rfl, rfl, by decide, by decide⟩

variable {flags labAddr pos sizeFf} {moves : List (Atom × Lvar)}

/-- An operand that survives the moves has the same value after them. -/
theorem Moved.atyValue_eq {aty : Aty} (h : Moved flags labAddr pos sizeFf moves s s')
    (hmoves : CanMove pos moves) (haty : Survives pos aty moves) :
    atyValue flags labAddr s' sizeFf aty = atyValue flags labAddr s sizeFf aty := by
  refine atyValue_congr flags labAddr ?_ h.mem ?_
  · apply h.regs
    intro atom hmem
    obtain ⟨reg, heq, -, hne, -⟩ := argsPhreg_reg (hmoves.target _ hmem)
    exact hne (Lvar.phreg.inj heq).symm
  · rintro reg rfl
    by_cases hmoved : ∃ atom, (atom, Lvar.phreg reg) ∈ moves
    · -- the register is moved to itself
      obtain ⟨atom, hmem⟩ := hmoved
      have hsame : pos.aty atom = .phreg reg := haty _ hmem (pos.phreg reg).symm
      exact h.loaded atom reg _ hmem (by rw [hsame]; rfl)
    · exact h.regs reg fun atom hmem => hmoved ⟨atom, hmem⟩

theorem CanMove.tail {move : Atom × Lvar} (h : CanMove pos (move :: moves)) : CanMove pos moves where
  target m hmem := h.target m (.tail _ hmem)
  nodup := (nodup_cons.mp h.nodup).2
  operand m hmem := h.operand m (.tail _ hmem)
  inOrder := (pairwise_cons.mp h.inOrder).2

/-- One more move, done after the others. -/
theorem Moved.cons (hmoves : CanMove pos ((atom, .phreg reg) :: moves))
    (h : Moved flags labAddr pos sizeFf moves s s')
    (hv : ∀ w, atyValue flags labAddr s' sizeFf (pos.aty atom) = some w → v = w) :
    Moved flags labAddr pos sizeFf ((atom, .phreg reg) :: moves) s (s'.setReg reg v) where
  loaded atom' reg' w hmem hw := by
    rcases mem_cons.mp hmem with heq | htail
    · cases heq
      rw [State.setReg_regs_self]
      apply hv
      rw [h.atyValue_eq hmoves.tail fun move hmove heq =>
        (pairwise_cons.mp hmoves.inOrder).1 move hmove heq]
      exact hw
    · have hne : reg' ≠ reg := by
        rintro rfl
        exact (nodup_cons.mp hmoves.nodup).1 (mem_map.mpr ⟨_, htail, rfl⟩)
      rw [State.setReg_regs_ne _ _ hne]
      exact h.loaded atom' reg' w htail hw
  regs reg' hreg' := by
    have hne : reg' ≠ reg := by
      rintro rfl
      exact hreg' atom (.head _)
    rw [State.setReg_regs_ne _ _ hne]
    exact h.regs reg' fun atom' hmem => hreg' atom' (.tail _ hmem)
  mem := h.mem

variable (flags labAddr pos sizeFf)

theorem moveAtyToAty_loads {aty : Aty} (haty : IsOperand aty) (hreg : isXmm reg = false) :
    ∃ pre, Emits (moveAtyToAty flags aty (.phreg reg) sizeFf) pre ∧
      Loads flags labAddr pre aty reg sizeFf := by
  cases aty with
  | phreg src => exact copy_loads flags labAddr sizeFf haty hreg
  | _ => exact moveAtyIntoReg_loads flags labAddr haty hreg

/-- The code of the moves in front of the code of the statements behind them. -/
theorem resolveRes_moves (hmoves : CanMove pos moves)
    (hlss : cgCallLss flags pos sizeFf sizeCcf returnLab lss C = .ok C') :
    ∃ pre, cgCallLss flags pos sizeFf sizeCcf returnLab (resolveRes moves lss) C = .ok (pre ++ C') ∧
      (∀ inst ∈ pre, isPlain inst = true) ∧
      ∀ s, Moved flags labAddr pos sizeFf moves s (exec labAddr s pre) := by
  induction moves generalizing lss C' with
  | nil =>
    refine ⟨[], hlss, by simp, fun s => ⟨?_, fun _ _ => rfl, rfl⟩⟩
    intro atom reg v hmem
    cases hmem
  | cons move moves ih =>
    obtain ⟨atom, lv⟩ := move
    obtain ⟨reg, rfl, hxmm, -, -⟩ := argsPhreg_reg (hmoves.target (atom, lv) (.head _))
    obtain ⟨last, hlast, hloads⟩ := moveAtyToAty_loads flags labAddr sizeFf
      (hmoves.operand _ (.head _)) hxmm
    have hmove : cgCallLss flags pos sizeFf sizeCcf returnLab
        (.assign (.phreg (.phreg reg)) (.atom atom) :: lss) C = .ok (last ++ C') := by
      rw [cgCallLss, ok_bind hlss, cgCallLs, pos.phreg]
      exact hlast.eq C'
    obtain ⟨pre, hpre, hplain, hmoved⟩ := ih hmoves.tail hmove
    refine ⟨pre ++ last, ?_, ?_, fun s => ?_⟩
    · rw [append_assoc]
      exact hpre
    · exact forall_mem_append.2 ⟨hplain, hlast.straight⟩
    · obtain ⟨v, hexec, hv⟩ := hloads (exec labAddr s pre)
      rw [exec_append, hexec]
      exact (hmoved s).cons hmoves hv

end Shuffle

/-! ## Entering the callee -/

section Entry

variable (flags : Flags) (labAddr : Lab → Int)

/-- The callee is entered in state `s'` from the frame of `s`: the words of the
spilled actuals lie one below the other under `base`, the return label being at
`base`. -/
structure Entered (sizeFf base : Int) (spilled : List Aty) (s s' : State) : Prop where
  rsp : s'.regs .rsp = base - 8 * spilled.length
  args : ∀ (j : Nat) (aty : Aty) (v : Int), spilled[j]? = some aty →
    atyValue flags labAddr s sizeFf aty = some v → s'.mem (base - 8 * (j + 1)) = v
  regs : ∀ reg, reg ≠ .rsp → reg ≠ RI.tmpReg1 → s'.regs reg = s.regs reg

variable {flags labAddr} {sizeFf : Int}

theorem AtCall.entered {call : Call} (h : AtCall flags labAddr sizeFf returnLab call s s') :
    Entered flags labAddr sizeFf (s.regs .rsp - 8 * (call.spilledResults.length + 1))
      call.spilledActuals s s' :=
  ⟨h.rsp, h.args, h.regs⟩

/-- Copying `n` words from the stack pointer up by `size` words.  The words are
copied from the last one on, so none is overwritten before it is read. -/
structure CopiedDown (size : Int) (n : Nat) (s s' : State) : Prop where
  copied : ∀ i : Nat, i < n → s'.mem (s.regs .rsp + 8 * (size + i)) = s.mem (s.regs .rsp + 8 * i)
  above : ∀ address, s.regs .rsp + 8 * (size + n) ≤ address → s'.mem address = s.mem address
  regs : ∀ reg, reg ≠ RI.tmpReg1 → s'.regs reg = s.regs reg

theorem copyDown_copied (hsize : 0 ≤ sizeFf + sizeCcf) (n : Nat) :
    ∃ pre, Emits (copyDown sizeFf sizeCcf n) pre ∧
      ∀ s, CopiedDown (sizeFf + sizeCcf) n s (exec labAddr s pre) := by
  induction n with
  | zero =>
    refine ⟨[], emits_nil, fun s => ⟨?_, fun _ _ => rfl, fun _ _ => rfl⟩⟩
    intro i hi
    omega
  | succ n ih =>
    obtain ⟨pre, hpre, hcopied⟩ := ih
    refine ⟨.movq (.D (8 * (n : Int)) .rsp) (.R RI.tmpReg1) ::
      .movq (.R RI.tmpReg1) (.D (8 * (sizeFf + sizeCcf + (n + 1) - 1)) .rsp) :: pre, ⟨?_, ?_⟩,
      fun s => ?_⟩
    · intro C
      rw [copyDown, ok_bind (hpre.eq C)]
      rfl
    · exact forall_mem_cons.2 ⟨rfl, forall_mem_cons.2 ⟨rfl, hpre.straight⟩⟩
    · have hne : Reg.rsp ≠ RI.tmpReg1 := by decide
      have haddr : sizeFf + sizeCcf + ((n : Int) + 1) - 1 = sizeFf + sizeCcf + n := by omega
      -- the state after the last word has been copied
      obtain ⟨hcopy, habove, hregs⟩ := hcopied ((s.setReg RI.tmpReg1
        (s.mem (s.regs .rsp + 8 * n))).setMem (s.regs .rsp + 8 * (sizeFf + sizeCcf + n))
          (s.mem (s.regs .rsp + 8 * n)))
      rw [haddr, exec_cons, exec_cons]
      simp only [execInst, writeEa, readEa, State.setReg_regs_self, State.setMem_regs,
        State.setReg_regs_ne _ _ hne] at hcopy habove hregs ⊢
      refine ⟨fun i hi => ?_, fun address haddress => ?_, fun reg hreg => ?_⟩
      · rcases Nat.lt_succ_iff_lt_or_eq.mp hi with hlt | rfl
        · rw [hcopy i hlt, State.setMem_mem_ne _ _ (by omega), State.setReg_mem]
        · rw [habove _ (by omega), State.setMem_mem_self]
      · rw [habove address (by push_cast at haddress; omega),
          State.setMem_mem_ne _ _ (by push_cast at haddress; omega), State.setReg_mem]
      · rw [hregs reg hreg, State.setReg_regs_ne _ _ hreg]

/-- The operands of a tail call that are passed on the stack. -/
def jmpSpilled (app : FunApp Aty) : List Aty := (funApp app).actuals.drop 3

/-- The code of a tail call: the spilled actuals replace the frame and the
spilled parameters of the caller, up to its return label. -/
theorem cgJmp_shape (hsize : 0 ≤ sizeFf + sizeCcf)
    (hact : ∀ aty ∈ jmpSpilled app, IsActual sizeFf aty) (C : List Inst) :
    ∃ code, cgJmp flags sizeFf sizeCcf app C = .ok code ∧
      ∀ s, ∃ s', runToJmp labAddr s code = some (.L (.mlFunLab app.opr), s') ∧
        Entered flags labAddr sizeFf (s.regs .rsp + 8 * (sizeFf + sizeCcf)) (jmpSpilled app) s s' ∧
        ∀ address, s.regs .rsp + 8 * (sizeFf + sizeCcf) ≤ address →
          s'.mem address = s.mem address := by
  have hact' : ∀ aty ∈ jmpSpilled app, IsActual
      (sizeFf - 1 - ((funApp app).res.drop 3).length + (((funApp app).res.drop 3).length + 1 : Nat))
      aty := fun aty hmem => (hact aty hmem).mono (by push_cast; omega)
  obtain ⟨args, hargs, hpushes⟩ := flushArgs_pushesAll flags labAddr _ hact'
  obtain ⟨down, hdown, hcopied⟩ := copyDown_copied hsize (jmpSpilled app).length
  obtain ⟨free, hfree, hfreeExec⟩ := basePlusOffset_emits labAddr
  refine ⟨args ++ (down ++ (free ++ .jmp (.L (.mlFunLab app.opr)) :: remDeadCode C)), ?_,
    fun s => ?_⟩
  · simp only [cgJmp, resolveActCc_eq, length_zipIdx]
    have hbase := Except.ok.inj (hfree.eq (.jmp (.L (.mlFunLab app.opr)) :: remDeadCode C))
    rw [hbase]
    exact (ok_bind (hdown.eq _)).trans (hargs.eq _)
  · have hplain : ∀ inst ∈ args ++ (down ++ free), isPlain inst = true :=
      forall_mem_append.2 ⟨hargs.straight, forall_mem_append.2 ⟨hdown.straight, hfree.straight⟩⟩
    have hrun := runToJmp_append labAddr s (.L (.mlFunLab app.opr)) (remDeadCode C) hplain
    simp only [append_assoc] at hrun
    refine ⟨_, hrun, ?_⟩
    have hpushed := hpushes (s.regs .rsp + 8 * (((funApp app).res.drop 3).length + 1 : Nat)) s
      (by omega)
    have hdowned := hcopied (exec labAddr s args)
    have hrsp : (exec labAddr (exec labAddr s args) down).regs .rsp =
        s.regs .rsp - 8 * (jmpSpilled app).length := by
      rw [hdowned.regs _ (by decide), hpushed.rsp]
    rw [exec_append, exec_append, hfreeExec, offsetBytes, hrsp]
    obtain ⟨hcopy, habove, hregs⟩ := hdowned
    rw [hpushed.rsp] at hcopy habove
    refine ⟨⟨?_, fun j aty v hj hv => ?_, fun reg hreg htmp => ?_⟩, fun address haddress => ?_⟩
    · rw [State.setReg_regs_self]
      omega
    · have hlt : j < (jmpSpilled app).length := (List.getElem?_eq_some_iff.mp hj).1
      have hword := hcopy ((jmpSpilled app).length - 1 - j) (by omega)
      have hvalue := hpushed.pushed j aty v hj (by
        rw [← hv, atyValue, ← valueAt_shift flags labAddr
          (s.regs .rsp + 8 * (((funApp app).res.drop 3).length + 1 : Nat)) _
            (((funApp app).res.drop 3).length + 1 : Nat)]
        congr 1 <;> push_cast <;> omega)
      rw [State.setReg_mem]
      have hto : s.regs .rsp - 8 * ((jmpSpilled app).length : Int) +
          8 * (sizeFf + sizeCcf + ((jmpSpilled app).length - 1 - j : Nat)) =
            s.regs .rsp + 8 * (sizeFf + sizeCcf) - 8 * (j + 1) := by omega
      have hfrom : s.regs .rsp - 8 * ((jmpSpilled app).length : Int) +
          8 * ((jmpSpilled app).length - 1 - j : Nat) = s.regs .rsp - 8 * (j + 1) := by omega
      rw [hto, hfrom] at hword
      rw [hword, hvalue]
    · rw [State.setReg_regs_ne _ _ hreg, hregs reg htmp, hpushed.regs reg hreg htmp]
    · rw [State.setReg_mem, habove address (by omega), hpushed.above address (by omega)]

end Entry

/-! ## Where the callee finds its parameters -/

/-- The calls that pass arguments, as the source has them. -/
inductive SourceCall where
  | fncall (app : FnApp Atom)
  | funcall (app : FunApp Atom)
  | jmp (app : FunApp Atom)

namespace SourceCall

def stmt : SourceCall → BasicStmt Unit Atom
  | .fncall app => .fncall app
  | .funcall app => .funcall app
  | .jmp app => .jmp app

def operands : SourceCall → App Atom
  | .fncall app => fnOperands app
  | .funcall app => funOperands app
  | .jmp app => funOperands app

/-- The operands in call order. -/
def actuals (call : SourceCall) : List Atom := call.operands.actuals

/-- The moves to argument registers, in the order of the source's list. -/
def moves (call : SourceCall) : List (Atom × Lvar) :=
  (resolveApp .phreg RI.argsPhreg RI.resPhreg call.operands).2.1

def OprOk (pos : Positions) : SourceCall → Prop
  | .fncall app => IsOperand (pos.aty app.opr)
  | _ => True

end SourceCall

/-- A call that fits a callee with the given formals.  The last two fields are
about the order of the moves: no register is overwritten whose operand is
moved, or pushed, later. -/
structure CallFits (pos : Positions) (sizeFf : Int) (call : SourceCall) (formals : List Lvar) :
    Prop where
  nargs : call.actuals.length = formals.length
  nodup : formals.Nodup
  actual : ∀ atom ∈ call.actuals, IsActual sizeFf (pos.aty atom)
  opr : call.OprOk pos
  res : ∀ atom ∈ call.operands.res, IsDest sizeFf (pos.aty atom)
  inOrder : InOrder pos call.moves
  spilled : ∀ atom ∈ call.actuals.drop 3, Survives pos (pos.aty atom) call.moves

/-- Every actual's value is at the place of its formal, once the callee has
made its frame of any size. -/
def ArgsPlaced (flags : Flags) (labAddr : Lab → Int) (pos : Positions) (sizeFf : Int)
    (call : SourceCall) (cc : CC) (formals : List Lvar) (s s' : State) : Prop :=
  ∀ (calleeFf : Int) (i : Nat) (atom : Atom) (sty : CCSty) (v : Int),
    call.actuals[i]? = some atom → formals[i]? = some (getLvarSty sty) → sty ∈ cc.params →
    atyValue flags labAddr s sizeFf (pos.aty atom) = some v →
    styHolds calleeFf (s'.setReg .rsp (s'.regs .rsp - 8 * calleeFf)) sty v

variable {base : Int} {call : SourceCall}

section Placed

variable {flags : Flags} {labAddr : Lab → Int} {pos : Positions} {sizeFf : Int}
  {call : SourceCall} {formals ress : List Lvar}

theorem zip_snd_sublist {α β : Type*} (l : List α) (l' : List β) :
    ((l.zip l').map Prod.snd).Sublist l' := by
  induction l generalizing l' with
  | nil => simp
  | cons a l ih =>
    cases l' with
    | nil => simp
    | cons b l' => simpa using ih l'

theorem CallFits.canMove (h : CallFits pos sizeFf call formals) : CanMove pos call.moves := by
  have hperm := (resolveApp_resolved call.operands).moves
  refine ⟨fun move hmem => ?_, ?_, fun move hmem => ?_, h.inOrder⟩
  · exact (of_mem_zip (hperm.mem_iff.mp hmem)).2
  · exact ((hperm.map Prod.snd).nodup_iff).mpr ((zip_snd_sublist _ _).nodup RI.argsPhreg_nodup)
  · exact (h.actual _ (of_mem_zip (hperm.mem_iff.mp hmem)).1).1

theorem moves_getElem {i : Nat} (hatom : call.actuals[i]? = some atom)
    (hreg : RI.regArgs[i]? = some reg) : (atom, Lvar.phreg reg) ∈ call.moves := by
  apply (resolveApp_resolved call.operands).moves.mem_iff.mpr
  apply mem_of_getElem? (i := i)
  rw [getElem?_zip_eq_some]
  refine ⟨hatom, ?_⟩
  rw [RI.argsPhreg, getElem?_map, hreg]
  rfl

/-- Moves, and then entering the callee. -/
theorem argsPlaced_of_entered (hfits : CallFits pos sizeFf call formals)
    (hplaces : Places cc formals ress) (hmoved : Moved flags labAddr pos sizeFf call.moves s s1)
    (hentered : Entered flags labAddr sizeFf base ((call.actuals.drop 3).map pos.aty) s1 s2) :
    ArgsPlaced flags labAddr pos sizeFf call cc formals s s2 := by
  intro calleeFf i atom sty v hatom hformal hsty hv
  rcases hplaces.param hfits.nodup hsty hformal with ⟨reg, hreg, heq⟩ | ⟨j, rfl, heq⟩
  · have hmem := moves_getElem hatom hreg
    obtain ⟨reg', hreg', -, hrsp, htmp⟩ := argsPhreg_reg (hfits.canMove.target _ hmem)
    obtain rfl := Lvar.phreg.inj hreg'
    rw [heq, styHolds, State.setReg_regs_ne _ _ hrsp, hentered.regs reg hrsp htmp]
    exact hmoved.loaded atom reg v hmem hv
  · have hdrop : (call.actuals.drop 3)[j]? = some atom := by
      rw [getElem?_drop]
      exact hatom
    have hlen : (formals.drop 3).length = (call.actuals.drop 3).length := by
      rw [length_drop, length_drop, hfits.nargs]
    have hlt : j < (call.actuals.drop 3).length := (List.getElem?_eq_some_iff.mp hdrop).1
    have hvalue : atyValue flags labAddr s1 sizeFf (pos.aty atom) = some v := by
      rw [hmoved.atyValue_eq hfits.canMove (hfits.spilled atom (mem_of_getElem? hdrop)), hv]
    have hword := hentered.args j (pos.aty atom) v (by rw [getElem?_map, hdrop]; rfl) hvalue
    rw [heq, styHolds, State.setReg_regs_self, State.setReg_mem, hentered.rsp, ← hword, hlen,
      length_map]
    congr 1
    omega

end Placed

section Emitted

variable (flags : Flags) (pos : Positions) {sizeFf : Int} (sizeCcf : Int) {returnLab : Lab}

theorem fetchRes_emits {spilled : List (Aty × Nat)}
    (hdest : ∀ entry ∈ spilled, IsDest sizeFf entry.1) :
    ∃ fetch, Emits (fetchRes sizeFf spilled) fetch := by
  induction spilled with
  | nil => exact ⟨[], emits_nil⟩
  | cons entry spilled ih =>
    obtain ⟨rest, hrest⟩ := ih fun entry hmem => hdest entry (.tail _ hmem)
    obtain ⟨first, hfirst, -⟩ := popAty_pops ⟨true, true, true, true⟩ (fun _ => 0)
      (hdest entry (.head _))
    exact ⟨first ++ rest, hfirst.comp hrest⟩

theorem moveRegIntoAty_ok {aty : Aty}
    (hreg : isXmm reg = false) (haty : IsDest sizeFf aty) (C : List Inst) :
    ∃ C', moveRegIntoAty reg aty sizeFf C = .ok C' := by
  cases aty with
  | phreg dst =>
    rw [moveRegIntoAty, copy, hreg, haty.1]
    split
    · exact ⟨_, rfl⟩
    · exact ⟨_, rfl⟩
  | stack offset => exact ⟨_, rfl⟩
  | _ => exact absurd haty id

/-- The results are moved out of their registers. -/
theorem resolveArgs_ok {moves : List (Atom × Lvar)} (htarget : ∀ move ∈ moves, move.2 ∈ RI.resPhreg)
    (hdest : ∀ move ∈ moves, IsDest sizeFf (pos.aty move.1))
    (hlss : cgCallLss flags pos sizeFf sizeCcf returnLab lss C = .ok C') :
    ∃ C'', cgCallLss flags pos sizeFf sizeCcf returnLab (resolveArgs moves lss) C = .ok C'' := by
  induction moves generalizing lss C' with
  | nil => exact ⟨C', hlss⟩
  | cons move moves ih =>
    obtain ⟨atom, lv⟩ := move
    have hreg : ∃ reg, lv = .phreg reg ∧ isXmm reg = false := by
      have hmem : lv ∈ RI.resPhreg := htarget _ (.head _)
      simp only [RI.resPhreg, RI.regRes, map_cons, map_nil, mem_cons, not_mem_nil, or_false] at hmem
      rcases hmem with rfl | rfl | rfl <;> exact ⟨_, rfl, rfl⟩
    obtain ⟨reg, rfl, hxmm⟩ := hreg
    obtain ⟨C1, hC1⟩ := moveRegIntoAty_ok hxmm (hdest _ (.head _)) C'
    have hmove : cgCallLss flags pos sizeFf sizeCcf returnLab
        (.assign atom (.atom (.phreg (.phreg reg))) :: lss) C = .ok C1 := by
      rw [cgCallLss, ok_bind hlss, cgCallLs, pos.phreg]
      exact hC1
    exact ih (fun m hmem => htarget m (.tail _ hmem)) (fun m hmem => hdest m (.tail _ hmem)) hmove

end Emitted

/-- What holds of the operands holds of those that are passed on the stack. -/
theorem forall_mem_spilled {P : Aty → Prop} {atoms : List Atom} {pos : Positions}
    (h : ∀ atom ∈ atoms, P (pos.aty atom)) (heq : atys = (atoms.drop 3).map pos.aty) :
    ∀ aty ∈ atys, P aty := by
  rw [heq]
  exact forall_mem_map.2 fun atom hatom => h atom (mem_of_mem_drop hatom)

theorem formals_map {α β : Type} {f : α → β} (clos regVec : Option α) (args regArgs : List α) :
    formals (clos.map f) (regVec.map f) (args.map f) (regArgs.map f) =
      (formals clos regVec args regArgs).map f := by
  cases clos <;> cases regVec <;> simp [formals, appendToListOpt]

section Calls

variable (flags : Flags) (labAddr : Lab → Int) {pos : Positions} {sizeFf sizeCcf : Int}
  {returnLab : Lab}

variable (pos sizeFf) in
/-- Code has been made that enters a callee with the actuals. -/
def Enters (actuals : List Atom) (made : Except String (List Inst)) : Prop :=
  ∃ code, made = .ok code ∧ ∀ s, ∃ target s' base, runToJmp labAddr s code = some (target, s') ∧
    Entered flags labAddr sizeFf base ((actuals.drop 3).map pos.aty) s s'

variable {flags labAddr}

/-- The call statement itself, its first operands being in their registers. -/
theorem call_entered {actuals : List Atom}
    (call : Call) (hact : ∀ atom ∈ actuals, IsActual sizeFf (pos.aty atom))
    (hopr : call.OprOk)
    (hspilled : call.spilledActuals = (actuals.drop 3).map pos.aty)
    (hdest : ∀ aty ∈ call.spilledResults, IsDest sizeFf aty) (C : List Inst) :
    Enters flags labAddr pos sizeFf actuals (cgCall flags sizeFf returnLab call C) := by
  have hdest' : ∀ entry ∈ (call.spilledResults.zipIdx 0).reverse, IsDest sizeFf entry.1 :=
    fun entry hmem => hdest entry.1 (fst_mem_of_mem_zipIdx (mem_reverse.mp hmem))
  obtain ⟨fetch, hfetch⟩ := fetchRes_emits hdest'
  obtain ⟨code, hcode, hrun, -⟩ := cgCall_shape flags labAddr
    (forall_mem_spilled hact hspilled) hopr hfetch C
  refine ⟨code, hcode, fun s => ?_⟩
  obtain ⟨target, s', hs', hat⟩ := hrun s
  have hentered := hat.entered
  rw [hspilled] at hentered
  exact ⟨target, s', _, hs', hentered⟩

/-- The call statement with its operands resolved. -/
def SourceCall.resolvedStmt : SourceCall → BasicStmt Unit Atom
  | .fncall app => .fncall (withFnOperands app
      (resolveApp .phreg RI.argsPhreg RI.resPhreg (fnOperands app)).1)
  | .funcall app => .funcall (withFunOperands app
      (resolveApp .phreg RI.argsPhreg RI.resPhreg (funOperands app)).1)
  | .jmp app => .jmp (withFunOperands app
      (resolveApp .phreg RI.argsPhreg RI.resPhreg (funOperands app)).1)

theorem ccLs_call (call : SourceCall) (rest : List (BasicStmt Unit Atom)) :
    ccLs call.stmt rest = resolveRes call.moves (call.resolvedStmt ::
      resolveArgs (resolveApp .phreg RI.argsPhreg RI.resPhreg call.operands).2.2 rest) := by
  cases call <;> rfl

/-- The results that are left on the stack. -/
theorem resolved_dest {app : App Atom} {moves : List (Atom × Lvar)}
    (h : Resolved app app' moves resMoves)
    (hres : ∀ atom ∈ app.res, IsDest sizeFf (pos.aty atom)) :
    ∀ aty ∈ (app'.res.map pos.aty).drop 3, IsDest sizeFf aty :=
  forall_mem_spilled hres (h.spilled pos.aty).2

section Resolved

variable {moves resMoves : List (Atom × Lvar)}

theorem fncall_entered (app : FnApp Atom) (h : Resolved (fnOperands app) app' moves resMoves)
    (hregVec : app'.regVec = none) (hregArgs : app'.regArgs = [])
    (hact : ∀ atom ∈ (fnOperands app).actuals, IsActual sizeFf (pos.aty atom))
    (hopr : IsOperand (pos.aty app.opr))
    (hres : ∀ atom ∈ app.res, IsDest sizeFf (pos.aty atom)) (C : List Inst) :
    Enters flags labAddr pos sizeFf (fnOperands app).actuals
      (cgFncall flags sizeFf returnLab (mapFnApp pos.aty (withFnOperands app app')) C) := by
  have hactuals : (Call.fncall (mapFnApp pos.aty (withFnOperands app app'))).actuals =
      app'.actuals.map pos.aty := by
    rw [← actuals_withFnOperands app hregVec hregArgs]
    exact formals_map _ none _ []
  have hspilled : (Call.fncall (mapFnApp pos.aty (withFnOperands app app'))).spilledActuals =
      ((fnOperands app).actuals.drop 3).map pos.aty := by
    rw [Call.spilledActuals, hactuals]
    exact (h.spilled pos.aty).1
  exact call_entered
    (.fncall (mapFnApp pos.aty (withFnOperands app app'))) hact hopr hspilled
    (resolved_dest h hres) C

theorem actuals_mapFunApp (app : FunApp Atom) :
    (funApp (mapFunApp pos.aty (withFunOperands app app'))).actuals = app'.actuals.map pos.aty :=
  formals_map _ _ _ _

theorem funcall_entered (app : FunApp Atom) (h : Resolved (funOperands app) app' moves resMoves)
    (hact : ∀ atom ∈ (funOperands app).actuals, IsActual sizeFf (pos.aty atom))
    (hres : ∀ atom ∈ app.res, IsDest sizeFf (pos.aty atom)) (C : List Inst) :
    Enters flags labAddr pos sizeFf (funOperands app).actuals
      (cgFuncall flags sizeFf returnLab (mapFunApp pos.aty (withFunOperands app app')) C) := by
  have hspilled : (Call.funcall (mapFunApp pos.aty (withFunOperands app app'))).spilledActuals =
      ((funOperands app).actuals.drop 3).map pos.aty := by
    rw [← (h.spilled pos.aty).1]
    exact congrArg (List.drop 3) (actuals_mapFunApp app)
  exact call_entered
    (.funcall (mapFunApp pos.aty (withFunOperands app app'))) hact trivial hspilled
    (resolved_dest h hres) C

theorem jmp_entered (app : FunApp Atom) (h : Resolved (funOperands app) app' moves resMoves)
    (hsize : 0 ≤ sizeFf + sizeCcf)
    (hact : ∀ atom ∈ (funOperands app).actuals, IsActual sizeFf (pos.aty atom)) (C : List Inst) :
    Enters flags labAddr pos sizeFf (funOperands app).actuals
      (cgJmp flags sizeFf sizeCcf (mapFunApp pos.aty (withFunOperands app app')) C) := by
  have hspilled : jmpSpilled (mapFunApp pos.aty (withFunOperands app app')) =
      ((funOperands app).actuals.drop 3).map pos.aty := by
    rw [← (h.spilled pos.aty).1, jmpSpilled, actuals_mapFunApp]
  obtain ⟨code, hcode, hrun⟩ := cgJmp_shape hsize (forall_mem_spilled hact hspilled) C
  refine ⟨code, hcode, fun s => ?_⟩
  obtain ⟨s', hs', hentered, -⟩ := hrun s
  rw [hspilled] at hentered
  exact ⟨_, s', _, hs', hentered⟩

end Resolved

theorem resolvedStmt_entered {formals : List Lvar}
    (hsize : 0 ≤ sizeFf + sizeCcf) (hfits : CallFits pos sizeFf call formals) (C : List Inst) :
    Enters flags labAddr pos sizeFf call.actuals
      (cgCallLs flags pos sizeFf sizeCcf returnLab call.resolvedStmt C) := by
  have h := resolveApp_resolved call.operands
  cases call with
  | fncall app =>
    obtain ⟨hregVec, hregArgs⟩ := resolveApp_regions Atom.phreg
      (show (fnOperands app).regVec = none from rfl) rfl
    exact fncall_entered app h hregVec hregArgs hfits.actual hfits.opr hfits.res C
  | funcall app => exact funcall_entered app h hfits.actual hfits.res C
  | jmp app => exact jmp_entered app h hsize hfits.actual C

end Calls

/-- The code of a call, from the statement in the source on: moves, pushes and
the jump.  Whatever the state and the sizes of the two frames, the callee finds
every actual where its convention puts the formal, as long as no register is
overwritten whose operand is moved or pushed later. -/
theorem call_args_placed (flags : Flags) (labAddr : Lab → Int) (sizeFf sizeCcf : Int)
    (returnLab : Lab) (pos : Positions) (call : SourceCall) (args : List Lvar)
    (clos regVec : Option Lvar) (regArgs ress : List Lvar) {cc : CC}
    {formalRegs resRegs : List (Lvar × Lvar)} (hsize : 0 ≤ sizeFf + sizeCcf)
    (hcc : resolveCc RI.argsPhreg RI.resPhreg (mkCcFun args clos regVec regArgs ress) =
      .ok (cc, formalRegs, resRegs))
    (hfits : CallFits pos sizeFf call (formals clos regVec args regArgs)) :
    ∃ code, cgCallLss flags pos sizeFf sizeCcf returnLab (ccLs call.stmt []) [] = .ok code ∧
      ∀ s, ∃ target s', runToJmp labAddr s code = some (target, s') ∧
        ArgsPlaced flags labAddr pos sizeFf call cc (formals clos regVec args regArgs) s s' := by
  obtain ⟨cc', formalRegs', hcc', hplaces⟩ := resolveCc_places args clos regVec regArgs ress
  rw [hcc] at hcc'
  cases hcc'
  have hresolved := resolveApp_resolved call.operands
  have hresMoves : ∀ move ∈ (resolveApp .phreg RI.argsPhreg RI.resPhreg call.operands).2.2,
      move.1 ∈ call.operands.res ∧ move.2 ∈ RI.resPhreg := by
    intro move hmem
    rw [hresolved.resMoves] at hmem
    exact of_mem_zip hmem
  obtain ⟨C, hC⟩ := resolveArgs_ok flags pos sizeCcf
    (fun move hmem => (hresMoves move hmem).2)
    (fun move hmem => hfits.res _ (hresMoves move hmem).1)
    (show cgCallLss flags pos sizeFf sizeCcf returnLab [] [] = .ok [] from rfl)
  obtain ⟨code, hcode, hrun⟩ := resolvedStmt_entered hsize hfits C
  have hcall : cgCallLss flags pos sizeFf sizeCcf returnLab (call.resolvedStmt ::
      resolveArgs (resolveApp .phreg RI.argsPhreg RI.resPhreg call.operands).2.2 []) [] = .ok code :=
    (ok_bind hC).trans hcode
  obtain ⟨pre, hpre, hplain, hmoved⟩ := resolveRes_moves flags labAddr pos sizeFf
    hfits.canMove hcall
  refine ⟨pre ++ code, by rw [ccLs_call]; exact hpre, fun s => ?_⟩
  obtain ⟨target, s', base, hs', hentered⟩ := hrun (exec labAddr s pre)
  refine ⟨target, s', ?_, argsPlaced_of_entered hfits hplaces (hmoved s) hentered⟩
  rw [runToJmp_plain s code hplain]
  exact hs'

/-- Variables in registers or on the stack. -/
def places (entries : List (Lvar × Aty)) : Positions :=
  .ofMaps (fun lv => entries.lookup lv) fun _ => none

/-- A tail call with four arguments: one in the register the first argument
goes to, one in another register, one on the stack, and a number. -/
def tailCall : SourceCall :=
  .jmp { opr := ⟨0⟩, args := [.var (.named 0 false), .var (.named 1 false), .var (.named 2 false),
           .integer 7 63],
         regVec := none, regArgs := [], clos := none, res := [.var (.named 3 false)], bv := [] }

def tailCallPlaces : Positions :=
  places [(.named 0 false, .phreg .rax), (.named 1 false, .phreg .rsi), (.named 2 false, .stack 0),
    (.named 3 false, .phreg .rdi)]

theorem tailCall_fits : CallFits tailCallPlaces 2 tailCall
    [.named 10 false, .named 11 false, .named 12 false, .named 13 false] where
  nargs := rfl
  nodup := by decide
  actual := by
    intro atom hmem
    have hcases : atom = .var (.named 0 false) ∨ atom = .var (.named 1 false) ∨
        atom = .var (.named 2 false) ∨ atom = .integer 7 63 := by
      simpa [tailCall, SourceCall.actuals, SourceCall.operands, App.actuals, funOperands, formals,
        appendToListOpt] using hmem
    rcases hcases with rfl | rfl | rfl | rfl
    · exact ⟨rfl, by decide, by decide⟩
    · exact ⟨rfl, by decide, by decide⟩
    · exact ⟨trivial, show (0 : Int) < 2 by decide⟩
    · exact ⟨show 63 ∈ [31, 32, 63, 64] by decide, trivial⟩
  opr := trivial
  res := by
    intro atom hmem
    obtain rfl : atom = .var (.named 3 false) := by
      simpa [tailCall, SourceCall.operands, funOperands] using hmem
    exact ⟨rfl, by decide, by decide⟩
  inOrder := by
    unfold InOrder
    decide
  spilled := by
    unfold Survives
    decide

theorem tailCall_placed : ∃ code, cgCallLss plainFlags tailCallPlaces 2 1
      (.localLab "return_from_app" 0) (ccLs tailCall.stmt []) [] = .ok code ∧
    ∀ s, ∃ target s', runToJmp (fun _ => 0) s code = some (target, s') ∧
      ArgsPlaced plainFlags (fun _ => 0) tailCallPlaces 2 tailCall
        { clos := none,
          args := [.phreg (.named 10 false) (.phreg .rax), .phreg (.named 11 false) (.phreg .rbx),
            .phreg (.named 12 false) (.phreg .rdi), .stack (.named 13 false) (-1)],
          regVec := none, regArgs := [], res := [.phreg (.named 14 false) (.phreg .rdi)],
          frameSize := none }
        [.named 10 false, .named 11 false, .named 12 false, .named 13 false] s s' :=
  call_args_placed plainFlags (fun _ => 0) 2 1 (.localLab "return_from_app" 0) tailCallPlaces
    tailCall [.named 10 false, .named 11 false, .named 12 false, .named 13 false] none none []
    [.named 14 false] (by decide) rfl tailCall_fits

/-- A call whose two arguments are each in the register of the other one. -/
def swappedCall : SourceCall :=
  .funcall { opr := ⟨0⟩, args := [.var (.named 0 false), .var (.named 1 false)], regVec := none,
             regArgs := [], clos := none, res := [], bv := [] }

def swappedPlaces : Positions :=
  places [(.named 0 false, .phreg .rbx), (.named 1 false, .phreg .rax)]

/-- The second argument is moved first and overwrites the first one. -/
theorem swapped_arguments_misplaced : ∃ code cc formalRegs resRegs target s s', resolveCc
    RI.argsPhreg RI.resPhreg (mkCcFun [.named 10 false, .named 11 false] none none [] []) = .ok
    (cc, formalRegs, resRegs) ∧ cgCallLss plainFlags swappedPlaces 0 0
    (.localLab "return_from_app" 0) (ccLs swappedCall.stmt []) [] = .ok code ∧ runToJmp (fun _ => 0)
    s code = some (target, s') ∧ ¬ ArgsPlaced plainFlags (fun _ => 0) swappedPlaces 0 swappedCall cc
    [.named 10 false, .named 11 false] s s' := by
  refine ⟨_, _, _, _, _, ⟨fun reg => if reg = .rbx then 1 else 2, fun _ => 0⟩, _, rfl, rfl, rfl, ?_⟩
  intro hplaced
  have hfirst := hplaced 0 0 (.var (.named 0 false)) (.phreg (.named 10 false) (.phreg .rax)) 1
    rfl rfl (by decide) rfl
  revert hfirst
  simp [styHolds]
  decide

end MLKit.X64
