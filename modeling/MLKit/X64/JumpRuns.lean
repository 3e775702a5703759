import MLKit.X64.InstsX64
import MLKit.Lib.LabelledCode

/-!
# Runs of X64 code

Control stands at a suffix of the code. Labels, comments and the directives that emit nothing are
passed silently, and so are the jumps to local labels; every other instruction is an event of the
run. A conditional jump tests a flag, and both outcomes are runs. The code that is left by a return
or by a jump to something else than a local label is entered again at a label.
-/

namespace MLKit.X64.InstsX64

open MLKit.Lib List

def labOf : Inst → Option Lab
  | .lab l => some l
  | _ => none

def localOf : Inst → Option Label
  | .lab (.localLab l) => some l
  | _ => none

def localNumber : Lab → Option Label
  | .localLab l => some l
  | _ => none

/-- The local labels that an instruction refers to. -/
def localRefs : Inst → List Label
  | .lab _ => []
  | i => (labelsOf i).filterMap localNumber

/-- What control does at an instruction. -/
inductive Kind where
  | silent
  | jump (l : Label)
  | test (cond : Cond) (l : Lab)
  | leave
  | pass

def kind : Inst → Kind
  | .lab _ => .silent
  | .comment _ => .silent
  | .dotAlign _ => .silent
  | .dotP2align _ => .silent
  | .dotGlobl _ => .silent
  | .dotText => .silent
  | .dotData => .silent
  | .dotSection _ => .silent
  | .dotSize _ _ => .silent
  | .jmp (.L (.localLab l)) => .jump l
  | .jmp _ => .leave
  | .ret => .leave
  | .jcc cond l => .test cond l
  | _ => .pass

/-- The instruction is an event of a run. -/
def Kind.seen : Kind → Bool
  | .silent => false
  | .jump _ => false
  | _ => true

/-- From one place in the code control comes silently to another one, where the next event is, and
makes a number of jumps. -/
inductive Lands (P : List Inst) : Nat → List Inst → List Inst → Prop where
  | nil : Lands P 0 [] []
  | here : (kind i).seen = true → Lands P 0 (i :: a) (i :: a)
  | skip : kind i = .silent → Lands P k a d →
      Lands P k (i :: a) d
  | jump : kind i = .jump l →
      codeFrom localOf l P = some c → Lands P k c d → Lands P (k + 1) (i :: a) d

/-- The flags that the conditional jumps test. -/
inductive Flag where
  | l | le | e | c | be | o
  deriving DecidableEq

/-- The flag of a condition and the value with which the jump is taken. -/
def flag : Cond → Flag × Bool
  | .l => (.l, true)
  | .ge => (.l, false)
  | .le => (.le, true)
  | .g => (.le, false)
  | .e => (.e, true)
  | .ne => (.e, false)
  | .c => (.c, true)
  | .nc => (.c, false)
  | .b => (.c, true)
  | .ae => (.c, false)
  | .be => (.be, true)
  | .a => (.be, false)
  | .o => (.o, true)

theorem flag_invert {cond inverted : Cond} (h : invert cond = some inverted) :
    flag inverted = ((flag cond).1, !(flag cond).2) := by
  cases cond <;> cases h <;> rfl

inductive Event where
  | exec (i : Inst)
  | test (flag : Flag) (outcome : Bool)
  | leave (i : Inst)
  | fall
  deriving DecidableEq

/-- The event at a place where control has come silently, and the place after it, if the code is
not left. -/
inductive Emits : List Inst → Event → Option (List Inst) → Prop where
  | fall : Emits [] .fall none
  | exec : kind i = .pass → Emits (i :: a) (.exec i) (some a)
  | leave : kind i = .leave → Emits (i :: a) (.leave i) none
  | test {i : Inst} {cond : Cond} {l : Lab} {a : List Inst} (outcome : Bool) :
      kind i = .test cond l →
      Emits (i :: a) (.test (flag cond).1 outcome)
        (some (if outcome = (flag cond).2 then [.jmp (.L l)] else a))

/-- The events of the runs from a place in the code. -/
inductive Runs (P : List Inst) : List Inst → List Event → Prop where
  | nil : Runs P a []
  | last : Lands P k a d → Emits d e none → Runs P a [e]
  | step : Lands P k a d →
      Emits d e (some c) → Runs P c es → Runs P a (e :: es)

variable {i : Inst} {R c : List Inst}

section Renaming

variable (ρ : Label → Label)

def renameLab : Lab → Lab
  | .localLab l => .localLab (ρ l)
  | l => l

def rename (i : Inst) : Inst := onI id (renameLab ρ) i

def renameEvent : Event → Event
  | .exec i => .exec (rename ρ i)
  | .leave i => .leave (rename ρ i)
  | e => e

theorem renameLab_id (l : Lab) : renameLab id l = l := by
  cases l <;> rfl

theorem onEa_id (ea : Ea) : onEa id (renameLab id) ea = ea := by
  cases ea <;> simp [onEa, renameLab_id]

theorem rename_id (i : Inst) : rename id i = i := by
  cases i <;> simp [rename, onI, onEa_id, renameLab_id]

theorem renameEvent_id (e : Event) : renameEvent id e = e := by
  cases e <;> simp [renameEvent, rename_id]

def Kind.rename : Kind → Kind
  | .jump l => .jump (ρ l)
  | .test cond l => .test cond (renameLab ρ l)
  | k => k

theorem kind_rename (i : Inst) : kind (InstsX64.rename ρ i) = (kind i).rename ρ := by
  cases i with
  | jmp ea =>
    cases ea with
    | L l => cases l <;> rfl
    | _ => rfl
  | _ => rfl

theorem labelsOfEa_rename (ea : Ea) :
    labelsOfEa (onEa id (renameLab ρ) ea) = (labelsOfEa ea).map (renameLab ρ) := by
  cases ea <;> rfl

theorem labelsOf_rename (i : Inst) :
    labelsOf (InstsX64.rename ρ i) = (labelsOf i).map (renameLab ρ) := by
  cases i <;> simp [InstsX64.rename, onI, labelsOf, labelsOfEa_rename]

theorem localNumber_renameLab (l : Lab) : localNumber (renameLab ρ l) = (localNumber l).map ρ := by
  cases l <;> rfl

theorem filterMap_renameLab (ls : List Lab) :
    (ls.map (renameLab ρ)).filterMap localNumber = (ls.filterMap localNumber).map ρ := by
  rw [filterMap_map, map_filterMap]
  congr 1
  funext l
  exact localNumber_renameLab ρ l

theorem localRefs_of_labOf (h : labOf i = none) :
    localRefs i = (labelsOf i).filterMap localNumber := by
  cases i with
  | lab l => cases h
  | _ => rfl

theorem localRefs_rename (i : Inst) : localRefs (InstsX64.rename ρ i) = (localRefs i).map ρ := by
  cases hlab : labOf i with
  | some l =>
    cases i with
    | lab l => rfl
    | _ => cases hlab
  | none =>
    have hlab' : labOf (InstsX64.rename ρ i) = none := by
      cases i with
      | lab l => cases hlab
      | _ => rfl
    rw [localRefs_of_labOf hlab, localRefs_of_labOf hlab', labelsOf_rename, filterMap_renameLab]

end Renaming

/-- Setting a register to one. -/
def Event.setsOne : Event → Bool
  | .exec (.bin .movq (.I "1") (.R _)) => true
  | _ => false

/-- The events without the repetitions of setting a register to one. -/
def collapse : List Event → List Event
  | [] => []
  | e :: es => if e.setsOne && es.head? == some e then collapse es else e :: collapse es

/-- The runs from two places are the same up to the names of labels and repetitions of setting a
register to one. -/
structure SameRuns (ρ : Label → Label) (P a Q b : List Inst) : Prop where
  forward : ∀ es, Runs P a es →
    ∃ es', Runs Q b es' ∧ collapse (es.map (renameEvent ρ)) = collapse es'
  backward : ∀ es', Runs Q b es' →
    ∃ es, Runs P a es ∧ collapse (es.map (renameEvent ρ)) = collapse es'

variable {ρ : Label → Label} {P a Q b : List Inst}

theorem SameRuns.trans (h1 : SameRuns ρ P a Q b) (h2 : SameRuns id Q b R c) :
    SameRuns ρ P a R c := by
  have hid : renameEvent id = id := funext renameEvent_id
  constructor
  · intro es hes
    obtain ⟨es1, hes1, heq1⟩ := h1.forward es hes
    obtain ⟨es2, hes2, heq2⟩ := h2.forward es1 hes1
    rw [hid, map_id] at heq2
    exact ⟨es2, hes2, heq1.trans heq2⟩
  · intro es2 hes2
    obtain ⟨es1, hes1, heq2⟩ := h2.backward es2 hes2
    obtain ⟨es, hes, heq1⟩ := h1.backward es1 hes1
    rw [hid, map_id] at heq2
    exact ⟨es, hes, heq1.trans heq2⟩

section Machine

variable {σ : Type*} (exec : Inst → σ → σ)

end Machine

end MLKit.X64.InstsX64
