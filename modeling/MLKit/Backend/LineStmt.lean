import MLKit.Backend.BackendInfo

/-!
# Line statements

The linear intermediate language of the back end (`LineStmt`).  Statements
that contain no statements are the type `BasicStmt`; `LineStmt` adds the four
structured forms, so that the def and use functions, which refuse a structured
statement in the source, are total here.
-/

namespace MLKit.Backend

structure Label where
  key : Nat
  deriving DecidableEq

structure Place where
  key : Nat
  deriving DecidableEq

structure Con where
  name : String
  deriving DecidableEq

structure Excon where
  name : String
  deriving DecidableEq

abbrev Word32 := BitVec 32

/-- A program point. -/
abbrev Pp := Nat

/-- Physical size of a region: unbounded, or a number of words. -/
inductive PhSize where
  | inf
  | words (n : Nat)
  deriving DecidableEq

inductive ForeignType where
  | charArray | foreignPtr | bool | int | unit
  deriving DecidableEq

/-- The number is the constructor's index in its datatype. -/
inductive ConKind where
  | enum (index : Nat)
  | unboxed (index : Nat)
  | boxed (index : Nat)
  deriving DecidableEq

abbrev Binder := Place × PhSize

inductive Atom where
  | var (lv : Lvar)
  | flowVar (lv : Lvar) (ifTrue ifFalse : Label)
  | rvar (place : Place)
  | droppedRvar (place : Place)
  | phreg (lv : Lvar)
  | integer (value : Int) (precision : Nat)
  | word (value : Int) (precision : Nat)
  | unit
  deriving DecidableEq

/-- The storage modes of an allocation: at top or at bottom, or decided at
run time, for a letregion- or formally bound region of either multiplicity. -/
inductive SmaKind where
  | attopLI | attopLF | attopFI | attopFF | atbotLI | atbotLF | satFI | satFF
  deriving DecidableEq

inductive Sma (α : Type) where
  | mode (kind : SmaKind) (aty : α) (pp : Pp)
  | ignore

/-- Free variables of a closure: lambda variables, exception constructors and
regions. -/
structure Free (α : Type) where
  lvs : List α
  excons : List α
  rhos : List α

inductive SimpleExp (α : Type) where
  | atom (aty : α)
  | load (lab : Label)
  | store (aty : α) (lab : Label)
  | string (str : String)
  | real (str : String)
  | f64 (str : String)
  | closRecord (label : Label) (elems : Free α) (alloc : Sma α)
  | regvecRecord (elems : List (Sma α)) (alloc : Sma α)
  | sclosRecord (elems : Free α) (alloc : Sma α)
  | record (elems : List α) (alloc : Sma α) (tag : Word32) (maybeuntag : Bool)
  | blockf64 (elems : List α) (alloc : Sma α) (tag : Word32)
  | scratchmem (bytes : Nat) (alloc : Sma α) (tag : Word32)
  | select (i : Nat) (aty : α)
  | con0 (con : Con) (conKind : ConKind) (auxRegions : List (Sma α)) (alloc : Sma α)
  | con1 (con : Con) (conKind : ConKind) (alloc : Sma α) (arg : α)
  | decon (con : Con) (conKind : ConKind) (conAty : α)
  | deref (aty : α)
  | ref (alloc : Sma α) (aty : α)
  | assignref (alloc : Sma α) (aty1 aty2 : α)
  | passPtrToMem (alloc : Sma α) (i : Nat) (untagged : Bool)
  | passPtrToRho (alloc : Sma α)

/-- A call of a closure; `bv` is the bit vector of the frame at the call. -/
structure FnApp (α : Type) where
  opr : α
  args : List α
  clos : Option α
  res : List α
  bv : List Word32

/-- A call of a known function, with its region vector and region arguments. -/
structure FunApp (α : Type) where
  opr : Label
  args : List α
  regVec : Option α
  regArgs : List α
  clos : Option α
  res : List α
  bv : List Word32

/-- Statements that contain no statements. -/
inductive BasicStmt (ο α : Type) where
  | assign (pat : α) (bind : SimpleExp α)
  | flush (aty : α) (offset : ο)
  | fetch (aty : α) (offset : ο)
  | fnjmp (app : FnApp α)
  | fncall (app : FnApp α)
  | jmp (app : FunApp α)
  | funcall (app : FunApp α)
  | raise (arg : α) (definedAtys : List α)
  | resetRegions (force : Bool) (regionsForResetting : List (Sma α))
  | prim (name : String) (args res : List α)
  | ccall (name : String) (args rhosForResult res : List α)
  | ccallAuto (name : String) (args : List (α × ForeignType)) (res : α × ForeignType)
  | exportFn (name : String) (closLab : Label) (arg : α × ForeignType × ForeignType)

/-- Which of `SWITCH_I`, `SWITCH_W`, `SWITCH_S`, `SWITCH_C`, `SWITCH_E`. -/
inductive SwitchKind where
  | int (precision : Nat)
  | word (precision : Nat)
  | string
  | con
  | excon
  deriving DecidableEq

inductive Selector where
  | num (value : Int)
  | string (str : String)
  | con (con : Con) (kind : ConKind)
  | excon (excon : Excon)
  deriving DecidableEq

/-- Statements, over the store types `σ` of bound variables, the frame
offsets `ο` and the operands `α`. -/
inductive LineStmt (σ ο α : Type) where
  | basic (stmt : BasicStmt ο α)
  | letregion (rhos : List (Binder × ο)) (body : List (LineStmt σ ο α))
  | scope (pat : List σ) (scope : List (LineStmt σ ο α))
  | handle (default : List (LineStmt σ ο α))
      (handl : List (LineStmt σ ο α)) (handlLv : α)
      (handlReturn : List (LineStmt σ ο α)) (handlReturnLv : α) (bv : List Word32)
      (offset : ο)
  | switch (kind : SwitchKind) (arg : α)
      (sels : List (Selector × List (LineStmt σ ο α)))
      (default : List (LineStmt σ ο α))

/-- How a bound variable is stored once fetches and flushes are inserted: on
the stack, in a register, in a register with a slot it is flushed to (for a
callee or for a caller of other functions), or as a flow variable.  The slots
are still anonymous (`ο` is `Unit`) before frame offsets are calculated. -/
inductive StoreType (ο : Type) where
  | stackSty (lv : Lvar) (offset : ο)
  | phregSty (lv phreg : Lvar)
  | flushedCalleeSty (phreg : Lvar) (offset : ο)
  | flushedCallerSty (lv phreg : Lvar) (offset : ο)
  | fvSty (lv : Lvar) (ifTrue ifFalse : Label)
  deriving DecidableEq

end MLKit.Backend
