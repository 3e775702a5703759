import MLKit.Lambda.MatchCompiler

/-!
# Scopes, types and values of matches

A scope gives the meaning of the long identifiers that the patterns of a match are
written with.  It says which patterns have a type, which values have one, when a
pattern matches a value, and where a walk through a decision dag ends.
-/

namespace MLKit.Lambda.Match

open MLKit.Lib

inductive Ty where
  | integer (name : Nat)
  | word (name : Nat)
  | string
  | char
  | exn
  | record (ts : List Ty)
  | data (tn : Nat) (args : List Ty)
  | other (name : Nat)

/-- A value constructor: its datatype and its place in the declaration. -/
structure DataCon where
  tn : Nat
  index : Nat
  deriving DecidableEq

/-- The datatypes and exceptions of a program, and the long identifiers that denote
their constructors in the patterns of a match.  The argument type of a value
constructor is given at every instance of its datatype. -/
structure Scope where
  numCons : Nat → Nat
  conArg : DataCon → Option (List Ty → Ty)
  exnArg : Nat → Option Ty
  con : Longid → Option DataCon
  excon : Longid → Option Nat
  con_lt : ∀ {x c}, con x = some c → c.index < numCons c.tn

inductive Val where
  | scon (s : SCon)
  | con (c : DataCon) (args : List Val)
  | excon (e : Nat) (args : List Val)
  | record (args : List Val)
  | other (k : Nat)

def Val.args : Val → List Val
  | .scon _ => []
  | .con _ args => args
  | .excon _ args => args
  | .record args => args
  | .other _ => []

def SCon.HasTy : SCon → Ty → Prop
  | .integer _, .integer _ => True
  | .word _, .word _ => True
  | .string _, .string => True
  | .char c, .char => 0 ≤ c ∧ c < 256
  | _, _ => False

namespace Scope

variable (sc : Scope)

def conArgs (c : DataCon) (args : List Ty) : List Ty := (sc.conArg c).toList.map (· args)

mutual

def HasTy : Val → Ty → Prop
  | .scon s, τ => s.HasTy τ
  | .con c vs, .data tn args => c.tn = tn ∧ c.index < sc.numCons tn ∧ HasTys vs (sc.conArgs c args)
  | .excon e vs, .exn => HasTys vs (sc.exnArg e).toList
  | .record vs, .record ts => HasTys vs ts
  | .other _, .other _ => True
  | _, _ => False

def HasTys : List Val → List Ty → Prop
  | [], [] => True
  | v :: vs, t :: ts => HasTy v t ∧ HasTys vs ts
  | _, _ => False

end

/-! ## Patterns of a type -/

/-- The constructor of a pattern belongs to the type, with these types of arguments. -/
def ConTy : Con → Ty → List Ty → Prop
  | .con x span nullary, τ, ts => ∃ c args, sc.con x = some c ∧
      span = .finite (sc.numCons c.tn) ∧ nullary = (sc.conArg c).isNone ∧
      τ = .data c.tn args ∧ ts = sc.conArgs c args
  | .scon s, τ, ts => s.HasTy τ ∧ ts = []
  | .excon x nullary, τ, ts => ∃ e, sc.excon x = some e ∧ nullary = (sc.exnArg e).isNone ∧
      τ = .exn ∧ ts = (sc.exnArg e).toList
  | .tuple n, τ, ts => τ = .record ts ∧ n = ts.length

def rowLabels : Patrow → List Nat
  | .row (some (.labInfo i)) _ rest => i :: rowLabels rest
  | _ => []

mutual

def PatTy : Pat → Ty → Prop
  | .atpat a, τ => AtpatTy a τ
  | .cons (some (.conInfo numCons x)) a, τ =>
    ∃ t, sc.ConTy (.con x (.finite numCons) false) τ [t] ∧ AtpatTy a t
  | .cons (some (.exconInfo x)) a, τ => ∃ t, sc.ConTy (.excon x false) τ [t] ∧ AtpatTy a t
  | .cons _ _, _ => False
  | .typed p, τ => PatTy p τ
  | .layered _ p, τ => PatTy p τ
  | .unresInfix, _ => False

def AtpatTy : Atpat → Ty → Prop
  | .wildcard, _ => True
  | .scon s, τ => sc.ConTy (.scon s) τ []
  | .longid (some .varPatInfo) _, _ => True
  | .longid (some (.conInfo numCons x)) _, τ => sc.ConTy (.con x (.finite numCons) true) τ []
  | .longid (some (.exconInfo x)) _, τ => sc.ConTy (.excon x true) τ []
  | .longid _ _, _ => False
  -- every field once, in any order
  | .record rows, τ => ∃ ts, τ = .record ts ∧ RowsTy rows ts ∧
      (rowLabels rows).Perm (List.range ts.length)
  | .par p, τ => PatTy p τ

def RowsTy : Patrow → List Ty → Prop
  | .none, _ => True
  | .dotdotdot, _ => False
  | .row (some (.labInfo i)) p rest, ts => (∃ t, ts[i]? = some t ∧ PatTy p t) ∧ RowsTy rest ts
  | .row _ _ _, _ => False

end

/-! ## Matching -/

/-- The value was built with the constructor. -/
def builtWith : Con → Val → Bool
  | .con x _ _, .con c _ => sc.con x == some c
  | .scon s, .scon t => s == t
  | .excon x _, .excon e _ => sc.excon x == some e
  | .tuple n, .record vs => vs.length == n
  | _, _ => false

mutual

def matchesPat : Pat → Val → Bool
  | .atpat a, v => matchesAtpat a v
  | .cons (some (.conInfo numCons x)) a, v =>
    sc.builtWith (.con x (.finite numCons) false) v && v.args.head?.any (matchesAtpat a)
  | .cons (some (.exconInfo x)) a, v =>
    sc.builtWith (.excon x false) v && v.args.head?.any (matchesAtpat a)
  | .cons _ _, _ => false
  | .typed p, v => matchesPat p v
  | .layered _ p, v => matchesPat p v
  | .unresInfix, _ => false

def matchesAtpat : Atpat → Val → Bool
  | .wildcard, _ => true
  | .scon s, v => sc.builtWith (.scon s) v
  | .longid (some .varPatInfo) _, _ => true
  | .longid (some (.conInfo numCons x)) _, v => sc.builtWith (.con x (.finite numCons) true) v
  | .longid (some (.exconInfo x)) _, v => sc.builtWith (.excon x true) v
  | .longid _ _, _ => false
  | .record rows, .record vs => matchesRows rows vs
  | .record _, _ => false
  | .par p, v => matchesPat p v

def matchesRows : Patrow → List Val → Bool
  | .row (some (.labInfo i)) p rest, vs => vs[i]?.any (matchesPat p) && matchesRows rest vs
  | .none, _ => true
  | _, _ => false

end

/-! ## Walks through a decision dag -/

/-- The component of a value at a path. -/
def component (v : Val) : Path → Option Val
  | .obj => some v
  | .access i c p =>
    (component v p).bind fun u => if sc.builtWith c u then u.args[i]? else none

/-- The component at the path was built with the constructor. -/
def tests (v : Val) (path : Path) (c : Con) : Bool := (sc.component v path).any (sc.builtWith c)

mutual

/-- The right hand side in which a walk on `v` ends, or nothing at the failure edge. -/
def walk (v : Val) : Edge → Option Rhs
  | none => none
  | some n => walkNode v n

def walkNode (v : Val) : Node → Option Rhs
  | .success _ rhs => some rhs
  | .ifEq _ path c e1 e2 => if sc.tests v path c then walk v e1 else walk v e2

end

/-! ## Constructors of a type -/

variable {sc}

theorem ConTy.length (h : sc.ConTy c τ ts) : ts.length = arity c := by
  cases c with
  | con x span nullary =>
    obtain ⟨c, args, -, -, rfl, -, rfl⟩ := h
    simp only [conArgs, List.length_map, arity]
    cases sc.conArg c <;> rfl
  | scon s =>
    obtain ⟨-, rfl⟩ := h
    rfl
  | excon x nullary =>
    obtain ⟨e, -, rfl, -, rfl⟩ := h
    cases sc.exnArg e <;> rfl
  | tuple n => exact h.2.symm

theorem ConTy.unique (h : sc.ConTy c τ ts) (h' : sc.ConTy c τ us) : ts = us := by
  cases c with
  | con x span nullary =>
    obtain ⟨c, args, hc, -, -, rfl, rfl⟩ := h
    obtain ⟨c', args', hc', -, -, hτ, rfl⟩ := h'
    cases hc.symm.trans hc'
    cases hτ
    rfl
  | scon s => exact h.2.trans h'.2.symm
  | excon x nullary =>
    obtain ⟨e, he, -, -, rfl⟩ := h
    obtain ⟨e', he', -, -, rfl⟩ := h'
    cases he.symm.trans he'
    rfl
  | tuple n =>
    cases h.1.symm.trans h'.1
    rfl

/-- Constructors with one identifier. -/
inductive SameCon : Con → Con → Prop where
  | con : SameCon (.con x n nullary) (.con x n' nullary')
  | scon : SameCon (.scon s) (.scon s)
  | tuple : SameCon (.tuple n) (.tuple n)
  | excon : SameCon (.excon x nullary) (.excon x nullary')

theorem sameCon_of_conEq (h : conEq c d = true) : SameCon c d := by
  rw [conEq.eq_def] at h
  split at h
  · exact eq_of_beq h ▸ .con
  · exact eq_of_beq h ▸ .scon
  · exact eq_of_beq h ▸ .tuple
  · exact eq_of_beq h ▸ .excon
  · cases h

/-- The identifier of a constructor determines the rest of it. -/
theorem ConTy.eq_of_conEq (hc : sc.ConTy c τ ts) (hd : sc.ConTy d σ us) (h : conEq c d = true) :
    c = d := by
  cases sameCon_of_conEq h with
  | con =>
    obtain ⟨c, args, hx, rfl, rfl, -, -⟩ := hc
    obtain ⟨d, args', hy, rfl, rfl, -, -⟩ := hd
    cases hx.symm.trans hy
    rfl
  | excon =>
    obtain ⟨e, hx, rfl, -, -⟩ := hc
    obtain ⟨e', hy, rfl, -, -⟩ := hd
    cases hx.symm.trans hy
    rfl
  | scon | tuple => rfl

theorem HasTys.length_eq : ∀ {vs : List Val} {ts : List Ty}, sc.HasTys vs ts → vs.length = ts.length
  | [], [], _ => rfl
  | _ :: _, _ :: _, h => congrArg (· + 1) (HasTys.length_eq h.2)

theorem HasTys.get : ∀ {vs : List Val} {ts : List Ty} {i : Nat} {t : Ty}, sc.HasTys vs ts →
    ts[i]? = some t → ∃ v, vs[i]? = some v ∧ sc.HasTy v t
  | [], [], _, _, _, hi => nomatch hi
  | v :: _, _ :: _, 0, t, h, hi => by
    cases hi
    exact ⟨v, rfl, h.1⟩
  | _ :: _, _ :: _, i + 1, t, h, hi => HasTys.get (i := i) h.2 hi

/-- A constructor and a value that it has built. -/
inductive Builds (sc : Scope) : Con → Val → Prop where
  | con : sc.con x = some c → Builds sc (.con x n nullary) (.con c vs)
  | scon : Builds sc (.scon s) (.scon s)
  | excon : sc.excon x = some e → Builds sc (.excon x nullary) (.excon e vs)
  | record : Builds sc (.tuple vs.length) (.record vs)

theorem builds_of_builtWith (h : sc.builtWith c u = true) : sc.Builds c u := by
  rw [builtWith.eq_def] at h
  split at h
  · exact .con (eq_of_beq h)
  · exact eq_of_beq h ▸ .scon
  · exact .excon (eq_of_beq h)
  · exact eq_of_beq h ▸ .record
  · cases h

/-- The arguments of a value have the types of those of the constructor it was built
with. -/
theorem HasTy.args (hu : sc.HasTy u τ) (hc : sc.ConTy c τ ts)
    (hb : sc.builtWith c u = true) : sc.HasTys u.args ts := by
  cases builds_of_builtWith hb with
  | con hd =>
    obtain ⟨c, args, hx, -, -, rfl, rfl⟩ := hc
    cases hx.symm.trans hd
    exact hu.2.2
  | scon =>
    rw [hc.2]
    trivial
  | excon he =>
    obtain ⟨e', hx, -, rfl, rfl⟩ := hc
    cases hx.symm.trans he
    exact hu
  | record =>
    rw [hc.1] at hu
    exact hu

end Scope

end MLKit.Lambda.Match
