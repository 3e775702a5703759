import MLKit.Common.Lab
import MLKit.Lambda.MatchCompiler

/-!
# Clauses of functions

`Infixing` turns the clauses of a `fun` declaration into nested functions of one argument. Source
positions, type constraints, `op` and region variables are left out, and the clauses are taken as
`resolveFClause` returns them.
-/

namespace MLKit.Parsing

open List
open MLKit.Lambda.Match (Longid SCon)

mutual

inductive Atpat where
  | wildcard
  | scon (s : SCon)
  | longid (x : Longid)
  | record (rows : Patrow)
  | par (p : Pat)

inductive Patrow where
  | none
  | dotdotdot
  | row (lab : Lab) (p : Pat) (rest : Patrow)

inductive Pat where
  | atpat (a : Atpat)
  | cons (x : Longid) (a : Atpat)
  | typed (p : Pat)
  | layered (id : String) (p : Pat)
  | unresInfix

end

/-- The argument patterns of a clause and its right-hand side. -/
structure Clause (β : Type) where
  atpats : List Atpat
  exp : β

/-- What the clauses become: functions of one argument, and at last a right-hand side, or a function
of rules applied to identifiers. -/
inductive Exp (β : Type) where
  | rhs (b : β)
  | fn (p : Atpat) (e : Exp β)
  | app (rules : List (Pat × β)) (vars : List String)

mutual

def certainMatchAtpat : Atpat → Bool
  | .longid _ => true
  | .par p => certainMatchPat p
  | .wildcard => true
  | .scon _ => false
  | .record rows => certainMatchPatrow rows

def certainMatchPatrow : Patrow → Bool
  | .none => true
  | .dotdotdot => true
  | .row _ p rest => certainMatchPat p && certainMatchPatrow rest

def certainMatchPat : Pat → Bool
  | .atpat a => certainMatchAtpat a
  | .cons _ _ => false
  | .typed p => certainMatchPat p
  | .layered _ p => certainMatchPat p
  | .unresInfix => false

end

mutual

def findTopmostIdInPat : Pat → Option String
  | .atpat a => findTopmostIdInAtpat a
  | .layered id _ => some id
  | .typed p => findTopmostIdInPat p
  | _ => none

def findTopmostIdInAtpat : Atpat → Option String
  | .longid x => some (String.intercalate "." (x.strids ++ [x.id]))
  | .par p => findTopmostIdInPat p
  | _ => none

end

/-- The identifiers for the arguments. `invent_named_id` returns the name it is given. -/
def inventVars (named : Bool) : Nat → List Atpat → List String
  | _, [] => []
  | count, a :: atpats =>
    (if named then findTopmostIdInAtpat a else none).getD ("var" ++ toString (count + 1)) ::
      inventVars named (count + 1) atpats

def tupleRows : Nat → List Atpat → Patrow
  | _, [] => .none
  | n, a :: atpats => .row (.integer n) (.atpat a) (tupleRows (n + 1) atpats)

def probableTuplePat : List Atpat → Pat
  | [a] => .atpat a
  | atpats => .atpat (.record (tupleRows 1 atpats))

section

variable {β : Type}

def trySimpleFvalbindToValbind : List (Clause β) → Option (Exp β)
  | [c] => if c.atpats.all certainMatchAtpat then some (c.atpats.foldr .fn (.rhs c.exp)) else none
  | _ => none

def mkMatch (rhsList : List (Clause β)) : List (Pat × β) :=
  rhsList.map fun c => (probableTuplePat c.atpats, c.exp)

def varPats (vars : List String) : List Atpat := vars.map fun x => .longid ⟨[], x⟩

/-- `count` is the number of identifiers that have been invented before. -/
def fvalbindToValbind (count : Nat) (rhsList : List (Clause β)) : Except String (Exp β) :=
  match trySimpleFvalbindToValbind rhsList with
  | some e => .ok e
  | none =>
    match rhsList with
    | [] => .error "Infixing.fvalbindToValbind"
    | c :: rest =>
      if (c :: rest).all fun c' => c'.atpats.length = c.atpats.length then
        let vars := inventVars rest.isEmpty count c.atpats
        .ok ((varPats vars).foldr .fn (.app (mkMatch (c :: rest)) vars))
      else .error "the clauses must have the same number of arguments."

end

/-! ## Meaning -/

/-- Constructors are known by number. -/
inductive Val where
  | scon (s : SCon)
  | con (c : Nat) (arg : Option Val)
  | record (fields : List (Lab × Val))
  | other (k : Nat)

abbrev Env := List (String × Val)

/-- The constructors that long identifiers denote, the others being variables, and what right-hand
sides do, which depends on their free identifiers only. -/
structure Meaning (β ρ σ : Type) where
  status : Longid → Option Nat
  free : β → List String
  run : β → Env → σ → ρ × σ
  run_congr : ∀ {b : β} {env env' : Env} (s : σ), (∀ x ∈ free b, env.lookup x = env'.lookup x) →
    run b env s = run b env' s

/-- What an application comes to. -/
inductive Outcome (ρ : Type) where
  | function
  | result (r : ρ)
  | raiseMatch

def tupleFields : Nat → List Val → List (Lab × Val)
  | _, [] => []
  | n, v :: vs => (.integer n, v) :: tupleFields (n + 1) vs

def tupleValue : List Val → Val
  | [v] => v
  | vs => .record (tupleFields 1 vs)

variable {vs : List Val} {atpats ps : List Atpat} {env : Env} {x : String} {named : Bool}

namespace Meaning

variable {β ρ σ : Type} (M : Meaning β ρ σ)

mutual

/-- The bindings of a match, those of later patterns first. -/
def bindsAtpat : Atpat → Val → Option Env
  | .wildcard, _ => some []
  | .scon s, .scon t => if s = t then some [] else none
  | .longid x, v =>
    match M.status x, v with
    | none, _ => some [(x.id, v)]
    | some c, .con d none => if c = d then some [] else none
    | _, _ => none
  | .record rows, .record fields => bindsPatrow rows fields
  | .par p, v => bindsPat p v
  | _, _ => none

def bindsPatrow : Patrow → List (Lab × Val) → Option Env
  | .none, _ => some []
  | .dotdotdot, _ => some []
  | .row lab p rest, fields => do
    let bs ← bindsPat p (← fields.lookup lab)
    let bs' ← bindsPatrow rest fields
    some (bs' ++ bs)

def bindsPat : Pat → Val → Option Env
  | .atpat a, v => bindsAtpat a v
  | .cons x a, .con d (some v) => if M.status x = some d then bindsAtpat a v else none
  | .typed p, v => bindsPat p v
  | .layered id p, v => do some ((← bindsPat p v) ++ [(id, v)])
  | _, _ => none

end

mutual

/-- The variables that a pattern binds. -/
def namesAtpat : Atpat → List String
  | .longid x => if M.status x = none then [x.id] else []
  | .record rows => namesPatrow rows
  | .par p => namesPat p
  | .wildcard => []
  | .scon _ => []

def namesPatrow : Patrow → List String
  | .none => []
  | .dotdotdot => []
  | .row _ p rest => namesPat p ++ namesPatrow rest

def namesPat : Pat → List String
  | .atpat a => namesAtpat a
  | .cons _ a => namesAtpat a
  | .typed p => namesPat p
  | .layered id p => id :: namesPat p
  | .unresInfix => []

end

/-- The values match the patterns, one by one. -/
def bindsAll : List Atpat → List Val → Option Env
  | [], [] => some []
  | a :: atpats, v :: vs => do
    let bs ← M.bindsAtpat a v
    let bs' ← bindsAll atpats vs
    some (bs' ++ bs)
  | _, _ => none

/-- The value of an identifier. In a program that elaborates it is bound. -/
def valueOf (env : Env) (x : String) : Val :=
  match M.status ⟨[], x⟩ with
  | some c => .con c none
  | none => (env.lookup x).getD (.other 0)

def result (b : β) (env : Env) (s : σ) : Outcome ρ × σ := (M.run b env s).map .result id

/-- The first rule that matches. -/
def firstRule : List (Pat × β) → Val → Env → σ → Outcome ρ × σ
  | [], _, _, s => (.raiseMatch, s)
  | (p, b) :: rules, v, env, s =>
    match M.bindsPat p v with
    | some bs => M.result b (bs ++ env) s
    | none => firstRule rules v env s

/-- An expression, applied to one argument after the other. -/
def apply : Exp β → Env → List Val → σ → Outcome ρ × σ
  | .rhs b, env, _, s => M.result b env s
  | .fn _ _, _, [], s => (.function, s)
  | .fn p e, env, v :: vs, s =>
    match M.bindsAtpat p v with
    | some bs => apply e (bs ++ env) vs s
    | none => (.raiseMatch, s)
  | .app rules vars, env, _, s => M.firstRule rules (tupleValue (vars.map (M.valueOf env))) env s

/-- The clauses tried top to bottom. -/
def tryClauses : List (Clause β) → List Val → Env → σ → Outcome ρ × σ
  | [], _, _, s => (.raiseMatch, s)
  | c :: rest, vs, env, s =>
    match M.bindsAll c.atpats vs with
    | some bs => M.result c.exp (bs ++ env) s
    | none => tryClauses rest vs env s

/-! ## Against the derived form -/

variable {M}

theorem bindsPatrow_tupleRows {fields : List (Lab × Val)} : ∀ {n : Nat} {atpats : List Atpat}
    {vs : List Val}, atpats.length = vs.length →
    (∀ m, n ≤ m → fields.lookup (.integer m) = (tupleFields n vs).lookup (.integer m)) →
    M.bindsPatrow (tupleRows n atpats) fields = M.bindsAll atpats vs
  | _, [], [], _, _ => by simp [tupleRows, bindsPatrow, bindsAll]
  | n, a :: atpats, v :: vs, hlength, hfields => by
    have hv : fields.lookup (.integer n) = some v := by simp [hfields n le_rfl, tupleFields]
    have hrest : ∀ m, n + 1 ≤ m →
        fields.lookup (.integer m) = (tupleFields (n + 1) vs).lookup (.integer m) := by
      intro m hm
      have hne : Lab.integer m ≠ .integer n := by
        rintro ⟨⟩
        omega
      simp [hfields m (by omega), tupleFields, lookup_cons, beq_false_of_ne hne]
    rw [tupleRows, bindsPatrow, hv, bindsPatrow_tupleRows (Nat.succ.inj hlength) hrest]
    simp [bindsPat, bindsAll]

theorem bindsPat_probableTuplePat (hlength : atpats.length = vs.length) :
    M.bindsPat (probableTuplePat atpats) (tupleValue vs) = M.bindsAll atpats vs := by
  match atpats, vs, hlength with
  | [], [], _ =>
    simp [probableTuplePat, tupleValue, bindsPat, bindsAtpat, tupleRows, bindsPatrow, bindsAll]
  | [a], [v], _ =>
    cases h : M.bindsAtpat a v <;> simp [probableTuplePat, tupleValue, bindsPat, bindsAll, h]
  | a :: a' :: atpats, v :: v' :: vs, hlength =>
    simp only [probableTuplePat, tupleValue, bindsPat, bindsAtpat]
    exact bindsPatrow_tupleRows hlength fun _ _ => rfl

variable {s : σ} {rhsList : List (Clause β)}

theorem firstRule_mkMatch (hlength : ∀ c ∈ rhsList, c.atpats.length = vs.length) :
    M.firstRule (mkMatch rhsList) (tupleValue vs) env s = M.tryClauses rhsList vs env s := by
  induction rhsList with
  | nil => rfl
  | cons c rest ih =>
    rw [tryClauses, ← ih fun c' hc' => hlength c' (.tail _ hc'),
      ← bindsPat_probableTuplePat (hlength c (.head _))]
    rfl

variable {e : Exp β}

/-- Fewer arguments than parameters. -/
theorem apply_fewer : ∀ {ps : List Atpat} {vs : List Val} {env : Env}, vs.length < ps.length →
    (M.apply (ps.foldr .fn e) env vs s = (.function, s) ↔ M.bindsAll (ps.take vs.length) vs ≠ none)
  | _ :: _, [], _, _ => by simp [apply, bindsAll]
  | a :: ps, v :: vs, env, hlength => by
    rw [foldr_cons, apply, length_cons, take_succ_cons, bindsAll]
    cases M.bindsAtpat a v with
    | none => simp
    | some bs =>
      simp only [apply_fewer (Nat.lt_of_succ_lt_succ hlength)]
      cases M.bindsAll (ps.take vs.length) vs <;> simp

/-- As many arguments as parameters. -/
theorem apply_full : ∀ {ps : List Atpat} {vs : List Val} {env : Env}, vs.length = ps.length →
    M.apply (ps.foldr .fn e) env vs s =
      match M.bindsAll ps vs with
      | some bs => M.apply e (bs ++ env) [] s
      | none => (.raiseMatch, s)
  | [], [], _, _ => rfl
  | a :: ps, v :: vs, env, hlength => by
    rw [foldr_cons, apply, bindsAll]
    cases M.bindsAtpat a v with
    | none => rfl
    | some bs =>
      simp only [apply_full (Nat.succ.inj hlength)]
      cases M.bindsAll ps vs <;> simp

/-! ## Names that patterns bind -/

theorem lookup_append_ne_none {bs bs' : Env} (h : bs.lookup x ≠ none ∨ bs'.lookup x ≠ none) :
    (bs ++ bs').lookup x ≠ none := by
  rw [lookup_append]
  cases hx : bs.lookup x with
  | none => simpa [hx] using h
  | some v => simp

mutual

theorem lookup_namesAtpat : ∀ (a : Atpat) {v : Val} {bs : Env}, M.bindsAtpat a v = some bs →
    ∀ x ∈ M.namesAtpat a, bs.lookup x ≠ none
  | .longid y, v, bs, h, x, hx => by
    rw [namesAtpat] at hx
    split at hx
    · rename_i hstatus
      cases mem_singleton.1 hx
      simp only [bindsAtpat, hstatus, Option.some.injEq] at h
      simp [← h]
    · cases hx
  | .record rows, v, bs, h, x, hx => by
    cases v with
    | record fields => exact lookup_namesPatrow rows h x hx
    | _ => cases h
  | .par p, v, bs, h, x, hx => lookup_namesPat p (by rwa [bindsAtpat] at h) x hx
  | .wildcard, _, _, _, _, hx => nomatch hx
  | .scon _, _, _, _, _, hx => nomatch hx

theorem lookup_namesPatrow : ∀ (rows : Patrow) {fields : List (Lab × Val)} {bs : Env},
    M.bindsPatrow rows fields = some bs → ∀ x ∈ M.namesPatrow rows, bs.lookup x ≠ none
  | .row lab p rest, fields, bs, h, x, hx => by
    simp only [bindsPatrow, Option.bind_eq_bind, Option.bind_eq_some_iff, Option.some.injEq] at h
    obtain ⟨v, -, bs1, h1, bs2, h2, rfl⟩ := h
    refine lookup_append_ne_none ?_
    rcases mem_append.1 hx with hx | hx
    · exact .inr (lookup_namesPat p h1 x hx)
    · exact .inl (lookup_namesPatrow rest h2 x hx)
  | .none, _, _, _, _, hx => nomatch hx
  | .dotdotdot, _, _, _, _, hx => nomatch hx

theorem lookup_namesPat : ∀ (p : Pat) {v : Val} {bs : Env}, M.bindsPat p v = some bs →
    ∀ x ∈ M.namesPat p, bs.lookup x ≠ none
  | .atpat a, v, bs, h, x, hx => lookup_namesAtpat a (by rwa [bindsPat] at h) x hx
  | .cons y a, v, bs, h, x, hx => by
    rcases v with _ | ⟨d, _ | v⟩ | _ | _
    case con.some =>
      rw [bindsPat] at h
      split at h
      · exact lookup_namesAtpat a h x hx
      · cases h
    all_goals cases h
  | .typed p, v, bs, h, x, hx => lookup_namesPat p (by rwa [bindsPat] at h) x hx
  | .layered id p, v, bs, h, x, hx => by
    simp only [bindsPat, Option.bind_eq_bind, Option.bind_eq_some_iff, Option.some.injEq] at h
    obtain ⟨bs1, h1, rfl⟩ := h
    refine lookup_append_ne_none ?_
    rcases mem_cons.1 hx with rfl | hx
    · exact .inr (by simp)
    · exact .inl (lookup_namesPat p h1 x hx)
  | .unresInfix, _, _, _, _, hx => nomatch hx

end

theorem lookup_bindsAll : ∀ {atpats : List Atpat} {vs : List Val} {bs : Env},
    M.bindsAll atpats vs = some bs → ∀ x ∈ atpats.flatMap M.namesAtpat, bs.lookup x ≠ none
  | a :: atpats, v :: vs, bs, h, x, hx => by
    simp only [bindsAll, Option.bind_eq_bind, Option.bind_eq_some_iff, Option.some.injEq] at h
    obtain ⟨bs1, h1, bs2, h2, rfl⟩ := h
    refine lookup_append_ne_none ?_
    rw [flatMap_cons] at hx
    rcases mem_append.1 hx with hx | hx
    · exact .inr (lookup_namesAtpat a h1 x hx)
    · exact .inl (lookup_bindsAll h2 x hx)
  | [], _, _, _, _, hx => nomatch hx

/-- Environments that agree on the identifiers which the clauses use and do not bind. -/
theorem tryClauses_congr {clauses : List (Clause β)} {env env' : Env}
    (h : ∀ c ∈ clauses, ∀ x ∈ M.free c.exp,
      x ∈ c.atpats.flatMap M.namesAtpat ∨ env.lookup x = env'.lookup x) (vs : List Val) (s : σ) :
    M.tryClauses clauses vs env s = M.tryClauses clauses vs env' s := by
  induction clauses with
  | nil => rfl
  | cons c rest ih =>
    rw [tryClauses, tryClauses, ih fun c' hc' => h c' (.tail _ hc')]
    cases hbinds : M.bindsAll c.atpats vs with
    | none => rfl
    | some bs =>
      refine congrArg (Prod.map Outcome.result id) (M.run_congr s fun x hx => ?_)
      rw [lookup_append, lookup_append]
      rcases h c (.head _) x hx with hname | heq
      · obtain ⟨v, hv⟩ := Option.ne_none_iff_exists'.1 (lookup_bindsAll hbinds x hname)
        simp [hv]
      · rw [heq]

/-- Distinct variables are bound to the arguments, and nothing else is. -/
theorem bindsAll_varPats : ∀ {vars : List String} {vs : List Val}, vars.Nodup →
    (∀ x ∈ vars, M.status ⟨[], x⟩ = none) → vars.length = vs.length →
    ∃ bs, M.bindsAll (varPats vars) vs = some bs ∧ (∀ x ∉ vars, bs.lookup x = none) ∧
      ∀ env, vars.map (M.valueOf (bs ++ env)) = vs
  | [], [], _, _, _ => ⟨[], rfl, fun _ _ => rfl, fun _ => rfl⟩
  | x :: vars, v :: vs, hnodup, hstatus, hlength => by
    obtain ⟨hx, hnodup⟩ := nodup_cons.1 hnodup
    obtain ⟨bs, hbs, hnone, hvalues⟩ := bindsAll_varPats hnodup
      (fun y hy => hstatus y (.tail _ hy)) (Nat.succ.inj hlength)
    have hvar : M.status ⟨[], x⟩ = none := hstatus x (.head _)
    refine ⟨bs ++ [(x, v)], ?_, fun y hy => ?_, fun env => ?_⟩
    · have hbs : M.bindsAll (vars.map fun x => .longid ⟨[], x⟩) vs = some bs := hbs
      simp [varPats, bindsAll, bindsAtpat, hvar, hbs]
    · obtain ⟨hyx, hy⟩ := not_or.1 (mem_cons.not.1 hy)
      simp [lookup_append, hnone y hy, lookup_cons, beq_false_of_ne hyx]
    · rw [append_assoc, map_cons, hvalues]
      simp [valueOf, hvar, lookup_append, hnone x hx]

end Meaning

/-- Clauses with the same number of patterns, as there are in programs: at least one of each. -/
structure Fvalbind (β : Type) where
  first : Clause β
  rest : List (Clause β)
  pos : first.atpats ≠ []
  same : ∀ c ∈ rest, c.atpats.length = first.atpats.length

namespace Fvalbind

variable {β ρ σ : Type} (M : Meaning β ρ σ) (T : Nat → Val → Prop) (F : Fvalbind β) (env : Env)

def clauses : List (Clause β) := F.first :: F.rest

/-- The shortcut for a single clause is taken. -/
def Simple : Prop := F.rest = [] ∧ F.first.atpats.all certainMatchAtpat

/-- The identifiers for the arguments where it is not. -/
def vars (count : Nat) : List String := inventVars F.rest.isEmpty count F.first.atpats

/-- The arguments have the types of the parameters. -/
def Typed (vs : List Val) : Prop := ∀ i v, vs[i]? = some v → T i v

/-- With fewer arguments there is a function and no effect, with all of them the clauses are tried
in order. -/
def FollowsDerivedForm (e : Exp β) : Prop :=
  ∀ vs s, Typed T vs →
    (vs.length < F.first.atpats.length → M.apply e env vs s = (.function, s)) ∧
    (vs.length = F.first.atpats.length → M.apply e env vs s = M.tryClauses F.clauses vs env s)

/-- Every parameter before the last matches what it can be given. -/
def NeverFail (ps : List Atpat) : Prop :=
  ∀ vs, Typed T vs → vs.length < ps.length → M.bindsAll (ps.take vs.length) vs ≠ none

/-- With all arguments, a function of the parameters does what the clauses do. -/
def SameResult (ps : List Atpat) (body : Env → σ → Outcome ρ × σ) : Prop :=
  ∀ vs s, Typed T vs → vs.length = ps.length → M.tryClauses F.clauses vs env s =
    match M.bindsAll ps vs with
    | some bs => body (bs ++ env) s
    | none => (.raiseMatch, s)

/-- The identifiers for the arguments are distinct, none of them is a constructor, and none is free
in a right-hand side whose clause does not bind it. -/
structure Harmless (vars : List String) : Prop where
  distinct : vars.Nodup
  noCon : ∀ x ∈ vars, M.status ⟨[], x⟩ = none
  noCapture : ∀ c ∈ F.clauses, ∀ x ∈ vars, x ∈ M.free c.exp → x ∈ c.atpats.flatMap M.namesAtpat

variable {M T F env}

theorem length_inventVars :
    ∀ {count : Nat}, (inventVars named count atpats).length = atpats.length := by
  induction atpats with
  | nil => exact rfl
  | cons a atpats ih => simp [inventVars, ih]

theorem apply_app {vars : List String} (hlength : vars.length = F.first.atpats.length) :
    M.apply (.app (mkMatch F.clauses) vars) env vs =
      M.tryClauses F.clauses (vars.map (M.valueOf env)) env := by
  funext s
  apply Meaning.firstRule_mkMatch
  rw [length_map, hlength]
  exact forall_mem_cons.2 ⟨rfl, F.same⟩

variable {e : Exp β}

theorem followsDerivedForm_iff [Inhabited σ] (hlength : ps.length = F.first.atpats.length) :
    F.FollowsDerivedForm M T env (ps.foldr .fn e) ↔ NeverFail M T ps ∧
      F.SameResult M T env ps fun env' => M.apply e env' [] := by
  simp only [FollowsDerivedForm, ← hlength]
  constructor
  · intro h
    refine ⟨fun vs htyped hlt => ?_, fun vs s htyped heq => ?_⟩
    · exact (Meaning.apply_fewer hlt).1 ((h vs default htyped).1 hlt)
    · rw [← (h vs s htyped).2 heq, Meaning.apply_full heq]
  · rintro ⟨hnever, hsame⟩ vs s htyped
    refine ⟨fun hlt => ?_, fun heq => ?_⟩
    · exact (Meaning.apply_fewer hlt).2 (hnever vs htyped hlt)
    · rw [hsame vs s htyped heq, Meaning.apply_full heq]

theorem Harmless.neverFail {vars : List String} (h : F.Harmless M vars) :
    NeverFail M T (varPats vars) := by
  intro vs _ hlt
  rw [varPats, length_map] at hlt
  have htake : (varPats vars).take vs.length = varPats (vars.take vs.length) := by
    simp [varPats, map_take]
  obtain ⟨bs, hbs, -⟩ := @Meaning.bindsAll_varPats _ _ _ M _ vs
    (h.distinct.sublist (take_sublist ..)) (fun x hx => h.noCon x (mem_of_mem_take hx))
    (by rw [length_take, Nat.min_eq_left hlt.le])
  rw [htake, hbs]
  exact Option.some_ne_none bs

theorem Harmless.sameResult {vars : List String} (h : F.Harmless M vars) :
    F.SameResult M T env (varPats vars) fun env' =>
      M.tryClauses F.clauses (vars.map (M.valueOf env')) env' := by
  intro vs s _ hlength
  rw [varPats, length_map] at hlength
  obtain ⟨bs, hbs, hnone, hvalues⟩ :=
    Meaning.bindsAll_varPats h.distinct h.noCon hlength.symm
  rw [hbs]
  simp only [hvalues]
  refine Meaning.tryClauses_congr (fun c hc x hx => ?_) vs s
  by_cases hvar : x ∈ vars
  · exact .inl (h.noCapture c hc x hvar hx)
  · exact .inr (by simp [lookup_append, hnone x hvar])

/-- The shortcut, which is taken if all patterns seem certain to match, keeps the derived form
exactly when no pattern but the last can fail; the general form keeps it when no identifier for an
argument is a constructor or captures an identifier of the clauses. -/
theorem fvalbindToValbind_follows [Inhabited σ] (M : Meaning β ρ σ) (T : Nat → Val → Prop)
    (F : Fvalbind β) (env : Env) (count : Nat) :
    ∃ e, fvalbindToValbind count F.clauses = .ok e ∧
      (F.Simple → (F.FollowsDerivedForm M T env e ↔ NeverFail M T F.first.atpats)) ∧
      (¬ F.Simple → F.Harmless M (F.vars count) → F.FollowsDerivedForm M T env e) := by
  by_cases hsimple : F.Simple
  · refine ⟨F.first.atpats.foldr .fn (.rhs F.first.exp), ?_, fun _ => ?_,
      fun hnot => absurd hsimple hnot⟩
    · simp only [fvalbindToValbind, clauses, hsimple.1, trySimpleFvalbindToValbind, hsimple.2,
        ↓reduceIte]
    · have hsame : F.SameResult M T env F.first.atpats
          fun env' => M.apply (.rhs F.first.exp) env' [] := by
        intro vs s _ _
        rw [clauses, hsimple.1]
        rfl
      rw [followsDerivedForm_iff rfl, and_iff_left hsame]
  · have hlength : (F.vars count).length = F.first.atpats.length := length_inventVars
    refine ⟨(varPats (F.vars count)).foldr .fn (.app (mkMatch F.clauses) (F.vars count)), ?_,
      fun hs => absurd hs hsimple, fun _ hharmless => ?_⟩
    · have hnone : trySimpleFvalbindToValbind (F.first :: F.rest) = none := by
        cases hrest : F.rest with
        | nil => exact if_neg fun hall => hsimple ⟨hrest, hall⟩
        | cons c rest => rfl
      have hsame : (F.first :: F.rest).all fun c => c.atpats.length = F.first.atpats.length := by
        simpa using F.same
      simp only [fvalbindToValbind, clauses, hnone, hsame, ↓reduceIte, vars]
    · rw [followsDerivedForm_iff (by rw [varPats, length_map, hlength])]
      simp only [apply_app hlength]
      exact ⟨hharmless.neverFail, hharmless.sameResult⟩

/-- `fun f NONE y = ()`. -/
def nullary : Fvalbind Unit := ⟨⟨[.longid ⟨[], "NONE"⟩, .longid ⟨[], "y"⟩], ()⟩, [], nofun, nofun⟩

/-- The function made of it raises `Match` on `SOME`, before its second argument. -/
theorem nullary_not_derived :
    let M : Meaning Unit Unit Unit :=
      ⟨fun x => if x.id = "NONE" then some 0 else none, fun _ => [], fun _ _ s => ((), s),
        fun _ _ => rfl⟩
    ∃ e, fvalbindToValbind 0 nullary.clauses = .ok e ∧ ¬ nullary.FollowsDerivedForm M
      (fun i v => i = 0 → v = .con 0 none ∨ ∃ u, v = .con 1 (some u)) [] e := by
  refine ⟨_, rfl, fun h => ?_⟩
  have hsome : Typed (fun i v => i = 0 → v = .con 0 none ∨ ∃ u, v = .con 1 (some u))
      [.con 1 (some (.other 0))] := by
    rintro i v hv rfl
    cases hv
    exact .inr ⟨_, rfl⟩
  cases (h _ () hsome).1 (by decide)

end Fvalbind

end MLKit.Parsing
