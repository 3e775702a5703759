import MLKit.Lambda.MatchCorrect
import MLKit.Lambda.MatchCrash

/-!
# First match

The decision dag of a match sends a value to the first rule that matches it exactly
when the scope keeps value constructors apart and exception constructors alike.
-/

namespace MLKit.Lambda.Match

open MLKit.Lib List

/-! ## The rules of a match -/

variable {lvars i n : Nat} {pats : List Pat} {rules : List Rule} {e : Edge} {τ σ : Ty}
  {q p' q' : Pat} {u w : Val} {st st' : DagState} {d d1 d2 D : Termd} {x y : Longid}
  {args : List Ty} {vs : List Val}

namespace Scope

variable {sc : Scope}

mutual

theorem declaredByPat_ok : ∀ (p : Pat) (path : Path) {τ : Ty}, sc.PatTy p τ →
    ∃ ds, declaredByPat p path = .ok ds
  | .atpat a, path, _, h => declaredByAtpat_ok a path h
  | .cons (some (.conInfo _ _)) a, _, _, ⟨_, _, ha⟩
  | .cons (some (.exconInfo _)) a, _, _, ⟨_, _, ha⟩ => declaredByAtpat_ok a _ ha
  | .typed p, path, _, h => declaredByPat_ok p path h
  | .layered _ p, path, _, h => by
    obtain ⟨ds, hds⟩ := declaredByPat_ok p path h
    exact ⟨_, ok_bind hds⟩

theorem declaredByAtpat_ok : ∀ (a : Atpat) (path : Path) {τ : Ty}, sc.AtpatTy a τ →
    ∃ ds, declaredByAtpat a path = .ok ds
  | .wildcard, _, _, _ | .scon _, _, _, _ => ⟨[], rfl⟩
  | .longid (some .varPatInfo) x, path, _, _ => ⟨[(x.id, path)], rfl⟩
  | .longid (some (.conInfo _ _)) _, _, _, _ | .longid (some (.exconInfo _)) _, _, _, _ => ⟨[], rfl⟩
  | .record rows, path, _, ⟨_, _, hrows, _⟩ => by
    obtain ⟨args, hargs, -⟩ := recordArgs_ok "declared_by_atpat" hrows
    obtain ⟨ds, hds⟩ := declaredByRows_ok rows (.tuple args.length) path hrows
    exact ⟨ds, (ok_bind hargs).trans hds⟩
  | .par p, path, _, h => declaredByPat_ok p path h

theorem declaredByRows_ok : ∀ (rows : Patrow) (c : Con) (path : Path) {ts : List Ty},
    sc.RowsTy rows ts → ∃ ds, declaredByRows rows c path = .ok ds
  | .none, _, _, _, _ => ⟨[], rfl⟩
  | .row (some (.labInfo i)) p rest, c, path, _, ⟨⟨_, _, hp⟩, hrest⟩ => by
    obtain ⟨ds', hds'⟩ := declaredByRows_ok rest c path hrest
    obtain ⟨ds, hds⟩ := declaredByPat_ok p (.access i c path) hp
    exact ⟨_, (ok_bind hds').trans (ok_bind hds)⟩

end

/-- The success nodes of the rules have their own lvars, and say which rule it is. -/
structure RulesOf (lvars i : Nat) (pats : List Pat) (rules : List Rule) (n : Nat) : Prop where
  pats_eq : rules.map (·.1) = pats
  lvars_lt : ∀ r ∈ rules, lvars ≤ r.2.lvar ∧ r.2.lvar < n
  nodup : (rules.map fun r => r.2.lvar).Nodup
  success : ∀ r ∈ rules, ∃ lvar rhs, r.2 = .success lvar rhs
  walk_first : ∀ (sc : Scope) v, (sc.walk v (sc.firstMatch v rules)).map (·.2) =
    (pats.findIdx? fun p => sc.matchesPat p v).map (· + i)

theorem mkRules_ok : ∀ {pats : List Pat} (lvars i : Nat),
    (∀ p ∈ pats, ∃ ds, declaredByPat p .obj = .ok ds) →
    ∃ rules n, mkRules lvars i pats = .ok (rules, n) ∧ lvars ≤ n ∧ RulesOf lvars i pats rules n
  | [], lvars, i, _ => ⟨[], lvars, rfl, Nat.le_refl _, rfl, by simp, .nil, by simp, fun _ _ => rfl⟩
  | p :: pats, lvars, i, h => by
    obtain ⟨ds, hds⟩ := h p (.head _)
    obtain ⟨rules, n, hrules, hle, hof⟩ := mkRules_ok (lvars + 1) (i + 1)
      fun q hq => h q (.tail _ hq)
    refine ⟨(p, .success lvars (ds, i)) :: rules, n,
      (ok_bind hds).trans (ok_bind hrules), by omega, ?_, ?_, ?_, ?_, ?_⟩
    · rw [map_cons, hof.pats_eq]
    · intro r hr
      rcases mem_cons.1 hr with rfl | hr
      · exact ⟨Nat.le_refl _, hle⟩
      · have hlt := hof.lvars_lt r hr
        omega
    · refine nodup_cons.2 ⟨?_, hof.nodup⟩
      intro hmem
      obtain ⟨r, hr, hlv⟩ := mem_map.1 hmem
      have hlt := (hof.lvars_lt r hr).1
      have hlv : r.2.lvar = lvars := hlv
      omega
    · exact forall_mem_cons.2 ⟨⟨lvars, (ds, i), rfl⟩, hof.success⟩
    · intro sc v
      have ih := hof.walk_first sc v
      rw [findIdx?_cons]
      simp only [firstMatch, find?_cons] at ih ⊢
      cases hm : sc.matchesPat p v with
      | true => simp [walk, walkNode]
      | false =>
        simp only [ih]
        cases List.findIdx? (fun p => sc.matchesPat p v) pats with
        | none => rfl
        | some k =>
          simp
          omega

theorem RulesOf.ok (h : RulesOf lvars i pats rules n) :
    (⟨n, []⟩ : DagState).Ok (rules.map (·.2)) := by
  refine ⟨?_, ?_, by simp, by simp⟩
  · simpa [DagState.nodes, Function.comp_def] using h.nodup
  · intro m hm
    obtain ⟨r, hr, rfl⟩ : ∃ r ∈ rules, r.2 = m := by simpa [DagState.nodes] using hm
    exact (h.lvars_lt r hr).2

/-- A dag that was made comes from a call of `fail`. -/
theorem decdagOf_ok (h : decdagOf lvars pats = .ok e)
    (hdecl : ∀ p ∈ pats, ∃ ds, declaredByPat p .obj = .ok ds) :
    ∃ rules n st', RulesOf lvars 0 pats rules n ∧
      fail ⟨n, []⟩ (.neg .empty) rules = .ok (e, st') := by
  obtain ⟨rules, n, hrules, -, hof⟩ := mkRules_ok lvars 0 hdecl
  rw [decdagOf, ok_bind hrules] at h
  obtain ⟨⟨e', st'⟩, hfail, h⟩ := bind_ok h
  cases h
  exact ⟨rules, n, st', hof, hfail⟩

/-! ## First match -/

variable (sc) in
/-- The decision dag of every match over the scope can be made, and sends each value of
the matched type to the first rule that matches, or to the failure edge if none
does. -/
def FirstMatch : Prop :=
  ∀ (lvars : Nat) (τ : Ty) (pats : List Pat), pats ≠ [] → (∀ p ∈ pats, sc.PatTy p τ) →
    ∃ e, decdagOf lvars pats = .ok e ∧ ∀ v, sc.HasTy v τ →
      (sc.walk v e).map (·.2) = pats.findIdx? fun p => sc.matchesPat p v

theorem firstMatch_of_distinguishes (hdist : sc.Distinguishes) (hex : ExconsAlike sc) :
    sc.FirstMatch := by
  intro lvars τ pats _ hty
  obtain ⟨rules, n, hrules, -, hof⟩ := mkRules_ok lvars 0
    fun p hp => declaredByPat_ok p .obj (hty p hp)
  have hrulesOk : RulesOk sc τ (rules.map (·.2)) rules := by
    intro r hr
    refine ⟨hty r.1 ?_, mem_map_of_mem hr⟩
    rw [← hof.pats_eq]
    exact mem_map_of_mem hr
  obtain ⟨e, st', hfail, hwalk⟩ := fail_yields hdist hex ⟨n, []⟩ (.neg .empty) rules hof.ok
    hrulesOk trivial
  refine ⟨e, (ok_bind hrules).trans (ok_bind hfail), fun v hv => ?_⟩
  rw [hwalk v ⟨v, τ, ⟨rfl, .obj, hv⟩, rfl, .nil, by simp [Negset.empty]⟩, hof.walk_first]
  simp

end Scope

/-! ## Two rules over pairs

The first rule asks for the constant one in the second field.  When that fails, the
second rule starts with what the first one found out about the first field. -/

variable {p : Pat} {rhs : Node}

section Pair

variable {sc : Scope}

def pair (p q : Pat) : Pat := conPat (.tuple 2) [p, q]

def fst : Path := .access 0 (.tuple 2) .obj

def snd : Path := .access 1 (.tuple 2) .obj

def one : Pat := .atpat (.scon (.integer 1))

theorem pair_ty (hp : sc.PatTy p τ) (hq : sc.PatTy q σ) : sc.PatTy (pair p q) (.record [τ, σ]) := by
  have hc : sc.ConTy (.tuple 2) (.record [τ, σ]) [τ, σ] := ⟨rfl, rfl⟩
  exact conPat_ty hc (.cons hp (.cons hq .nil))

/-- The two rules have the type of pairs with a number. -/
theorem rules_ty (hp : sc.PatTy p τ) (hq : sc.PatTy q τ) :
    ∀ r ∈ [pair p one, pair q wild], sc.PatTy r (.record [τ, .integer 0]) := by
  have hone : sc.PatTy one (.integer 0) := ⟨trivial, rfl⟩
  simp only [forall_mem_cons, not_mem_nil, false_imp_iff, implies_true, and_true]
  exact ⟨pair_ty hp hone, pair_ty hq trivial⟩

theorem matchesPat_pair (h : sc.HasTy (.record [u, w]) (.record [τ, σ])) :
    sc.matchesPat (pair p q) (.record [u, w]) = (sc.matchesPat p u && sc.matchesPat q w) := by
  have hc : sc.ConTy (.tuple 2) (.record [τ, σ]) [τ, σ] := ⟨rfl, rfl⟩
  rw [pair, matchesPat_conPat hc rfl h]
  simp [Scope.builtWith, Val.args]

/-- The fields of a pair are matched from the left. -/
theorem matchPat_pair (hs : staticmatch (.tuple 2) d = .ok .yes)
    (hd : getdargs (argpatsFrom 0 [p, q]) d = [d1, d2]) :
    matchPat st (pair p q) .obj d [] [] rhs rules =
      matchPat st p fst d1 [(.tuple 2, [])] [([argPat q], [snd], [d2])] rhs rules := by
  refine (matchPat_tuple [p, q] st .obj d [] [] rhs rules).trans ?_
  rw [matchCon, length_cons, length_cons, length_nil, ok_bind hs]
  rw [argWork_argpatsFrom, hd]
  change succeed st [(.tuple 2, [])] [([argPat p, argPat q], [fst, snd], [d1, d2])] rhs rules = _
  rw [succeed, matchPat_argPat]

/-- The second field is left to a test, after which the later rules know the first. -/
theorem succeed_one (base : List Node)
    (h : succeed st [(.tuple 2, [D])] [([argPat one], [snd], [unknown])] rhs rules = .ok (e, st')) :
    ∃ st1 right st2, fail st1 (.pos (.tuple 2) [D, .neg ⟨1, [.scon (.integer 1)]⟩]) rules =
        .ok (right, st2) ∧
      (st.Ok base → (∀ r ∈ rules, r.2 ∈ base) → rhs ∈ base → ∀ (sc : Scope) v,
        sc.tests v snd (.scon (.integer 1)) = false → sc.walk v e = sc.walk v right) := by
  rw [succeed, matchPat_argPat, one, matchPat, matchAtpat] at h
  rcases matchCon_cases h with ⟨hs, -⟩ | ⟨hs, -⟩ |
    ⟨-, left, st1, D', right, st2, hleft, hD, hright, hbranch⟩
  · cases hs
  · cases hs
  · cases hD
    refine ⟨st1, right, st2, hright, fun hok hrules hrhs sc v ht => ?_⟩
    rw [maybe_walk hok hrules hrhs hleft hright hbranch, ht]
    rfl

/-- Two rules of a match over pairs, as the compiler gets them. -/
theorem decdagOf_pair (hty : ∀ r ∈ [pair p q, pair p' q'], sc.PatTy r τ)
    (h : decdagOf lvars [pair p q, pair p' q'] = .ok e) :
    ∃ rhs rhs' n st', (⟨n, []⟩ : DagState).Ok [rhs, rhs'] ∧
      matchPat ⟨n, []⟩ p fst unknown [(.tuple 2, [])] [([argPat q], [snd], [unknown])] rhs
        [(pair p' q', rhs')] = .ok (e, st') := by
  obtain ⟨rules, n, st', hof, hfail⟩ := Scope.decdagOf_ok h fun r hr =>
    Scope.declaredByPat_ok r .obj (hty r hr)
  obtain ⟨⟨r, rhs⟩, rest, rfl, hr, hrest⟩ := map_eq_cons_iff.1 hof.pats_eq
  obtain ⟨⟨r', rhs'⟩, rest, rfl, hr', hrest⟩ := map_eq_cons_iff.1 hrest
  cases map_eq_nil_iff.1 hrest
  obtain rfl : r = pair p q := hr
  obtain rfl : r' = pair p' q' := hr'
  refine ⟨rhs, rhs', n, st', hof.ok, ?_⟩
  rw [fail, matchPat_pair rfl rfl] at hfail
  exact hfail

/-! ## Exception constructors that are not alike -/

theorem Scope.exconsAlike_of_firstMatch (h : sc.FirstMatch) : ExconsAlike sc := by
  rintro τ0 p q c d hpq ⟨τ, ts, hp, hc⟩ ⟨σ, us, hq, hd⟩ hexc
  by_contra hne
  have hP : sc.PatTy (spinePat p.steps (conPat c (List.replicate (arity c) wild))) τ0 :=
    spinePat_ty hp.steps (conPat_ty hc (hc.length ▸ wilds_ty sc ts))
  have hQ : sc.PatTy (spinePat q.steps (conPat d (List.replicate (arity d) wild))) τ0 :=
    spinePat_ty hq.steps (conPat_ty hd (hd.length ▸ wilds_ty sc us))
  obtain ⟨e, he, -⟩ := h 0 _ _ (cons_ne_nil _ _) (rules_ty hP hQ)
  obtain ⟨rhs, rhs', n, st', -, hrun⟩ := decdagOf_pair (rules_ty hP hQ) he
  obtain ⟨⟨e1, st1⟩, hsucc⟩ := matchPat_spine_entered hc hp.steps hrun
  obtain ⟨st2, right, st3, hfail, -⟩ := succeed_one [] hsucc
  rw [fail, matchPat_pair rfl rfl] at hfail
  exact matchPat_spine_dies hc hexc hd hne hpq.steps hq.steps hfail

/-! ## Two identifiers of one value constructor -/

/-- The constructor of a pattern that is written with `x`. -/
def conOf (sc : Scope) (x : Longid) (c : DataCon) : Con :=
  .con x (.finite (sc.numCons c.tn)) (sc.conArg c).isNone

def conWild (sc : Scope) (x : Longid) (c : DataCon) : Pat :=
  conPat (conOf sc x c) (List.replicate (arity (conOf sc x c)) wild)

variable {c : DataCon}

theorem conOf_ty (hx : sc.con x = some c) (args : List Ty) :
    sc.ConTy (conOf sc x c) (.data c.tn args) (sc.conArgs c args) :=
  ⟨c, args, hx, rfl, rfl, rfl, rfl⟩

theorem conWild_ty (hx : sc.con x = some c) (args : List Ty) :
    sc.PatTy (conWild sc x c) (.data c.tn args) := by
  have hc := conOf_ty hx args
  exact conPat_ty hc (hc.length ▸ wilds_ty sc _)

theorem matchesPat_conWild (hx : sc.con x = some c) (hu : sc.HasTy u (.data c.tn args)) :
    sc.matchesPat (conWild sc x c) u = sc.builtWith (conOf sc x c) u :=
  matchesPat_wilds (conOf_ty hx args) hu

/-- The second identifier is refuted by a description with the first. -/
theorem staticmatch_alias (hne : x ≠ y) (ds : List Termd) :
    staticmatch (conOf sc y c) (.pos (conOf sc x c) ds) = .ok .no := by
  have hne' : ¬ y = x := fun h => hne h.symm
  simp [staticmatch, conOf, conEq, Con.isExcon, hne']

theorem Scope.unique_of_firstMatch (h : sc.FirstMatch) (hv : sc.HasTy (.con c vs) (.data c.tn args))
    (hx : sc.con x = some c) (hy : sc.con y = some c) : x = y := by
  by_contra hne
  have hty := rules_ty (conWild_ty hx args) (conWild_ty hy args)
  -- a value of the constructor, with two in the second field
  let v : Val := .record [.con c vs, .scon (.integer 2)]
  have hvty : sc.HasTy v (.record [.data c.tn args, .integer 0]) := ⟨hv, trivial, trivial⟩
  obtain ⟨e, he, hwalk⟩ := h 0 _ _ (cons_ne_nil _ _) hty
  have hwalk := hwalk v hvty
  obtain ⟨rhs, rhs', n, st', hok, hrun⟩ := decdagOf_pair hty he
  have hrules : ∀ r ∈ [(pair (conWild sc y c) wild, rhs')], r.2 ∈ [rhs, rhs'] := by simp
  -- the walk enters the first rule, and leaves it at the second field
  obtain ⟨e1, st1, hsucc, henter⟩ := matchPat_wilds_entered [rhs, rhs'] (conOf_ty hx args) hrun
  have hleft := henter hok hrules (by simp) sc v (by simp [Scope.tests, Scope.component, fst, v,
    Scope.builtWith, Val.args, conOf, hx])
  obtain ⟨st2, right, st3, hfail, hleave⟩ := succeed_one [rhs, rhs'] hsucc
  have hright := hleave hok hrules (by simp) sc v (by simp [Scope.tests, Scope.component, snd, v,
    Scope.builtWith, Val.args])
  -- the second rule is refuted by what the first one found out
  rw [fail, matchPat_pair rfl rfl, conWild, matchPat_conPat (conOf_ty hy args) (by simp)] at hfail
  rcases matchCon_cases hfail with ⟨hs, -⟩ | ⟨-, D, -, hfail⟩ | ⟨hs, -⟩
  · rw [staticmatch_alias hne] at hs
    cases hs
  · rw [fail] at hfail
    cases hfail
    rw [hleft, hright] at hwalk
    have hfirst : sc.matchesPat (pair (conWild sc x c) one) v = false := by
      simp [v, matchesPat_pair hvty, one, Scope.matchesPat, Scope.matchesAtpat, Scope.builtWith]
    have hsecond : sc.matchesPat (pair (conWild sc y c) wild) v = true := by
      rw [matchesPat_pair hvty, matchesPat_conWild hy hv]
      simp [conOf, Scope.builtWith, hy, wild, Scope.matchesPat, Scope.matchesAtpat]
    simp [findIdx?_cons, hfirst, hsecond, Scope.walk] at hwalk
  · rw [staticmatch_alias hne] at hs
    cases hs

/-! ## Identifiers that use up a datatype -/

/-- Rules with identifiers of a datatype, none of them of the constructor of the value,
send it to a rule when they are as many as the datatype has constructors. -/
theorem walk_conWilds {tn : Nat} {v : Val} {base : List Node} (args : List Ty) :
    ∀ (xs : List (Longid × DataCon)) (n : Negset) {rules : List Rule} {st st' : DagState}
      {e : Edge}, xs ≠ [] → n.size + xs.length = sc.numCons tn →
      (∀ a ∈ xs, sc.con a.1 = some a.2 ∧ a.2.tn = tn) →
      (∀ a ∈ xs, sc.builtWith (conOf sc a.1 a.2) v = false) →
      (∀ a ∈ xs, ∀ c ∈ n.cons, conEq (conOf sc a.1 a.2) c = false) → (xs.map (·.1)).Nodup →
      rules.map (·.1) = xs.map (fun a => conWild sc a.1 a.2) → st.Ok base →
      (∀ r ∈ rules, r.2 ∈ base) → (∀ r ∈ rules, sc.walkNode v r.2 ≠ none) →
      fail st (.neg n) rules = .ok (e, st') → sc.walk v e ≠ none
  | [], _, _, _, _, _, hne, _, _, _, _, _, _, _, _, _, _ => absurd rfl hne
  | (x, d) :: xs, n, rules, st, st', e, _, hsize, hxs, hv, hn, hnd, hrules, hok, hbase, hrhs,
      h => by
      obtain ⟨⟨p, rhs⟩, rest, rfl, hp, hrest⟩ := map_eq_cons_iff.1 hrules
      obtain rfl : p = conWild sc x d := hp
      obtain ⟨hx, rfl⟩ := hxs _ (.head _)
      have hc := conOf_ty hx args
      have hmem : ¬ n.member (conOf sc x d) = true := by
        rw [Negset.member, any_eq_true]
        rintro ⟨c, hc', heq⟩
        rw [hn _ (.head _) c hc'] at heq
        cases heq
      have hstatic : staticmatch (conOf sc x d) (.neg n) =
          .ok (if sc.numCons d.tn = n.size + 1 then .yes else .maybe) := by
        rw [staticmatch, if_neg hmem]
        simp [conOf, span, Span.eqInt, bind, Except.bind]
      rw [fail, conWild, matchPat_conPat hc (by simp)] at h
      have hbase' : ∀ r ∈ rest, r.2 ∈ base := fun r hr => hbase r (.tail _ hr)
      have hin : rhs ∈ base := hbase _ (.head _)
      rcases matchCon_cases h with ⟨-, h⟩ | ⟨hs, -⟩ |
        ⟨hs, left, st1, D, right, st2, hleft, hD, hright, hbranch⟩
      · rw [argWork_argpatsFrom, getdargs_neg, length_replicate,
          succeed_all_wilds (by simp) (by simp), augment, succeed] at h
        cases h
        exact hrhs _ (.head _)
      · rw [hstatic] at hs
        split at hs <;> cases hs
      · cases hD
        have htests : sc.tests v .obj (conOf sc x d) = false := by
          simpa [Scope.tests, Scope.component] using hv _ (.head _)
        have hok1 := (succeed_extends hin hok hbase' _ _ hleft).ok
        rw [maybe_walk hok hbase' hin hleft hright hbranch, htests, if_neg Bool.false_ne_true]
        obtain ⟨hnot, hnd⟩ := nodup_cons.1 hnd
        refine walk_conWilds args xs (n.insert (conOf sc x d)) ?_ ?_
          (fun a ha => hxs a (.tail _ ha))
          (fun a ha => hv a (.tail _ ha)) ?_ hnd hrest hok1 hbase'
          (fun r hr => hrhs r (.tail _ hr)) hright
        · rintro rfl
          rw [hstatic, if_pos (by simpa using hsize.symm)] at hs
          cases hs
        · simp only [Negset.insert, length_cons] at hsize ⊢
          omega
        · intro a ha c hc'
          rcases mem_cons.1 hc' with rfl | hc'
          · have hne : a.1 ≠ x := by
              rintro rfl
              exact hnot (mem_map.2 ⟨a, ha, rfl⟩)
            simp [conOf, conEq, hne]
          · exact hn a (.tail _ ha) c hc'

theorem Scope.length_lt_of_firstMatch (h : sc.FirstMatch)
    (hv : sc.HasTy (.con c vs) (.data c.tn args)) {xs : List Longid} (hnd : xs.Nodup)
    (hxs : ∀ x ∈ xs, ∃ d, sc.con x = some d ∧ d.tn = c.tn ∧ d ≠ c) :
    xs.length < sc.numCons c.tn := by
  by_contra hge
  have hpos : 0 < sc.numCons c.tn := Nat.lt_of_le_of_lt (Nat.zero_le _) hv.2.1
  -- as many of the identifiers as there are constructors
  let l : List (Longid × DataCon) :=
    (xs.take (sc.numCons c.tn)).map fun x => (x, (sc.con x).getD c)
  have hl : ∀ a ∈ l, sc.con a.1 = some a.2 ∧ a.2.tn = c.tn ∧ a.2 ≠ c := by
    intro a ha
    obtain ⟨x, hx, rfl⟩ := mem_map.1 ha
    obtain ⟨d, hd, hrest⟩ := hxs x (mem_of_mem_take hx)
    simpa [hd] using hrest
  have hlen : l.length = sc.numCons c.tn := by
    simp only [l, length_map, length_take]
    omega
  have hne : l ≠ [] := ne_nil_of_length_pos (hlen ▸ hpos)
  have hnot : ∀ a ∈ l, sc.matchesPat (conWild sc a.1 a.2) (.con c vs) = false := by
    intro a ha
    obtain ⟨hx, htn, hac⟩ := hl a ha
    rw [matchesPat_conWild hx (htn ▸ hv)]
    simp [conOf, Scope.builtWith, hx, hac]
  have hty : ∀ p ∈ l.map (fun a => conWild sc a.1 a.2), sc.PatTy p (.data c.tn args) := by
    intro p hp
    obtain ⟨a, ha, rfl⟩ := mem_map.1 hp
    obtain ⟨hx, htn, -⟩ := hl a ha
    exact htn ▸ conWild_ty hx args
  obtain ⟨e, he, hwalk⟩ := h 0 _ _ (by simpa using hne) hty
  have hwalk := hwalk _ hv
  have hnone : (l.map fun a => conWild sc a.1 a.2).findIdx?
      (fun p => sc.matchesPat p (.con c vs)) = none := by
    rw [findIdx?_eq_none_iff]
    intro p hp
    obtain ⟨a, ha, rfl⟩ := mem_map.1 hp
    exact hnot a ha
  rw [hnone, Option.map_eq_none_iff] at hwalk
  obtain ⟨rules, n, st', hof, hfail⟩ := decdagOf_ok he fun r hr => declaredByPat_ok r .obj (hty r hr)
  refine walk_conWilds args l .empty hne (by simpa [Negset.empty] using hlen)
    (fun a ha => ⟨(hl a ha).1, (hl a ha).2.1⟩) ?_ (by simp [Negset.empty]) ?_ hof.pats_eq hof.ok
    (fun r hr => mem_map_of_mem hr) ?_ hfail hwalk
  · intro a ha
    obtain ⟨hx, -, hac⟩ := hl a ha
    simp [conOf, Scope.builtWith, hx, hac]
  · simpa [l, Function.comp_def] using hnd.sublist (take_sublist _ _)
  · intro r hr
    obtain ⟨lvar, rhs, hr⟩ := hof.success r hr
    simp [hr, walkNode]

/-! ## The condition -/

/-- The match compiler is right for all matches over a scope exactly when the scope
tells value constructors apart and its exception constructors are alike. -/
theorem Scope.firstMatch_iff (sc : Scope) : sc.FirstMatch ↔ sc.Distinguishes ∧ ExconsAlike sc := by
  constructor
  · intro h
    refine ⟨fun c vs args hv => ⟨?_, ?_⟩, exconsAlike_of_firstMatch h⟩
    · intro x y hx hy
      exact unique_of_firstMatch h hv hx hy
    · intro xs hnd hxs
      exact length_lt_of_firstMatch h hv hnd hxs
  · rintro ⟨hdist, hex⟩
    exact firstMatch_of_distinguishes hdist hex

/-- `datatype t = X | Y`, with `X` also written `A.X`, `exception E of int` and
`exception F`. -/
def replicated : Scope where
  numCons _ := 2
  conArg _ := none
  exnArg e := if e = 0 then some (.integer 0) else none
  con x := if x.id = "X" then some ⟨0, 0⟩ else if x.id = "Y" then some ⟨0, 1⟩ else none
  excon x := if x.id = "E" then some 0 else if x.id = "F" then some 1 else none
  con_lt := by
    intro x c h
    split at h
    · cases h
      decide
    · split at h
      · cases h
        decide
      · cases h

def conX : Pat := .atpat (.longid (some (.conInfo 2 ⟨[], "X"⟩)) ⟨[], "X"⟩)

def conAX : Pat := .atpat (.longid (some (.conInfo 2 ⟨["A"], "X"⟩)) ⟨["A"], "X"⟩)

def exconE : Pat := .cons (some (.exconInfo ⟨[], "E"⟩)) .wildcard

def exconF : Pat := .atpat (.longid (some (.exconInfo ⟨[], "F"⟩)) ⟨[], "F"⟩)

/-- The dag of `(X, 1) => .. | (A.X, _) => ..`: where `X` is found and the test for one
fails, it gives up. -/
theorem decdagOf_replicated : decdagOf 0 [pair conX one, pair conAX wild] =
    .ok (some (.ifEq 3 fst (.con ⟨[], "X"⟩ (.finite 2) true)
      (some (.ifEq 2 snd (.scon (.integer 1)) (some (.success 0 ([], 0))) none))
      (some (.success 1 ([], 1))))) := by
  have hrules : mkRules 0 0 [pair conX one, pair conAX wild] = .ok
      ([(pair conX one, .success 0 ([], 0)), (pair conAX wild, .success 1 ([], 1))], 2) := rfl
  have hnot : ∀ st, fail st (.pos (.tuple 2) [.neg ⟨1, [.con ⟨[], "X"⟩ (.finite 2) true]⟩,
      .neg ⟨0, []⟩]) [(pair conAX wild, .success 1 ([], 1))] =
        .ok (some (.success 1 ([], 1)), st) := by
    intro st
    rw [fail, matchPat_pair rfl rfl, conAX, matchPat, matchAtpat, matchCon, staticmatch]
    simp [Negset.member, conEq, span, Span.eqInt, argWork, getdargs, succeed, norm, augment,
      bind, Except.bind]
  have hX : ∀ st, fail st (.pos (.tuple 2) [.pos (.con ⟨[], "X"⟩ (.finite 2) true) [],
      .neg ⟨1, [.scon (.integer 1)]⟩]) [(pair conAX wild, .success 1 ([], 1))] =
        .ok (none, st) := by
    intro st
    rw [fail, matchPat_pair rfl rfl, conAX, matchPat, matchAtpat, matchCon, staticmatch]
    simp [conEq, Con.isExcon, buildtermd, fail, bind, Except.bind]
  rw [decdagOf, ok_bind hrules]
  dsimp only
  rw [mkDecdag, fail, matchPat_pair rfl rfl, conX, matchPat, matchAtpat]
  simp [matchCon, staticmatch, Negset.member, Negset.empty, span, Span.eqInt, argWork, getdargs,
    succeed, norm, augment, one, matchPat, matchAtpat, buildtermd, addneg, Negset.insert, hX, hnot,
    branch, edgeEq, Node.lvar, ifeqNode, findIfeqNodeLikeThis, mkIfeqNode, ifeqEq, bind,
    Except.bind]

/-- The match `(X, 1) => .. | (A.X, _) => ..` fails on `(X, 2)`, and the compiler dies on
`(E _, 1) => .. | (F, _) => ..`. -/
theorem replicated_rules_fail :
    (∀ p ∈ [pair conX one, pair conAX wild],
      replicated.PatTy p (.record [.data 0 [], .integer 0])) ∧
    replicated.HasTy (.record [.con ⟨0, 0⟩ [], .scon (.integer 2)])
      (.record [.data 0 [], .integer 0]) ∧
    (∃ e, decdagOf 0 [pair conX one, pair conAX wild] = .ok e ∧
      replicated.walk (.record [.con ⟨0, 0⟩ [], .scon (.integer 2)]) e = none) ∧
    replicated.matchesPat (pair conAX wild) (.record [.con ⟨0, 0⟩ [], .scon (.integer 2)]) = true ∧
    (∀ p ∈ [pair exconE one, pair exconF wild], replicated.PatTy p (.record [.exn, .integer 0])) ∧
    decdagOf 0 [pair exconE one, pair exconF wild] = .error "succeed" := by
  refine ⟨?_, ⟨⟨rfl, by decide, trivial⟩, trivial, trivial⟩, ⟨_, decdagOf_replicated, ?_⟩, ?_, ?_, ?_⟩
  · have hX : replicated.PatTy conX (.data 0 []) := ⟨⟨0, 0⟩, [], rfl, rfl, rfl, rfl, rfl⟩
    have hAX : replicated.PatTy conAX (.data 0 []) := ⟨⟨0, 0⟩, [], rfl, rfl, rfl, rfl, rfl⟩
    exact rules_ty hX hAX
  · simp [Scope.walk, Scope.walkNode, Scope.tests, Scope.component, fst, snd, Scope.builtWith,
      replicated, Val.args]
  · simp [pair, conPat, rowsFrom, Scope.matchesPat, Scope.matchesAtpat, Scope.matchesRows, argPat,
      conAX, wild, Scope.builtWith, replicated]
  · have hE : replicated.PatTy exconE .exn := ⟨.integer 0, ⟨0, rfl, rfl, rfl, rfl⟩, trivial⟩
    have hF : replicated.PatTy exconF .exn := ⟨1, rfl, rfl, rfl, rfl⟩
    exact rules_ty hE hF
  · have hrules : mkRules 0 0 [pair exconE one, pair exconF wild] = .ok
        ([(pair exconE one, .success 0 ([], 0)), (pair exconF wild, .success 1 ([], 1))], 2) := rfl
    have hE : ∀ st, fail st (.pos (.tuple 2) [.pos (.excon ⟨[], "E"⟩ false) [.neg ⟨0, []⟩],
        .neg ⟨1, [.scon (.integer 1)]⟩]) [(pair exconF wild, .success 1 ([], 1))] =
          .error "succeed" := by
      intro st
      rw [fail, matchPat_pair rfl rfl, exconF, matchPat, matchAtpat, matchCon, staticmatch]
      simp [conEq, Con.isExcon, argWork, getdargs, succeed, bind, Except.bind]
    rw [decdagOf, ok_bind hrules]
    dsimp only
    rw [mkDecdag, fail, matchPat_pair rfl rfl, exconE, matchPat]
    simp [matchCon, staticmatch, Negset.member, Negset.empty, span, Span.eqInt, argWork, getdargs,
      succeed, norm, augment, one, matchPat, matchAtpat, buildtermd, addneg, Negset.insert, hE,
      bind, Except.bind]

end Pair

end MLKit.Lambda.Match
