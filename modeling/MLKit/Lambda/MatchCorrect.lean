import MLKit.Lambda.StaticMatch
import MLKit.Lambda.DagInvariant

/-!
# The match compiler is right in a well-behaved scope

By recursion as the compiler itself recurses: every call returns, with a dag on which
every value that the state of the call describes walks to the first rule that
matches it.
-/

namespace MLKit.Lambda.Match

open MLKit.Lib MLKit.Edlib List

/-! ## The arguments of a record pattern -/

variable {ts ts' : List Ty} {args argpats : List (Nat × Pat)} {n : Nat}
  {r : Except String (Edge × DagState)} {P Q : Edge → Prop} {c c' : Con} {path : Path} {τ t : Ty}
  {ctx : Context} {work : List Work} {u v : Val} {d : Termd} {a : Atpat} {rows : Patrow}
  {rhs : Node} {rules : List Rule} {matched matched' : Val → Bool}

namespace Scope

variable {sc : Scope}

/-- The argument pattern of a labelled row matches the field of its label. -/
def fieldMatches (sc : Scope) (vs : List Val) (a : Nat × Pat) : Bool :=
  vs[a.1]?.any (sc.matchesPat a.2)

theorem recordArgs_ok {ts : List Ty} (caller : String) :
    ∀ {rows : Patrow}, sc.RowsTy rows ts →
    ∃ args, recordArgs caller rows = .ok args ∧ args.map (·.1) = rowLabels rows ∧
      (∀ a ∈ args, ∃ t, ts[a.1]? = some t ∧ sc.PatTy a.2 t) ∧
      ∀ vs, sc.matchesRows rows vs = args.all (sc.fieldMatches vs)
  | .none, _ => ⟨[], rfl, rfl, by simp, fun vs => rfl⟩
  | .row (some (.labInfo i)) p rest, h => by
    obtain ⟨args, hargs, hlabels, htys, hmatch⟩ := recordArgs_ok caller h.2
    obtain ⟨rows, hrows, hlab⟩ := bind_ok hargs
    refine ⟨(i, p) :: args, ?_, ?_, ?_, fun vs => ?_⟩
    · have hmake : makeRows caller (.row (some (.labInfo i)) p rest) =
          .ok ((some (.labInfo i), p) :: rows) := ok_bind hrows
      exact (ok_bind hmake).trans (ok_bind hlab)
    · rw [map_cons, hlabels]
      rfl
    · exact forall_mem_cons.2 ⟨h.1, htys⟩
    · rw [matchesRows, hmatch vs, all_cons]
      rfl

/-- Sorting a permutation of the fields gives the fields in order. -/
theorem sortArgs_labels (h : (args.map (·.1)).Perm (List.range n)) :
    (sortArgs args).map (·.1) = List.range n := by
  have hnd : (args.map (·.1)).Nodup := h.nodup_iff.2 nodup_range
  have hsorted : (sortArgs args).Pairwise fun a b => decide (a.1 < b.1) = true := by
    refine sort_pairwise (fun a b c hab hbc => ?_) args ?_
    · simp only [decide_eq_true_eq] at hab hbc ⊢
      omega
    · refine (pairwise_map.1 hnd).imp fun {a b} hne => ?_
      simp only [decide_eq_true_eq]
      omega
  have hlt : ((sortArgs args).map (·.1)).Pairwise (· < ·) :=
    pairwise_map.2 (hsorted.imp fun hab => of_decide_eq_true hab)
  refine List.Perm.eq_of_pairwise (fun a b _ _ hab hba => ?_) hlt pairwise_lt_range
    (((sort_perm _ args).map _).trans h)
  omega

/-! ## What a call of the compiler has to keep -/

section Compile

variable (sc) (τ₀ : Ty) (base : List Node)

/-- Exception constructors that can meet another constructor in a description have its
arity. -/
def ExconsAlike (sc : Scope) : Prop :=
  ∀ (τ₀ : Ty) (p q : Path) (c d : Con), Overlay p q → sc.ConAt τ₀ p c → sc.ConAt τ₀ q d →
    c.isExcon = true → arity c = arity d

/-- The patterns of the work are of the types of their paths. -/
def WorkTy (work : List Work) : Prop :=
  ∀ w ∈ work, List.Forall₂ (fun p path => ∃ τ, sc.PathTy τ₀ path τ ∧ sc.PatTy p τ) w.1 w.2.1

def RulesOk (rules : List Rule) : Prop := ∀ r ∈ rules, sc.PatTy r.1 τ₀ ∧ r.2 ∈ base

/-- The pattern matches the component at the path. -/
def matchesAt (v : Val) (p : Pat) (path : Path) : Bool :=
  (sc.component v path).any (sc.matchesPat p)

def workMatches (v : Val) (work : List Work) : Bool :=
  work.all fun w => (w.1.zip w.2.1).all fun a => sc.matchesAt v a.1 a.2

/-- The success node of the first rule that matches. -/
def firstMatch (v : Val) (rules : List Rule) : Edge :=
  (rules.find? fun r => sc.matchesPat r.1 v).map (·.2)

/-- The call returns, and its edge satisfies `P`. -/
def Yields (r : Except String (Edge × DagState)) (P : Edge → Prop) : Prop :=
  ∃ e st', r = .ok (e, st') ∧ P e

/-- Where a value ends: in `rhs` when it matches, at the first of the later rules
otherwise. -/
def Ends (v : Val) (e : Edge) (b : Bool) (rhs : Node) (rules : List Rule) : Prop :=
  sc.walk v e = if b then sc.walkNode v rhs else sc.walk v (sc.firstMatch v rules)

variable {sc τ₀ base}

theorem Yields.imp (h : Yields r P) (hPQ : ∀ e, P e → Q e) : Yields r Q := by
  obtain ⟨e, st', hr, hP⟩ := h
  exact ⟨e, st', hr, hPQ e hP⟩

theorem workMatches_cons (v : Val) (w : Work) (work : List Work) :
    sc.workMatches v (w :: work) =
      ((w.1.zip w.2.1).all (fun a => sc.matchesAt v a.1 a.2) && sc.workMatches v work) :=
  all_cons

/-! ## Entering a constructor -/

/-- The argument patterns stand for all arguments of the constructor. -/
structure ArgsTy (sc : Scope) (c : Con) (ts : List Ty) (argpats : List (Nat × Pat)) : Prop where
  labels : argpats.map (·.1) = List.range (arity c)
  pats : List.Forall₂ sc.PatTy (argpats.map (·.2)) ts

theorem argWork_eq (h : ArgsTy sc c ts argpats) (path : Path) (d : Termd) :
    argWork c argpats path d = (argpats.map (·.2),
      (List.range (arity c)).map (fun i => .access i c path), getdargs argpats d) := by
  rw [← h.labels, map_map]
  rfl

theorem ArgsTy.length (h : ArgsTy sc c ts argpats) : argpats.length = arity c := by
  simpa using congrArg List.length h.labels

theorem argWork_ty (hpath : sc.PathTy τ₀ path τ) (hc : sc.ConTy c τ ts)
    (h : ArgsTy sc c ts argpats) (d : Termd) :
    List.Forall₂ (fun p path => ∃ τ, sc.PathTy τ₀ path τ ∧ sc.PatTy p τ)
      (argWork c argpats path d).1 (argWork c argpats path d).2.1 := by
  rw [argWork_eq h]
  obtain ⟨hlen, hpats⟩ := forall₂_iff_get.1 h.pats
  refine forall₂_iff_get.2 ⟨?_, fun i hi hi' => ?_⟩
  · simp [h.length]
  · have hi' : i < arity c := by simpa using hi'
    have hlt : i < ts.length := hc.length ▸ hi'
    refine ⟨ts[i], ?_, hpats i hi hlt⟩
    simpa using PathTy.access hpath hc (getElem?_eq_getElem hlt)

/-- What a description that is not refuted says of the arguments of the pattern's
constructor, at compile time. -/
theorem enter_origin (hex : ExconsAlike sc) (hargs : ArgsTy sc c ts argpats)
    (hpath : sc.PathTy τ₀ path τ) (hc : sc.ConTy c τ ts) (hd : sc.Origin τ₀ d path)
    (hhole : (sc.originView τ₀).Hole path ctx work) (hs : staticmatch c d ≠ .ok .no) :
    (sc.originView τ₀).Pending ((c, []) :: ctx) (argWork c argpats path d :: work) := by
  rw [argWork_eq hargs]
  cases d with
  | neg n =>
    refine hhole.enter _ ⟨τ, ts, hpath, hc⟩ (by simpa [getdargs] using hargs.length) ?_
    intro i d hi
    obtain ⟨a, -, rfl⟩ := mem_map.1 (mem_of_getElem? hi)
    trivial
  | pos pc ds =>
    obtain ⟨q, σ, us, hq, hqσ, hpc, hlen, hds⟩ := hd
    have hover : Over pc c := by
      by_cases heq : conEq c pc = true
      · cases hc.eq_of_conEq hpc heq
        exact .refl c
      · have hexc : pc.isExcon = true := by
          by_contra hnot
          exact hs (by simp [staticmatch, heq, hnot])
        exact ⟨hex τ₀ q path pc c hq ⟨σ, us, hqσ, hpc⟩ ⟨τ, ts, hpath, hc⟩ hexc, .inr hexc⟩
    refine hhole.enter _ ⟨τ, ts, hpath, hc⟩ (hlen.trans hover.arity_eq) ?_
    intro i d hi
    have horigin := origins_iff.1 hds i d hi
    rw [Nat.zero_add] at horigin
    exact horigin.overlay (.access i hq hover)

/-- The constructor that a value was built with fixes the types of its arguments. -/
theorem ConTy.args_eq (hc : sc.ConTy c τ ts) (hc' : sc.ConTy c' τ ts') (hu : sc.HasTy u τ)
    (hb : sc.builtWith c u = true) (hb' : sc.builtWith c' u = true) : ts = ts' := by
  cases builds_of_builtWith hb with
  | con hx' =>
    cases builds_of_builtWith hb' with
    | con hy' =>
      obtain ⟨d, args, hx, -, -, rfl, rfl⟩ := hc
      obtain ⟨d', args', hy, -, -, hτ, rfl⟩ := hc'
      cases hx.symm.trans hx'
      cases hy.symm.trans hy'
      cases hτ
      rfl
  | scon =>
    cases builds_of_builtWith hb' with
    | scon => exact hc.2.trans hc'.2.symm
  | excon hx' =>
    cases builds_of_builtWith hb' with
    | excon hy' =>
      obtain ⟨d, hx, -, -, rfl⟩ := hc
      obtain ⟨d', hy, -, -, rfl⟩ := hc'
      cases hx.symm.trans hx'
      cases hy.symm.trans hy'
      rfl
  | record =>
    cases builds_of_builtWith hb' with
    | record => exact Ty.record.inj (hc.1.symm.trans hc'.1)

/-- The same for a value that was built with the constructor. -/
theorem enter_describes (hargs : ArgsTy sc c ts argpats) (hu : sc.At τ₀ v path u τ)
    (hc : sc.ConTy c τ ts) (hb : sc.builtWith c u = true) (hd : sc.Describes d u τ)
    (hhole : (sc.describesView τ₀ v).Hole path ctx work) :
    (sc.describesView τ₀ v).Pending ((c, []) :: ctx) (argWork c argpats path d :: work) := by
  rw [argWork_eq hargs]
  have harg : ∀ i, i < arity c → ∃ w t, u.args[i]? = some w ∧ ts[i]? = some t ∧
      sc.At τ₀ v (.access i c path) w t := by
    intro i hi
    obtain ⟨t, ht⟩ : ∃ t, ts[i]? = some t := by
      rw [← hc.length] at hi
      exact ⟨_, getElem?_eq_getElem hi⟩
    obtain ⟨w, hw, hat⟩ := hu.arg hc hb ht
    exact ⟨w, t, hw, ht, hat⟩
  cases d with
  | neg n =>
    have hlen : (getdargs argpats (.neg n)).length = arity c := by
      simpa [getdargs] using hargs.length
    refine hhole.enter _ ⟨u, τ, ts, hu, hc, hb⟩ hlen ?_
    intro i d hi
    obtain ⟨w, t, -, -, hat⟩ := harg i (hlen ▸ (List.getElem?_eq_some_iff.1 hi).1)
    obtain ⟨a, -, rfl⟩ := mem_map.1 (mem_of_getElem? hi)
    exact ⟨w, t, hat, rfl, .nil, by simp [Negset.empty]⟩
  | pos pc ds =>
    obtain ⟨us, hpc, hpb, hds⟩ := hd
    cases hpc.args_eq hc hu.hasTy hpb hb
    obtain ⟨hlen, hds⟩ := (describesAll_iff (hu.hasTy.args hc hb).length_eq).1 hds
    have hlen : ds.length = arity c := hlen.trans hc.length
    refine hhole.enter _ ⟨u, τ, _, hu, hc, hb⟩ hlen ?_
    intro i d hi
    obtain ⟨w, t, hw, ht, hat⟩ := harg i (hlen ▸ (List.getElem?_eq_some_iff.1 hi).1)
    exact ⟨w, t, hat, hds i d w t hi hw ht⟩

/-- A constructor that did not build the value is added to those that did not. -/
theorem addneg_describes (hc : sc.ConTy c τ ts) (hb : sc.builtWith c u = false)
    (hd : sc.Describes d u τ) (hs : staticmatch c d ≠ .ok .no) : sc.Describes (addneg d c) u τ := by
  cases d with
  | pos pc ds => exact hd
  | neg n =>
    obtain ⟨hsize, hnd, hn⟩ := hd
    have hnot : c ∉ n.cons := by
      intro hmem
      have hmem' := (member_iff hc fun e he => (hn e he).1).2 hmem
      exact hs (by rw [staticmatch, if_pos hmem'])
    refine ⟨congrArg (· + 1) hsize, nodup_cons.2 ⟨hnot, hnd⟩, ?_⟩
    exact forall_mem_cons.2 ⟨⟨⟨ts, hc⟩, hb⟩, hn⟩

theorem addneg_origin (hd : sc.Origin τ₀ d path) (c : Con) : sc.Origin τ₀ (addneg d c) path := by
  cases d with
  | pos pc ds => exact hd
  | neg n => trivial

/-! ## Matching the arguments -/

section

variable (h : sc.At τ₀ v path u τ)

include h

theorem matchesAt_of_at (p : Pat) : sc.matchesAt v p path = sc.matchesPat p u := by
  rw [matchesAt, h.component_eq]
  rfl

theorem tests_of_at (c : Con) : sc.tests v path c = sc.builtWith c u := by
  rw [tests, h.component_eq]
  rfl

theorem argWork_matches (c : Con) (argpats : List (Nat × Pat)) (d : Termd) (work : List Work) :
    (sc.tests v path c && sc.workMatches v (argWork c argpats path d :: work)) =
      (sc.builtWith c u && argpats.all (sc.fieldMatches u.args) && sc.workMatches v work) := by
  rw [tests_of_at h, workMatches_cons, Bool.and_assoc]
  cases hb : sc.builtWith c u with
  | false => rfl
  | true =>
    congr 2
    simp only [argWork, zip_map', all_map]
    congr 1
    funext a
    simp [matchesAt, component, h.component_eq, hb, fieldMatches]

end

theorem ArgsTy.nil (hc : sc.ConTy c τ []) : ArgsTy sc c [] [] := ⟨by simp [← hc.length], .nil⟩

theorem ArgsTy.single (hc : sc.ConTy c τ [t]) (ha : sc.AtpatTy a t) :
    ArgsTy sc c [t] [(0, .atpat a)] :=
  ⟨by simp [← hc.length], .cons ha .nil⟩

theorem ArgsTy.record (hlabels : args.map (·.1) = rowLabels rows)
    (hperm : (rowLabels rows).Perm (List.range ts.length))
    (htys : ∀ a ∈ args, ∃ t, ts[a.1]? = some t ∧ sc.PatTy a.2 t) :
    (sortArgs args).length = ts.length ∧
      ArgsTy sc (.tuple (sortArgs args).length) ts (sortArgs args) := by
  have hsorted := sortArgs_labels (hlabels ▸ hperm)
  have hlen : (sortArgs args).length = ts.length := by
    simpa using congrArg List.length hsorted
  refine ⟨hlen, by rw [hsorted, arity, hlen], forall₂_iff_get.2 ⟨by simpa using hlen, ?_⟩⟩
  intro i hi hi'
  have hi : i < (sortArgs args).length := by simpa using hi
  obtain ⟨t, ht, hp⟩ := htys _ ((sort_perm _ args).mem_iff.1 (getElem_mem hi))
  have hlab : ((sortArgs args)[i]).1 = i := by
    have h := congrArg (·[i]?) hsorted
    simpa [hi, hi'] using h
  rw [hlab] at ht
  simpa [← (List.getElem?_eq_some_iff.1 ht).2] using hp

/-! ## Calls of the compiler -/

/-- What holds at a call for what is at a path of type `τ`. -/
structure Called (sc : Scope) (τ₀ : Ty) (base : List Node) (τ : Ty) (st : DagState) (path : Path)
    (d : Termd) (ctx : Context) (work : List Work) (rhs : Node) (rules : List Rule) : Prop where
  ok : st.Ok base
  rulesOk : RulesOk sc τ₀ base rules
  rhsMem : rhs ∈ base
  hole : (sc.originView τ₀).Hole path ctx work
  origin : sc.Origin τ₀ d path
  pathTy : sc.PathTy τ₀ path τ
  workTy : WorkTy sc τ₀ work

/-- The values that the state of the call describes end as they match. -/
def Decides (sc : Scope) (τ₀ : Ty) (path : Path) (d : Termd) (ctx : Context) (work : List Work)
    (rhs : Node) (rules : List Rule) (r : Except String (Edge × DagState)) (matched : Val → Bool) :
    Prop :=
  Yields r fun e => ∀ v, (sc.describesView τ₀ v).Hole path ctx work →
    (sc.describesView τ₀ v).Holds path d → sc.Ends v e (matched v) rhs rules

theorem Decides.of_at (h : Decides sc τ₀ path d ctx work rhs rules r matched)
    (heq : ∀ v u τ, sc.At τ₀ v path u τ → matched v = matched' v) :
    Decides sc τ₀ path d ctx work rhs rules r matched' := by
  refine h.imp fun e he v hv hdv => ?_
  have hends := he v hv hdv
  obtain ⟨u, τ, hu, -⟩ := hdv
  rwa [← heq v u τ hu]

end Compile

/-! ## The compiler -/

section Run

variable {τ₀ : Ty} {base : List Node}

mutual

theorem fail_yields (hdist : sc.Distinguishes) (hex : ExconsAlike sc) (st : DagState)
    (d : Termd) (rules : List Rule) (hok : st.Ok base)
    (hrules : RulesOk sc τ₀ base rules) (hd : sc.Origin τ₀ d .obj) :
    Yields (fail st d rules) fun e => ∀ v, (sc.describesView τ₀ v).Holds .obj d →
      sc.walk v e = sc.walk v (sc.firstMatch v rules) := by
  match rules, hrules with
  | [], _ =>
    rw [fail]
    exact ⟨none, st, rfl, fun v _ => rfl⟩
  | (pat1, rhs1) :: rulerest, hrules =>
    rw [fail]
    have hpat := hrules _ (.head _)
    have hrest : RulesOk sc τ₀ base rulerest := fun r hr => hrules r (.tail _ hr)
    refine (matchPat_yields hdist hex st pat1 .obj d [] [] rhs1 rulerest
      ⟨hok, hrest, hpat.2, .obj, hd, .obj, by simp [WorkTy]⟩ hpat.1).imp fun e he v hv => ?_
    have hends := he v .obj hv
    obtain ⟨u, τ, hu, -⟩ := hv
    have huv : v = u := Option.some.inj hu.component_eq
    dsimp only [Ends] at hends
    rw [matchesAt_of_at hu, ← huv] at hends
    rw [hends]
    simp only [firstMatch, find?_cons, workMatches, all_nil, Bool.and_true]
    cases sc.matchesPat pat1 v <;> rfl
termination_by (rules.length, 0, 0)
decreasing_by simp [Prod.lex_def]

theorem succeed_yields (hdist : sc.Distinguishes) (hex : ExconsAlike sc) (st : DagState)
    (ctx : Context) (work : List Work) (rhs : Node)
    (rules : List Rule) (hok : st.Ok base) (hrules : RulesOk sc τ₀ base rules) (hrhs : rhs ∈ base)
    (hpend : (sc.originView τ₀).Pending ctx work) (hwork : WorkTy sc τ₀ work) :
    Yields (succeed st ctx work rhs rules) fun e => ∀ v,
      (sc.describesView τ₀ v).Pending ctx work → sc.Ends v e (sc.workMatches v work) rhs rules := by
  match work, hpend, hwork with
  | [], _, _ =>
    rw [succeed]
    exact ⟨some rhs, st, rfl, fun v _ => rfl⟩
  | ([], [], []) :: workr, hpend, hwork =>
    obtain ⟨ctx', hnorm, hpend'⟩ := hpend.norm
    rw [succeed, ok_bind hnorm]
    refine (succeed_yields hdist hex st ctx' workr rhs rules hok hrules hrhs hpend'
      fun w hw => hwork w (.tail _ hw)).imp fun e he v hv => ?_
    obtain ⟨ctx'', hnorm', hv'⟩ := hv.norm
    cases hnorm.symm.trans hnorm'
    exact he v hv'
  | (pat1 :: patr, path1 :: pathr, d1 :: dr) :: workr, hpend, hwork =>
    rw [succeed]
    obtain ⟨hd1, hhole⟩ := hpend.next
    obtain ⟨⟨τ, hpath, hpat⟩, hrest⟩ := forall₂_cons.1 (hwork _ (.head _))
    have hwork' : WorkTy sc τ₀ ((patr, pathr, dr) :: workr) := by
      exact forall_mem_cons.2 ⟨hrest, fun w hw => hwork w (.tail _ hw)⟩
    refine (matchPat_yields hdist hex st pat1 path1 d1 ctx _ rhs rules
      ⟨hok, hrules, hrhs, hhole, hd1, hpath, hwork'⟩ hpat).imp fun e he v hv => ?_
    obtain ⟨hv1, hvhole⟩ := hv.next
    have hends := he v hvhole hv1
    dsimp only [Ends] at hends ⊢
    rw [hends, workMatches_cons, workMatches_cons, zip_cons_cons, all_cons, Bool.and_assoc]
  | ([], [], _ :: _) :: workr, hpend, _ => cases hpend.lengths
  | ([], _ :: _, _) :: workr, _, hwork
  | (_ :: _, [], _) :: workr, _, hwork => cases hwork _ (.head _)
  | (_ :: _, _ :: _, []) :: workr, hpend, _ => cases hpend.lengths
termination_by (rules.length, workSize work, 1)
decreasing_by all_goals simp [Prod.lex_def, workSize, patsSize] <;> omega

theorem matchPat_yields {τ : Ty} (hdist : sc.Distinguishes) (hex : ExconsAlike sc) (st : DagState)
    (pat : Pat) (path : Path) (d : Termd)
    (ctx : Context) (work : List Work) (rhs : Node) (rules : List Rule)
    (h : Called sc τ₀ base τ st path d ctx work rhs rules) (hpat : sc.PatTy pat τ) :
    Decides sc τ₀ path d ctx work rhs rules (matchPat st pat path d ctx work rhs rules)
      fun v => sc.matchesAt v pat path && sc.workMatches v work := by
  match pat, hpat with
  | .atpat a, ha =>
    rw [matchPat]
    exact matchAtpat_yields hdist hex st a path d ctx work rhs rules h ha
  | .cons (some (.conInfo numCons x)) a, ⟨t, hc, ha⟩ | .cons (some (.exconInfo x)) a, ⟨t, hc, ha⟩ =>
    rw [matchPat]
    refine (matchCon_yields hdist hex st _ _ path d ctx work rhs rules h hc
      (.single hc ha)).of_at ?_
    intro v u σ hu
    rw [argWork_matches hu, matchesAt_of_at hu, matchesPat]
    simp [fieldMatches, head?_eq_getElem?, matchesPat]
  | .typed p, hp | .layered id p, hp =>
    rw [matchPat]
    exact matchPat_yields hdist hex st p path d ctx work rhs rules h hp
termination_by (rules.length, pat.size + workSize work, 0)
decreasing_by all_goals simp [Prod.lex_def, Pat.size, patsSize]

theorem matchAtpat_yields {τ : Ty} (hdist : sc.Distinguishes) (hex : ExconsAlike sc) (st : DagState)
    (a : Atpat) (path : Path) (d : Termd)
    (ctx : Context) (work : List Work) (rhs : Node) (rules : List Rule)
    (h : Called sc τ₀ base τ st path d ctx work rhs rules) (ha : sc.AtpatTy a τ) :
    Decides sc τ₀ path d ctx work rhs rules (matchAtpat st a path d ctx work rhs rules)
      fun v => sc.matchesAt v (.atpat a) path && sc.workMatches v work := by
  -- wildcards and variables match whatever is at the path
  have hany : sc.matchesAtpat a = (fun _ => true) →
      Decides sc τ₀ path d ctx work rhs rules (succeed st (augment ctx d) work rhs rules)
        fun v => sc.matchesAt v (.atpat a) path && sc.workMatches v work := by
    intro hm
    have hall : Decides sc τ₀ path d ctx work rhs rules _ (sc.workMatches · work) :=
      (succeed_yields hdist hex st (augment ctx d) work rhs rules h.ok h.rulesOk h.rhsMem
        (h.hole.augment h.origin) h.workTy).imp fun e he v hv hdv => he v (hv.augment hdv)
    refine hall.of_at fun v u σ hu => ?_
    rw [matchesAt_of_at hu, matchesPat, hm, Bool.true_and]
  -- constructors without arguments
  have hcon : ∀ c, sc.ConTy c τ [] → sc.matchesAtpat a = sc.builtWith c →
      Decides sc τ₀ path d ctx work rhs rules (matchCon st c [] path d ctx work rhs rules)
        fun v => sc.matchesAt v (.atpat a) path && sc.workMatches v work := by
    intro c hc hm
    refine (matchCon_yields hdist hex st c [] path d ctx work rhs rules h hc (.nil hc)).of_at ?_
    intro v u σ hu
    rw [argWork_matches hu, matchesAt_of_at hu, matchesPat, hm]
    simp
  match a, ha with
  | .wildcard, _ =>
    rw [matchAtpat]
    exact hany (funext fun u => by rw [matchesAtpat])
  | .scon s, hc =>
    rw [matchAtpat]
    exact hcon _ hc (funext fun u => by rw [matchesAtpat])
  | .longid (some .varPatInfo) _, _ =>
    rw [matchAtpat]
    exact hany (funext fun u => by rw [matchesAtpat])
  | .longid (some (.conInfo numCons x)) _, hc | .longid (some (.exconInfo x)) _, hc =>
    rw [matchAtpat]
    exact hcon _ hc (funext fun u => by rw [matchesAtpat])
  | .record rows, ⟨ts, hτ, hrows, hperm⟩ =>
    obtain ⟨args, hargs, hlabels, htys, hmatch⟩ := recordArgs_ok "match_atpat" hrows
    obtain ⟨hlen, hargsTy⟩ := ArgsTy.record hlabels hperm htys
    have hc : sc.ConTy (.tuple (sortArgs args).length) τ ts := ⟨hτ, hlen⟩
    rw [matchAtpat_record, ok_bind hargs]
    refine (matchCon_yields hdist hex st _ _ path d ctx work rhs rules h hc hargsTy).of_at ?_
    intro v u σ hu
    rw [argWork_matches hu, matchesAt_of_at hu, matchesPat]
    have hut := hu.hasTy
    rw [← h.pathTy.unique hu.pathTy, hτ] at hut
    cases u with
    | record vs =>
      have hvs := HasTys.length_eq hut
      have hall : (sortArgs args).all (sc.fieldMatches vs) = args.all (sc.fieldMatches vs) :=
        (sort_perm _ args).all_eq
      have hb : sc.builtWith (.tuple (sortArgs args).length) (.record vs) = true := by
        simp [builtWith, hvs, hlen]
      rw [matchesAtpat, hmatch vs, Val.args, hall, hb, Bool.true_and]
    | scon s => cases s <;> exact hut.elim
    | con _ _ | excon _ _ | other _ => exact hut.elim
  | .par p, hp =>
    rw [matchAtpat]
    refine (matchPat_yields hdist hex st p path d ctx work rhs rules h hp).of_at ?_
    intro v u σ hu
    rw [matchesAt_of_at hu, matchesAt_of_at hu, matchesPat, matchesAtpat]
termination_by (rules.length, a.size + workSize work, 0)
decreasing_by
  all_goals refine Prod.Lex.right _ (Prod.Lex.left _ _ ?_)
  · have hsize := a.two_le_size
    omega
  · have hsize := a.two_le_size
    simp only [patsSize, map_nil, sum_nil]
    omega
  · have hs := recordArgs_size hargs
    rw [← sortArgs_size] at hs
    simp only [Atpat.size]
    omega
  · simp [Atpat.size]

theorem matchCon_yields {ts : List Ty} {τ : Ty}
    (hdist : sc.Distinguishes) (hex : ExconsAlike sc) (st : DagState) (c : Con)
    (argpats : List (Nat × Pat)) (path : Path) (d : Termd) (ctx : Context) (work : List Work)
    (rhs : Node) (rules : List Rule) (h : Called sc τ₀ base τ st path d ctx work rhs rules)
    (hc : sc.ConTy c τ ts) (hargs : ArgsTy sc c ts argpats) :
    Decides sc τ₀ path d ctx work rhs rules (matchCon st c argpats path d ctx work rhs rules)
      fun v => sc.tests v path c && sc.workMatches v (argWork c argpats path d :: work) := by
  obtain ⟨hok, hrules, hrhs, hhole, hd, hpath, hwork⟩ := h
  have hwork' : WorkTy sc τ₀ (argWork c argpats path d :: work) := by
    exact forall_mem_cons.2 ⟨argWork_ty hpath hc hargs d, hwork⟩
  obtain ⟨r, hr⟩ := staticmatch_ok hc d
  rw [matchCon, ok_bind hr]
  cases r with
  | yes =>
    have hpend := enter_origin hex hargs hpath hc hd hhole (by simp [hr])
    refine (succeed_yields hdist hex st ((c, []) :: ctx) (argWork c argpats path d :: work) rhs rules
      hok hrules hrhs hpend hwork').imp fun e he v hv hdv => ?_
    obtain ⟨u, σ, hu, hdu⟩ := hdv
    cases hpath.unique hu.pathTy
    have hb := staticmatch_yes hdist hu.hasTy hc hdu hr
    dsimp only
    rw [tests_of_at hu, hb, Bool.true_and]
    exact he v (enter_describes hargs hu hc hb hdu hv)
  | no =>
    obtain ⟨D, hD, hDo⟩ := hhole.buildtermd hd
    dsimp only
    rw [ok_bind hD]
    refine (fail_yields hdist hex st D rules hok hrules hDo).imp fun e he v hv hdv => ?_
    obtain ⟨D', hD', hDv⟩ := hv.buildtermd hdv
    cases hD.symm.trans hD'
    obtain ⟨u, σ, hu, hdu⟩ := hdv
    cases hpath.unique hu.pathTy
    dsimp only [Ends]
    rw [tests_of_at hu, staticmatch_no hdist hu.hasTy hc hdu hr, Bool.false_and]
    exact he v hDv
  | maybe =>
    have hpend := enter_origin hex hargs hpath hc hd hhole (by simp [hr])
    obtain ⟨left, st1, hleft, hwalk1⟩ := succeed_yields hdist hex st ((c, []) :: ctx)
      (argWork c argpats path d :: work) rhs rules hok hrules hrhs hpend hwork'
    obtain ⟨D, hD, hDo⟩ := hhole.buildtermd (addneg_origin hd c)
    have hnodes : ∀ r ∈ rules, r.2 ∈ base := fun r hr => (hrules r hr).2
    have hok1 := (succeed_extends hrhs hok hnodes _ _ hleft).ok
    obtain ⟨right, st2, hright, hwalk2⟩ := fail_yields hdist hex st1 D rules hok1 hrules hDo
    dsimp only
    rw [ok_bind hleft]
    dsimp only
    rw [ok_bind hD, ok_bind hright]
    refine ⟨(branch st2 path c left right).1, (branch st2 path c left right).2, rfl,
      fun v hv hdv => ?_⟩
    obtain ⟨u, σ, hu, hdu⟩ := hdv
    cases hpath.unique hu.pathTy
    have hwalk : sc.walk v (branch st2 path c left right).1 =
        if sc.tests v path c then sc.walk v left else sc.walk v right :=
      maybe_walk hok hnodes hrhs hleft hright Prod.mk.eta.symm
    dsimp only [Ends]
    rw [hwalk, tests_of_at hu]
    cases hb : sc.builtWith c u with
    | true =>
      rw [Bool.true_and]
      exact hwalk1 v (enter_describes hargs hu hc hb hdu hv)
    | false =>
      have hadd := addneg_describes hc hb hdu (by simp [hr])
      obtain ⟨D', hD', hDv⟩ := hv.buildtermd ⟨u, τ, hu, hadd⟩
      cases hD.symm.trans hD'
      exact hwalk2 v hDv
termination_by (rules.length, patsSize (argpats.map (·.2)) + 1 + workSize work, 2)
decreasing_by all_goals simp [Prod.lex_def, workSize_argWork, Nat.add_right_comm _ 1]

end

end Run

end Scope

end MLKit.Lambda.Match
