import MLKit.Lambda.MatchScope

/-!
# Sharing in a decision dag

Edges are compared by the lvars of their nodes.  As long as every lvar belongs to one
node, sharing a node instead of making a new test does not change where a walk ends.
-/

namespace MLKit.Lambda.Match

open MLKit.Lib List

/-! ## Equal paths and constructors test the same -/

namespace Scope

variable {sc : Scope}

theorem builtWith_congr (h : conEq c d = true) (u : Val) : sc.builtWith c u = sc.builtWith d u := by
  cases sameCon_of_conEq h <;> cases u <;> rfl

theorem component_congr (h : pathEq p q = true) : sc.component v p = sc.component v q := by
  induction p generalizing q with
  | obj =>
    cases q with
    | obj => rfl
    | access j d q => cases h
  | access i c p ih =>
    cases q with
    | obj => cases h
    | access j d q =>
      simp only [pathEq, Bool.and_eq_true, beq_iff_eq] at h
      obtain ⟨⟨rfl, hcd⟩, hpq⟩ := h
      simp only [component, ih hpq, builtWith_congr hcd]

theorem tests_congr (hpq : pathEq p q = true) (hcd : conEq c d = true) :
    sc.tests v p c = sc.tests v q d := by
  rw [tests, tests, component_congr hpq]
  congr 1
  funext u
  exact builtWith_congr hcd u

end Scope

/-! ## The nodes of a dag -/

/-- The success nodes of the rules and the tests made so far. -/
def DagState.nodes (base : List Node) (st : DagState) : List Node := base ++ st.ifeqs.map (·.2)

def EdgeIn (nodes : List Node) (e : Edge) : Prop := ∀ n ∈ e, n ∈ nodes

/-- Every lvar below the next one belongs to at most one node, and the map of tests
tells what each of its nodes tests. -/
structure DagState.Ok (base : List Node) (st : DagState) : Prop where
  nodup : ((st.nodes base).map Node.lvar).Nodup
  lt : ∀ n ∈ st.nodes base, n.lvar < st.lvars
  kind : ∀ a ∈ st.ifeqs, ∃ lvar, a.2 = .ifEq lvar a.1.path a.1.con a.1.e1 a.1.e2
  edges : ∀ a ∈ st.ifeqs, EdgeIn (st.nodes base) a.1.e1 ∧ EdgeIn (st.nodes base) a.1.e2

theorem EdgeIn.mono (h : EdgeIn nodes e) (hsub : nodes ⊆ nodes') : EdgeIn nodes' e :=
  fun n hn => hsub (h n hn)

namespace DagState.Ok

variable {st : DagState}

theorem edge_eq (h : st.Ok base) (he : EdgeIn (st.nodes base) e) (he' : EdgeIn (st.nodes base) e')
    (heq : edgeEq e e' = true) : e = e' := by
  cases e with
  | none =>
    cases e' with
    | none => rfl
    | some m => cases heq
  | some n =>
    cases e' with
    | none => cases heq
    | some m =>
      have hlv : n.lvar = m.lvar := by simpa [edgeEq] using heq
      rw [inj_on_of_nodup_map h.nodup (he n rfl) (he' m rfl) hlv]

theorem mkIfeqNode (h : st.Ok base) (he1 : EdgeIn (st.nodes base) k.e1)
    (he2 : EdgeIn (st.nodes base) k.e2) : (mkIfeqNode st k).2.Ok base := by
  have hsub : st.nodes base ⊆ (Match.mkIfeqNode st k).2.nodes base := by
    intro n hn
    rcases mem_append.1 hn with hn | hn
    · exact mem_append_left _ hn
    · exact mem_append_right _ (.tail _ hn)
  have hperm : ((Match.mkIfeqNode st k).2.nodes base).Perm
      ((Match.mkIfeqNode st k).1 :: st.nodes base) := perm_middle
  refine ⟨?_, ?_, ?_, ?_⟩
  · refine (hperm.map Node.lvar).nodup_iff.2 (nodup_cons.2 ⟨?_, h.nodup⟩)
    intro hmem
    obtain ⟨n, hn, hlv⟩ := mem_map.1 hmem
    have hlt := h.lt n hn
    rw [hlv] at hlt
    exact Nat.lt_irrefl _ hlt
  · intro n hn
    rcases mem_cons.1 (hperm.mem_iff.1 hn) with rfl | hn
    · exact Nat.lt_succ_self _
    · exact Nat.lt_succ_of_lt (h.lt n hn)
  · exact forall_mem_cons.2 ⟨⟨st.lvars, rfl⟩, h.kind⟩
  · intro a ha
    rcases mem_cons.1 ha with rfl | ha
    · exact ⟨he1.mono hsub, he2.mono hsub⟩
    · exact ⟨(h.edges a ha).1.mono hsub, (h.edges a ha).2.mono hsub⟩

end DagState.Ok

/-- A node that tests `k`. -/
def Tests (k : IfEq) (n : Node) : Prop :=
  ∀ (sc : Scope) v, sc.walkNode v n = if sc.tests v k.path k.con then sc.walk v k.e1 else sc.walk v k.e2

/-- What is known of an edge and a state after a part of the compilation. -/
structure Extends (base : List Node) (st : DagState) (e : Edge) (st' : DagState) : Prop where
  ok : st'.Ok base
  edge : EdgeIn (st'.nodes base) e
  nodes : st.nodes base ⊆ st'.nodes base

theorem ifeqNode_extends (h : st.Ok base) (he1 : EdgeIn (st.nodes base) k.e1)
    (he2 : EdgeIn (st.nodes base) k.e2) :
    Extends base st (some (ifeqNode st k).1) (ifeqNode st k).2 ∧ Tests k (ifeqNode st k).1 := by
  unfold ifeqNode
  split
  next node hfind =>
      obtain ⟨a, ha, rfl⟩ := Option.map_eq_some_iff.1 hfind
      have hmem := mem_of_find?_eq_some ha
      have hin : a.2 ∈ st.nodes base := mem_append_right _ (mem_map_of_mem hmem)
      refine ⟨⟨h, ?_, fun _ hn => hn⟩, ?_⟩
      · rintro n ⟨⟩
        exact hin
      · have hk := List.find?_some ha
        simp only [ifeqEq, Bool.and_eq_true] at hk
        obtain ⟨⟨⟨hk2, hk1⟩, hcon⟩, hpath⟩ := hk
        obtain ⟨lvar, hkind⟩ := h.kind a hmem
        have hedges := h.edges a hmem
        intro sc v
        rw [hkind, Scope.walkNode, h.edge_eq he1 hedges.1 hk1, h.edge_eq he2 hedges.2 hk2,
          Scope.tests_congr hpath hcon]
  next hfind =>
      refine ⟨⟨h.mkIfeqNode he1 he2, ?_, ?_⟩, fun sc v => rfl⟩
      · rintro n ⟨⟩
        exact mem_append_right _ (.head _)
      · intro n hn
        rcases mem_append.1 hn with hn | hn
        · exact mem_append_left _ hn
        · exact mem_append_right _ (.tail _ hn)

/-- A branch walks as the test of its constructor does. -/
theorem branch_extends (h : st.Ok base) (hl : EdgeIn (st.nodes base) left)
    (hr : EdgeIn (st.nodes base) right) (path : Path) (con : Con) :
    Extends base st (branch st path con left right).1 (branch st path con left right).2 ∧
      ∀ (sc : Scope) v, sc.walk v (branch st path con left right).1 =
        if sc.tests v path con then sc.walk v left else sc.walk v right := by
  unfold branch
  split
  next heq =>
      refine ⟨⟨h, hl, fun _ hn => hn⟩, fun sc v => ?_⟩
      rw [h.edge_eq hl hr heq, ite_self]
  next heq =>
      obtain ⟨hext, htests⟩ := ifeqNode_extends (k := ⟨path, con, left, right⟩) h hl hr
      exact ⟨hext, htests⟩

/-! ## All calls of the compiler keep the nodes -/

section Calls

variable {path : Path}

/-- What `matchCon` does when it returns. -/
theorem matchCon_cases (h : matchCon st c argpats path d ctx work rhs rules = .ok (e, st')) :
    (staticmatch c d = .ok .yes ∧
      succeed st ((c, []) :: ctx) (argWork c argpats path d :: work) rhs rules = .ok (e, st')) ∨
    (staticmatch c d = .ok .no ∧ ∃ D, buildtermd ctx d work = .ok D ∧
      fail st D rules = .ok (e, st')) ∨
    (staticmatch c d = .ok .maybe ∧ ∃ left st1 D right st2,
      succeed st ((c, []) :: ctx) (argWork c argpats path d :: work) rhs rules = .ok (left, st1) ∧
      buildtermd ctx (addneg d c) work = .ok D ∧ fail st1 D rules = .ok (right, st2) ∧
      branch st2 path c left right = (e, st')) := by
  rw [matchCon] at h
  obtain ⟨r, hr, h⟩ := bind_ok h
  cases r with
  | yes => exact .inl ⟨hr, h⟩
  | no =>
    obtain ⟨D, hD, h⟩ := bind_ok h
    exact .inr (.inl ⟨hr, D, hD, h⟩)
  | maybe =>
    obtain ⟨⟨left, st1⟩, hleft, h⟩ := bind_ok h
    obtain ⟨D, hD, h⟩ := bind_ok h
    obtain ⟨⟨right, st2⟩, hright, h⟩ := bind_ok h
    exact .inr (.inr ⟨hr, left, st1, D, right, st2, hleft, hD, hright, Except.ok.inj h⟩)

theorem Extends.trans (h : Extends base st e1 st1) (h' : Extends base st1 e2 st2) :
    Extends base st e2 st2 :=
  ⟨h'.ok, h'.edge, fun _ hn => h'.nodes (h.nodes hn)⟩

end Calls

/-- Where a call returns, its edge and its state extend the state it was given. -/
def Keeps (base : List Node) (st : DagState) (rules : List Rule)
    (r : Except String (Edge × DagState)) : Prop :=
  st.Ok base → (∀ r ∈ rules, r.2 ∈ base) → ∀ e st', r = .ok (e, st') → Extends base st e st'

theorem Keeps.error : Keeps base st rules (.error msg) := fun _ _ _ _ => nofun

mutual

theorem fail_extends : Keeps base st rules (fail st d rules) := by
  intro hok hrules
  match rules, hrules with
  | [], _ =>
    rw [fail]
    rintro e st' ⟨⟩
    exact ⟨hok, by simp [EdgeIn], fun _ hn => hn⟩
  | (pat1, rhs1) :: rulerest, hrules =>
    rw [fail]
    exact matchPat_extends pat1 .obj d [] [] rhs1 rulerest (hrules _ (.head _)) hok
      fun r hr => hrules r (.tail _ hr)
termination_by (rules.length, 0, 0)
decreasing_by simp [Prod.lex_def]

theorem succeed_extends (hrhs : rhs ∈ base) :
    Keeps base st rules (succeed st ctx work rhs rules) := by
  match work with
  | [] =>
    rw [succeed]
    rintro hok - e st' ⟨⟩
    refine ⟨hok, ?_, fun _ hn => hn⟩
    rintro n ⟨⟩
    exact mem_append_left _ hrhs
  | ([], [], []) :: workr =>
    rw [succeed]
    intro hok hrules e st' h
    obtain ⟨ctx', -, h⟩ := bind_ok h
    exact succeed_extends hrhs hok hrules e st' h
  | (pat1 :: patr, path1 :: pathr, d1 :: dr) :: workr =>
    rw [succeed]
    exact matchPat_extends pat1 path1 d1 ctx _ rhs rules hrhs
  | ([], [], _ :: _) :: workr | ([], _ :: _, _) :: workr | (_ :: _, [], _) :: workr
  | (_ :: _, _ :: _, []) :: workr =>
    rw [succeed]
    · exact .error
    all_goals nofun
termination_by (rules.length, workSize work, 1)
decreasing_by all_goals simp [Prod.lex_def, workSize, patsSize] <;> omega

theorem matchPat_extends (pat : Pat) (path : Path) (d : Termd) (ctx : Context)
    (work : List Work) (rhs : Node) (rules : List Rule) (hrhs : rhs ∈ base) :
    Keeps base st rules (matchPat st pat path d ctx work rhs rules) := by
  match pat with
  | .atpat a =>
    rw [matchPat]
    exact matchAtpat_extends hrhs
  | .cons (some (.conInfo _ _)) _ | .cons (some (.exconInfo _)) _ =>
    rw [matchPat]
    exact matchCon_extends hrhs
  | .typed p | .layered _ p =>
    rw [matchPat]
    exact matchPat_extends p path d ctx work rhs rules hrhs
  | .cons none _ | .cons (some .varPatInfo) _ | .cons (some (.labInfo _)) _ | .unresInfix =>
    simp only [matchPat]
    exact .error
termination_by (rules.length, pat.size + workSize work, 0)
decreasing_by all_goals simp [Prod.lex_def, Pat.size, patsSize]

theorem matchAtpat_extends (hrhs : rhs ∈ base) :
    Keeps base st rules (matchAtpat st a path d ctx work rhs rules) := by
  match a with
  | .wildcard | .longid (some .varPatInfo) _ =>
    rw [matchAtpat]
    exact succeed_extends hrhs
  | .scon s | .longid (some (.conInfo _ _)) _ | .longid (some (.exconInfo _)) _ =>
    rw [matchAtpat]
    exact matchCon_extends hrhs
  | .longid none _ | .longid (some (.labInfo _)) _ =>
    simp only [matchAtpat]
    exact .error
  | .record rows =>
    rw [matchAtpat_record]
    intro hok hrules e st' h
    obtain ⟨args, hargs, h⟩ := bind_ok h
    exact matchCon_extends hrhs hok hrules e st' h
  | .par p =>
    rw [matchAtpat]
    exact matchPat_extends p path d ctx work rhs rules hrhs
termination_by (rules.length, a.size + workSize work, 0)
decreasing_by
  pick_goal 6
  · simp [Prod.lex_def, Atpat.size, sortArgs_size, recordArgs_size hargs]
  all_goals simp [Prod.lex_def, Atpat.size, patsSize]

theorem matchCon_extends (hrhs : rhs ∈ base) :
    Keeps base st rules (matchCon st c argpats path d ctx work rhs rules) := by
  intro hok hrules e st' h
  rcases matchCon_cases h with ⟨-, h⟩ | ⟨-, D, -, h⟩ |
    ⟨-, left, st1, D, right, st2, hleft, -, hright, hbranch⟩
  · exact succeed_extends hrhs hok hrules e st' h
  · exact fail_extends hok hrules e st' h
  · have hext1 := succeed_extends hrhs hok hrules _ _ hleft
    have hext2 := fail_extends hext1.ok hrules _ _ hright
    have hext3 := (branch_extends hext2.ok (hext1.edge.mono hext2.nodes) hext2.edge path c).1
    rw [hbranch] at hext3
    exact (hext1.trans hext2).trans hext3
termination_by (rules.length, patsSize (argpats.map (·.2)) + 1 + workSize work, 2)
decreasing_by all_goals simp [Prod.lex_def, workSize_argWork, Nat.add_right_comm _ 1]

end

/-- A test that is left to the walk takes the branch of its outcome. -/
theorem maybe_walk {sc : Scope} (hok : st.Ok base)
    (hrules : ∀ r ∈ rules, r.2 ∈ base) (hrhs : rhs ∈ base)
    (hleft : succeed st ctx work rhs rules = .ok (left, st1))
    (hright : fail st1 D rules = .ok (right, st2))
    (hbranch : branch st2 path c left right = (e, st')) :
    sc.walk v e = if sc.tests v path c then sc.walk v left else sc.walk v right := by
  have hext1 := succeed_extends hrhs hok hrules _ _ hleft
  have hext2 := fail_extends hext1.ok hrules _ _ hright
  have hwalk := (branch_extends hext2.ok (hext1.edge.mono hext2.nodes) hext2.edge path c).2 sc v
  rwa [hbranch] at hwalk

end MLKit.Lambda.Match
