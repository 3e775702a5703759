import MLKit.Common.Marks
import Mathlib.Data.Fintype.Card
import Mathlib.Order.Interval.Finset.Nat
import Mathlib.Order.Interval.Set.Infinite

/-!
# Topological sorting

`topsort` puts a node in front of what it has collected when it leaves the node.  If there are no
cycles, all successors of the node have been left by then.
-/

namespace MLKit.DiGraph

open MLKit.Lib List Relation

variable {ι ρ : Type}

/-- There is an edge from one class to the other. -/
def Edge (h : Heap ι ρ) (c d : Node) : Prop := ∃ n ∈ outs h c, h.rep n = d

/-- The class of one of the roots, or of a node that can be reached from them. -/
abbrev Reachable (h : Heap ι ρ) (l : List Node) : Node → Prop :=
  Found h.rep (outs h) (fun _ => True) l

/-- Every node stands before all of its successors. -/
def Sorted (h : Heap ι ρ) : List Node → Prop
  | [] => True
  | n :: ns => (∀ m ∈ h.outOfNode n, h.rep m ∈ ns.map h.rep) ∧ Sorted h ns

variable {h : Heap ι ρ} {ns r r' l : List Node} {marks marks' : Node → Bool} {c n : Node}

/-- The classes that have been entered and not left cannot be reached from the nodes that are still
to be searched, so these are collected behind everything that leads to them. -/
theorem traversal_sorted (hsearch : Traversal h.rep (outs h) true keep collect ns marks r marks' r')
    (hacyclic : ∀ n ∈ ns, ∀ c, ReflTransGen (Edge h) (h.rep n) c → ¬ TransGen (Edge h) c c)
    (hentered : ∀ c, marks c = true → c ∉ r.map h.rep →
      ∀ n ∈ ns, ¬ ReflTransGen (Edge h) (h.rep n) c)
    (hr : Sorted h r) : Sorted h r' ∧ ∀ n ∈ ns, h.rep n ∈ r'.map h.rep := by
  induction hsearch with
  | nil => exact ⟨hr, nofun⟩
  | skip hn hrest ih =>
    obtain ⟨hsorted, hmem⟩ := ih (fun n hn => hacyclic n (.tail _ hn))
      (fun c hc hcr n hn => hentered c hc hcr n (.tail _ hn)) hr
    refine ⟨hsorted, forall_mem_cons.2 ⟨?_, hmem⟩⟩
    rw [hrest.mem_iff (fun r c => c ∈ r.map h.rep) keep_mem collect_mem]
    exact .inl (not_not.1 fun hnr => hentered _ hn hnr _ (.head _) .refl)
  | @enter marks n r _ m2 r2 _ ns _ r' hn h1 h2 h3 hrest ih2 ih =>
    cases h1
    cases h3
    have hstep : ∀ m ∈ outs h (h.rep n), Edge h (h.rep n) (h.rep m) := fun m hm => ⟨m, hm, rfl⟩
    obtain ⟨hsorted2, hmem2⟩ : Sorted h r2 ∧ ∀ m ∈ outs h (h.rep n), h.rep m ∈ r2.map h.rep := by
      refine ih2 (fun m hm c hc => ?_) (fun c hc hcr m hm hreach => ?_) hr
      · exact hacyclic n (.head _) c (.head (hstep m hm) hc)
      · rw [Function.update_apply] at hc
        split at hc
        · subst c
          exact hacyclic n (.head _) _ .refl (.head' (hstep m hm) hreach)
        · exact hentered c hc hcr n (.head _) (.head (hstep m hm) hreach)
    have hentered2 : ∀ c, m2 c = true → c ∉ (n :: r2).map h.rep →
        ∀ m ∈ ns, ¬ ReflTransGen (Edge h) (h.rep m) c := by
      intro c hc hcr m hm
      rw [map_cons, mem_cons, not_or,
        h2.mem_iff (fun r c => c ∈ r.map h.rep) keep_mem collect_mem] at hcr
      obtain ⟨hne, hcr⟩ := hcr
      rw [Function.update_of_ne hne] at hcr
      refine hentered c ?_ (fun hin => hcr (.inl hin)) m (.tail _ hm)
      exact not_not.1 fun hmark => hcr (.inr ⟨.inr trivial, hc, hmark⟩)
    obtain ⟨hsorted, hmem⟩ := ih (fun m hm => hacyclic m (.tail _ hm)) hentered2 ⟨hmem2, hsorted2⟩
    refine ⟨hsorted, forall_mem_cons.2 ⟨?_, hmem⟩⟩
    rw [hrest.mem_iff (fun r c => c ∈ r.map h.rep) keep_mem collect_mem]
    exact .inl (.head _)

/-- In a finite graph without cycles every way along edges ends. -/
theorem acc_of_acyclic (hfinite : {c | Reachable h l c}.Finite)
    (hacyclic : ∀ c, Reachable h l c → ¬ TransGen (Edge h) c c) (hc : Reachable h l c) :
    Acc (fun d c => Edge h c d) c := by
  let after (x y : {c // Reachable h l c}) : Prop := TransGen (Edge h) y.1 x.1
  have : Finite {c // Reachable h l c} := hfinite
  have : IsTrans _ after := ⟨fun _ _ _ hxy hyz => hyz.trans hxy⟩
  have : Std.Irrefl after := ⟨fun x => hacyclic x.1 x.2⟩
  have hacc := (Finite.wellFounded_of_trans_of_irrefl after).apply ⟨c, hc⟩
  generalize hx : (⟨c, hc⟩ : {c // Reachable h l c}) = x at hacc
  induction hacc generalizing c with
  | intro x _ ih =>
    subst hx
    refine ⟨c, fun d hd => ?_⟩
    obtain ⟨n, hn, rfl⟩ := hd
    exact ih ⟨_, .step hc hn trivial⟩ (.single ⟨n, hn, rfl⟩) (.step hc hn trivial) rfl

/-- What can be reached from the class of a root can be reached from the roots. -/
theorem reachable_of_reflTransGen (hn : n ∈ l) (hc : ReflTransGen (Edge h) (h.rep n) c) :
    Reachable h l c := by
  induction hc with
  | refl => exact .root hn trivial
  | tail _ hedge ih =>
    obtain ⟨m, hm, rfl⟩ := hedge
    exact .step ih hm trivial

/-- With enough fuel `topsort` returns, and it leaves the graph as it was.  If no cycle can be
reached from the roots, the result has every class that can be reached exactly once, and before all
of its successors. -/
theorem topsort_sorts (h : Heap ι ρ) (l : List Node) (hclean : h.Clean)
    (hfinite : {c | Reachable h l c}.Finite)
    (hacyclic : ∀ c, Reachable h l c → ¬ TransGen (Edge h) c c) :
    ∃ bound r, (∀ fuel ≥ bound, topsort fuel l h = .ok (r, h)) ∧
      (∀ c, c ∈ r.map h.rep ↔ Reachable h l c) ∧ (r.map h.rep).Nodup ∧ Sorted h r := by
  obtain ⟨bound, ⟨F, r⟩, hrun⟩ := ends_of_acc Stop.fuel true (fun n r => ⟨r, rfl⟩)
    (fun n r => ⟨n :: r, rfl⟩)
    (fun n hn => acc_of_acyclic hfinite hacyclic (.root hn trivial)) h.marks []
  have hsearch := depthFirst_traversal (hrun bound (Nat.le_refl _))
  have htop : ∀ fuel ≥ bound, topsort fuel l h = .ok (r, (h.withMarks F).unvisit r) := by
    intro fuel hfuel
    have hfound : search outs true keep collect fuel l h [] = .ok (h.withMarks F, r) :=
      ok_bind (hrun fuel hfuel)
    exact ok_bind hfound
  have hheap := topsort_heap (htop bound (Nat.le_refl _))
  refine ⟨bound, r, fun fuel hfuel => by rw [htop fuel hfuel, hheap], fun c => ?_, ?_, ?_⟩
  · rw [mem_topsort (htop bound (Nat.le_refl _)), found_unmarked_iff hclean]
  · exact topsort_nodup (htop bound (Nat.le_refl _))
  · refine (traversal_sorted hsearch (fun n hn c hc => ?_) (fun c hc _ n hn hreach => ?_) trivial).1
    · exact hacyclic c (reachable_of_reflTransGen hn hc)
    · exact ((found_unmarked_iff hclean).2 (reachable_of_reflTransGen hn hreach)).holds hc

/-- Two ways from the first node to the last, the short one first. -/
def twoWays : Heap Unit Unit where
  next := 3
  rep := id
  rep_rep := fun _ => rfl
  rank := fun _ => 0
  cell := fun c => ⟨(), false, 0, if c = 0 then [2, 1] else if c = 1 then [2] else []⟩
  globals := ()

theorem twoWays_sorted :
    ∃ bound r, (∀ fuel ≥ bound, topsort fuel [0] twoWays = .ok (r, twoWays)) ∧
      (∀ c, c ∈ r.map twoWays.rep ↔ Reachable twoWays [0] c) ∧
      (r.map twoWays.rep).Nodup ∧ Sorted twoWays r := by
  have hedge : ∀ c d, Edge twoWays c d → c < d ∧ d ≤ 2 := by
    rintro c d ⟨n, hn, rfl⟩
    simp only [outs, twoWays] at hn
    split at hn
    · simp at hn
      rcases hn with rfl | rfl <;> simp_all [twoWays]
    · split at hn <;> simp_all [twoWays]
  refine topsort_sorts twoWays [0] (fun _ => rfl) ?_ fun c _ hcycle => ?_
  · refine (Set.finite_Iic 2).subset fun c hc => hc.induct (R := (· ≤ 2)) ?_ ?_
    · simp [twoWays]
    · exact fun d _ n hn _ => (hedge d _ ⟨n, hn, rfl⟩).2
  · have hlt : TransGen (· < ·) c c := TransGen.mono (fun c d hcd => (hedge c d hcd).1) c c hcycle
    rw [transGen_eq_self] at hlt
    exact Nat.lt_irrefl c hlt

end MLKit.DiGraph
