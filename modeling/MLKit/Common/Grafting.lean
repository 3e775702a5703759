import MLKit.Common.Quotients

/-!
# Grafting

`multi_graft` marks what a target reaches, adds children to the target and
unmarks what it reaches then.  The function that is given to it may allocate
nodes, so it is said here which nodes exist: every node that is pointed to has
been allocated.
-/

namespace MLKit.DiGraph

open MLKit.Lib Heap List Function

variable {ι ρ : Type} {h h' : Heap ι ρ}

/-- Nodes that are pointed to, by edges or from the information of a node, exist. -/
structure Heap.Allocated (refs : ι → List Node) (h : Heap ι ρ) : Prop where
  fresh : ∀ n, h.next ≤ n → h.rep n = n
  lt : ∀ n < h.next, h.rep n < h.next
  out : ∀ n < h.next, ∀ m ∈ h.outOfNode n, m < h.next
  info : ∀ n < h.next, ∀ m ∈ refs (h.findInfo n), m < h.next

/-- Nodes have been added; the edges and flags of the others are as before. -/
structure Grows (h h' : Heap ι ρ) : Prop where
  next : h.next ≤ h'.next
  rep : h'.rep = h.rep
  out : ∀ n < h.next, h'.outOfNode n = h.outOfNode n
  visited : ∀ n < h.next, h'.nodeIsVisited n = h.nodeIsVisited n
  fresh : ∀ n, h'.nodeIsVisited n = true → h.nodeIsVisited n = true

theorem Grows.refl (h : Heap ι ρ) : Grows h h :=
  ⟨Nat.le_refl _, rfl, fun _ _ => rfl, fun _ _ => rfl, fun _ => id⟩

variable {h1 h2 h3 : Heap ι ρ} {refs : ι → List Node} {l ns : List Node} {n fuel m : Nat}
  {boundToFree : BoundToFree ι ρ} {acc acc' : List Node × List Node} {r : Node × List Node}

theorem Grows.trans (h12 : Grows h1 h2) (h23 : Grows h2 h3) : Grows h1 h3 where
  next := Nat.le_trans h12.next h23.next
  rep := h23.rep.trans h12.rep
  out := fun n hn => (h23.out n (Nat.lt_of_lt_of_le hn h12.next)).trans (h12.out n hn)
  visited := fun n hn => (h23.visited n (Nat.lt_of_lt_of_le hn h12.next)).trans (h12.visited n hn)
  fresh := fun n hn => h12.fresh n (h23.fresh n hn)

theorem Heap.Allocated.withMarks (halloc : h.Allocated refs) (F : Node → Bool) :
    (h.withMarks F).Allocated refs :=
  ⟨halloc.fresh, halloc.lt, halloc.out, halloc.info⟩

theorem findInfo_setOutOfNode (n m : Node) (l : List Node) :
    (h.setOutOfNode n l).findInfo m = h.findInfo m :=
  cell_setNode_of_eq GraphNode.info m rfl

theorem Heap.Allocated.setOutOfNode (halloc : h.Allocated refs) (n : Node)
    (hl : ∀ m ∈ l, m < h.next) : (h.setOutOfNode n l).Allocated refs where
  fresh := halloc.fresh
  lt := halloc.lt
  out := by
    intro m hm k hk
    rw [outOfNode_setOutOfNode] at hk
    split at hk
    · exact hl k hk
    · exact halloc.out m hm k hk
  info := by
    intro m hm k hk
    rw [findInfo_setOutOfNode] at hk
    exact halloc.info m hm k hk

section

variable {refs : ι → List Node} {n : Node} {i : ι} (halloc : h.Allocated refs)

include halloc

theorem Heap.Allocated.rep_mkNode (i : ι) : (h.mkNode i).2.rep = h.rep :=
  (update_eq_self_iff ..).2 (halloc.fresh _ (Nat.le_refl _)).symm

theorem Heap.Allocated.cell_mkNode (i : ι) (m : Node) :
    (h.mkNode i).2.cell (h.rep m) = if m = h.next then ⟨i, false, 0, []⟩ else h.cell (h.rep m) := by
  have hrep : h.rep m = h.next ↔ m = h.next := by
    rcases Nat.lt_or_ge m h.next with hm | hm
    · exact iff_of_false (Nat.ne_of_lt (halloc.lt m hm)) (Nat.ne_of_lt hm)
    · rw [halloc.fresh m hm]
  simp [mkNode, update_apply, hrep]

theorem Heap.Allocated.mkNode (hi : refs i = []) :
    (h.mkNode i).2.Allocated refs ∧ Grows h (h.mkNode i).2 := by
  have hrep := halloc.rep_mkNode i
  have hcell := halloc.cell_mkNode i
  refine ⟨⟨?_, ?_, ?_, ?_⟩, Nat.le_succ _, hrep, ?_, ?_, ?_⟩
  · intro m hm
    rw [hrep]
    exact halloc.fresh m (Nat.le_of_succ_le hm)
  · intro m hm
    rw [hrep]
    rcases Nat.lt_succ_iff_lt_or_eq.1 hm with hm | rfl
    · exact Nat.lt_succ_of_lt (halloc.lt m hm)
    · rw [halloc.fresh _ (Nat.le_refl _)]
      exact Nat.lt_succ_self _
  · intro m hm k hk
    rw [outOfNode, hrep, hcell] at hk
    split at hk
    · cases hk
    · exact Nat.lt_succ_of_lt (halloc.out m (Nat.lt_of_le_of_ne (Nat.le_of_lt_succ hm) ‹_›) k hk)
  · intro m hm k hk
    rw [findInfo, hrep, hcell] at hk
    split at hk
    · rw [hi] at hk
      cases hk
    · exact Nat.lt_succ_of_lt (halloc.info m (Nat.lt_of_le_of_ne (Nat.le_of_lt_succ hm) ‹_›) k hk)
  · intro m hm
    rw [outOfNode, hrep, hcell, if_neg (Nat.ne_of_lt hm), outOfNode]
  · intro m hm
    rw [nodeIsVisited, hrep, hcell, if_neg (Nat.ne_of_lt hm), nodeIsVisited]
  · intro m hm
    rw [nodeIsVisited, hrep, hcell] at hm
    split at hm
    · cases hm
    · exact hm

theorem Heap.Allocated.setInfo (n : Node) (hi : ∀ m ∈ refs i, m < h.next) :
    (h.setInfo n i).Allocated refs ∧ Grows h (h.setInfo n i) := by
  have hout : ∀ m, (h.setInfo n i).outOfNode m = h.outOfNode m := fun m =>
    cell_setNode_of_eq GraphNode.out m rfl
  have hvisited : ∀ m, (h.setInfo n i).nodeIsVisited m = h.nodeIsVisited m := fun m =>
    cell_setNode_of_eq GraphNode.visited m rfl
  refine ⟨⟨halloc.fresh, halloc.lt, fun m hm => hout m ▸ halloc.out m hm, ?_⟩, Nat.le_refl _, rfl,
    fun m _ => hout m, fun m _ => hvisited m, fun m => by rw [hvisited]; exact id⟩
  intro m hm k hk
  have hinfo : (h.setInfo n i).findInfo m = if h.rep m = h.rep n then i else h.findInfo m :=
    cell_setNode GraphNode.info n m _
  rw [hinfo] at hk
  split at hk
  · exact hi k hk
  · exact halloc.info m hm k hk

end

/-- Edges of new nodes. -/
theorem Grows.setOutOfNode (hgrows : Grows h h') (hn : h.next ≤ n) (halloc : h.Allocated refs)
    (l : List Node) : Grows h (h'.setOutOfNode n l) where
  next := hgrows.next
  rep := hgrows.rep
  out := by
    intro m hm
    have hne : h'.rep m ≠ h'.rep n := by
      rw [hgrows.rep, halloc.fresh n hn]
      exact Nat.ne_of_lt (Nat.lt_of_lt_of_le (halloc.lt m hm) hn)
    rw [outOfNode_setOutOfNode, if_neg hne, hgrows.out m hm]
  visited := fun m hm => nodeIsVisited_setOutOfNode.trans (hgrows.visited m hm)
  fresh := fun m hm => hgrows.fresh m (nodeIsVisited_setOutOfNode.symm.trans hm)

/-- A function that maps nodes to nodes and does nothing but allocate. -/
def BoundToFree.OnlyAllocates (refs : ι → List Node) (boundToFree : BoundToFree ι ρ) : Prop :=
  ∀ n h r h', h.Allocated refs → n < h.next → boundToFree n h = .ok (r, h') →
    h'.Allocated refs ∧ Grows h h' ∧ ∀ m ∈ r, m < h'.next

section Graft

theorem accum_spec (halloc : boundToFree.OnlyAllocates refs) (hh : h.Allocated refs)
    (hns : ∀ n ∈ ns, n < h.next) (hacc : ∀ n ∈ acc.1 ++ acc.2, n < h.next)
    (ha : accum boundToFree fuel ns acc h = .ok (acc', h')) :
    h'.Allocated refs ∧ Grows h h' ∧ (∀ n ∈ acc'.1 ++ acc'.2, n < h'.next) ∧
      ∀ n ∈ acc.2, n ∈ acc'.2 := by
  induction fuel generalizing ns acc acc' h h' with
  | zero =>
    cases ns with
    | nil =>
      cases ha
      exact ⟨hh, .refl _, hacc, fun _ => id⟩
    | cons n ns => cases ha
  | succ fuel ih =>
    cases ns with
    | nil =>
      cases ha
      exact ⟨hh, .refl _, hacc, fun _ => id⟩
    | cons n ns =>
      obtain ⟨⟨free, h1⟩, hfree, ha⟩ := bind_ok ha
      obtain ⟨hh1, hgrow, hlt⟩ := halloc n h free h1 hh (hns n (mem_cons_self ..)) hfree
      have hns1 : ∀ m ∈ ns, m < h1.next := fun m hm =>
        Nat.lt_of_lt_of_le (hns m (.tail _ hm)) hgrow.next
      have hacc1 : ∀ m ∈ acc.1 ++ acc.2, m < h1.next := fun m hm =>
        Nat.lt_of_lt_of_le (hacc m hm) hgrow.next
      cases free with
      | some m =>
        dsimp only at ha
        split at ha
        · obtain ⟨hh', hgrow', hacc', hsub⟩ := ih hh1 hns1 hacc1 ha
          exact ⟨hh', hgrow.trans hgrow', hacc', hsub⟩
        · have hm : m < h1.next := hlt m rfl
          obtain ⟨hh', hgrow', hacc', hsub⟩ := ih hh1 hns1 (by
            intro k hk
            rw [mem_append, mem_cons, mem_cons] at hk
            rcases hk with (rfl | hk) | (rfl | hk)
            · exact hm
            · exact hacc1 k (mem_append_left _ hk)
            · exact hm
            · exact hacc1 k (mem_append_right _ hk)) ha
          exact ⟨hh', hgrow.trans hgrow', hacc', fun k hk =>
            hsub k (.tail _ hk)⟩
      | none =>
        obtain ⟨⟨acc2, h2⟩, hchildren, ha⟩ := bind_ok ha
        have hn : n < h1.next := Nat.lt_of_lt_of_le (hns n (mem_cons_self ..)) hgrow.next
        obtain ⟨hh2, hgrow2, hacc2, hsub2⟩ := ih hh1 (hh1.out n hn) hacc1 hchildren
        obtain ⟨hh', hgrow', hacc', hsub'⟩ := ih hh2 (fun m hm =>
          Nat.lt_of_lt_of_le (hns1 m hm) hgrow2.next) hacc2 ha
        exact ⟨hh', (hgrow.trans hgrow2).trans hgrow', hacc', fun k hk =>
          hsub' k (hsub2 k hk)⟩

theorem visitAll_spec {n : Node} (hclean : h.Clean) (hv : visitAll fuel n h = .ok h') :
    ∃ F, h' = h.withMarks F ∧
      ∀ m, F (h.rep m) = true ↔ Found h.rep (outs h) (fun _ => True) [n] (h.rep m) := by
  obtain ⟨⟨h1, ⟨⟩⟩, hs, hv⟩ := bind_ok hv
  cases hv
  have hmarks := search_marks_of_clean hs hclean
  obtain ⟨F, rfl, -⟩ := search_eq_ok hs
  exact ⟨F, rfl, hmarks⟩

/-- Flags are unmarked along the edges of the grown target. -/
theorem graftOne_clean (halloc : boundToFree.OnlyAllocates refs) (hh : h.Allocated refs)
    (hclean : h.Clean) (hn : n < h.next) (hm : m < h.next)
    (hg : graftOne boundToFree fuel n m h = .ok (r, h')) :
    h'.Allocated refs ∧ h'.Clean ∧ h.next ≤ h'.next := by
  obtain ⟨h1, hvisit, hg⟩ := bind_ok hg
  obtain ⟨⟨⟨added, total⟩, h2⟩, haccum, hg⟩ := bind_ok hg
  obtain ⟨h3, hunvisit, hg⟩ := bind_ok hg
  cases hg
  obtain ⟨F, rfl, hF⟩ := visitAll_spec hclean hvisit
  obtain ⟨hh2, hgrow, hacc, hsub⟩ := accum_spec halloc (hh.withMarks F) (hh.out n hn)
    (by exact hh.out m hm) haccum
  obtain ⟨G, rfl, hG⟩ := unvisitAll_eq_ok hunvisit
  refine ⟨(hh2.setOutOfNode m fun k hk => hacc k (mem_append_right _ hk)).withMarks G,
    fun k => eq_false_of_ne_true fun hk => ?_, hgrow.next⟩
  have hrep : h2.rep = h.rep := hgrow.rep
  obtain ⟨hmarked, hnot⟩ := (hG _).1 hk
  change (h2.setOutOfNode m total).nodeIsVisited k = true at hmarked
  rw [nodeIsVisited_setOutOfNode] at hmarked
  have hfound : Found h.rep (outs h) (fun _ => True) [m] (h.rep k) := (hF k).1 (hgrow.fresh k hmarked)
  -- every class that `m` reached before is still reached, by the old edges
  have hstill : ∀ c, Found h.rep (outs h) (fun _ => True) [m] c →
      c < h.next ∧ h.rep c = c ∧
        Found h.rep (outs (h2.setOutOfNode m total))
          (fun d => (h2.setOutOfNode m total).marks d = true) [m] c := by
    have hvisited : ∀ k < h.next, Found h.rep (outs h) (fun _ => True) [m] (h.rep k) →
        (h2.setOutOfNode m total).marks (h.rep k) = true := by
      intro k hlt hk
      have hmark : h2.nodeIsVisited k = true := (hgrow.visited k hlt).trans ((hF k).2 hk)
      rw [← nodeIsVisited_setOutOfNode, nodeIsVisited_eq] at hmark
      rw [← hrep]
      exact hmark
    intro c hc
    induction hc with
    | root hroot hp =>
      obtain rfl := mem_singleton.1 hroot
      exact ⟨hh.lt _ hm, h.rep_rep _, .root hroot (hvisited _ hm (.root hroot trivial))⟩
    | step hd hedge hp ih =>
      rename_i d k
      obtain ⟨hlt, hcanon, hd'⟩ := ih
      have hedge' : k ∈ h.outOfNode d := by
        rw [outOfNode, hcanon]
        exact hedge
      have hk := hh.out d hlt k hedge'
      refine ⟨hh.lt _ hk, h.rep_rep _, .step hd' ?_ (hvisited _ hk (.step hd hedge trivial))⟩
      change k ∈ ((h2.setOutOfNode m total).cell d).out
      have hcell : (h2.setOutOfNode m total).outOfNode d =
          ((h2.setOutOfNode m total).cell d).out := by
        change ((h2.setOutOfNode m total).cell (h2.rep d)).out = _
        rw [hrep, hcanon]
      rw [← hcell, outOfNode_setOutOfNode, hrep]
      split
      · rename_i hdm
        refine hsub k ?_
        change k ∈ h.outOfNode m
        rwa [outOfNode, ← hdm]
      · rw [hgrow.out d hlt]
        exact hedge'
  refine hnot ?_
  have hend := (hstill _ hfound).2.2
  have hrep' : (h2.setOutOfNode m total).rep = h.rep := hrep
  rw [← hrep'] at hend
  exact hend

theorem multiGraft_clean {l : List (Node × Node)} {r : List (Node × List Node)}
    (halloc : boundToFree.OnlyAllocates refs) (hh : h.Allocated refs)
    (hclean : h.Clean) (hl : ∀ p ∈ l, p.1 < h.next ∧ p.2 < h.next)
    (hg : multiGraft boundToFree fuel l h = .ok (r, h')) : h'.Clean := by
  induction l generalizing h r with
  | nil =>
    cases hg
    exact hclean
  | cons p l ih =>
    obtain ⟨⟨r1, h1⟩, hone, hg⟩ := bind_ok hg
    obtain ⟨⟨rs, h2⟩, hrest, hg⟩ := bind_ok hg
    cases hg
    have hp := hl p (mem_cons_self ..)
    obtain ⟨hh1, hclean1, hnext⟩ := graftOne_clean halloc hh hclean hp.1 hp.2 hone
    refine ih hh1 hclean1 (fun q hq => ?_) hrest
    have hq := hl q (.tail _ hq)
    exact ⟨Nat.lt_of_lt_of_le hq.1 hnext, Nat.lt_of_lt_of_le hq.2 hnext⟩

end Graft

end MLKit.DiGraph
