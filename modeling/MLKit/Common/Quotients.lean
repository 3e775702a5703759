import MLKit.Common.Components

/-!
# Quotients

Merging components keeps a closed graph closed, so `remove_cycles` unmarks
everything that it marked.
-/

namespace MLKit.DiGraph

open MLKit.Lib Heap Function List

variable {ι ρ : Type} {h h' : Heap ι ρ}

/-! ## Removing cycles -/

variable {r xs l ns : List Node} {n m x n' : Node} {h1 h2 h3 : Heap ι ρ}
  {infoCombine : Combine ι ρ ι} {gs : List (List Node)} {fuel : Nat}

theorem doChildren_spec (hd : doChildren xs h = (r, h')) :
    ∃ F, h' = h.withMarks F ∧ (∀ c, F c = true → h.marks c = true ∨ c ∈ xs.map h.rep) ∧
      ∀ m ∈ r, m ∈ xs := by
  induction xs generalizing h r with
  | nil =>
    cases hd
    exact ⟨_, rfl, fun c => .inl, fun m hm => hm⟩
  | cons n xs ih =>
    rw [doChildren] at hd
    split at hd
    · obtain ⟨F, rfl, hF, hr⟩ := ih hd
      refine ⟨F, rfl, fun c hc => ?_, fun m hm => .tail _ (hr m hm)⟩
      exact (hF c hc).imp id fun hc => .tail _ hc
    · rcases hrec : doChildren xs (h.setVisited n true) with ⟨r1, h1⟩
      rw [hrec] at hd
      cases hd
      rw [setVisited_eq] at hrec
      obtain ⟨F, rfl, hF, hr⟩ := ih hrec
      refine ⟨F, rfl, fun c hc => ?_, fun m hm => ?_⟩
      · rcases hF c hc with hmark | hmark
        · by_cases hcn : c = h.rep n
          · exact .inr (hcn ▸ mem_cons_self ..)
          · rw [withMarks_marks, update_of_ne hcn] at hmark
            exact .inl hmark
        · exact .inr (.tail _ hmark)
      · rcases mem_cons.1 hm with rfl | hm
        · exact .head _ ..
        · exact .tail _ (hr m hm)

theorem outOfNode_setOutOfNode (n m : Node) (l : List Node) :
    (h.setOutOfNode n l).outOfNode m = if h.rep m = h.rep n then l else h.outOfNode m :=
  cell_setNode GraphNode.out n m _

theorem nodeIsVisited_setOutOfNode : (h.setOutOfNode n l).nodeIsVisited m = h.nodeIsVisited m :=
  cell_setNode_of_eq GraphNode.visited m rfl

/-- Between two nodes of `remove_cycles`: only listed nodes are marked. -/
structure CycleInv (h₀ : Heap ι ρ) (g : List Node) (h : Heap ι ρ) : Prop where
  rep : h.rep = h₀.rep
  closed : ∀ n, h₀.Lists g n → ∀ m ∈ h.outOfNode n, h₀.Lists g m
  visited : ∀ n, h.nodeIsVisited n = true → h₀.Lists g n

variable {h₀ : Heap ι ρ} {g : List Node}

theorem CycleInv.doNode (hinv : CycleInv h₀ g h) (hx : x ∈ g) : CycleInv h₀ g (doNode x h) := by
  have hrep := hinv.rep
  have hx' : h₀.Lists g x := lists_of_mem hx
  have hchildren := hinv.closed x hx'
  rcases hd : doChildren (h.outOfNode x) ((h.unvisit (h.outOfNode x)).setVisited x true)
    with ⟨r, h1⟩
  have hnode : DiGraph.doNode x h = h1.setOutOfNode x r := by
    rw [DiGraph.doNode]
    rw [hd]
  rw [setVisited_eq, unvisit_eq] at hd
  obtain ⟨F, rfl, hF, hr⟩ := doChildren_spec hd
  rw [hnode]
  refine ⟨hrep, fun n hn m hm => ?_, fun n hn => ?_⟩
  · rw [outOfNode_setOutOfNode] at hm
    split at hm
    · exact hchildren m (hr m hm)
    · exact hinv.closed n hn m hm
  · rw [nodeIsVisited_setOutOfNode, nodeIsVisited_eq] at hn
    rcases hF _ hn with hmark | hmark
    · simp only [withMarks_rep, withMarks_marks] at hmark
      by_cases hnx : h.rep n = h.rep x
      · rw [hrep] at hnx
        exact hx'.of_rep_eq hnx.symm
      · rw [update_of_ne hnx] at hmark
        split at hmark
        · cases hmark
        · exact hinv.visited n hmark
    · obtain ⟨m, hm, hmn⟩ := mem_map.1 hmark
      simp only [withMarks_rep, hrep] at hmn
      exact (hchildren m hm).of_rep_eq hmn

theorem removeCycles_clean (hclosed : h.Closed g) (hclean : h.Clean) :
    (removeCycles g h).Clean := by
  have hinv : CycleInv h g h := ⟨rfl, hclosed, fun n hn => absurd (hclean n) (by simp [hn])⟩
  have hrun : ∀ (l : List Node) (h1 : Heap ι ρ), (∀ x ∈ l, x ∈ g) → CycleInv h g h1 →
      CycleInv h g (l.foldl (fun h x => doNode x h) h1) := by
    intro l
    induction l with
    | nil => exact fun h1 _ hinv => hinv
    | cons x l ih =>
      intro h1 hl hinv
      exact ih _ (fun y hy => hl y (.tail _ hy)) (hinv.doNode (hl x (mem_cons_self ..)))
  have hend := hrun g h (fun _ => id) hinv
  intro n
  refine eq_false_of_ne_true fun hn => ?_
  rw [removeCycles, nodeIsVisited_unvisit, Heap.Lists, hend.rep] at hn
  exact hn.2 (hend.visited n hn.1)

/-! ## Merging components -/

/-- Classes have been merged inside `G` only, and their out-edges joined. -/
structure Coarser (G : Node → Prop) (h h' : Heap ι ρ) : Prop where
  rep : ∀ a b, h.rep a = h.rep b → h'.rep a = h'.rep b
  inside : ∀ a b, h'.rep a = h'.rep b → h.rep a = h.rep b ∨ (G a ∧ G b)
  out : ∀ x m, m ∈ h'.outOfNode x → ∃ y, h'.rep y = h'.rep x ∧ m ∈ h.outOfNode y

/-- `G` is a set of whole classes. -/
def Saturated (G : Node → Prop) (h : Heap ι ρ) : Prop := ∀ a b, h.rep a = h.rep b → G a → G b

theorem Coarser.refl (G : Node → Prop) (h : Heap ι ρ) : Coarser G h h :=
  ⟨fun _ _ => id, fun _ _ => .inl, fun x _ hm => ⟨x, rfl, hm⟩⟩

variable {G : Node → Prop}

theorem Coarser.trans (h12 : Coarser G h1 h2) (h23 : Coarser G h2 h3) : Coarser G h1 h3 where
  rep := fun a b hab => h23.rep a b (h12.rep a b hab)
  inside := fun a b hab => (h23.inside a b hab).elim (h12.inside a b) .inr
  out := by
    intro x m hm
    obtain ⟨y, hyx, hm⟩ := h23.out x m hm
    obtain ⟨z, hzy, hm⟩ := h12.out y m hm
    exact ⟨z, (h23.rep z y hzy).trans hyx, hm⟩

theorem Coarser.saturated (hc : Coarser G h h') (hsat : Saturated G h) : Saturated G h' := by
  intro a b hab ha
  rcases hc.inside a b hab with hab | hab
  · exact hsat a b hab ha
  · exact hab.2

section UnionGraph

theorem union_coarser (hpure : infoCombine.Pure) (hu : union infoCombine n n' h = .ok (m, h'))
    (hsat : Saturated G h) (hn : G n) (hn' : G n') :
    Coarser G h h' ∧ G m ∧ h'.rep n = h'.rep m ∧ h'.rep n' = h'.rep m := by
  obtain ⟨h1, g, h1eq, hm, hout, -⟩ := union_merged hpure hu
  have hG : ∀ a, h'.rep a = m → G a := by
    intro a ha
    rcases (hm.rep_eq_iff a).1 ha with ha | ha
    · exact hsat n a ha.symm hn
    · exact hsat n' a ha.symm hn'
  have hself : h'.rep m = m := by
    refine (hm.rep_eq_iff m).2 ?_
    rcases hm.side with rfl | rfl
    · exact .inl (h.rep_rep n)
    · exact .inr (h.rep_rep n')
  refine ⟨⟨fun a b => hm.rep_eq_of_eq, fun a b hab => ?_, fun x k hk => ?_⟩, hG m hself,
    ((hm.rep_eq_iff n).2 (.inl rfl)).trans hself.symm,
    ((hm.rep_eq_iff n').2 (.inr rfl)).trans hself.symm⟩
  · by_cases ha : h'.rep a = m
    · exact .inr ⟨hG a ha, hG b (hab ▸ ha)⟩
    · left
      rw [← hm.rep_of_ne ha, ← hm.rep_of_ne (hab ▸ ha), hab]
  · by_cases hx : h'.rep x = m
    · rw [outOfNode, hx, hm.cell_self, hout, mem_append] at hk
      rcases hk with hk | hk
      · exact ⟨n, ((hm.rep_eq_iff n).2 (.inl rfl)).trans hx.symm, hk⟩
      · exact ⟨n', ((hm.rep_eq_iff n').2 (.inr rfl)).trans hx.symm, hk⟩
    · rw [outOfNode, hm.cell_of_ne _ hx, hm.rep_of_ne hx, h1eq.cell] at hk
      exact ⟨x, rfl, hk⟩

theorem foldlM_union {p r : Node × Heap ι ρ} (hpure : infoCombine.Pure)
    (hf : l.foldlM (fun (p : Node × Heap ι ρ) m => union infoCombine m p.1 p.2) p = .ok r)
    (hsat : Saturated G p.2) (hp : G p.1) (hl : ∀ m ∈ l, G m) :
    Coarser G p.2 r.2 ∧ G r.1 ∧ (∀ b ∈ p.1 :: l, r.2.rep b = r.2.rep r.1) ∧
      (p.2.Clean → r.2.Clean) := by
  induction l generalizing p with
  | nil =>
    cases hf
    exact ⟨.refl G _, hp, by simp, id⟩
  | cons m l ih =>
    obtain ⟨p1, hu, hf⟩ := bind_ok hf
    have hm := hl m (mem_cons_self ..)
    obtain ⟨hc, hp1, hrepm, hrepp⟩ := union_coarser hpure hu hsat hm hp
    obtain ⟨hc', hr, hrep, hclean⟩ := ih hf (hc.saturated hsat) hp1 fun k hk => hl k (.tail _ hk)
    have hfirst := hrep p1.1 (mem_cons_self ..)
    refine ⟨hc.trans hc', hr, ?_, fun hcl => hclean (union_clean hpure hu hcl)⟩
    intro b hb
    rcases mem_cons.1 hb with rfl | hb
    · exact (hc'.rep _ _ hrepp).trans hfirst
    · rcases mem_cons.1 hb with rfl | hb
      · exact (hc'.rep _ _ hrepm).trans hfirst
      · exact hrep b (.tail _ hb)

theorem unionGraphs_spec (hpure : infoCombine.Pure)
    (hu : unionGraphs infoCombine gs h = .ok (ns, h')) (hsat : Saturated G h)
    (hgs : ∀ n ∈ gs.flatten, G n) :
    Coarser G h h' ∧ (∀ n ∈ ns, G n) ∧
      (∀ b ∈ gs.flatten, ∃ n ∈ ns, h'.rep b = h'.rep n) ∧ (h.Clean → h'.Clean) := by
  induction gs generalizing h ns with
  | nil =>
    cases hu
    exact ⟨.refl G _, by simp, by simp, id⟩
  | cons g gs ih =>
    obtain ⟨⟨n, h1⟩, hfirst, hu⟩ := bind_ok hu
    obtain ⟨⟨ns1, h2⟩, hrest, hu⟩ := bind_ok hu
    cases hu
    cases g with
    | nil => cases hfirst
    | cons x l =>
      have hx : ∀ b ∈ x :: l, G b := fun b hb =>
        hgs b (mem_flatten.2 ⟨_, mem_cons_self .., hb⟩)
      obtain ⟨hc, hn, hrep, hclean⟩ := foldlM_union hpure hfirst hsat
        (hx x (mem_cons_self ..)) fun m hm => hx m (.tail _ hm)
      obtain ⟨hc', hns, hcover, hclean'⟩ := ih hrest (hc.saturated hsat) fun b hb =>
        hgs b (mem_append_right _ hb)
      refine ⟨hc.trans hc', ?_, ?_, fun hcl => hclean' (hclean hcl)⟩
      · exact forall_mem_cons.2 ⟨hn, hns⟩
      · intro b hb
        rw [flatten_cons, mem_append] at hb
        rcases hb with hb | hb
        · exact ⟨n, mem_cons_self .., hc'.rep _ _ (hrep b hb)⟩
        · obtain ⟨m, hm, hbm⟩ := hcover b hb
          exact ⟨m, .tail _ hm, hbm⟩

end UnionGraph

/-- The flags are clean after a quotient of a closed graph. -/
theorem quotient_clean (hpure : infoCombine.Pure)
    (hclosed : h.Closed g) (hclean : h.Clean) (hq : quotient fuel infoCombine g h = .ok (r, h')) :
    h'.Clean := by
  obtain ⟨⟨sccs, h1⟩, hs, hq⟩ := bind_ok hq
  obtain ⟨⟨ns, h2⟩, hu, hq⟩ := bind_ok hq
  cases hq
  obtain ⟨hframe, hclean1, hlisted⟩ := scc_spec hclosed hclean hs
  have hsat : Saturated (h.Lists g) h1 := by
    intro a b hab ha
    rw [hframe.rep] at hab
    exact ha.of_rep_eq hab
  obtain ⟨hc, hns, hcover, hclean2⟩ := unionGraphs_spec hpure hu hsat fun n hn =>
    (hlisted n).1 (lists_of_mem hn)
  refine removeCycles_clean ?_ (hclean2 hclean1)
  intro n hn m hm
  obtain ⟨x, hx, hxn⟩ := mem_map.1 hn
  obtain ⟨y, hyn, hm⟩ := hc.out n m hm
  have hy : h.Lists g y := (hc.saturated hsat) x y (hxn.trans hyn.symm) (hns x hx)
  rw [hframe.out] at hm
  obtain ⟨b, hb, hbm⟩ := mem_map.1 ((hlisted m).2 (hclosed y hy m hm))
  obtain ⟨k, hk, hbk⟩ := hcover b hb
  rw [← hframe.rep] at hbm
  exact mem_map.2 ⟨k, hk, hbk.symm.trans (hc.rep b m hbm)⟩

/-- What is reachable from a list of nodes is a closed graph. -/
theorem subgraph_closed (hclean : h.Clean) (hs : subgraph fuel l h = .ok (r, h')) : h.Closed r := by
  intro n hn m hm
  rw [Heap.Lists, mem_subgraph hs] at hn ⊢
  exact .step hn hm (hclean.marks_ne m)

end MLKit.DiGraph
