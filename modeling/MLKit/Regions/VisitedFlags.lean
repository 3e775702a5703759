import MLKit.Regions.EffectMarks

/-!
# Flags between operations

`DiGraph` demands that no node is marked in between its operations.  For each
operation on effects it is settled here when that is so after it: always, for
most of them; `sameLists`, `computeIncrement` and the functions that call them
can leave nodes marked, exactly under the conditions stated.
-/

namespace MLKit.Effect

open MLKit.Lib MLKit.DiGraph MLKit.DiGraph.Heap

/-! ## Observing -/

variable {A : Type*} {l fuel : Nat} {h h' : EHeap} {c destination n₁ n₂ m winner loser : Node}
  {source new : DeltaPhi} {r : List Node × DeltaPhi} {infoCombine : Combine EInfo Globals EInfo}
  {visitChildren : EInfo → Bool} {r' : Rho} {i : EInfo}
  {mkAtomic : EHeap → Node → Except Stop (Node × EHeap)} {message : String}

theorem mem_outs_of_mem_collectSucc (m : Node) (hm : m ∈ collectSucc l h c) : m ∈ outs h c := by
  unfold collectSucc at hm
  split at hm
  · exact hm
  · split at hm
    · cases hm
    · exact hm
  · cases hm

theorem observeDelta_clean (hclean : h.Clean)
    (ho : observeDelta fuel l source destination h = .ok (r, h')) : h'.Clean := by
  obtain ⟨h₁, hvisit, ho⟩ := bind_ok ho
  obtain ⟨⟨h2, toAdd, rAcc⟩, hs, ho⟩ := bind_ok ho
  obtain ⟨h3, hu1, ho⟩ := bind_ok ho
  obtain ⟨h4, hu2, ho⟩ := bind_ok ho
  cases ho
  obtain ⟨F, rfl, hF⟩ := visitAll_spec hclean hvisit
  have hG := search_marks hs
  obtain ⟨G, rfl, -⟩ := search_eq_ok hs
  obtain ⟨K, rfl, hK⟩ := unvisitAll_eq_ok hu1
  obtain ⟨L, rfl, hL⟩ := unvisitAll_eq_ok hu2
  rw [clean_addEdges_iff]
  intro n
  refine eq_false_of_ne_true fun hn => ?_
  obtain ⟨hKn, hnot⟩ := (hL _).1 hn
  obtain ⟨hGn, hnotDest⟩ := (hK _).1 hKn
  rcases (hG _).1 hGn with hFn | hfound
  · -- marked from the destination, and still reached from there by marked classes
    exact hnotDest (((hF n).1 hFn).inside (fun _ _ => id) fun m hm => (hG _).2 (.inl ((hF m).2 hm)))
  · -- marked from the source: the path to it is still marked
    refine hnot (hfound.inside (fun _ => mem_outs_of_mem_collectSucc) fun m hm => ?_)
    refine (hK _).2 ⟨(hG _).2 (.inr hm), fun hdest => hm.holds ?_⟩
    exact (hF m).2 (hdest.mono (fun _ => id) fun _ _ => trivial)

/-! ## Contracting and merging -/

theorem einfoSccCombine_pure : einfoSccCombine.Pure := by
  intro a b h r h' hr
  unfold einfoSccCombine at hr
  split at hr <;> cases hr <;> rfl

theorem contractEffects_clean {l : List Node} {r : List Node}
    (hclean : h.Clean) (hc : contractEffects fuel l h = .ok (r, h')) :
    h'.Clean := by
  obtain ⟨⟨sg, h₁⟩, hs, hq⟩ := bind_ok hc
  have hclosed := subgraph_closed hclean hs
  obtain rfl := subgraph_heap hs
  exact quotient_clean einfoSccCombine_pure hclosed hclean hq

/-- Combining the information of two nodes leaves a class marked, the class of
the first node apart. -/
def CombineLeaves (infoCombine : Combine EInfo Globals EInfo) (n₁ n₂ : Node) (h : EHeap) : Prop :=
  ∃ i h₁, infoCombine (h.findInfo n₁) (h.findInfo n₂) (h.ranked n₁ n₂) = .ok (i, h₁) ∧
    ∃ x, h.rep x ≠ h.rep n₁ ∧ h₁.nodeIsVisited x = true

/-- A union leaves marked what combining the information leaves marked; the flag
of the first node is lost with its graph node. -/
theorem unionWithoutEdgeDuplication_clean_iff {h : Heap EInfo Globals} {h' : Heap EInfo Globals}
    (hrep : ∀ i i' h₀ r h₁, infoCombine i i' h₀ = .ok (r, h₁) → h₁.rep = h₀.rep)
    (hu : unionWithoutEdgeDuplication fuel infoCombine visitChildren n₁ n₂ h = .ok (m, h')) :
    h'.Clean ↔ ¬ CombineLeaves infoCombine n₁ n₂ h := by
  obtain ⟨h₁, g, hi, hrep1, hm, hvisited⟩ := unionWithoutEdgeDuplication_merged hrep hu
  rw [hm.clean_iff hrep1 hvisited]
  constructor
  · rintro hother ⟨i, h2, hi2, x, hx, hmark⟩
    rw [hi] at hi2
    cases hi2
    rw [hother x hx] at hmark
    cases hmark
  · intro hnot x hx
    exact eq_false_of_ne_true fun hmark => hnot ⟨_, h₁, hi, x, hx, hmark⟩

/-! ## Grafting -/

/-- The nodes that the information of a node points to. -/
def EInfo.refs : EInfo → List Node
  | .eps _ _ inst => inst.toList
  | .rho r => r.put.toList ++ r.get.toList ++ r.inst.toList
  | _ => []

/-! ## All operations -/

/-- The operations that are to leave the flags clean, with their arguments. -/
inductive Op where
  | subgraph (l : List Node)
  | topsort (l : List Node)
  | scc (g : List Node)
  | quotient (infoCombine : Combine EInfo Globals EInfo) (g : List Node)
  | removeCycles (g : List Node)
  | multiGraft (boundToFree : BoundToFree EInfo Globals) (l : List (Node × Node))
  | unionWithoutEdgeDuplication (infoCombine : Combine EInfo Globals EInfo)
      (visitChildren : EInfo → Bool) (n₁ n₂ : Node)
  | setminus (l₁ l₂ : List Node)
  | removeDuplicates (l : List Node)
  | observeDelta (l : Nat) (source : DeltaPhi) (destination : Node)
  | computeIncrement (delta : DeltaPhi)
  | updateAreff (n : Node)
  | sameLists (l₁ l₂ : List Node)
  | sameEffect (n₁ n₂ : Node)
  | contractEffects (l : List Node)

/-- The heap after an operation. -/
def Op.run (fuel : Nat) (h : EHeap) : Op → Except Stop EHeap
  | .subgraph l => (DiGraph.subgraph fuel l h).map Prod.snd
  | .topsort l => (DiGraph.topsort fuel l h).map Prod.snd
  | .scc g => (DiGraph.scc fuel g h).map Prod.snd
  | .quotient infoCombine g => (DiGraph.quotient fuel infoCombine g h).map Prod.snd
  | .removeCycles g => .ok (DiGraph.removeCycles g h)
  | .multiGraft boundToFree l => (DiGraph.multiGraft boundToFree fuel l h).map Prod.snd
  | .unionWithoutEdgeDuplication infoCombine visitChildren n₁ n₂ =>
    (DiGraph.unionWithoutEdgeDuplication fuel infoCombine visitChildren n₁ n₂ h).map Prod.snd
  | .setminus l₁ l₂ => .ok (Effect.setminus l₁ l₂ h).2
  | .removeDuplicates l => (Effect.removeDuplicates h fuel l).map Prod.snd
  | .observeDelta l source destination =>
    (Effect.observeDelta fuel l source destination h).map Prod.snd
  | .computeIncrement delta => (Effect.computeIncrement fuel delta h).map Prod.snd
  | .updateAreff n => Effect.updateAreff fuel n h
  | .sameLists l₁ l₂ => .ok (Effect.sameLists l₁ l₂ h).2
  | .sameEffect n₁ n₂ => (Effect.sameEffect fuel n₁ n₂ h).map Prod.snd
  | .contractEffects l => (Effect.contractEffects fuel l h).map Prod.snd

/-- What the signatures demand of arguments: graphs are closed lists of nodes,
nodes that are passed exist, and the functions that are passed do what they are for:
merging the information of two components looks at the information only, merging
the information of two nodes merges no other nodes, and mapping bound nodes to
free nodes does nothing but allocate. -/
def Op.Admissible (h : EHeap) : Op → Prop
  | .scc g => h.Closed g
  | .quotient infoCombine g => infoCombine.Pure ∧ h.Closed g
  | .removeCycles g => h.Closed g
  | .multiGraft boundToFree l => boundToFree.OnlyAllocates EInfo.refs ∧
      h.Allocated EInfo.refs ∧ ∀ p ∈ l, p.1 < h.next ∧ p.2 < h.next
  | .unionWithoutEdgeDuplication infoCombine _ _ _ =>
    ∀ i i' h₀ r h₁, infoCombine i i' h₀ = .ok (r, h₁) → h₁.rep = h₀.rep
  | _ => True

/-! ## The functions that `Effect` passes -/

variable {n : Node}

/-- A PUT or GET node for a region variable, which is told of it. -/
theorem atomic_allocated {r : Rho} {n : Nat}
    {h : EHeap} (halloc : h.Allocated EInfo.refs) (hn : n < h.next)
    (hinfo : h.findInfo n = .rho r) (hi : i.refs = [])
    (hr : ∀ m ∈ (EInfo.rho r').refs, m = h.next ∨ m ∈ (EInfo.rho r).refs) :
    let h' := ((h.mkNode i).2.setInfo n (.rho r')).mkEdge h.next n
    h'.Allocated EInfo.refs ∧ Grows h h' ∧ h.next < h'.next := by
  obtain ⟨halloc1, hgrows1⟩ := halloc.mkNode hi
  have hrefs : ∀ m ∈ (EInfo.rho r').refs, m < h.next + 1 := by
    intro m hm
    rcases hr m hm with rfl | hm
    · exact Nat.lt_succ_self _
    · exact Nat.lt_succ_of_lt (halloc.info n hn m (hinfo ▸ hm))
  obtain ⟨halloc2, hgrows2⟩ := halloc1.setInfo n hrefs
  refine ⟨halloc2.setOutOfNode _ fun m hm => ?_,
    (hgrows1.trans hgrows2).setOutOfNode (Nat.le_refl _) halloc _, Nat.lt_succ_self _⟩
  rcases List.mem_cons.1 hm with rfl | hm
  · exact Nat.lt_succ_of_lt hn
  · exact halloc2.out _ (Nat.lt_succ_self _) m hm

/-- What `mkPut` and `mkGet` do to the graph. -/
def Attaches (mkAtomic : EHeap → Node → Except Stop (Node × EHeap)) : Prop :=
  ∀ h n m h', h.Allocated EInfo.refs → n < h.next → mkAtomic h n = .ok (m, h') →
    h'.Allocated EInfo.refs ∧ Grows h h' ∧ m < h'.next

theorem mkPut_attaches : Attaches mkPut := by
  intro h n m h' halloc hn hmk
  unfold mkPut at hmk
  split at hmk
  · rename_i r hinfo
    split at hmk
    · rename_i hput
      cases hmk
      exact ⟨halloc, .refl _, halloc.info n hn _ (by simp [hinfo, EInfo.refs, hput])⟩
    · cases hmk
      refine atomic_allocated halloc hn hinfo rfl fun k hk => ?_
      simp only [EInfo.refs, Option.toList_some, List.mem_append, List.mem_singleton] at hk ⊢
      tauto
  · cases hmk

theorem mkGet_attaches : Attaches mkGet := by
  intro h n m h' halloc hn hmk
  unfold mkGet at hmk
  split at hmk
  · rename_i r hinfo
    split at hmk
    · rename_i hget
      cases hmk
      exact ⟨halloc, .refl _, halloc.info n hn _ (by simp [hinfo, EInfo.refs, hget])⟩
    · cases hmk
      refine atomic_allocated halloc hn hinfo rfl fun k hk => ?_
      simp only [EInfo.refs, Option.toList_some, List.mem_append, List.mem_singleton] at hk ⊢
      tauto
  · cases hmk

theorem boundAtomic_allocates {r : Option Node}
    (hmk : Attaches mkAtomic) (halloc : h.Allocated EInfo.refs)
    (hn : n < h.next) (hb : boundAtomic mkAtomic message n h = .ok (r, h')) :
    h'.Allocated EInfo.refs ∧ Grows h h' ∧ ∀ m ∈ r, m < h'.next := by
  unfold boundAtomic at hb
  split at hb
  · rename_i rho _ hout
    have hrho : rho < h.next := halloc.out n hn rho (hout ▸ List.mem_cons_self ..)
    obtain ⟨inst, hinst, hb⟩ := bind_ok hb
    cases inst with
    | none =>
      cases hb
      exact ⟨halloc, .refl _, fun m hm => Option.some.inj hm ▸ hn⟩
    | some n' =>
      obtain ⟨⟨m, h₁⟩, hm, hb⟩ := bind_ok hb
      cases hb
      have hn' : n' < h.next := by
        refine halloc.info rho hrho n' ?_
        unfold getInstance at hinst
        split at hinst
        · rename_i hinfo
          injection hinst with hinst
          simp [EInfo.refs, hinfo, hinst]
        · rename_i hinfo
          injection hinst with hinst
          simp [EInfo.refs, hinfo, hinst]
        · cases hinst
      obtain ⟨halloc', hgrows, hlt⟩ := hmk h n' m _ halloc hn' hm
      exact ⟨halloc', hgrows, fun k hk => Option.some.inj hk ▸ hlt⟩
  · cases hb

/-- Instantiation maps bound nodes to free nodes as `multi_graft` demands. -/
theorem boundToFree_onlyAllocates : boundToFree.OnlyAllocates EInfo.refs := by
  intro n h r h' halloc hn hb
  unfold boundToFree at hb
  split at hb
  · exact boundAtomic_allocates mkPut_attaches halloc hn hb
  · exact boundAtomic_allocates mkGet_attaches halloc hn hb
  · cases hb
    exact ⟨halloc, .refl _, nofun⟩
  · cases hb
    exact ⟨halloc, .refl _, fun m hm => Option.some.inj hm ▸ hn⟩
  · rename_i n' hinfo
    cases hb
    have hn' : n' < h.next := halloc.info n hn n' (by simp [hinfo, EInfo.refs])
    exact ⟨halloc, .refl _, fun m hm => Option.some.inj hm ▸ hn'⟩
  · cases hb
    exact ⟨halloc, .refl _, fun m hm => Option.some.inj hm ▸ hn⟩
  · cases hb

theorem updateAreff_rep (hu : updateAreff fuel n h = .ok h') : h'.rep = h.rep := by
  unfold updateAreff at hu
  split at hu
  · split at hu
    · obtain ⟨⟨nodes, h₁⟩, hc, hu⟩ := bind_ok hu
      obtain ⟨⟨below, h₂⟩, hs, hu⟩ := bind_ok hu
      cases hu
      obtain ⟨⟨h₃, ns⟩, hsearch, hc⟩ := bind_ok hc
      obtain ⟨h₄, hunvisit, hc⟩ := bind_ok hc
      cases hc
      obtain ⟨F, rfl, -⟩ := search_eq_ok hsearch
      obtain ⟨G, rfl, -⟩ := unvisitAll_eq_ok hunvisit
      obtain rfl := subgraph_heap hs
      change (((h.withMarks F).withMarks G).visit below |>.unvisit below).rep = h.rep
      rw [unvisit_eq, visit_eq]
      rfl
    · cases hu
      rfl
  · cases hu
    rfl

theorem updateIncrement_rep (hu : updateIncrement fuel n new h = .ok h') : h'.rep = h.rep := by
  unfold updateIncrement at hu
  split at hu
  · cases hu
    rfl
  · split at hu
    · split at hu
      · obtain ⟨⟨sum, h₁⟩, hd, hu⟩ := bind_ok hu
        cases hu
        obtain ⟨⟨h₂, ns⟩, hsearch, hd⟩ := bind_ok hd
        cases hd
        obtain ⟨F, rfl, -⟩ := search_eq_ok hsearch
        rw [unvisit_eq]
        rfl
      · cases hu
        rfl
    · cases hu
      rfl

theorem moveIncr_rep (hm : moveIncr fuel winner loser h = .ok h') : h'.rep = h.rep := by
  unfold moveIncr at hm
  split at hm
  · obtain ⟨delta, -, hm⟩ := bind_ok hm
    cases delta with
    | none =>
      cases hm
      rfl
    | some delta =>
      obtain ⟨h₁, hincr, hm⟩ := bind_ok hm
      obtain ⟨h₂, hareff, hm⟩ := bind_ok hm
      obtain ⟨key, -, hm⟩ := bind_ok hm
      have hrep := (updateAreff_rep hareff).trans (updateIncrement_rep hincr)
      split at hm <;> cases hm
      exact hrep
  · cases hm
    rfl

/-- Combining two effect variables merges no nodes, as their union demands. -/
theorem einfoCombineEps_admissible (fuel : Nat) (eps₁ eps₂ : Node) (h : EHeap) :
    (Op.unionWithoutEdgeDuplication (einfoCombineEps fuel eps₁ eps₂) isUnion eps₁ eps₂).Admissible
      h := by
  intro i i' h₀ r h₁ hr
  unfold einfoCombineEps at hr
  split at hr
  · split at hr
    · cases hr
    · split at hr
      all_goals
        obtain ⟨h₂, hm, hr⟩ := bind_ok hr
        cases hr
        exact moveIncr_rep hm
  · cases hr

/-! ## After an operation -/

/-- When an operation leaves the flags clean. -/
def Op.LeavesClean (h : EHeap) : Op → Prop
  | .unionWithoutEdgeDuplication infoCombine _ n₁ n₂ => ¬ CombineLeaves infoCombine n₁ n₂ h
  | .computeIncrement delta => ∀ n, Searched h delta (h.rep n) → Unsearched h delta (h.rep n)
  | .updateAreff n => ¬ Leaves h n
  | .sameLists l₁ l₂ => Covers h l₂ l₁ ∨ (Covers h l₁ l₂ ∧ (l₂.map h.rep).Nodup)
  | .sameEffect n₁ n₂ => (∀ c, PutsAndGets h n₁ c → PutsAndGets h n₂ c) ∨
      (∀ c, PutsAndGets h n₂ c → PutsAndGets h n₁ c)
  | _ => True

theorem exceptMap_snd_eq_ok {x : Except Stop (A × EHeap)} (hx : x.map Prod.snd = .ok h') :
    ∃ a, x = .ok (a, h') := by
  cases x with
  | error e => cases hx
  | ok p =>
    cases hx
    exact ⟨p.1, rfl⟩

/-- For every graph without marks, and every admissible operation that returns:
no node is marked afterwards exactly if the condition of the operation holds. -/
theorem flags_clean_after_iff (fuel : Nat) (op : Op) (h h' : EHeap) (hclean : h.Clean)
    (hop : op.Admissible h) (hrun : op.run fuel h = .ok h') : h'.Clean ↔ op.LeavesClean h := by
  -- most operations return a result beside the graph
  cases op with
    (try (replace hrun := exceptMap_snd_eq_ok hrun; obtain ⟨r, hrun⟩ := hrun))
  | subgraph l =>
    obtain rfl := subgraph_heap hrun
    exact iff_true_intro hclean
  | topsort l =>
    obtain rfl := topsort_heap hrun
    exact iff_true_intro hclean
  | scc g => exact iff_true_intro (scc_spec hop hclean hrun).2.1
  | quotient infoCombine g => exact iff_true_intro (quotient_clean hop.1 hop.2 hclean hrun)
  | removeCycles g =>
    cases hrun
    exact iff_true_intro (removeCycles_clean hop hclean)
  | multiGraft boundToFree l =>
    exact iff_true_intro (multiGraft_clean hop.1 hop.2.1 hclean hop.2.2 hrun)
  | unionWithoutEdgeDuplication infoCombine visitChildren n₁ n₂ =>
    exact unionWithoutEdgeDuplication_clean_iff hop hrun
  | setminus l₁ l₂ =>
    cases hrun
    refine iff_true_intro ?_
    rw [setminus_heap, clean_withMarks_iff]
    intro n
    split
    · rfl
    · exact hclean n
  | removeDuplicates l =>
    obtain rfl := removeDuplicates_heap hrun
    exact iff_true_intro hclean
  | observeDelta l source destination => exact iff_true_intro (observeDelta_clean hclean hrun)
  | computeIncrement delta => exact computeIncrement_clean_iff hclean hrun
  | updateAreff n => exact updateAreff_clean_iff hclean hrun
  | sameLists l₁ l₂ =>
    cases hrun
    exact sameLists_clean_iff hclean
  | sameEffect n₁ n₂ => exact sameEffect_clean_iff hclean hrun
  | contractEffects l => exact iff_true_intro (contractEffects_clean hclean hrun)

/-- A region variable with its PUT and GET nodes, and four effect variables: the
first has the PUT node, the second the GET node, and the third, which has no edges,
has the fourth as its recorded increment. -/
def twoEffects : EHeap where
  next := 7
  rep := fun n => n
  rep_rep := fun _ => rfl
  rank := fun _ => 0
  cell := fun c =>
    { info := match c with
        | 0 => .rho ⟨some 1, some 2, 1, none⟩
        | 1 => .put
        | 2 => .get
        | c => .eps (c - 1) 1 none
      visited := false
      dfNum := 0
      out := match c with
        | 1 => [0]
        | 2 => [0]
        | 3 => [1]
        | 4 => [2]
        | _ => [] }
  globals :=
    { globalIncs := fun key => if key = 4 then some (.lf [6]) else none
      algorithmR := true }

theorem sameLists_permuted_clean_iff :
    (sameLists [1, 2] [2, 1] twoEffects).2.Clean ↔
      (Op.sameLists [1, 2] [2, 1]).LeavesClean twoEffects :=
  flags_clean_after_iff 0 (.sameLists [1, 2] [2, 1]) twoEffects _ (fun _ => rfl) trivial rfl

/-- Comparing different effects, and following a recorded increment, leave nodes marked. -/
theorem flags_left_marked :
    twoEffects.Clean ∧
      ((Op.sameEffect 3 4).run 20 twoEffects).map (fun h => h.nodeIsVisited 1) = .ok true ∧
      ((Op.computeIncrement (.lf [5])).run 20 twoEffects).map (fun h => h.nodeIsVisited 6) =
        .ok true :=
  ⟨fun _ => rfl, rfl, rfl⟩

end MLKit.Effect
