import MLKit.Runtime.ParSteps

/-!
# Pages and large objects change hands

The steps of the thread that holds the lock: pages go from `malloc` to the free
list, to the list of the thread, and to the end of the list of a generation, and
large objects go to the list of their region.
-/

namespace MLKit.Runtime.Par

open MLKit.Lib Function List Option Nat

variable {Tid Gen : Type} {s : State Tid Gen}
  {L : Layout Tid Gen}
  {t t' : Tid} {pc pc' : Pc Gen} {g g' : Gen} {n np p0 sb q : Nat}
  {x y : Place Tid Gen} {s' : State Tid Gen} {L' : Layout Tid Gen}

/-- While a thread holds the lock, no other thread is at a place that needs it. -/
theorem LockInv.others (h : LockInv s) (ht : (s.pc t).holdsLock = true) (hne : t' ≠ t) :
    (s.pc t').expanding = none ∧ (s.pc t').fresh = none ∧ (s.pc t').pending = none := by
  have hnot : ¬ (s.pc t').holdsLock = true := fun ht' => hne (h.unique ht' ht)
  refine ⟨?_, ?_, ?_⟩
  all_goals rw [eq_none_iff_forall_ne_some]
  · exact fun g hg => hnot (Pc.holdsLock_of_expanding hg)
  · exact fun _ hnp => hnot (Pc.holdsLock_of_expanding (Pc.expanding_of_fresh hnp))
  · exact fun _ hp => hnot (Pc.holdsLock_of_pending hp)

/-- A thread at a place that needs the lock holds it. -/
theorem LockInv.here (h : LockInv s) (hpc : s.pc t = pc) (hpc' : pc.holdsLock = true) :
    (s.pc t).holdsLock = true ∧ s.globalAllocMutex = some t ∧ pc.Checked := by
  subst hpc
  exact ⟨hpc', h.held t hpc', h.checked t⟩

/-- What no place of the other threads says holds of all threads once it holds of
this one. -/
theorem goto_none [DecidableEq Tid] {β : Type} {f : Pc Gen → Option β}
    (hf : ∀ t', t' ≠ t → f (s.pc t') = none) (hpc' : f pc' = none) : ∀ t', f ((s.goto t pc').pc t') = none :=
  (forall_update_iff s.pc fun _ pc => f pc = none).2 ⟨hpc', hf⟩

/-! ## The new page becomes the page of the allocation pointer -/

theorem Inv.storePtr [DecidableEq Tid] [DecidableEq Gen] (h : Inv s L)
    (hpc : s.pc t = .store g n np) :
    Inv ({ s with a := update s.a g (pageData np + wordBytes * n) }.goto t .unlock) L := by
  obtain ⟨hheld, hmutex, hpos, hle⟩ := h.lock.here hpc rfl
  have hfresh : (s.pc t).fresh = some (g, np) := by rw [hpc]; rfl
  obtain ⟨l, hl, hlast⟩ := h.ptr.fresh t g np hfresh
  have hnp : np ∈ L.pages g := h.ptr.fresh_mem hfresh
  -- the pointer is in the new page
  have hin : InPage np (pageData np + wordBytes * n) := by
    refine ⟨h.page.aligned np (h.page.place_pages hnp), ?_, ?_⟩
    · simp only [pageData, headerBytes, wordBytes]
      omega
    · simp only [pageData, headerBytes, wordBytes, pageBytes, allocatableWordsInRegionPage] at hle ⊢
      omega
  have hrp : lastRp (pageData np + wordBytes * n) = np := hin.lastRp_eq
  let s0 : State Tid Gen := { s with a := update s.a g (pageData np + wordBytes * n) }
  let s1 : State Tid Gen := s0.goto t .unlock
  -- no thread is between two stores any more
  have hnoneFresh : ∀ t', (s1.pc t').fresh = none :=
    goto_none (f := Pc.fresh) (fun t' hne => (h.lock.others hheld hne).2.1) rfl
  have hnoneExp : ∀ t', (s1.pc t').expanding = none :=
    goto_none (f := Pc.expanding) (fun t' hne => (h.lock.others hheld hne).1) rfl
  constructor
  · constructor
    · exact forall_goto (P := fun t pc => pc.holdsLock = true → s.globalAllocMutex = some t)
        h.lock.held (fun _ => hmutex)
    · exact forall_goto (P := fun _ pc => pc.Checked) h.lock.checked trivial
    · intro t' g' hg'
      rw [hnoneExp] at hg'
      cases hg'
  · exact PageInv.goto (s := s0) { h.page with mapped := h.page.mapped, taken := h.page.taken }
      (show (s.pc t).transit = none by rw [hpc]; rfl) rfl
  · constructor
    · exact (forall_update_iff s.a fun _ a => InPage (lastRp a) a).2
        ⟨hrp.symm ▸ hin, fun g' _ => h.ptr.inPage g'⟩
    · exact (forall_update_iff s.a fun _ a => pageData (lastRp a) ≤ a).2
        ⟨hrp.symm ▸ le_add_right _ _, fun g' _ => h.ptr.header g'⟩
    · refine fun g' _ => (forall_update_iff s.a fun g' a =>
        (L.pages g').getLast? = some (lastRp a)).2 ⟨by rw [hrp, hl, getLast?_concat],
          fun g' hg => h.ptr.current g' fun t' np' hnp' => ?_⟩ g'
      by_cases htt : t' = t
      · subst htt
        rw [hfresh] at hnp'
        cases hnp'
        exact hg rfl
      · rw [(h.lock.others hheld htt).2.1] at hnp'
        cases hnp'
    · intro t' g' np' hnp'
      rw [hnoneFresh] at hnp'
      cases hnp'
  · refine { h.block with small := ?_, large := h.block.large }
    intro b hb hn
    obtain ⟨p, hp, hlo, hhi, hcur, hnew⟩ := h.block.small b hb hn
    refine ⟨p, hp, hlo, hhi, ?_, ?_⟩
    · by_cases hg : b.gen = g
      · rw [hg, show s1.a g = _ from update_self _ _ _, hrp]
        exact fun heq => absurd heq (hnew t g np hfresh)
      · rw [show s1.a b.gen = _ from update_of_ne hg _ _]
        exact hcur
    · intro t' g' np' hnp'
      rw [hnoneFresh] at hnp'
      cases hnp'
  · exact LobjInv.goto (s := s0) (h.lobj.withPtr _) (by rintro g n p ⟨⟩) (by rintro g n p ⟨⟩)

theorem Inv.store [DecidableEq Tid] [DecidableEq Gen] (h : Inv s L) (hpc : s.pc t = .store g n np) :
    Inv ((s.bump g n (pageData np)).goto t .unlock) L := by
  have hfresh : (s.pc t).fresh = some (g, np) := by rw [hpc]; rfl
  have hnp : np ∈ L.pages g := h.ptr.fresh_mem hfresh
  obtain ⟨hheld, -, hpos, hle⟩ := h.lock.here hpc rfl
  have hstop : pageData np + wordBytes * n ≤ np + pageBytes := by
    simp only [pageData, headerBytes, wordBytes, pageBytes, allocatableWordsInRegionPage] at hle ⊢
    omega
  have hstored := h.storePtr hpc
  have hnone : ∀ t', (({ s with a := update s.a g (pageData np + wordBytes * n) }.goto t .unlock).pc
      t').fresh = none :=
    goto_none (f := Pc.fresh) (fun t' hne => (h.lock.others hheld hne).2.1) rfl
  refine hstored.addBlock (b := ⟨g, pageData np, n⟩) ⟨hpos, ?_, ?_⟩
  · refine ⟨np, hnp, le_refl _, hstop, fun _ => ?_, fun t' _ _ hnp' => ?_⟩
    · show pageData np + wordBytes * n ≤ update s.a g (pageData np + wordBytes * n) g
      rw [update_self]
    · rw [hnone] at hnp'
      cases hnp'
  · intro c hc
    refine h.apart_of_page hpos hnp (le_add_right _ _) hstop hc ?_
    intro _ _ _ _ hnew
    exact absurd rfl (hnew t g np hfresh)

variable {p : Nat}

/-- A page that changes its place adds no page. -/
theorem place_of_update {α : Type} {place : Nat → Option α} {x : α} (h0 : place p0 ≠ none)
    (h : update place p0 (some x) p ≠ none) : place p ≠ none := by
  by_cases heq : p = p0
  · exact heq ▸ h0
  · rw [update_of_ne heq] at h
    exact h

/-- A page goes from one place to another: it is in the list of its new place, the
other pages are where they were, and the lists are chains again. -/
theorem PageInv.move (h : PageInv s L)
    (hx : L.place p0 = some x) (hplace : L'.place = update L.place p0 (some y))
    (hpagesChain : ∀ g, Chain 0 s'.next (s'.fp g) (L'.pages g))
    (hownChain : ∀ t, Chain 0 s'.next (s'.own t) (L'.own t))
    (hfreeChain : Chain 0 s'.next s'.freelist L'.free)
    (hpages : ∀ g p, p ∈ L'.pages g ↔ if p = p0 then y = .gen g else p ∈ L.pages g)
    (hown : ∀ t p, p ∈ L'.own t ↔ if p = p0 then y = .own t else p ∈ L.own t)
    (hfree : ∀ p, p ∈ L'.free ↔ if p = p0 then y = .free else p ∈ L.free)
    (htransit : ∀ t p, (s'.pc t).transit = some p ↔
      if p = p0 then y = .transit t else (s.pc t).transit = some p)
    (hnext : ∀ t p, (s'.pc t).transit = some p → s'.next p = 0) (hchunks : s'.chunks = s.chunks)
    (htaken : ∀ g p, (g, p) ∈ s'.taken → Linking s' g p ∨ p ∈ L'.pages g) : PageInv s' L' := by
  have hiff : ∀ p z, L'.place p = some z ↔ if p = p0 then y = z else L.place p = some z := by
    intro p z
    rw [hplace]
    by_cases heq : p = p0
    · rw [heq, update_self, if_pos rfl, some_inj]
    · rw [update_of_ne heq, if_neg heq]
  have hsome : ∀ p, L'.place p ≠ none → L.place p ≠ none := fun p hp =>
    place_of_update (hx ▸ some_ne_none _) (hplace ▸ hp)
  constructor
  · exact hpagesChain
  · exact hownChain
  · exact hfreeChain
  · exact fun g p => by rw [hpages, hiff, h.mem_pages]
  · exact fun t p => by rw [hown, hiff, h.mem_own]
  · exact fun p => by rw [hfree, hiff, h.mem_free]
  · exact fun t p => by rw [htransit, hiff, h.transit]
  · exact hnext
  · exact fun p hp => h.pos p (hsome p hp)
  · exact fun p hp => h.aligned p (hsome p hp)
  · exact fun p x hp => hchunks ▸ h.mapped p x (hsome p hp)
  · exact htaken

/-- A page of one place is in no list of another. -/
theorem PageInv.elsewhere (h : PageInv s L) (hp : L.place p = some x) :
    (∀ g, p ∈ L.pages g → x = .gen g) ∧ (∀ t, p ∈ L.own t → x = .own t) ∧
    (p ∈ L.free → x = .free) ∧ ∀ t, (s.pc t).transit = some p → x = .transit t := by
  refine ⟨fun g hg => ?_, fun t ht => ?_, fun hf => ?_, fun t ht => ?_⟩
  · exact Option.some.inj (hp.symm.trans ((h.mem_pages g p).1 hg))
  · exact Option.some.inj (hp.symm.trans ((h.mem_own t p).1 ht))
  · exact Option.some.inj (hp.symm.trans ((h.mem_free p).1 hf))
  · exact Option.some.inj (hp.symm.trans ((h.transit t p).2 ht))

/-! ## From the free list to the list of a thread -/

section Moves

theorem PageInv.place_free (h : PageInv s L) (hp : p ∈ L.free) : L.place p ≠ none :=
  (h.mem_free p).1 hp ▸ some_ne_none _

theorem PageInv.place_own (h : PageInv s L) (hp : p ∈ L.own t) : L.place p ≠ none :=
  (h.mem_own t p).1 hp ▸ some_ne_none _

/-- The layout after page `p` has gone from the free list to the list of `t`. -/
def Layout.movePage [DecidableEq Tid] (L : Layout Tid Gen) (t : Tid) (p : Nat) : Layout Tid Gen :=
  { L with
    own := update L.own t (p :: L.own t)
    free := L.free.tail
    place := update L.place p (some (.own t)) }

theorem PageInv.movePage [DecidableEq Tid] (h : PageInv s L) (hfree : s.freelist ≠ 0) :
    PageInv (s.movePage t) (L.movePage t s.freelist) := by
  obtain ⟨rest, hrest, hchain⟩ := h.free_chain.pop hfree
  have hnodup := h.free_chain.nodup
  rw [hrest, nodup_cons] at hnodup
  have hplace : L.place s.freelist = some .free := by
    rw [← h.mem_free, hrest]
    exact .head _
  obtain ⟨hpages, howns, -, htransit⟩ := h.elsewhere hplace
  have hpages : ∀ g, s.freelist ∉ L.pages g := fun g hg => nomatch hpages g hg
  have howns : ∀ t', s.freelist ∉ L.own t' := fun t' ht' => nomatch howns t' ht'
  have htransit : ∀ t', (s.pc t').transit ≠ some s.freelist := fun t' ht' => nomatch htransit t' ht'
  refine h.move hplace rfl ?_ ?_ ?_ ?_ ?_ ?_ ?_ ?_ rfl h.taken
  · exact fun g => (h.pages_chain g).update_of_not_mem (hpages g) _
  · intro t'
    by_cases htt : t' = t
    · subst htt
      simp only [State.movePage, Layout.movePage, update_self]
      exact (h.own_chain t').push (howns t') hfree
    · simp only [State.movePage, Layout.movePage, update_of_ne htt]
      exact (h.own_chain t').update_of_not_mem (howns t') _
  · simp only [State.movePage, Layout.movePage, hrest, tail_cons]
    exact hchain.update_of_not_mem hnodup.1 _
  · intro g p
    split <;> simp_all [Layout.movePage]
  · intro t' p
    by_cases htt : t' = t
    · split <;> simp_all [Layout.movePage]
    · split <;> simp_all [Layout.movePage, Ne.symm htt]
  · intro p
    split <;> simp_all [Layout.movePage]
  · intro t' p
    split <;> simp_all [State.movePage]
  · intro t' p hp
    show update s.next s.freelist (s.own t) p = 0
    rw [update_of_ne]
    · exact h.transit_next t' p hp
    · rintro rfl
      exact htransit t' hp

theorem Inv.movePage [DecidableEq Tid] (h : Inv s L) (hfree : s.freelist ≠ 0) :
    Inv (s.movePage t) (L.movePage t s.freelist) := by
  refine h.relayout { h.lock with } (h.page.movePage hfree) rfl rfl rfl rfl rfl rfl
    (fun _ hx => hx) (fun lo hi hoff _ => hoff.mono fun p => place_of_update ?_) (fun _ => rfl)
    (fun _ => rfl) (fun _ _ _ _ hp => hp)
  obtain ⟨rest, hrest, -⟩ := h.page.free_chain.pop hfree
  exact h.page.place_free (hrest ▸ mem_cons_self)

/-! ## From the list of a thread to its hands -/

/-- The layout after thread `t` has taken page `np` from its list. -/
def Layout.takePage [DecidableEq Tid] (L : Layout Tid Gen) (t : Tid) (np : Nat) : Layout Tid Gen :=
  { L with
    own := update L.own t (L.own t).tail
    place := update L.place np (some (.transit t)) }

theorem PageInv.takePage [DecidableEq Tid] (h : PageInv s L) (hpc : s.pc t = .take g n)
    (hown : s.own t ≠ 0) :
    PageInv ((s.takePage t g).goto t (.link g n (s.own t))) (L.takePage t (s.own t)) := by
  obtain ⟨rest, hrest, hchain⟩ := (h.own_chain t).pop hown
  have hnodup := (h.own_chain t).nodup
  rw [hrest, nodup_cons] at hnodup
  have hplace : L.place (s.own t) = some (.own t) := by
    rw [← h.mem_own, hrest]
    exact .head _
  obtain ⟨hpages, howns, hfree, htransit⟩ := h.elsewhere hplace
  have hpages : ∀ g, s.own t ∉ L.pages g := fun g hg => nomatch hpages g hg
  have howns : ∀ t', t' ≠ t → s.own t ∉ L.own t' := by
    rintro t' hne ht'
    cases howns t' ht'
    exact hne rfl
  have hfree : s.own t ∉ L.free := fun hf => nomatch hfree hf
  have htransit : ∀ t', (s.pc t').transit ≠ some (s.own t) := fun t' ht' => nomatch htransit t' ht'
  refine h.move hplace rfl ?_ ?_ ?_ ?_ ?_ ?_ ?_ ?_ rfl ?_
  · exact fun g => (h.pages_chain g).update_of_not_mem (hpages g) _
  · intro t'
    by_cases htt : t' = t
    · subst htt
      simp only [State.goto, State.takePage, Layout.takePage, update_self, hrest, tail_cons]
      exact hchain.update_of_not_mem hnodup.1 _
    · simp only [State.goto, State.takePage, Layout.takePage, update_of_ne htt]
      exact (h.own_chain t').update_of_not_mem (howns t' htt) _
  · exact h.free_chain.update_of_not_mem hfree _
  · intro g p
    split <;> simp_all [Layout.takePage]
  · intro t' p
    by_cases htt : t' = t
    · split <;> simp_all [Layout.takePage]
    · split <;> simp_all [Layout.takePage]
  · intro p
    split <;> simp_all [Layout.takePage]
  · intro t' p
    by_cases htt : t' = t
    · subst htt
      rw [goto_pc_self, hpc]
      split <;> simp_all [Pc.transit, eq_comm]
    · rw [goto_pc_ne htt]
      split <;> simp_all [State.takePage, Ne.symm htt]
  · refine forall_goto (s := s.takePage t g)
      (P := fun _ pc => ∀ p, pc.transit = some p → update s.next (s.own t) 0 p = 0) ?_ ?_
    · intro t' p hp
      rw [update_of_ne]
      · exact h.transit_next t' p hp
      · rintro rfl
        exact htransit t' hp
    · rintro p hp
      cases hp
      exact update_self _ _ _
  · intro g' p hmem
    rcases mem_cons.1 hmem with heq | hmem
    · cases heq
      exact .inl ⟨t, n, goto_pc_self⟩
    · refine (h.taken g' p hmem).imp_left ?_
      rintro ⟨t', n', hlink⟩
      refine ⟨t', n', (goto_pc_ne ?_).trans hlink⟩
      rintro rfl
      rw [hpc] at hlink
      cases hlink

theorem Inv.takePage [DecidableEq Tid] (h : Inv s L) (hpc : s.pc t = .take g n)
    (hown : s.own t ≠ 0) :
    Inv ((s.takePage t g).goto t (.link g n (s.own t))) (L.takePage t (s.own t)) := by
  obtain ⟨-, hmutex, hchecked⟩ := h.lock.here hpc rfl
  have hlock : LockInv ((s.takePage t g).goto t (.link g n (s.own t))) := by
    refine LockInv.goto { h.lock with } (fun _ => hmutex) hchecked ?_
    intro g' hg'
    exact h.lock.boundary t g' (by rw [hpc]; exact hg')
  refine h.relayout hlock (h.page.takePage hpc hown) rfl rfl rfl rfl rfl rfl (fun _ hx => hx)
    (fun lo hi hoff _ => hoff.mono fun p => place_of_update ?_) ?_ ?_ ?_
  · obtain ⟨rest, hrest, -⟩ := (h.page.own_chain t).pop hown
    exact h.page.place_own (t := t) (hrest ▸ mem_cons_self)
  · exact goto_congr (s := s.takePage t g) (f := Pc.fresh)
      (by rw [show (s.takePage t g).pc t = _ from hpc]; rfl)
  · exact goto_congr (s := s.takePage t g) (f := Pc.pending)
      (by rw [show (s.takePage t g).pc t = _ from hpc]; rfl)
  · exact forall_goto (s := s.takePage t g)
      (P := fun t' pc => ∀ g n p, pc = .pushLarge g n p → s.pc t' = .pushLarge g n p)
      (fun _ _ _ _ hp => hp) nofun

/-! ## From the hands of a thread to a generation -/

/-- The layout after page `np` has been linked behind the pages of `g`. -/
def Layout.linkPage [DecidableEq Gen] (L : Layout Tid Gen) (g : Gen) (np : Nat) : Layout Tid Gen :=
  { L with
    pages := update L.pages g (L.pages g ++ [np])
    place := update L.place np (some (.gen g)) }

/-- `last_rp_of_gen(gen)->n = np`. -/
def State.linkPage (s : State Tid Gen) (g : Gen) (np : Nat) : State Tid Gen :=
  { s with next := update s.next (lastRp (s.a g)) np }

theorem Inv.fresh_ne_of_link [DecidableEq Tid] (h : Inv s L) (hpc : s.pc t = .link g n np)
    (t' : Tid) : (s.pc t').fresh = none := by
  by_cases htt : t' = t
  · subst htt
    rw [hpc]
    rfl
  · exact (h.lock.others (by rw [hpc]; rfl) htt).2.1

theorem Inv.current_of_link [DecidableEq Tid] (h : Inv s L) (hpc : s.pc t = .link g n np)
    (g' : Gen) : (L.pages g').getLast? = some (lastRp (s.a g')) :=
  h.ptr.current g' fun t' _ hnp' => nomatch (h.fresh_ne_of_link hpc t').symm.trans hnp'

theorem Layout.subset_linkPage [DecidableEq Gen] :
    ∀ g', L.pages g' ⊆ (L.linkPage g np).pages g' :=
  (forall_update_iff L.pages fun g' l => L.pages g' ⊆ l).2
    ⟨subset_append_left _ _, fun _ _ => Subset.refl _⟩

theorem Inv.linkPage_page [DecidableEq Tid] [DecidableEq Gen] (h : Inv s L)
    (hpc : s.pc t = .link g n np) :
    PageInv ((s.linkPage g np).goto t (.store g n np)) (L.linkPage g np) := by
  have hpage := h.page
  have htransit : (s.pc t).transit = some np := by rw [hpc]; rfl
  have hplace : L.place np = some (.transit t) := (hpage.transit t np).2 htransit
  have hpos : np ≠ 0 := hpage.pos np (hplace ▸ some_ne_none _)
  obtain ⟨hpages, howns, hfree, htransits⟩ := hpage.elsewhere hplace
  have hpages : ∀ g, np ∉ L.pages g := fun g hg => nomatch hpages g hg
  -- the page whose link changes is the last one of the generation
  have hlastMem : lastRp (s.a g) ∈ L.pages g := h.ptr.lastRp_mem g
  obtain ⟨-, hlastOwn, hlastFree, hlastTransit⟩ :=
    hpage.elsewhere ((hpage.mem_pages g _).1 hlastMem)
  have hlastNe : lastRp (s.a g) ≠ np := fun heq => hpages g (heq ▸ hlastMem)
  have hchain : Chain 0 s.next np [np] := ⟨rfl, hpos, hpage.transit_next t np htransit⟩
  refine hpage.move hplace rfl ?_ ?_ ?_ ?_ ?_ ?_ ?_ ?_ rfl ?_
  · intro g'
    by_cases hg : g' = g
    · subst hg
      simp only [State.goto, State.linkPage, Layout.linkPage, update_self]
      exact (hpage.pages_chain g').splice (h.current_of_link hpc g') (by simpa using hlastNe) hchain
    · simp only [State.goto, State.linkPage, Layout.linkPage, update_of_ne hg]
      apply (hpage.pages_chain g').update_of_not_mem
      intro hmem
      exact hg (hpage.gen_unique hmem hlastMem)
  · exact fun t' => (hpage.own_chain t').update_of_not_mem (fun hmem => nomatch hlastOwn t' hmem) _
  · exact hpage.free_chain.update_of_not_mem (fun hmem => nomatch hlastFree hmem) _
  · intro g' p
    by_cases hg : g' = g
    · split <;> simp_all [Layout.linkPage]
    · split <;> simp_all [Layout.linkPage, Ne.symm hg]
  · intro t' p
    split <;> simp_all [Layout.linkPage]
  · intro p
    split <;> simp_all [Layout.linkPage]
  · intro t' p
    by_cases htt : t' = t
    · subst htt
      rw [goto_pc_self, hpc]
      split
      · simp [Pc.transit]
      · rename_i hne
        simp [Pc.transit, Ne.symm hne]
    · rw [goto_pc_ne htt]
      split
      · simp_all [State.linkPage]
        exact fun hp => htt (by cases htransits t' hp; rfl)
      · rfl
  · refine forall_goto (s := s.linkPage g np)
      (P := fun _ pc => ∀ p, pc.transit = some p → update s.next (lastRp (s.a g)) np p = 0) ?_ nofun
    intro t' p (hp : (s.pc t').transit = some p)
    rw [update_of_ne]
    · exact hpage.transit_next t' p hp
    · rintro rfl
      exact nomatch hlastTransit t' hp
  · intro g' p hmem
    rcases hpage.taken g' p hmem with ⟨t', n', hlink⟩ | hin
    · by_cases htt : t' = t
      · subst htt
        rw [hpc] at hlink
        cases hlink
        exact .inr (by simp [Layout.linkPage])
      · exact .inl ⟨t', n', (goto_pc_ne htt).trans hlink⟩
    · exact .inr (Layout.subset_linkPage g' hin)

theorem Inv.linkPage [DecidableEq Tid] [DecidableEq Gen] (h : Inv s L)
    (hpc : s.pc t = .link g n np) :
    Inv ((s.linkPage g np).goto t (.store g n np)) (L.linkPage g np) := by
  obtain ⟨-, hmutex, hchecked⟩ := h.lock.here hpc rfl
  have hplace : L.place np = some (.transit t) := by
    rw [h.page.transit, hpc]
    rfl
  have hsome : ∀ p, (L.linkPage g np).place p ≠ none → L.place p ≠ none :=
    fun p => place_of_update (hplace ▸ some_ne_none _)
  have hfreshOf : ∀ t' g' np', (((s.linkPage g np).goto t (.store g n np)).pc t').fresh =
      some (g', np') → g' = g ∧ np' = np :=
    forall_goto (P := fun _ pc => ∀ g' np', pc.fresh = some (g', np') → g' = g ∧ np' = np)
      (fun t' _ _ hnp' => nomatch (h.fresh_ne_of_link hpc t').symm.trans hnp')
      (by rintro g' np' ⟨⟩; exact ⟨rfl, rfl⟩)
  constructor
  · refine LockInv.goto { h.lock with } (fun _ => hmutex) hchecked ?_
    intro g' hg'
    exact h.lock.boundary t g' (by rw [hpc]; exact hg')
  · exact h.linkPage_page hpc
  · refine ⟨h.ptr.inPage, h.ptr.header, ?_, ?_⟩
    · intro g' hg'
      show (update L.pages g (L.pages g ++ [np]) g').getLast? = _
      rw [update_of_ne]
      · exact h.current_of_link hpc g'
      · rintro rfl
        exact hg' t np (by rw [goto_pc_self]; rfl)
    · intro t' g' np' hnp'
      obtain ⟨rfl, rfl⟩ := hfreshOf t' g' np' hnp'
      exact ⟨L.pages g', by simp [Layout.linkPage], h.current_of_link hpc g'⟩
  · refine ⟨h.block.pos, ?_, ?_, h.block.apart⟩
    · intro b hb hn
      obtain ⟨p, hp, hlo, hhi, hcur, -⟩ := h.block.small b hb hn
      refine ⟨p, Layout.subset_linkPage _ hp, hlo, hhi, hcur, ?_⟩
      rintro t' g' np' hnp' rfl
      obtain ⟨-, rfl⟩ := hfreshOf t' g' p hnp'
      rw [h.page.mem_pages, hplace] at hp
      cases hp
    · intro b hb hn
      obtain ⟨hmem, hoff, hmap⟩ := h.block.large b hb hn
      exact ⟨hmem, hoff.mono hsome, hmap⟩
  · refine ⟨h.lobj.chain, h.lobj.mapped, ?_, ?_⟩
    · exact forall_goto (s := s.linkPage g np)
        (P := fun _ pc => ∀ g n p, pc = .pushLarge g n p → s.lobjNext p = s.lobjs g)
        h.lobj.linked nofun
    · refine forall_goto (s := s.linkPage g np)
        (P := fun _ pc => ∀ g' n' p, pc.pending = some (g', n', p) →
          PendingInv ((s.linkPage g np).goto t (.store g n np)) (L.linkPage g np) g' n' p)
        ?_ nofun
      intro t' g' n' p hp
      have hold := h.lobj.pending t' g' n' p hp
      exact { hold with mapped := hold.mapped, offPages := hold.offPages.mono hsome }

end Moves

/-! ## From `malloc` to the free list -/

section Sbrk

/-- The layout after the chunk has been cut into free pages. -/
def Layout.callSbrk (L : Layout Tid Gen) (sb : Nat) : Layout Tid Gen :=
  { L with
    free := sbrkPages sb
    place := fun p => if p ∈ sbrkPages sb then some .free else L.place p }

theorem Layout.place_callSbrk (hp : (L.callSbrk sb).place p ≠ none) :
    p ∈ sbrkPages sb ∨ L.place p ≠ none := by
  simp only [Layout.callSbrk] at hp
  split at hp
  · exact .inl ‹_›
  · exact .inr hp

theorem PageInv.place_sbrk (h : PageInv s L) (hsb : Malloc s sb sbrkBytes) (hp : p ∈ sbrkPages sb) :
    L.place p = none := by
  by_contra hplace
  obtain ⟨-, hle, hlt⟩ := sbrkPages_bounds hp
  have hmapped := h.mapped p p hplace (le_refl p) (by simp only [pageBytes]; omega)
  simp only [pageBytes] at hlt
  exact hsb.2.2 p hle (by omega) hmapped

theorem PageInv.callSbrk (h : PageInv s L) (hsb : Malloc s sb sbrkBytes) (hfree : s.freelist = 0) :
    PageInv (s.callSbrk sb) (L.callSbrk sb) := by
  have hnone : ∀ p ∈ sbrkPages sb, L.place p = none := fun p hp => h.place_sbrk hsb hp
  have hnot : ∀ p, L.place p ≠ none → p ∉ sbrkPages sb := fun p hp hmem => hp (hnone p hmem)
  have hnext : ∀ p, L.place p ≠ none → (s.callSbrk sb).next p = s.next p :=
    fun p hp => if_neg (hnot p hp)
  have hplace : ∀ p x, L.place p = some x → (L.callSbrk sb).place p = some x := by
    intro p x hp
    rw [← hp]
    exact if_neg (hnot p (hp ▸ some_ne_none _))
  have hold : ∀ p x, x ≠ .free → ((L.callSbrk sb).place p = some x ↔ L.place p = some x) := by
    intro p x hx
    refine ⟨fun hp => ?_, hplace p x⟩
    simp only [Layout.callSbrk] at hp
    split at hp
    · cases hp
      exact absurd rfl hx
    · exact hp
  constructor
  · exact fun g => (h.pages_chain g).congr fun p hp => hnext p (h.place_pages hp)
  · exact fun t => (h.own_chain t).congr fun p hp => hnext p (h.place_own hp)
  · have hchain : Chain 0 (s.callSbrk sb).next (alignRp sb) (sbrkPages sb ++ []) :=
      sbrkPages_chain hsb.1 (fun _ hp => if_pos hp) hfree
    rw [append_nil] at hchain
    exact hchain
  · exact fun g p => (h.mem_pages g p).trans (hold p _ (by simp)).symm
  · exact fun t p => (h.mem_own t p).trans (hold p _ (by simp)).symm
  · intro p
    have hempty : L.free = [] := h.free_chain.eq_nil_iff.2 hfree
    simp only [Layout.callSbrk]
    split
    · rename_i hp
      exact iff_of_true hp rfl
    · rename_i hp
      rw [← h.mem_free, hempty]
      exact iff_of_false hp (by simp)
  · exact fun t p => (hold p _ (by simp)).trans (h.transit t p)
  · intro t p hp
    rw [hnext p ((h.transit t p).2 hp ▸ some_ne_none _)]
    exact h.transit_next t p hp
  · intro p hp
    rcases Layout.place_callSbrk hp with hmem | hp
    · have hle := (sbrkPages_bounds hmem).2.1
      have hpos := hsb.1
      omega
    · exact h.pos p hp
  · exact fun p hp => (Layout.place_callSbrk hp).elim (fun hmem => (sbrkPages_bounds hmem).1)
      (h.aligned p)
  · intro p x hp hle hlt
    rcases Layout.place_callSbrk hp with hmem | hp
    · obtain ⟨-, hlo, hhi⟩ := sbrkPages_bounds hmem
      exact ⟨(sb, sbrkBytes), .head _, by omega, by omega⟩
    · exact mapped_cons (h.mapped p x hp hle hlt)
  · exact h.taken

theorem Inv.callSbrk (h : Inv s L) (hsb : Malloc s sb sbrkBytes) (hfree : s.freelist = 0) :
    Inv (s.callSbrk sb) (L.callSbrk sb) := by
  refine h.relayout { h.lock with } (h.page.callSbrk hsb hfree) rfl rfl rfl rfl rfl rfl
    (fun _ hx => mapped_cons hx) ?_ (fun _ => rfl) (fun _ => rfl) (fun _ _ _ _ hp => hp)
  intro lo hi hoff hmap p x hp hlo hhi hin
  rcases Layout.place_callSbrk hp with hmem | hp
  · obtain ⟨-, hle, hlt⟩ := sbrkPages_bounds hmem
    exact hsb.2.2 x (by omega) (by omega) (hmap x hlo hhi)
  · exact hoff p x hp hlo hhi hin

end Sbrk

/-! ## Large objects -/

section Large

theorem lobjBytes_of_lt (h : n < 2 ^ 31) : lobjBytes n = wordBytes * n + lobjsBytes := by
  have hnat : (BitVec.ofNat 32 n).toNat = n := by
    exact mod_eq_of_lt (by omega)
  have hint : toInt n = n := by
    rw [toInt, BitVec.toInt_eq_toNat_of_lt (by rw [hnat]; omega), hnat]
  rw [lobjBytes, hint]
  simp only [wordBytes, lobjsBytes]
  omega

/-- What `malloc` returns for a large object is in no page, in no object, and in no
block. -/
theorem Inv.allocLobjs [DecidableEq Tid] (h : Inv s L) (hpc : s.pc t = .allocLobjs g n)
    (hp : Malloc s p (lobjBytes n)) :
    Inv ({ s with chunks := (p, lobjBytes n) :: s.chunks }.goto t (.linkLarge g n p)) L := by
  obtain ⟨-, hmutex, hlarge, hok⟩ := h.lock.here hpc rfl
  have hbytes : lobjBytes n = wordBytes * n + lobjsBytes := by
    apply lobjBytes_of_lt
    rcases hok with hlt | hgt
    · exact hlt
    · exact absurd hp.2.1 (Nat.not_le_of_lt hgt)
  obtain ⟨hpos, -, hnew⟩ := hp
  rw [hbytes] at hnew
  have hnew' : ∀ x, p ≤ x → x < p + wordBytes + wordBytes * n → ¬ Mapped s.chunks x := by
    intro x hx hx'
    refine hnew x hx ?_
    simp only [wordBytes, lobjsBytes] at hx' ⊢
    omega
  -- first the memory, then the place of the thread
  let s1 : State Tid Gen := { s with chunks := (p, lobjBytes n) :: s.chunks }
  have h1 : Inv s1 L := h.relayout { h.lock with }
    { h.page with
      mapped := fun q x hq hx hx' => mapped_cons (h.page.mapped q x hq hx hx')
      taken := h.page.taken }
    rfl rfl rfl rfl rfl rfl (fun _ hx => mapped_cons hx) (fun _ _ hoff _ => hoff) (fun _ => rfl)
    (fun _ => rfl) (fun _ _ _ _ hq => hq)
  have hpending : PendingInv s1 L g n p := by
    constructor
    · exact Nat.pos_iff_ne_zero.1 hpos
    · intro g' hg'
      exact hnew' p (le_refl p) (by simp only [wordBytes]; omega) (h.lobj.mapped g' p hg')
    · intro x hx hx'
      refine ⟨(p, lobjBytes n), .head _, hx, ?_⟩
      rw [hbytes]
      simp only [wordBytes, lobjsBytes] at hx' ⊢
      omega
    · intro q x hq hx hx' hin
      exact hnew' x hx hx' (h.page.mapped q x hq hin.1 hin.2)
    · intro b hb hn
      obtain ⟨-, -, hmap⟩ := h.block.large b hb hn
      refine Block.apart_of_disjoint (by show 1 ≤ n; omega) (h.block.pos b hb) ?_
      intro x hx hx' hy hy'
      have hx : p + wordBytes ≤ x := hx
      exact hnew' x (by omega) hx' (hmap x hy hy')
  have hpc1 : s1.pc t = .allocLobjs g n := hpc
  exact
    { lock := h1.lock.goto (fun _ => hmutex) ⟨hlarge, hok⟩ (by rintro g ⟨⟩)
      page := h1.page.goto (by rw [hpc1]; rfl) rfl
      ptr := h1.ptr.goto (by rw [hpc1]; rfl)
      block := h1.block.goto (by rw [hpc1]; rfl)
      lobj := h1.lobj.goto (by rintro g n p ⟨⟩) (fun g' n' p' hp' => by cases hp'; exact hpending) }

theorem Inv.linkLarge [DecidableEq Tid] (h : Inv s L) (hpc : s.pc t = .linkLarge g n p) :
    Inv ({ s with lobjNext := update s.lobjNext p (s.lobjs g) }.goto t (.pushLarge g n p)) L := by
  obtain ⟨hheld, hmutex, hchecked⟩ := h.lock.here hpc rfl
  have hpending : PendingInv s L g n p := h.lobj.pending t g n p (by rw [hpc]; rfl)
  let s1 : State Tid Gen := { s with lobjNext := update s.lobjNext p (s.lobjs g) }
  have hpc1 : s1.pc t = .linkLarge g n p := hpc
  -- no other thread has linked an object that is not in its list yet
  have hlobj : LobjInv s1 L := by
    refine ⟨?_, h.lobj.mapped, ?_, ?_⟩
    · exact fun g' => (h.lobj.chain g').update_of_not_mem (hpending.new g') _
    · intro t' g' n' p' hpush
      have hpush : s.pc t' = .pushLarge g' n' p' := hpush
      by_cases htt : t' = t
      · subst htt
        rw [hpc] at hpush
        cases hpush
      · have hnone := (h.lock.others hheld htt).2.2
        rw [hpush] at hnone
        cases hnone
    · intro t' g' n' p' hp'
      have hold := h.lobj.pending t' g' n' p' hp'
      exact { hold with mapped := hold.mapped }
  exact
    { lock := LockInv.goto (s := s1) { h.lock with } (fun _ => hmutex) hchecked (by rintro g ⟨⟩)
      page := PageInv.goto (s := s1)
        { h.page with mapped := h.page.mapped, taken := h.page.taken } (by rw [hpc1]; rfl) rfl
      ptr := PtrInv.goto (s := s1) { h.ptr with } (by rw [hpc1]; rfl)
      block := BlockInv.goto (s := s1) { h.block with large := h.block.large } (by rw [hpc1]; rfl)
      lobj := hlobj.goto
        (fun g' n' p' hp' => by cases hp'; exact update_self _ _ _)
        (fun g' n' p' hp' => by cases hp'; exact { hpending with mapped := hpending.mapped }) }

/-- The layout after object `p` has become the first one of its region. -/
def Layout.pushLarge [DecidableEq Gen] (L : Layout Tid Gen) (g : Gen) (p : Nat) : Layout Tid Gen :=
  { L with lobjs := update L.lobjs g (p :: L.lobjs g) }

theorem Layout.mem_pushLarge [DecidableEq Gen] :
    q ∈ (L.pushLarge g p).lobjs g' ↔ g' = g ∧ q = p ∨ q ∈ L.lobjs g' := by
  by_cases hg : g' = g
  · subst hg
    simp [Layout.pushLarge]
  · simp [Layout.pushLarge, hg]

theorem Inv.pushLarge [DecidableEq Tid] [DecidableEq Gen] (h : Inv s L)
    (hpc : s.pc t = .pushLarge g n p) :
    Inv ({ s with
        lobjs := update s.lobjs g p
        blocks := ⟨g, p + wordBytes, n⟩ :: s.blocks }.goto t .unlock) (L.pushLarge g p) := by
  obtain ⟨hheld, hmutex, hlarge, -⟩ := h.lock.here hpc rfl
  have hpending : PendingInv s L g n p := h.lobj.pending t g n p (by rw [hpc]; rfl)
  have hlinked : s.lobjNext p = s.lobjs g := h.lobj.linked t g n p hpc
  let b0 : Block Gen := ⟨g, p + wordBytes, n⟩
  let s1 : State Tid Gen :=
    { s with lobjs := update s.lobjs g p, blocks := b0 :: s.blocks }
  have hpc1 : s1.pc t = .pushLarge g n p := hpc
  have hapart : ∀ c ∈ s.blocks, b0.Apart c := by
    intro c hc
    rcases lt_or_ge allocatableWordsInRegionPage c.n with hclarge | hcsmall
    · exact hpending.apart c hc hclarge
    · -- a small block is in a page, and the object is in none
      obtain ⟨q, hq, hlo, hhi, -⟩ := h.block.small c hc hcsmall
      refine Block.apart_of_disjoint (by show 1 ≤ n; omega) (h.block.pos c hc) ?_
      intro x hx hx' hy hy'
      have hx : p + wordBytes ≤ x := hx
      have hqx : q ≤ x := le_trans (le_add_right _ _) (le_trans hlo hy)
      exact hpending.offPages q x (h.page.place_pages hq) (by omega) hx'
        ⟨hqx, lt_of_lt_of_le hy' hhi⟩
  have hblock : BlockInv s1 (L.pushLarge g p) := by
    refine ⟨?_, ?_, ?_, pairwise_cons.2 ⟨hapart, h.block.apart⟩⟩
    · exact forall_mem_cons.2 ⟨by show 1 ≤ n; omega, h.block.pos⟩
    · exact forall_mem_cons.2 ⟨fun hn => absurd hn (Nat.not_le_of_lt hlarge), h.block.small⟩
    · refine forall_mem_cons.2 ⟨fun _ => ⟨⟨p, ?_, rfl⟩, ?_, ?_⟩, ?_⟩
      · exact Layout.mem_pushLarge.2 (.inl ⟨rfl, rfl⟩)
      · exact fun q x hq hx => hpending.offPages q x hq (le_trans (le_add_right _ _) hx)
      · exact fun x hx => hpending.mapped x (le_trans (le_add_right _ _) hx)
      · intro c hc hn
        obtain ⟨⟨q, hq, haddr⟩, hoff, hmap⟩ := h.block.large c hc hn
        exact ⟨⟨q, Layout.mem_pushLarge.2 (.inr hq), haddr⟩, hoff, hmap⟩
  have hchain : ∀ g', Chain 0 s.lobjNext (update s.lobjs g p g') ((L.pushLarge g p).lobjs g') := by
    intro g'
    by_cases hg : g' = g
    · subst hg
      simp only [Layout.pushLarge, update_self]
      exact ⟨rfl, hpending.pos, hlinked ▸ h.lobj.chain g'⟩
    · simp only [Layout.pushLarge, update_of_ne hg]
      exact h.lobj.chain g'
  have hmapped : ∀ g' q, q ∈ (L.pushLarge g p).lobjs g' → Mapped s.chunks q := by
    intro g' q hq
    rcases Layout.mem_pushLarge.1 hq with ⟨rfl, rfl⟩ | hq
    · exact hpending.mapped q (le_refl q) (by simp only [wordBytes]; omega)
    · exact h.lobj.mapped g' q hq
  have hnone : ∀ t', ((s1.goto t .unlock).pc t').pending = none :=
    goto_none (s := s1) (f := Pc.pending) (fun t' hne => (h.lock.others hheld hne).2.2) rfl
  exact
    { lock := LockInv.goto (s := s1) { h.lock with } (fun _ => hmutex) trivial (by rintro g ⟨⟩)
      page := PageInv.goto (s := s1) (L := L.pushLarge g p)
        { h.page with mapped := h.page.mapped, taken := h.page.taken } (by rw [hpc1]; rfl) rfl
      ptr := PtrInv.goto (s := s1) (L := L.pushLarge g p) { h.ptr with } (by rw [hpc1]; rfl)
      block := hblock.goto (by rw [hpc1]; rfl)
      lobj := by
        refine ⟨hchain, hmapped, ?_, ?_⟩
        · intro t' g' n' p' hpush
          have hpend := hnone t'
          rw [hpush] at hpend
          cases hpend
        · intro t' g' n' p' hp'
          rw [hnone] at hp'
          cases hp' }

end Large

end MLKit.Runtime.Par
