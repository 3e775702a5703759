import MLKit.Runtime.RegionPages

/-!
# The operations keep the page lists

One lemma for each thing that an operation does to a generation: a page is added,
pages are put on the free list, the allocation pointer or the marks change.
-/

namespace MLKit.Runtime.Seq

open MLKit.Lib List Option Nat
open Function (update update_self update_of_ne)

variable {cfg : Config} {h h' h'' : Heap} {owned rest : List (Gen × List Nat)}

/-- What an operation on pages does not change. -/
structure Frame (h h' : Heap) : Prop where
  regions : h'.regions = h.regions
  kind : h'.kind = h.kind
  doingGc : h'.doingGc = h.doingGc
  marks : ∀ g, h'.marks g = h.marks g

theorem Frame.refl (h : Heap) : Frame h h := ⟨rfl, rfl, rfl, fun _ => rfl⟩

theorem Frame.trans (h1 : Frame h h') (h2 : Frame h' h'') : Frame h h'' where
  regions := h2.regions.trans h1.regions
  kind := h2.kind.trans h1.kind
  doingGc := h2.doingGc.trans h1.doingGc
  marks := fun g => (h2.marks g).trans (h1.marks g)

/-! ## New pages -/

variable {P : Gen → Prop} {moved l free : List Nat} {g : Gen} {np p fp a last : Nat}
  {fp' : Gen → Nat} {next' : Nat → Nat} {m : Malloc}

section Sbrk

/-- The pages of a chunk are a list that ends in the old free list. -/
theorem callSbrk_chain (m : Malloc) (hfree : Chain 0 h.next h.freelist []) :
    Chain 0 (callSbrk m h).next (callSbrk m h).freelist (sbrkPages (m.addr h.chunks sbrkBytes)) :=
    by
  have hchain : Chain 0 (callSbrk m h).next (callSbrk m h).freelist (_ ++ []) :=
    sbrkPages_chain (m.pos h.chunks sbrkBytes) (fun _ hp => if_pos hp) hfree
  rw [append_nil] at hchain
  exact hchain

theorem callSbrk_inv (m : Malloc) (hinv : Inv cfg P h owned [] moved) :
    Inv cfg P (callSbrk m h) owned (sbrkPages (m.addr h.chunks sbrkBytes)) moved := by
  have hchain := callSbrk_chain m hinv.freePages
  have hfresh := m.fresh h.chunks sbrkBytes
  have hold := hinv.pages
  rw [append_nil] at hold
  -- the pages there were are in memory that `malloc` has returned before
  have hnew : ∀ p ∈ owned.flatMap Prod.snd ++ moved, p ∉ sbrkPages (m.addr h.chunks sbrkBytes) := by
    intro p hp hsb
    obtain ⟨-, hlo, hhi⟩ := sbrkPages_bounds hsb
    refine hfresh p hlo ?_ (hold.mapped p hp)
    simp only [pageBytes] at hhi
    omega
  have hnext : ∀ p ∈ owned.flatMap Prod.snd ++ moved, (callSbrk m h).next p = h.next p := by
    intro p hp
    simp only [callSbrk]
    rw [if_neg (hnew p hp)]
  have hown : ∀ o ∈ owned, ∀ p ∈ o.2, p ∈ owned.flatMap Prod.snd ++ moved := fun o ho p hp =>
    mem_append_left _ (mem_flatMap.2 ⟨o, ho, hp⟩)
  constructor
  case keys => exact hinv.keys
  case gen =>
    intro o ho
    exact (hinv.gen o ho).congr rfl rfl fun p hp => ⟨hnext p (hown o ho p hp), rfl⟩
  case plain =>
    intro o ho hP p hp
    rw [hnext p (hown o ho p hp)]
    exact hinv.plain o ho hP p hp
  case freePages => exact hchain
  case fromSpace =>
    exact fun hne => (hinv.fromSpace hne).imp_left
      (Chain.congr fun p hp => hnext p (mem_append_right _ hp))
  case pages =>
    have hperm : (sbrkPages (m.addr h.chunks sbrkBytes) ++ (owned.flatMap Prod.snd ++ moved)).Perm
        (owned.flatMap Prod.snd ++ sbrkPages (m.addr h.chunks sbrkBytes) ++ moved) := by
      rw [← append_assoc]
      exact perm_append_comm.append_right _
    refine PagesOk.perm (h := callSbrk m h) ?_ _ hperm rfl rfl
    constructor
    case nodup =>
      refine nodup_append.2 ⟨hchain.nodup, hold.nodup, ?_⟩
      rintro p hp q hq rfl
      exact hnew p hq hp
    case total =>
      rw [length_append, hold.total]
      simp only [sbrkPages, length_map, length_range, callSbrk]
      omega
    case aligned =>
      exact forall_mem_append.2 ⟨fun _ hp => (sbrkPages_bounds hp).1, hold.aligned⟩
    case mapped =>
      intro p hp
      rcases mem_append.1 hp with hp | hp
      · obtain ⟨-, hlo, hhi⟩ := sbrkPages_bounds hp
        refine ⟨_, .head _, hlo, ?_⟩
        simp only [pageBytes] at hhi
        exact lt_of_lt_of_le (by omega) hhi
      · exact mapped_cons (hold.mapped p hp)

theorem callSbrk_frame (m : Malloc) (h : Heap) : Frame h (callSbrk m h) :=
  ⟨rfl, rfl, rfl, fun _ => rfl⟩

end Sbrk

section NewBlock

theorem clearTospaceBit_newLink :
    clearTospaceBit (newLink cfg h g) = 0 := by
  rw [newLink]
  split <;> rfl

theorem newLink_of_not_doingGc (hgc : h.doingGc = false) : newLink cfg h g = 0 := by
  simp [newLink, hgc]

theorem linkBlock_first (hfp : cfg.clearFp (h.fp g) = 0) :
    linkBlock cfg g np h =
      h.setFpOf g (if cfg.enableGc then setFp np (allMarksFp (h.fp g)) else np) := by
  rw [linkBlock, if_neg (not_not_intro hfp)]

/-- The link to the new page, which keeps the to-space bit. -/
theorem linkBlock_more (hfp : cfg.clearFp (h.fp g) ≠ 0) (hnp : pageBytes ∣ np) :
    ∃ q, linkBlock cfg g np h = h.setNext (lastRp (h.a g)) q ∧ clearTospaceBit q = np ∧
      (h.doingGc = false → q = np) := by
  rw [linkBlock, if_pos hfp]
  dsimp only
  split
  · next hbit =>
      refine ⟨setTospaceBit np, rfl, clearTospaceBit_setTospaceBit hnp, fun hgc => ?_⟩
      rw [hgc] at hbit
      cases hbit
  · exact ⟨np, rfl, clearTospaceBit_of_not (isTospaceBit_of_aligned hnp), fun _ => rfl⟩

theorem Config.pageData_inPage (cfg : Config) (hp : pageBytes ∣ p) : InPage p (cfg.pageData p) := by
  refine ⟨hp, ?_, ?_⟩
  all_goals
    simp only [Config.pageData, Config.headerWords, wordBytes, pageBytes]
    split <;> omega

/-- A page list without its last page, in the order of the invariant. -/
theorem perm_take_page (l mid free moved : List Nat) (np : Nat) :
    (l ++ mid ++ np :: free ++ moved).Perm ((l ++ [np]) ++ mid ++ free ++ moved) := by
  refine List.Perm.append_right _ ?_
  have hfront : (l ++ mid ++ np :: free).Perm (np :: (l ++ mid ++ free)) := perm_middle
  have hback : (l ++ np :: (mid ++ free)).Perm (np :: (l ++ (mid ++ free))) := perm_middle
  rw [← append_assoc] at hback
  simpa using hfront.trans hback.symm

theorem setNext_link (h : Heap) (p q : Nat) :
    (h.setNext p q).link = update h.link p (clearTospaceBit q) :=
  Function.comp_update clearTospaceBit h.next p q

theorem takeBlock_link (cfg : Config) (g : Gen) (h : Heap) :
    (takeBlock cfg g h).link = update h.link h.freelist 0 := by
  have hlink := setNext_link h h.freelist (newLink cfg h g)
  rw [clearTospaceBit_newLink] at hlink
  exact hlink

/-- The heap after `gen->a = alloc_new_block(gen)`, when there is a free page. -/
def withBlock (cfg : Config) (g : Gen) (np : Nat) (h : Heap) : Heap :=
  (linkBlock cfg g np (takeBlock cfg g h)).setA g (cfg.pageData np)

/-- The pointer to the first page, with the marks that the generation had. -/
theorem firstFp_spec (hnp : pageBytes ∣ np) (hfp : cfg.clearFp (h.fp g) = 0) :
    cfg.clearFp (if cfg.enableGc then setFp np (allMarksFp (h.fp g)) else np) = np ∧
      (if cfg.enableGc then setFp np (allMarksFp (h.fp g)) else np) &&& 0x17 = h.marks g := by
  by_cases hgc : cfg.enableGc = true
  · rw [if_pos hgc]
    have hlt : allMarksFp (h.fp g) < 32 := lt_succ_of_le and_le_right
    exact ⟨by rw [cfg.clearFp_setFp hlt hgc, cfg.clearFp_of_aligned hnp], setFp_page hnp _⟩
  · rw [if_neg hgc]
    rw [Config.clearFp, if_neg hgc] at hfp
    have hmarks := setFp_page hnp 0
    rw [Heap.marks, hfp]
    exact ⟨cfg.clearFp_of_aligned hnp, by simpa [setFp, allMarksFp] using hmarks⟩

theorem setFpOf_marks (h : Heap) (g g' : Gen) (fp : Nat) :
    (h.setFpOf g fp).marks g' = if g' = g then fp &&& 0x17 else h.marks g' := by
  simp only [Heap.marks, Heap.setFpOf, Function.update_apply]
  split <;> rfl

theorem setFpOf_frame (hfp : fp &&& 0x17 = h.marks g) : Frame h (h.setFpOf g fp) := by
  refine ⟨rfl, rfl, rfl, fun g' => ?_⟩
  rw [setFpOf_marks]
  split
  · next hg' => rw [hg', hfp]
  · rfl

theorem Inv.last_apart (hinv : Inv cfg P h ((g, l) :: rest) free moved) (hp : l.getLast? = some p) :
    (∀ o ∈ rest, p ∉ o.2) ∧ p ∉ free ∧ p ∉ moved := by
  have hmem : p ∈ l := mem_of_getLast? hp
  refine ⟨fun o ho hpo => hinv.rest_apart ho hpo hmem, fun hpf => ?_, ?_⟩
  · exact (hinv.free_apart hpf).1 (g, l) (.head _) hmem
  · exact hinv.moved_apart (.head _) hmem

/-- The first free page becomes the last page of the generation. -/
theorem Inv.addPage (hinv : Inv cfg P h ((g, l) :: rest) (h.freelist :: free) moved)
    (hfp : ∀ g' ≠ g, fp' g' = h.fp g')
    (hnext : ∀ p ≠ h.freelist, l.getLast? ≠ some p → next' p = h.next p)
    (hchain : Chain 0 (fun p => clearTospaceBit (next' p)) (cfg.clearFp (fp' g))
      (l ++ [h.freelist]))
    (hplain : P g → ∀ p ∈ l ++ [h.freelist], isTospaceBit (next' p) = false) :
    Inv cfg P ({ takeBlock cfg g h with fp := fp', next := next' }.setA g (cfg.pageData h.freelist))
      ((g, l ++ [h.freelist]) :: rest) free moved := by
  obtain ⟨hown, hmoved⟩ := hinv.free_apart (p := h.freelist) (.head _)
  -- pages other than the new one and the last one keep their links
  have hsame : ∀ {l' : List Nat}, h.freelist ∉ l' → (∀ p, l.getLast? = some p → p ∉ l') →
      ∀ p ∈ l', next' p = h.next p := fun hnew hlast p hp =>
    hnext p (fun heq => hnew (heq ▸ hp)) fun hp' => hlast p hp' hp
  refine hinv.update (fun g' hg' => ⟨hfp g' hg', update_of_ne hg' _ _⟩) ?_ ⟨hchain, ?_, ?_⟩ hplain
    ?_ ?_ (hinv.pages.perm _ (perm_take_page l _ free moved _) rfl rfl)
  · intro o ho p hp
    have hnew := hown o (.tail _ ho)
    refine ⟨hsame hnew (fun p hp => (hinv.last_apart hp).1 o ho) p hp, update_of_ne ?_ _ _⟩
    rintro rfl
    exact hnew hp
  · intro p hp
    obtain rfl : h.freelist = p := by simpa using hp
    show InPage _ (Function.update h.a g _ g)
    rw [update_self]
    exact cfg.pageData_inPage (hinv.pages.aligned h.freelist (by simp))
  · intro p hp
    show Function.update h.owner h.freelist (some g) p = some g
    by_cases heq : p = h.freelist
    · rw [heq, update_self]
    · rw [update_of_ne heq]
      exact (hinv.gen (g, l) (.head _)).owner p (by simpa [heq] using hp)
  · exact hinv.freePages.2.2.congr (hsame (nodup_cons.1 hinv.freePages.nodup).1
      fun p hp hmem => (hinv.last_apart hp).2.1 (.tail _ hmem))
  · exact fun hne => (hinv.fromSpace hne).imp_left
      (Chain.congr (hsame hmoved fun p hp => (hinv.last_apart hp).2.2))

theorem withBlock_first (hinv : Inv cfg P h ((g, []) :: rest) (np :: free) moved)
    (hP : P g → h.doingGc = false) :
    Inv cfg P (withBlock cfg g np h) ((g, [np]) :: rest) free moved ∧
      Frame h (withBlock cfg g np h) := by
  obtain ⟨rfl, hnull, -⟩ := hinv.freePages
  have hfp : cfg.clearFp (h.fp g) = 0 := (hinv.gen (g, []) (.head _)).chain
  obtain ⟨hclear, hmarks⟩ := firstFp_spec (hinv.pages.aligned h.freelist (by simp)) hfp
  rw [withBlock, linkBlock_first (h := takeBlock cfg g h) hfp]
  refine ⟨hinv.addPage (fun g' hg' => update_of_ne hg' _ _) (fun p hp _ => update_of_ne hp _ _)
    ⟨?_, hnull, ?_⟩ fun hPg p hp => ?_, rfl, rfl, rfl, (setFpOf_frame hmarks).marks⟩
  · rw [update_self]
    exact hclear
  · show clearTospaceBit (update h.next h.freelist _ h.freelist) = 0
    rw [update_self]
    exact clearTospaceBit_newLink
  · obtain rfl : p = h.freelist := by simpa using hp
    show isTospaceBit (update h.next h.freelist _ h.freelist) = false
    rw [update_self, newLink_of_not_doingGc (hP hPg)]
    rfl

theorem withBlock_more (hinv : Inv cfg P h ((g, l) :: rest) (np :: free) moved) (hl : l ≠ [])
    (hP : P g → h.doingGc = false) :
    Inv cfg P (withBlock cfg g np h) ((g, l ++ [np]) :: rest) free moved ∧
      Frame h (withBlock cfg g np h) := by
  obtain ⟨rfl, hnull, -⟩ := hinv.freePages
  have hg : GenInv cfg h g l := hinv.gen (g, l) (.head _)
  have hnotl : h.freelist ∉ l := (hinv.free_apart (.head _)).1 (g, l) (.head _)
  have hal := hinv.pages.aligned h.freelist (by simp)
  have hfp : cfg.clearFp ((takeBlock cfg g h).fp g) ≠ 0 := fun h0 => hl (hg.chain.eq_nil_iff.2 h0)
  obtain ⟨q, hlink, hclear, hq⟩ := linkBlock_more hfp hal
  obtain ⟨last, hlast⟩ : ∃ p, l.getLast? = some p := isSome_iff_exists.1 (by simpa using hl)
  have hrp : lastRp ((takeBlock cfg g h).a g) = last := hg.lastRp_eq hlast
  have hne : last ≠ h.freelist := fun heq => hnotl (heq ▸ mem_of_getLast? hlast)
  rw [withBlock, hlink, hrp]
  refine ⟨hinv.addPage (fun _ _ => rfl) (fun p hp hpl => ?_) ?_ fun hPg p hp => ?_, rfl, rfl, rfl,
    fun _ => rfl⟩
  · have hpl : p ≠ last := by
      rintro rfl
      exact hpl hlast
    exact (update_of_ne hpl _ _).trans (update_of_ne hp _ _)
  · have hchain := Chain.splice (hg.chain.update_of_not_mem hnotl 0) hlast (m := [h.freelist])
      (by simpa using hne) ⟨rfl, hnull, update_self _ _ _⟩
    rw [← takeBlock_link cfg g, ← hclear, ← setNext_link, hclear] at hchain
    exact hchain
  · show isTospaceBit (update (update h.next h.freelist _) last q p) = false
    by_cases hpl : p = last
    · rw [hpl, update_self, hq (hP hPg)]
      exact isTospaceBit_of_aligned hal
    rw [update_of_ne hpl]
    by_cases hp' : p = h.freelist
    · rw [hp', update_self, newLink_of_not_doingGc (hP hPg)]
      rfl
    · rw [update_of_ne hp']
      exact hinv.plain (g, l) (.head _) hPg p (by simpa [hp'] using hp)

theorem expandGen_inv (hinv : Inv cfg P h ((g, l) :: rest) free moved)
    (hP : P g → h.doingGc = false) :
    ∃ np free', Inv cfg P (expandGen cfg m g h) ((g, l ++ [np]) :: rest) free' moved ∧
      Frame h (expandGen cfg m g h) ∧ (expandGen cfg m g h).a g = cfg.pageData np := by
  -- with `callSbrk`, if there is no free page
  have hready : ∃ h1 np free', h1 = (if h.freelist = 0 then callSbrk m h else h) ∧ Frame h h1 ∧
      Inv cfg P h1 ((g, l) :: rest) (np :: free') moved := by
    by_cases hnone : h.freelist = 0
    · obtain rfl := hinv.freePages.eq_nil_iff.2 hnone
      have hsbrk := callSbrk_inv m hinv
      obtain ⟨np, free', hpages⟩ : ∃ np free', sbrkPages (m.addr h.chunks sbrkBytes) = np :: free' :=
        ⟨_, _, rfl⟩
      rw [hpages] at hsbrk
      exact ⟨callSbrk m h, np, free', (if_pos hnone).symm, callSbrk_frame m h, hsbrk⟩
    · obtain ⟨free', rfl, -⟩ := hinv.freePages.pop hnone
      exact ⟨h, h.freelist, free', (if_neg hnone).symm, Frame.refl h, hinv⟩
  obtain ⟨h1, np, free', heq, hframe, hinv1⟩ := hready
  have hP1 : P g → h1.doingGc = false := fun hPg => hframe.doingGc.trans (hP hPg)
  have hexpand : expandGen cfg m g h = withBlock cfg g np h1 := by
    have hnp : h1.freelist = np := hinv1.freePages.1
    rw [expandGen, allocNewBlock, ← heq, withBlock, hnp]
  have ha : (withBlock cfg g np h1).a g = cfg.pageData np := update_self _ _ _
  rw [hexpand]
  refine ⟨np, free', ?_⟩
  obtain ⟨hwith, hframe'⟩ : Inv cfg P (withBlock cfg g np h1) ((g, l ++ [np]) :: rest) free' moved ∧
      Frame h1 (withBlock cfg g np h1) := by
    cases l with
    | nil => exact withBlock_first hinv1 hP1
    | cons p l => exact withBlock_more hinv1 (cons_ne_nil p l) hP1
  exact ⟨hwith, hframe.trans hframe', ha⟩

end NewBlock

/-! ## Allocation pointers and marks -/

theorem Inv.setA (hinv : Inv cfg P h ((g, l) :: rest) free moved)
    (ha : ∀ p, l.getLast? = some p → InPage p a) :
    Inv cfg P (h.setA g a) ((g, l) :: rest) free moved := by
  have hg : GenInv cfg h g l := hinv.gen (g, l) (.head _)
  refine hinv.update ?_ (fun _ _ _ _ => ⟨rfl, rfl⟩) ⟨hg.chain, ?_, hg.owner⟩
    (hinv.plain (g, l) (.head _)) hinv.freePages hinv.fromSpace
    (hinv.pages.perm _ (List.Perm.refl _) rfl rfl)
  · intro g' hg'
    exact ⟨rfl, update_of_ne hg' _ _⟩
  · show ∀ p, l.getLast? = some p → InPage p (Function.update h.a g a g)
    rw [update_self]
    exact ha

theorem setA_frame : Frame h (h.setA g a) := ⟨rfl, rfl, rfl, fun _ => rfl⟩

theorem Inv.setFpOf (hinv : Inv cfg P h ((g, l) :: rest) free moved)
    (hfp : cfg.clearFp fp = cfg.clearFp (h.fp g)) :
    Inv cfg P (h.setFpOf g fp) ((g, l) :: rest) free moved := by
  have hg : GenInv cfg h g l := hinv.gen (g, l) (.head _)
  refine hinv.update ?_ (fun _ _ _ _ => ⟨rfl, rfl⟩) (hg.congr ?_ rfl fun _ _ => ⟨rfl, rfl⟩)
    (hinv.plain (g, l) (.head _)) hinv.freePages hinv.fromSpace
    (hinv.pages.perm _ (List.Perm.refl _) rfl rfl)
  · intro g' hg'
    exact ⟨update_of_ne hg' _ _, rfl⟩
  · show cfg.clearFp (Function.update h.fp g fp g) = _
    rw [update_self]
    exact hfp

theorem allocGen_inv (m : Malloc) (n : Nat) (hinv : Inv cfg P h ((g, l) :: rest) free moved)
    (hl : l ≠ []) (hP : P g → h.doingGc = false) :
    ∃ l' free', l' ≠ [] ∧ Inv cfg P (allocGen cfg m g n h) ((g, l') :: rest) free' moved ∧
      Frame h (allocGen cfg m g n h) := by
  have hg : GenInv cfg h g l := hinv.gen (g, l) (.head _)
  rw [allocGen]
  by_cases hlarge : cfg.allocatableWords < n
  · rw [if_pos hlarge]
    exact ⟨l, free, hl, hinv, Frame.refl h⟩
  rw [if_neg hlarge]
  by_cases hroom : rpBoundary (h.a g) < h.a g + wordBytes * n
  · rw [if_pos hroom]
    obtain ⟨np, free', hinv', hframe, ha⟩ := expandGen_inv hinv hP
    have hlast : (l ++ [np]).getLast? = some np := List.getLast?_concat
    have hpage : InPage np (cfg.pageData np) :=
      cfg.pageData_inPage ((hinv'.gen (g, l ++ [np]) (.head _)).last np hlast).aligned
    refine ⟨l ++ [np], free', concat_ne_nil np l, hinv'.setA ?_, hframe.trans (setA_frame)⟩
    intro p hp
    obtain rfl : np = p := Option.some.inj (hlast.symm.trans hp)
    rw [ha]
    refine hpage.mono (le_add_right _ _) ?_
    -- an object that is not large fits in an empty page
    simp only [Config.pageData, Config.allocatableWords, wordBytes, pageBytes] at hlarge ⊢
    have hhead : cfg.headerWords ≤ 3 := by
      rw [Config.headerWords]
      split <;> omega
    omega
  · rw [if_neg hroom]
    refine ⟨l, free, hl, hinv.setA fun p hp => ?_, setA_frame⟩
    have hpage := hg.last p hp
    rw [hpage.rpBoundary_eq] at hroom
    exact hpage.mono (le_add_right _ _) (by omega)

/-! ## Pages that a generation gives up -/

theorem setNext_other (hlast : ∀ o ∈ rest, last ∉ o.2) (q : Nat) :
    ∀ o ∈ rest, ∀ p ∈ o.2, (h.setNext last q).next p = h.next p ∧
      (h.setNext last q).owner p = h.owner p := by
  intro o ho p hp
  have hne : p ≠ last := by
    rintro rfl
    exact hlast o ho hp
  exact ⟨update_of_ne hne _ _, rfl⟩

theorem freeGen_inv (hinv : Inv cfg P h ((g, l) :: rest) free moved) (hl : l ≠ []) (hP : P g) :
    Inv cfg P (freeGen cfg g h) rest (l ++ free) moved := by
  have hg : GenInv cfg h g l := hinv.gen (g, l) (.head _)
  obtain ⟨last, hlast⟩ : ∃ p, l.getLast? = some p := isSome_iff_exists.1 (by simpa using hl)
  obtain ⟨hrest, hfree, hmoved⟩ := hinv.last_apart hlast
  have hperm : (l ++ rest.flatMap Prod.snd ++ free ++ moved).Perm
      (rest.flatMap Prod.snd ++ (l ++ free) ++ moved) := by
    rw [← append_assoc]
    exact (perm_append_comm.append_right _).append_right _
  rw [freeGen, hg.lastRp_eq hlast]
  refine hinv.drop (fun _ _ => ⟨rfl, rfl⟩) (setNext_other hrest _) ?_ ?_
    (hinv.pages.perm _ hperm rfl rfl)
  · exact (hg.plainChain (hinv.plain (g, l) (.head _) hP)).splice hlast hfree hinv.freePages
  · exact fun hne => (hinv.fromSpace hne).imp_left (·.update_of_not_mem hmoved _)

theorem freeGen_frame : Frame h (freeGen cfg g h) :=
  ⟨rfl, rfl, rfl, fun _ => rfl⟩

/-- `resetGen` keeps the first page. -/
theorem resetGen_inv (hinv : Inv cfg P h ((g, l) :: rest) free moved) (hl : l ≠ []) (hP : P g) :
    ∃ l' free', l' ≠ [] ∧ Inv cfg P (resetGen cfg g h) ((g, l') :: rest) free' moved ∧
      Frame h (resetGen cfg g h) := by
  have hg : GenInv cfg h g l := hinv.gen (g, l) (.head _)
  have hplain := hinv.plain (g, l) (.head _) hP
  obtain ⟨p, l, rfl⟩ := exists_cons_of_ne_nil hl
  have hchain := hg.plainChain hplain
  have hp : cfg.clearFp (h.fp g) = p := hchain.1
  have hal : pageBytes ∣ p := hinv.pages.aligned p (by simp)
  have hdata : ∀ q, [p].getLast? = some q → InPage q (cfg.pageData p) := by
    intro q hq
    obtain rfl : p = q := by simpa using hq
    exact cfg.pageData_inPage hal
  rw [resetGen, hp]
  cases l with
  | nil =>
    have hnext : h.next p = 0 := hchain.2.2
    rw [if_neg (not_not_intro hnext)]
    exact ⟨[p], free, cons_ne_nil _ _, hinv.setA hdata, setA_frame⟩
  | cons q l =>
    have hnext : h.next p = q := hchain.2.2.1
    have hqne : q ≠ 0 := hchain.2.2.2.1
    rw [if_pos (by rw [hnext]; exact hqne)]
    obtain ⟨last, hlast⟩ : ∃ r, (q :: l).getLast? = some r := isSome_iff_exists.1 (by simp)
    have hlast' : (p :: q :: l).getLast? = some last := hlast
    have hnotp : p ∉ q :: l := (nodup_cons.1 hchain.nodup).1
    have hne : p ≠ last := fun heq => hnotp (heq ▸ mem_of_getLast? hlast)
    obtain ⟨hrest, hfree, hmoved⟩ := hinv.last_apart hlast'
    rw [hg.lastRp_eq hlast']
    have hpfree : p ∉ free := fun hmem =>
      (hinv.free_apart hmem).1 _ (.head _) (.head _)
    have hpmoved : p ∉ moved := hinv.moved_apart (.head _) (.head _)
    have hprest : ∀ o ∈ rest, p ∉ o.2 := fun o ho hpo =>
      hinv.rest_apart ho hpo (.head _)
    have hperm : (p :: q :: l ++ rest.flatMap Prod.snd ++ free ++ moved).Perm
        ([p] ++ rest.flatMap Prod.snd ++ (q :: l ++ free) ++ moved) := by
      rw [cons_append, singleton_append, ← append_assoc (_ :: _) (_ :: _)]
      exact ((perm_append_comm.append_right _).append_right _).cons _
    have hsame : update h.next last h.freelist p = q := by
      rw [update_of_ne hne]
      exact hnext
    refine ⟨[p], q :: l ++ free, cons_ne_nil _ _, ?_, rfl, rfl, rfl, fun _ => rfl⟩
    refine hinv.update ?_ ?_ ⟨?_, ?_, ?_⟩ ?_ ?_ ?_ (hinv.pages.perm _ hperm rfl rfl)
    · intro g' hg'
      exact ⟨rfl, update_of_ne hg' _ _⟩
    · intro o ho r hr
      have hother := setNext_other (h := h) hrest h.freelist o ho r hr
      exact ⟨((setNext_other hprest 0) o ho r hr).1.trans hother.1, rfl⟩
    · refine ⟨hp, hchain.2.1, ?_⟩
      show clearTospaceBit (update (update h.next last _) p 0 p) = 0
      rw [update_self]
      rfl
    · show ∀ r, [p].getLast? = some r → InPage r (update h.a g _ g)
      rw [update_self]
      exact hdata
    · intro r hr
      obtain rfl : r = p := by simpa using hr
      exact hg.owner r (.head _)
    · intro _ r hr
      obtain rfl : r = p := by simpa using hr
      show isTospaceBit (update (update h.next last _) r 0 r) = false
      rw [update_self]
      rfl
    · show Chain 0 (update (update h.next last h.freelist) p 0)
        (update h.next last h.freelist p) (q :: l ++ free)
      rw [hsame]
      refine Chain.update_of_not_mem ?_ 0 ?_
      · simpa using ⟨fun heq => hnotp (heq ▸ mem_cons_self),
          fun hmem => hnotp (.tail _ hmem), hpfree⟩
      · have hrestChain : Chain 0 h.next q (q :: l) := hnext ▸ hchain.2.2
        exact hrestChain.splice hlast hfree hinv.freePages
    · exact fun hne => (hinv.fromSpace hne).imp_left fun hchain =>
        (hchain.update_of_not_mem hmoved _).update_of_not_mem hpmoved _

end MLKit.Runtime.Seq
