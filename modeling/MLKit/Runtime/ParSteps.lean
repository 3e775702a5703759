import MLKit.Runtime.ParInvariant

/-!
# The invariant is kept

One lemma for each thing a step can do to the allocator, and the step lemma for the
invariant of `ParInvariant`.
-/

namespace MLKit.Runtime.Par

open MLKit.Lib Function Nat

variable {Tid Gen : Type} {s : State Tid Gen} {β : Sort*} {pc' : Pc Gen} {t t' : Tid} {g : Gen}
  {p a' n : Nat} {L : Layout Tid Gen}

section Goto

variable [DecidableEq Tid]

@[simp] theorem goto_pc_self : (s.goto t pc').pc t = pc' := update_self _ _ _

theorem goto_pc_ne (h : t' ≠ t) : (s.goto t pc').pc t' = s.pc t' := update_of_ne h _ _

/-- A property of the place of every thread, after one of them has moved. -/
theorem forall_goto {P : Tid → Pc Gen → Prop} (h : ∀ t', P t' (s.pc t')) (hpc : P t pc') :
    ∀ t', P t' ((s.goto t pc').pc t') :=
  (forall_update_iff s.pc P).2 ⟨hpc, fun t' _ => h t'⟩

/-! ## Steps that only move a thread -/

theorem linking_goto (hpc : (s.pc t).transit = none) (h : Linking s g p) :
    Linking (s.goto t pc') g p := by
  obtain ⟨t', n, hlink⟩ := h
  refine ⟨t', n, (goto_pc_ne ?_).trans hlink⟩
  rintro rfl
  rw [hlink] at hpc
  cases hpc

/-- What is the same for two places of a thread is the same for all threads. -/
theorem goto_congr {f : Pc Gen → β} (h : f pc' = f (s.pc t)) (t' : Tid) :
    f ((s.goto t pc').pc t') = f (s.pc t') :=
  forall_goto (P := fun t' pc => f pc = f (s.pc t')) (fun _ => rfl) h t'

theorem LockInv.goto (h : LockInv s)
    (hheld : pc'.holdsLock = true → s.globalAllocMutex = some t) (hchecked : pc'.Checked)
    (hboundary : ∀ g, pc'.expanding = some g → pageBytes ∣ s.a g) : LockInv (s.goto t pc') where
  held := forall_goto (P := fun t pc => pc.holdsLock = true → s.globalAllocMutex = some t)
    h.held hheld
  checked := forall_goto (P := fun _ pc => pc.Checked) h.checked hchecked
  boundary := forall_goto (P := fun _ pc => ∀ g, pc.expanding = some g → pageBytes ∣ s.a g)
    h.boundary hboundary

theorem PageInv.goto (h : PageInv s L) (hpc : (s.pc t).transit = none) (hpc' : pc'.transit = none) :
    PageInv (s.goto t pc') L :=
  { h with
    transit := forall_goto
      (P := fun t pc => ∀ p, L.place p = some (.transit t) ↔ pc.transit = some p)
      h.transit (fun p => by rw [h.transit, hpc, hpc'])
    transit_next := forall_goto (P := fun _ pc => ∀ p, pc.transit = some p → s.next p = 0)
      h.transit_next (fun p hp => by rw [hpc'] at hp; cases hp)
    mapped := h.mapped
    taken := fun g p hmem => (h.taken g p hmem).imp_left (linking_goto hpc) }

theorem PtrInv.goto (h : PtrInv s L) (hfresh : pc'.fresh = (s.pc t).fresh) :
    PtrInv (s.goto t pc') L := by
  have hall := goto_congr (f := Pc.fresh) hfresh
  refine ⟨h.inPage, h.header, ?_, ?_⟩
  · simp only [hall]
    exact h.current
  · simp only [hall]
    exact h.fresh

theorem BlockInv.goto (h : BlockInv s L) (hfresh : pc'.fresh = (s.pc t).fresh) :
    BlockInv (s.goto t pc') L := by
  have hall := goto_congr (f := Pc.fresh) hfresh
  refine ⟨h.pos, ?_, h.large, h.apart⟩
  simp only [hall]
  exact h.small

theorem LobjInv.goto (h : LobjInv s L)
    (hpush : ∀ g n p, pc' = .pushLarge g n p → s.lobjNext p = s.lobjs g)
    (hpending : ∀ g n p, pc'.pending = some (g, n, p) → PendingInv s L g n p) :
    LobjInv (s.goto t pc') L where
  chain := h.chain
  mapped := h.mapped
  linked := forall_goto
    (P := fun _ pc => ∀ g n p, pc = .pushLarge g n p → s.lobjNext p = s.lobjs g) h.linked hpush
  pending := by
    have hall := forall_goto (t := t)
      (P := fun _ pc => ∀ g n p, pc.pending = some (g, n, p) → PendingInv s L g n p)
      h.pending hpending
    intro t' g n p hp
    exact { hall t' g n p hp with mapped := (hall t' g n p hp).mapped }

theorem Inv.goto (h : Inv s L) (hpc : (s.pc t).Plain) (hpc' : pc'.Plain)
    (hlock : LockInv (s.goto t pc')) : Inv (s.goto t pc') L where
  lock := hlock
  page := h.page.goto hpc.transit hpc'.transit
  ptr := h.ptr.goto (hpc'.fresh.trans hpc.fresh.symm)
  block := h.block.goto (hpc'.fresh.trans hpc.fresh.symm)
  lobj := h.lobj.goto (fun g n p hp => absurd hp hpc'.not_pushLarge)
    (fun g n p hp => by rw [hpc'.pending] at hp; cases hp)

end Goto

/-! ## Moving the allocation pointer in its page -/

theorem LobjInv.withPtr (h : LobjInv s L) (a : Gen → Nat) : LobjInv { s with a := a } L :=
  { h with
    mapped := h.mapped
    pending := fun t g n p hp =>
      { h.pending t g n p hp with mapped := (h.pending t g n p hp).mapped } }

section Move

variable [DecidableEq Gen]

theorem Inv.move (h : Inv s L) (hle : s.a g ≤ a') (hle' : a' ≤ lastRp (s.a g) + pageBytes)
    (hexp : ∀ t, (s.pc t).expanding = some g → pageBytes ∣ a') :
    Inv { s with a := update s.a g a' } L := by
  have hin : InPage (lastRp (s.a g)) a' := (h.ptr.inPage g).mono hle hle'
  have hrp : ∀ g', lastRp (update s.a g a' g') = lastRp (s.a g') :=
    (forall_update_iff s.a fun g' a => lastRp a = lastRp (s.a g')).2
      ⟨hin.lastRp_eq, fun _ _ => rfl⟩
  have hge : s.a ≤ update s.a g a' := le_update_self_iff.2 hle
  constructor
  · exact { h.lock with
      boundary := fun t =>
        (forall_update_iff s.a fun g' a => (s.pc t).expanding = some g' → pageBytes ∣ a).2
          ⟨hexp t, fun g' _ => h.lock.boundary t g'⟩ }
  · exact { h.page with mapped := h.page.mapped, taken := h.page.taken }
  · constructor
    · exact (forall_update_iff s.a fun _ a => InPage (lastRp a) a).2
        ⟨hin.lastRp_eq.symm ▸ hin, fun g' _ => h.ptr.inPage g'⟩
    all_goals simp only [hrp]
    · exact fun g' => le_trans (h.ptr.header g') (hge g')
    · exact h.ptr.current
    · exact h.ptr.fresh
  · refine { h.block with small := fun b hb hn => ?_, large := h.block.large }
    obtain ⟨p, hp, hlo, hhi, hcur, hfresh⟩ := h.block.small b hb hn
    refine ⟨p, hp, hlo, hhi, fun heq => ?_, hfresh⟩
    exact le_trans (hcur (heq.trans (hrp b.gen))) (hge b.gen)
  · exact h.lobj.withPtr _

theorem Inv.bump (h : Inv s L) (hn : 1 ≤ n) (hfits : s.a g + wordBytes * n ≤ rpBoundary (s.a g)) :
    Inv (s.bump g n (s.a g)) L := by
  rw [h.ptr.rpBoundary_eq] at hfits
  -- nobody has stored the boundary of this generation
  have hexp : ∀ t, (s.pc t).expanding ≠ some g := by
    intro t hg
    have hbound := h.ptr.eq_boundary (h.lock.boundary t g hg)
    simp only [wordBytes] at hfits
    omega
  have hmoved := h.move (le_add_right _ (wordBytes * n)) hfits (fun t hg => absurd hg (hexp t))
  refine hmoved.addBlock (b := ⟨g, s.a g, n⟩) ⟨hn, ?_, ?_⟩
  · refine ⟨lastRp (s.a g), h.ptr.lastRp_mem g, h.ptr.header g, hfits, fun _ => ?_, ?_⟩
    · show s.a g + wordBytes * n ≤ update s.a g (s.a g + wordBytes * n) g
      rw [update_self]
    · rintro t g' np hnp rfl
      have hgen := h.page.gen_unique (h.ptr.lastRp_mem g) (h.ptr.fresh_mem hnp)
      exact hexp t (hgen ▸ Pc.expanding_of_fresh hnp)
  · intro c hc
    refine h.apart_of_page hn (h.ptr.lastRp_mem g) ?_ hfits hc ?_
    · exact le_trans (le_add_right _ _) (h.ptr.header g)
    · intro _ _ _ hcur _
      exact .inr (hcur rfl)

end Move

end MLKit.Runtime.Par
