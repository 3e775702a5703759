import MLKit.Lambda.MatchDescriptions

/-!
# Tests decided at compile time

`staticmatch` identifies constructors by the long identifiers they are written with
and counts them.  Its answers are right when no value constructor of which there is a
value has two of the identifiers, and when its datatype is not used up by
identifiers of the other constructors.
-/

namespace MLKit.Lambda.Match

open MLKit.Lib List

variable {τ : Ty} {c p : Con} {ts args : List Ty} {u : Val} {tn : Nat} {d : Termd}

namespace Scope

variable (sc : Scope)

/-- Every value constructor that some value is built with has at most one identifier,
and its datatype has more constructors than the others have identifiers. -/
def Distinguishes : Prop :=
  ∀ (c : DataCon) (vs : List Val) (args : List Ty), sc.HasTy (.con c vs) (.data c.tn args) →
    (∀ x y, sc.con x = some c → sc.con y = some c → x = y) ∧
    ∀ xs : List Longid, xs.Nodup → (∀ x ∈ xs, ∃ d, sc.con x = some d ∧ d.tn = c.tn ∧ d ≠ c) →
      xs.length < sc.numCons c.tn

variable {sc}

theorem ConTy.span_ok (hc : sc.ConTy c τ ts) : ∃ s, span c = .ok s := by
  cases c with
  | con x span nullary => exact ⟨span, rfl⟩
  | scon s =>
    cases s with
    | integer _ | string _ | word _ => exact ⟨.infinite, rfl⟩
    | char _ => exact ⟨.finite 256, rfl⟩
    | real r => cases τ <;> exact hc.1.elim
  | excon x nullary => exact ⟨.infinite, rfl⟩
  | tuple n => exact ⟨.finite 1, rfl⟩

theorem staticmatch_ok (hc : sc.ConTy c τ ts) (d : Termd) : ∃ r, staticmatch c d = .ok r := by
  cases d with
  | pos pcon ds => exact ⟨_, rfl⟩
  | neg n =>
    obtain ⟨s, hs⟩ := hc.span_ok
    rw [staticmatch]
    split
    · exact ⟨_, rfl⟩
    · exact ⟨_, ok_bind hs⟩

/-- A value is built with one constructor. -/
theorem conEq_of_builtWith (h : sc.Distinguishes) (hu : sc.HasTy u τ)
    (hp : sc.ConTy p τ ts) (hc : sc.builtWith c u = true) (hpu : sc.builtWith p u = true)
    (hex : p.isExcon = false) : conEq c p = true := by
  cases builds_of_builtWith hc with
  | con hx =>
    cases builds_of_builtWith hpu with
    | con hy =>
      obtain ⟨c', args, hy', -, -, rfl, -⟩ := hp
      cases hy.symm.trans hy'
      simpa [conEq] using (h _ _ args hu).1 _ _ hx hy
  | scon =>
    cases builds_of_builtWith hpu with
    | scon => simp [conEq]
  | excon hx =>
    cases builds_of_builtWith hpu with
    | excon hy => cases hex
  | record =>
    cases builds_of_builtWith hpu with
    | record => simp [conEq]

/-! ## Counting the constructors of a type -/

theorem member_iff {n : Negset} (hc : sc.ConTy c τ ts)
    (hn : ∀ e ∈ n.cons, ∃ us, sc.ConTy e τ us) : n.member c = true ↔ c ∈ n.cons := by
  rw [Negset.member, any_eq_true]
  constructor
  · rintro ⟨e, he, heq⟩
    obtain ⟨us, hty⟩ := hn e he
    rwa [hc.eq_of_conEq hty heq]
  · intro hmem
    exact ⟨c, hmem, conEq_refl c⟩

/-- The identifier of a value constructor. -/
def longidOf : Con → Longid
  | .con x _ _ => x
  | _ => ⟨[], ""⟩

theorem ConTy.data (hc : sc.ConTy c (.data tn args) ts) :
    ∃ x d, c = .con x (.finite (sc.numCons tn)) (sc.conArg d).isNone ∧ sc.con x = some d ∧
      d.tn = tn := by
  cases c with
  | con x span nullary =>
    obtain ⟨d, args', hx, rfl, rfl, hτ, -⟩ := hc
    cases hτ
    exact ⟨x, d, rfl, hx, rfl⟩
  | scon s => cases s <;> exact hc.1.elim
  | excon x nullary =>
    obtain ⟨e, -, -, hτ, -⟩ := hc
    cases hτ
  | tuple n => cases hc.1

/-- Pairwise different constructors of a datatype, none of which built the value, are
fewer than the datatype has. -/
theorem length_lt_numCons (h : sc.Distinguishes) {l : List Con} (hu : sc.HasTy u (.data tn args))
    (hnd : l.Nodup)
    (hl : ∀ c ∈ l, (∃ ts, sc.ConTy c (.data tn args) ts) ∧ sc.builtWith c u = false) :
    l.length < sc.numCons tn := by
  cases u with
  | con e vs =>
    obtain ⟨rfl, hlt, hvs⟩ := hu
    have hxs := (h e vs args ⟨rfl, hlt, hvs⟩).2 (l.map longidOf) ?_ ?_
    · simpa using hxs
    · refine hnd.map_on fun c hc c' hc' heq => ?_
      obtain ⟨⟨ts, hty⟩, -⟩ := hl c hc
      obtain ⟨⟨ts', hty'⟩, -⟩ := hl c' hc'
      obtain ⟨x, d, rfl, -, -⟩ := hty.data
      obtain ⟨x', d', rfl, -, -⟩ := hty'.data
      exact hty.eq_of_conEq hty' (by simpa [conEq, longidOf] using heq)
    · intro x hx
      obtain ⟨c, hc, rfl⟩ := mem_map.1 hx
      obtain ⟨⟨ts, hty⟩, hb⟩ := hl c hc
      obtain ⟨y, d, rfl, hy, htn⟩ := hty.data
      refine ⟨d, hy, htn, ?_⟩
      rintro rfl
      simp [builtWith, hy] at hb
  | scon s => cases s <;> exact hu.elim
  | excon _ _ | record _ | other _ => exact hu.elim

/-- Pairwise different characters, none of which is the value, are fewer than 256. -/
theorem length_lt_chars {l : List Con} (hu : sc.HasTy u .char) (hnd : l.Nodup)
    (hl : ∀ c ∈ l, (∃ ts, sc.ConTy c .char ts) ∧ sc.builtWith c u = false) : l.length < 256 := by
  have hchar : ∀ c ∈ l, ∃ k : Int, c = .scon (.char k) ∧ 0 ≤ k ∧ k < 256 := by
    intro c hc
    obtain ⟨⟨ts, hty⟩, -⟩ := hl c hc
    cases c with
    | scon s =>
      cases s with
      | char k => exact ⟨k, rfl, hty.1⟩
      | integer _ | string _ | real _ | word _ => exact hty.1.elim
    | con x span nullary =>
      obtain ⟨d, args, -, -, -, hτ, -⟩ := hty
      cases hτ
    | excon x nullary =>
      obtain ⟨e, -, -, hτ, -⟩ := hty
      cases hτ
    | tuple n => cases hty.1
  obtain ⟨k, rfl, hk⟩ : ∃ k : Int, u = .scon (.char k) ∧ 0 ≤ k ∧ k < 256 := by
    cases u with
    | scon s =>
      cases s with
      | char k => exact ⟨k, rfl, hu⟩
      | integer _ | string _ | real _ | word _ => exact hu.elim
    | con _ _ | excon _ _ | record _ | other _ => exact hu.elim
  have hnot : Con.scon (.char k) ∉ l := by
    intro hmem
    have hb := (hl _ hmem).2
    simp [builtWith] at hb
  have hsub : (Con.scon (.char k) :: l) ⊆
      (List.range 256).map fun i : Nat => Con.scon (.char (Int.ofNat i)) := by
    intro c hc
    rw [mem_map]
    rcases mem_cons.1 hc with rfl | hc
    · exact ⟨k.toNat, by simp; omega, by simp [hk.1]⟩
    · obtain ⟨j, rfl, hj⟩ := hchar c hc
      exact ⟨j.toNat, by simp; omega, by simp [hj.1]⟩
  have hle := ((nodup_cons.2 ⟨hnot, hnd⟩).subperm hsub).length_le
  simp only [length_cons, length_map, length_range] at hle
  omega

/-! ## Soundness -/

theorem staticmatch_yes (h : sc.Distinguishes) (hu : sc.HasTy u τ) (hc : sc.ConTy c τ ts)
    (hd : sc.Describes d u τ) (hs : staticmatch c d = .ok .yes) : sc.builtWith c u = true := by
  cases d with
  | pos pcon ds =>
    obtain ⟨us, hp, hb, -⟩ := hd
    by_cases heq : conEq c pcon = true
    · rwa [hc.eq_of_conEq hp heq]
    · simp only [staticmatch, if_neg heq] at hs
      split at hs <;> cases hs
  | neg n =>
    obtain ⟨hsize, hnd, hn⟩ := hd
    by_contra hb
    have hb : sc.builtWith c u = false := by simpa using hb
    have hmem : ¬ n.member c = true := by
      intro hmem
      rw [staticmatch, if_pos hmem] at hs
      cases hs
    have hnot : c ∉ n.cons := fun hmem' => hmem ((member_iff hc fun e he => (hn e he).1).2 hmem')
    have hnd' : (c :: n.cons).Nodup := nodup_cons.2 ⟨hnot, hnd⟩
    have hl : ∀ e ∈ c :: n.cons, (∃ us, sc.ConTy e τ us) ∧ sc.builtWith e u = false := by
      exact forall_mem_cons.2 ⟨⟨⟨ts, hc⟩, hb⟩, hn⟩
    obtain ⟨s, hspan⟩ := hc.span_ok
    rw [staticmatch, if_neg hmem, ok_bind hspan] at hs
    have hcount : s = .finite (n.size + 1) := by
      cases s with
      | infinite => simp [Span.eqInt] at hs
      | finite m =>
        by_cases hm : m = n.size + 1
        · rw [hm]
        · simp [Span.eqInt, hm] at hs
    subst hcount
    cases c with
    | con x span nullary =>
      cases hspan
      obtain ⟨e, args, hx, hfin, -, rfl, -⟩ := hc
      have hlt := length_lt_numCons h hu hnd' hl
      have hfin := Span.finite.inj hfin
      simp only [length_cons] at hlt
      omega
    | scon t =>
      cases t with
      | char k =>
        have h256 : 256 = n.size + 1 := Span.finite.inj (Except.ok.inj hspan)
        cases τ with
        | char =>
          have hlt := length_lt_chars hu hnd' hl
          simp only [length_cons] at hlt
          omega
        | integer _ | word _ | string | exn | record _ | data _ _ | other _ =>
          exact hc.1.elim
      | integer _ | string _ | real _ | word _ => cases hspan
    | excon x nullary => cases hspan
    | tuple m =>
      obtain ⟨rfl, rfl⟩ := hc
      cases u with
      | record vs =>
        have hlen := HasTys.length_eq hu
        simp [builtWith, hlen] at hb
      | scon s => cases s <;> exact hu.elim
      | con _ _ | excon _ _ | other _ => exact hu.elim

theorem staticmatch_no (h : sc.Distinguishes) (hu : sc.HasTy u τ) (hc : sc.ConTy c τ ts)
    (hd : sc.Describes d u τ) (hs : staticmatch c d = .ok .no) : sc.builtWith c u = false := by
  cases d with
  | pos pcon ds =>
    obtain ⟨us, hp, hb, -⟩ := hd
    by_contra hbc
    have hbc : sc.builtWith c u = true := by simpa using hbc
    have hex : pcon.isExcon = false := by
      by_contra hex
      have hex : pcon.isExcon = true := by simpa using hex
      simp only [staticmatch, hex, if_true] at hs
      split at hs <;> cases hs
    have heq := conEq_of_builtWith h hu hp hbc hb hex
    simp [staticmatch, heq] at hs
  | neg n =>
    obtain ⟨-, -, hn⟩ := hd
    have hmem : n.member c = true := by
      by_contra hmem
      obtain ⟨s, hspan⟩ := hc.span_ok
      rw [staticmatch, if_neg hmem, ok_bind hspan] at hs
      cases hs' : s.eqInt (n.size + 1) <;> simp [hs'] at hs
    exact (hn c ((member_iff hc fun e he => (hn e he).1).1 hmem)).2

end Scope

end MLKit.Lambda.Match
