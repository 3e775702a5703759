import MLKit.Lib.LabelledCode

/-!
# Runs with silent steps

A machine makes silent steps, which are determined, until it comes to a configuration with an event.
Two machines have the same runs when related configurations come to configurations with the same
events, after which they are related again. A machine may also get stuck, which is an event of its
own; then nothing is asked of the other machine.
-/

namespace MLKit.Lib

variable {σ τ ε : Type*}

structure Machine (σ ε : Type*) where
  silent : σ → Option σ
  emits : σ → ε → Option σ → Prop

namespace Machine

/-- The configuration with the next event. -/
def Lands (M : Machine σ ε) (c d : σ) : Prop := Reaches M.silent c d ∧ M.silent d = none

/-- The events of the runs of a machine; a run that goes on no further is one of its runs. -/
inductive Runs (M : Machine σ ε) : σ → List ε → Prop where
  | nil {c : σ} : Runs M c []
  | last {c d : σ} {e : ε} : M.Lands c d → M.emits d e none → Runs M c [e]
  | step {c c' d : σ} {e : ε} {es : List ε} : M.Lands c d → M.emits d e (some c') →
      Runs M c' es → Runs M c (e :: es)

variable {M : Machine σ ε} {N : Machine τ ε} {c d d' : σ}

theorem Lands.of_reaches {c' : σ} (h : Reaches M.silent c c') (hland : M.Lands c' d) : M.Lands c d :=
  ⟨h.trans hland.1, hland.2⟩

theorem eq_of_reaches (h : Reaches M.silent d d') (hd : M.silent d = none) : d' = d := by
  rcases Relation.ReflTransGen.cases_head h with heq | ⟨c, hstep, -⟩
  · exact heq.symm
  · rw [hd] at hstep
    cases hstep

theorem Lands.unique (h : M.Lands c d) (h' : M.Lands c d') : d' = d := by
  rcases h.1.total h'.1 with hreach | hreach
  · exact eq_of_reaches hreach h.2
  · exact (eq_of_reaches hreach h'.2).symm

/-- Two configurations with the same events, after which they are related. -/
structure Match (M : Machine σ ε) (N : Machine τ ε) (R : σ → τ → Prop) (d : σ) (d' : τ) : Prop where
  forth : ∀ e o, M.emits d e o → ∃ o', N.emits d' e o' ∧ Option.Rel R o o'
  back : ∀ e o', N.emits d' e o' → ∃ o, M.emits d e o ∧ Option.Rel R o o'

/-- Related configurations come to matching ones, or the first machine gets stuck. -/
def Simulates (M : Machine σ ε) (N : Machine τ ε) (stuck : ε) (R : σ → τ → Prop) : Prop :=
  ∀ c c', R c c' → ∃ d, M.Lands c d ∧
    (M.emits d stuck none ∨ ∃ d', N.Lands c' d' ∧ Match M N R d d')

section

variable {stuck : ε} {R : σ → τ → Prop} {c' : τ} {es : List ε} (hsim : Simulates M N stuck R)

include hsim

theorem exists_match (hR : R c c') (hsafe : ∀ es, M.Runs c es → stuck ∉ es) :
    ∃ d d', M.Lands c d ∧ N.Lands c' d' ∧ Match M N R d d' := by
  obtain ⟨d, hd, hstuck | ⟨d', hd', hmatch⟩⟩ := hsim c c' hR
  · exact absurd (.head _) (hsafe _ (.last hd hstuck))
  · exact ⟨d, d', hd, hd', hmatch⟩

theorem runs_forward (hruns : M.Runs c es) (hR : R c c') (hsafe : ∀ es, M.Runs c es → stuck ∉ es) :
    N.Runs c' es := by
  induction hruns generalizing c' with
  | nil => exact .nil
  | last hland hemit =>
    obtain ⟨d, d', hd, hd', hmatch⟩ := exists_match hsim hR hsafe
    rw [hd.unique hland] at hemit
    obtain ⟨o', hemit', hrel⟩ := hmatch.forth _ _ hemit
    cases hrel
    exact .last hd' hemit'
  | step hland hemit hrest ih =>
    obtain ⟨d, d', hd, hd', hmatch⟩ := exists_match hsim hR hsafe
    rw [hd.unique hland] at hemit
    obtain ⟨o', hemit', hrel⟩ := hmatch.forth _ _ hemit
    cases hrel with
    | some hnext =>
      refine .step hd' hemit' (ih hnext fun es hes hmem => ?_)
      exact hsafe _ (.step hd hemit hes) (.tail _ hmem)

theorem runs_backward (hruns : N.Runs c' es) (hR : R c c')
    (hsafe : ∀ es, M.Runs c es → stuck ∉ es) :
    M.Runs c es := by
  induction hruns generalizing c with
  | nil => exact .nil
  | last hland hemit =>
    obtain ⟨d, d', hd, hd', hmatch⟩ := exists_match hsim hR hsafe
    rw [hd'.unique hland] at hemit
    obtain ⟨o, hemit', hrel⟩ := hmatch.back _ _ hemit
    cases hrel
    exact .last hd hemit'
  | step hland hemit hrest ih =>
    obtain ⟨d, d', hd, hd', hmatch⟩ := exists_match hsim hR hsafe
    rw [hd'.unique hland] at hemit
    obtain ⟨o, hemit', hrel⟩ := hmatch.back _ _ hemit
    cases hrel with
    | some hnext =>
      refine .step hd hemit' (ih hnext fun es hes hmem => ?_)
      exact hsafe _ (.step hd hemit' hes) (.tail _ hmem)

/-- A machine that does not get stuck has the runs of a machine it simulates. -/
theorem runs_iff (hR : R c c') (hsafe : ∀ es, M.Runs c es → stuck ∉ es) (es : List ε) :
    M.Runs c es ↔ N.Runs c' es :=
  ⟨fun h => runs_forward hsim h hR hsafe, fun h => runs_backward hsim h hR hsafe⟩

end

end Machine

end MLKit.Lib
