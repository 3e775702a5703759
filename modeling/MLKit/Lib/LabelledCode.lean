import Mathlib.Data.List.Nodup
import Mathlib.Logic.Relation

/-!
# Program text with labels

A program is a list of instructions, some of which define a label.  Control
stands at a suffix of the text; a jump goes to the text after the definition of
its label.
-/

namespace MLKit.Lib

open List

section Text

variable {ι κ : Type*} (labelOf : ι → Option κ)

def labelsIn (text : List ι) : List κ := text.filterMap labelOf

@[simp] theorem labelsIn_nil : labelsIn labelOf [] = [] := rfl

variable {text : List ι} {inst : ι}

theorem labelsIn_cons :
    labelsIn labelOf (inst :: text) = (labelOf inst).toList ++ labelsIn labelOf text := by
  cases h : labelOf inst with
  | none => simp [labelsIn, filterMap_cons_none h]
  | some lab => simp [labelsIn, filterMap_cons_some h]

@[simp] theorem labelsIn_append (text text' : List ι) :
    labelsIn labelOf (text ++ text') = labelsIn labelOf text ++ labelsIn labelOf text' :=
  filterMap_append

variable [DecidableEq κ]

/-- The text after the definition of a label. -/
def codeFrom (lab : κ) : List ι → Option (List ι)
  | [] => none
  | inst :: text => if labelOf inst = some lab then some text else codeFrom lab text

variable {labelOf} {prog : List ι} {inst : ι} {lab : κ}

/-- Where every label is defined once, any definition of a label is the one a
jump finds. -/
theorem codeFrom_of_suffix (hnodup : (labelsIn labelOf prog).Nodup)
    (hinst : labelOf inst = some lab) (hsuffix : inst :: text <:+ prog) :
    codeFrom labelOf lab prog = some text := by
  obtain ⟨front, rfl⟩ := hsuffix
  induction front with
  | nil => simp [codeFrom, hinst]
  | cons inst' front ih =>
    have hlater : lab ∈ labelsIn labelOf (front ++ inst :: text) := by
      simp [labelsIn_cons, hinst]
    rw [cons_append, labelsIn_cons] at hnodup
    have hne : labelOf inst' ≠ some lab := by
      intro heq
      rw [heq] at hnodup
      exact (nodup_cons.1 hnodup).1 hlater
    rw [cons_append, codeFrom, if_neg hne]
    exact ih (nodup_append.1 hnodup).2.1

end Text

section Runs

variable {σ : Type*} (step : σ → Option σ)

/-- The configurations a deterministic machine passes through. -/
abbrev Reaches : σ → σ → Prop := Relation.ReflTransGen fun c c' => step c = some c'

variable {step} {c c' : σ}

theorem Reaches.of_step (h : step c = some c') : Reaches step c c' := Relation.ReflTransGen.single h

variable {c1 c2 : σ}

/-- Two configurations of one run are passed one after the other. -/
theorem Reaches.total (h1 : Reaches step c c1) (h2 : Reaches step c c2) :
    Reaches step c1 c2 ∨ Reaches step c2 c1 :=
  Relation.ReflTransGen.total_of_right_unique
    (fun _ _ _ h h' => Option.some.inj (h.symm.trans h')) h1 h2

end Runs

end MLKit.Lib
