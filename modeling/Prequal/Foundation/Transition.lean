import Mathlib.Data.List.Chain
import Mathlib.Logic.Relation

/-!
# Runs of a transition relation

Rules for relations whose runs may branch: invariants of steps are invariants
of runs, a measure that every step lowers bounds the length of a run, and a
relation whose steps are steps of another or change nothing refines it.
-/

namespace Prequal.Foundation

open Relation

variable {σ τ : Type*} {R : σ → σ → Prop} {a b : σ}

theorem invariant_of_step {I : σ → Prop} (hstep : ∀ a b, I a → R a b → I b)
    (ha : I a) (h : ReflTransGen R a b) : I b := by
  induction h with
  | refl => exact ha
  | tail _ hlast ih => exact hstep _ _ ih hlast

/-! ## Measures -/

section Measure

variable {m : σ → Nat} {I : σ → Prop}

theorem chain_length_le (hinv : ∀ a b, I a → R a b → I b)
    (hdec : ∀ a b, I a → R a b → m b < m a) {run : List σ} (ha : I a)
    (h : (a :: run).IsChain R) : run.length ≤ m a := by
  induction run generalizing a with
  | nil => exact Nat.zero_le _
  | cons b run ih =>
      obtain ⟨hab, hrest⟩ := List.isChain_cons_cons.mp h
      have hlt := hdec a b ha hab
      have hle := ih (hinv a b ha hab) hrest
      rw [List.length_cons]
      omega

theorem exists_at_rest (hinv : ∀ a b, I a → R a b → I b)
    (hdec : ∀ a b, I a → R a b → m b < m a) (ha : I a) :
    ∃ b, ReflTransGen R a b ∧ ∀ c, ¬ R b c := by
  induction hn : m a using Nat.strong_induction_on generalizing a with
  | _ n ih =>
      by_cases hrest : ∀ c, ¬ R a c
      · exact ⟨a, .refl, hrest⟩
      · push Not at hrest
        obtain ⟨c, hac⟩ := hrest
        obtain ⟨b, hcb, hb⟩ := ih (m c) (hn ▸ hdec a c ha hac)
          (hinv a c ha hac) rfl
        exact ⟨b, .head hac hcb, hb⟩

end Measure

/-! ## Refinement -/

/--
The image of a run is a run of the relation it refines.  Steps need to be
matched where the invariant holds, and a step that changes nothing in the image
is matched by none.
-/
theorem refines_of_steps {S : τ → τ → Prop} {f : σ → τ} {I : σ → Prop}
    (hinv : ∀ a b, I a → R a b → I b)
    (hsim : ∀ a b, I a → R a b → f b = f a ∨ S (f a) (f b)) (ha : I a)
    (h : ReflTransGen R a b) : ReflTransGen S (f a) (f b) := by
  induction h with
  | refl => exact .refl
  | tail hrun hlast ih =>
      rcases hsim _ _ (invariant_of_step hinv ha hrun) hlast with heq | hstep
      · rw [heq]
        exact ih
      · exact ih.tail hstep

end Prequal.Foundation
