import Mathlib.Data.List.Basic
import Mathlib.Data.List.Induction

/-!
# Runs of a deterministic system

A run folds a step function over the events it consumes.  Invariants that
mention the whole history are carried by `foldl_history`, which hands the step
case the events consumed so far, and by `foldlM_history` where a step can fail.
-/

namespace Prequal.Foundation

variable {σ ε : Type*}

theorem foldl_history (step : σ → ε → σ) (P : List ε → σ → Prop) (init : σ)
    (hinit : P [] init)
    (hstep : ∀ (past : List ε) (e : ε) (s : σ),
      P past s → P (past ++ [e]) (step s e)) (events : List ε) :
    P events (events.foldl step init) := by
  induction events using List.reverseRecOn with
  | nil => exact hinit
  | append_singleton past e ih =>
      rw [List.foldl_append]
      exact hstep past e _ ih

/-! ## Steps that can fail -/

section Fallible

universe u v w

variable {σ : Type u} {ε : Type w} {m : Type u → Type v} [Monad m]
  [LawfulMonad m]

theorem foldlM_concat {step : σ → ε → m σ} {init s : σ} {past : List ε}
    (h : past.foldlM step init = pure s) (e : ε) :
    (past ++ [e]).foldlM step init = step s e := by
  rw [List.foldlM_append, h, pure_bind, List.foldlM_cons]
  exact bind_pure _

theorem foldlM_history (step : σ → ε → m σ) (P : List ε → σ → Prop)
    (init : σ) (hinit : P [] init)
    (hstep : ∀ (past : List ε) (e : ε) (s : σ), P past s →
      ∃ s', step s e = pure s' ∧ P (past ++ [e]) s') (events : List ε) :
    ∃ s, events.foldlM step init = pure s ∧ P events s := by
  induction events using List.reverseRecOn with
  | nil => exact ⟨init, rfl, hinit⟩
  | append_singleton past e ih =>
      obtain ⟨s, hrun, hpast⟩ := ih
      obtain ⟨s', hs', hnext⟩ := hstep past e s hpast
      exact ⟨s', (foldlM_concat hrun e).trans hs', hnext⟩

end Fallible

/-! ## Conditions on the steps of a run -/

def Along (step : σ → ε → σ) (P : σ → ε → Prop) : σ → List ε → Prop
  | _, [] => True
  | s, e :: events => P s e ∧ Along step P (step s e) events

theorem along_iff {step : σ → ε → σ} {P Q : σ → ε → Prop} {I : σ → Prop}
    {ok : ε → Prop} (hiff : ∀ s e, I s → ok e → (P s e ↔ Q s e))
    (hkeep : ∀ s e, I s → ok e → Q s e → I (step s e)) {s : σ}
    {events : List ε} (hs : I s) (hok : ∀ e ∈ events, ok e) :
    Along step P s events ↔ Along step Q s events := by
  induction events generalizing s with
  | nil => exact Iff.rfl
  | cons e events ih =>
      have hoke := hok e List.mem_cons_self
      have hrest := fun hQ => ih (hkeep s e hs hoke hQ)
        fun e' he' => hok e' (List.mem_cons_of_mem e he')
      constructor
      · rintro ⟨hP, halong⟩
        have hQ := (hiff s e hs hoke).mp hP
        exact ⟨hQ, (hrest hQ).mp halong⟩
      · rintro ⟨hQ, halong⟩
        exact ⟨(hiff s e hs hoke).mpr hQ, (hrest hQ).mpr halong⟩

end Prequal.Foundation
