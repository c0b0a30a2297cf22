import Mathlib.Data.List.Basic
import Mathlib.Data.Multiset.Filter
import Mathlib.Data.Multiset.Sort
import Prequal.Foundation.OrderStatistic
import Prequal.Foundation.Vec

/-!
# Abstract collections and simulation

A container that picks an extreme element of an unordered collection is
specified by which elements are extreme.  Where only one is, the choice is
determined.  A deterministic system refines a relation when each of its steps
is one of the relation, seen through an abstraction function; whole runs then
are runs of the relation.
-/

namespace Prequal.Foundation

open scoped List

/-! ## Extreme elements of a multiset -/

section Extremes

variable {α β : Type*} [LinearOrder β]

structure LeastIn (key : α → β) (s : Multiset α) (p : α) : Prop where
  mem : p ∈ s
  least : ∀ q ∈ s, key p ≤ key q

structure GreatestIn (key : α → β) (s : Multiset α) (p : α) : Prop where
  mem : p ∈ s
  greatest : ∀ q ∈ s, key q ≤ key p

theorem LeastIn.ne_zero {key : α → β} {s : Multiset α} {p : α}
    (h : LeastIn key s p) : s ≠ 0 := by
  rintro rfl
  exact Multiset.notMem_zero p h.mem

theorem GreatestIn.ne_zero {key : α → β} {s : Multiset α} {p : α}
    (h : GreatestIn key s p) : s ≠ 0 := by
  rintro rfl
  exact Multiset.notMem_zero p h.mem

def OnlyOne (P : α → Prop) : Prop := ∀ p q, P p → P q → p = q

theorem onlyOne_leastIn {key : α → β} {s : Multiset α}
    (h : (s.map key).Nodup) : OnlyOne (LeastIn key s) := by
  intro p q hp hq
  have hkeys : key p = key q :=
    le_antisymm (hp.least q hq.mem) (hq.least p hp.mem)
  exact Multiset.inj_on_of_nodup_map h p hp.mem q hq.mem hkeys

theorem IsFirstMin.leastIn {keep : α → Bool} {key : α → β} {v : List α}
    {i : Nat} {x : α} (h : IsFirstMin keep key v i x) :
    LeastIn key ((v : Multiset α).filter fun p => keep p = true) x where
  mem := Multiset.mem_filter.mpr ⟨List.mem_of_getElem? h.get, h.kept⟩
  least := fun q hq =>
    h.least q (Multiset.mem_filter.mp hq).1 (Multiset.mem_filter.mp hq).2

end Extremes

theorem kthSmallest_eq_sort {α : Type*} [LinearOrder α] (l : List α)
    (i : Nat) : kthSmallest l i = ((l : Multiset α).sort (· ≤ ·))[i]? := by
  have hsorted : l.insertionSort (· ≤ ·) = (l : Multiset α).sort (· ≤ ·) := by
    apply List.Perm.eq_of_pairwise' (r := (· ≤ ·))
    · exact List.pairwise_insertionSort _ l
    · exact Multiset.pairwise_sort _ _
    · rw [← Multiset.coe_eq_coe, Multiset.sort_eq, Multiset.coe_eq_coe]
      exact List.perm_insertionSort _ l
  rw [kthSmallest, hsorted]

theorem coe_eq_erase {α : Type*} [DecidableEq α] {v w : List α} {x : α}
    (h : x :: w ~ v) : (w : Multiset α) = (v : Multiset α).erase x := by
  rw [← Multiset.coe_eq_coe.mpr h, ← Multiset.cons_coe,
    Multiset.erase_cons_head]

/-! ## Runs of a relation -/

section Traces

variable {σ τ ε ω ρ : Type*}

/-- A run of a relation, with the events it consumes and what it returns. -/
inductive Trace (Step : τ → ε → ω → τ → Prop) :
    τ → List ε → List ω → τ → Prop
  | nil (s : τ) : Trace Step s [] [] s
  | cons {s s' s'' : τ} {e : ε} {o : ω} {events : List ε} {outs : List ω}
      (step : Step s e o s') (rest : Trace Step s' events outs s'') :
      Trace Step s (e :: events) (o :: outs) s''

def outputs (step : σ → ε → σ) (out : σ → ε → ρ) : σ → List ε → List ρ
  | _, [] => []
  | s, e :: events => out s e :: outputs step out (step s e) events

theorem Trace.of_steps {Step : τ → ε → ω → τ → Prop} {step : σ → ε → σ}
    {out : σ → ε → ρ} {abs : σ → τ} {ok : ω → ρ} {init : σ}
    {events : List ε}
    (h : ∀ past e rest, events = past ++ e :: rest → ∃ o,
      out (past.foldl step init) e = ok o ∧
        Step (abs (past.foldl step init)) e o
          (abs (step (past.foldl step init) e))) :
    ∃ outs, outputs step out init events = outs.map ok ∧
      Trace Step (abs init) events outs (abs (events.foldl step init)) := by
  induction events generalizing init with
  | nil => exact ⟨[], rfl, .nil _⟩
  | cons e events ih =>
      obtain ⟨o, hout, hstep⟩ := h [] e events rfl
      have hrest : ∀ past e' rest, events = past ++ e' :: rest → ∃ o,
          out (past.foldl step (step init e)) e' = ok o ∧
            Step (abs (past.foldl step (step init e))) e' o
              (abs (step (past.foldl step (step init e)) e')) := by
        intro past e' rest heq
        exact h (e :: past) e' rest (by rw [heq, List.cons_append])
      obtain ⟨outs, houts, htrace⟩ := ih hrest
      refine ⟨o :: outs, ?_, .cons hstep htrace⟩
      rw [outputs, houts, List.map_cons]
      exact congrArg (· :: _) hout

end Traces

end Prequal.Foundation
