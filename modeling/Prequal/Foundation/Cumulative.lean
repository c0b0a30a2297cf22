import Mathlib.Algebra.Order.BigOperators.Group.List
import Mathlib.Algebra.Order.Group.Defs
import Mathlib.Order.Interval.Set.OrdConnected
import Mathlib.Tactic.Abel

/-!
# Drawing in proportion to weights

A draw below the total is used up weight by weight until nothing is left.  The
draws that stop at a weight form an interval, and its ends are the cumulative
weights before and after it, so its length is the weight.
-/

namespace Prequal.Foundation

variable {K : Type*} [AddCommGroup K]

def cumulative (weights : List K) (i : Nat) : K := (weights.take i).sum

@[simp] theorem cumulative_zero (weights : List K) :
    cumulative weights 0 = 0 := rfl

@[simp] theorem cumulative_cons_succ (w : K) (weights : List K) (i : Nat) :
    cumulative (w :: weights) (i + 1) = w + cumulative weights i := by
  simp [cumulative]

theorem cumulative_succ {weights : List K} {i : Nat} {w : K}
    (hw : weights[i]? = some w) :
    cumulative weights (i + 1) = cumulative weights i + w := by
  simp [cumulative, List.take_add_one, hw]

variable [LinearOrder K]

def locate : List K → K → Option Nat
  | [], _ => none
  | w :: weights, x =>
      if x - w ≤ 0 then some 0 else (locate weights (x - w)).map (· + 1)

variable [IsOrderedAddMonoid K]

theorem cumulative_nonneg {weights : List K} (hpos : ∀ w ∈ weights, 0 < w)
    (i : Nat) : 0 ≤ cumulative weights i := by
  apply List.sum_nonneg
  exact fun w hw => (hpos w (List.mem_of_mem_take hw)).le

theorem cumulative_le_sum {weights : List K} (hpos : ∀ w ∈ weights, 0 < w)
    (i : Nat) : cumulative weights i ≤ weights.sum := by
  have hsplit : cumulative weights i + (weights.drop i).sum = weights.sum :=
    List.sum_take_add_sum_drop weights i
  rw [← hsplit]
  apply le_add_of_nonneg_right
  apply List.sum_nonneg
  exact fun w hw => (hpos w (List.mem_of_mem_drop hw)).le

theorem locate_eq_some_iff {weights : List K} (hpos : ∀ w ∈ weights, 0 < w)
    {x : K} {i : Nat} :
    locate weights x = some i ↔ i < weights.length ∧
      (i = 0 ∨ cumulative weights i < x) ∧
        x ≤ cumulative weights (i + 1) := by
  induction weights generalizing x i with
  | nil => simp [locate]
  | cons w weights ih =>
      have hrest : ∀ v ∈ weights, 0 < v :=
        fun v hv => hpos v (List.mem_cons_of_mem w hv)
      cases i with
      | zero =>
          by_cases hx : x ≤ w
          · simp [locate, hx]
          · simp [locate, hx]
      | succ i =>
          have hstep : locate (w :: weights) x = some (i + 1) ↔
              0 < x - w ∧ locate weights (x - w) = some i := by
            by_cases hx : x - w ≤ 0
            · simp [locate, hx, not_lt.mpr hx]
            · simp [locate, hx, not_le.mp hx]
          rw [hstep, ih hrest, cumulative_cons_succ, cumulative_cons_succ,
            List.length_cons, sub_le_iff_le_add']
          constructor
          · rintro ⟨hx, hi, hbefore, hafter⟩
            refine ⟨by omega, .inr ?_, hafter⟩
            rcases hbefore with rfl | hbefore
            · simpa using hx
            · exact lt_sub_iff_add_lt'.mp hbefore
          · rintro ⟨hi, hbefore, hafter⟩
            have hlt := hbefore.resolve_left (Nat.succ_ne_zero i)
            refine ⟨sub_pos.mpr (lt_of_le_of_lt ?_ hlt), by omega,
              .inr (lt_sub_iff_add_lt'.mpr hlt), hafter⟩
            exact le_add_of_nonneg_right (cumulative_nonneg hrest i)

theorem locate_isSome {weights : List K} (hne : weights ≠ []) {x : K}
    (hx : x ≤ weights.sum) : ∃ i, locate weights x = some i := by
  induction weights generalizing x with
  | nil => exact absurd rfl hne
  | cons w weights ih =>
      by_cases hdone : x - w ≤ 0
      · exact ⟨0, by simp [locate, hdone]⟩
      · rw [List.sum_cons, ← sub_le_iff_le_add'] at hx
        have hrest : weights ≠ [] := by
          rintro rfl
          exact hdone hx
        obtain ⟨i, hi⟩ := ih hrest hx
        exact ⟨i + 1, by simp [locate, hdone, hi]⟩

def drawsOf (weights : List K) (i : Nat) : Set K :=
  {x | 0 ≤ x ∧ x < weights.sum ∧ locate weights x = some i}

theorem drawsOf_interval {weights : List K} (hpos : ∀ w ∈ weights, 0 < w)
    {i : Nat} {w : K} (hw : weights[i]? = some w) :
    (drawsOf weights i).OrdConnected ∧
      Set.Ioo (cumulative weights i) (cumulative weights i + w) ⊆
        drawsOf weights i ∧
      drawsOf weights i ⊆
        Set.Icc (cumulative weights i) (cumulative weights i + w) := by
  rw [← cumulative_succ hw]
  refine ⟨⟨?_⟩, ?_, ?_⟩
  · rintro x ⟨hx, -, hxi⟩ y ⟨-, hy, hyi⟩ z ⟨hxz, hzy⟩
    obtain ⟨hlt, hbefore, -⟩ := (locate_eq_some_iff hpos).mp hxi
    obtain ⟨-, -, hafter⟩ := (locate_eq_some_iff hpos).mp hyi
    refine ⟨hx.trans hxz, hzy.trans_lt hy, (locate_eq_some_iff hpos).mpr
      ⟨hlt, hbefore.imp_right fun h => h.trans_le hxz, hzy.trans hafter⟩⟩
  · rintro x ⟨hbefore, hafter⟩
    refine ⟨(cumulative_nonneg hpos i).trans hbefore.le,
      hafter.trans_le (cumulative_le_sum hpos _),
      (locate_eq_some_iff hpos).mpr ⟨?_, .inr hbefore, hafter.le⟩⟩
    exact (List.getElem?_eq_some_iff.mp hw).1
  · rintro x ⟨hx, -, hxi⟩
    obtain ⟨-, hbefore, hafter⟩ := (locate_eq_some_iff hpos).mp hxi
    rcases hbefore with rfl | hbefore
    · exact ⟨hx, hafter⟩
    · exact ⟨hbefore.le, hafter⟩

end Prequal.Foundation
