import Mathlib.Algebra.Order.Field.Basic
import Mathlib.Tactic.Linarith
import Mathlib.Tactic.Ring

/-!
# Exponential smoothing

A smoothed value moves a fixed part of the way to every new value.  What it
started from fades geometrically, and it ends up between any bounds that the
new values keep.
-/

namespace Prequal.Foundation

variable {α : Type*} [CommRing α]

def smooth (a s : α) (values : List α) : α :=
  values.foldl (fun s v => (1 - a) * s + a * v) s

@[simp] theorem smooth_nil (a s : α) : smooth a s [] = s := rfl

@[simp] theorem smooth_cons (a s v : α) (values : List α) :
    smooth a s (v :: values) = smooth a ((1 - a) * s + a * v) values := rfl

theorem smooth_append (a s : α) (past recent : List α) :
    smooth a s (past ++ recent) = smooth a (smooth a s past) recent := by
  simp [smooth]

theorem smooth_neg (a s : α) (values : List α) :
    smooth a (-s) (values.map fun v => -v) = -smooth a s values := by
  induction values generalizing s with
  | nil => rfl
  | cons v values ih =>
      rw [List.map_cons, smooth_cons, smooth_cons, ← ih]
      congr 1
      ring

section Order

variable [LinearOrder α] [IsStrictOrderedRing α] {a s lo hi : α}
  {values : List α}

theorem smooth_le (h0 : 0 ≤ a) (h1 : a ≤ 1) (h : ∀ v ∈ values, v ≤ hi) :
    smooth a s values ≤ hi + (1 - a) ^ values.length * (s - hi) := by
  induction values generalizing s with
  | nil => simp
  | cons v values ih =>
      obtain ⟨hv, hrest⟩ := List.forall_mem_cons.mp h
      have hpow : 0 ≤ (1 - a) ^ values.length :=
        pow_nonneg (sub_nonneg.mpr h1) _
      have hstep : (1 - a) * s + a * v - hi ≤ (1 - a) * (s - hi) := by
        have := mul_le_mul_of_nonneg_left hv h0
        linarith
      calc
        smooth a s (v :: values) ≤
            hi + (1 - a) ^ values.length * ((1 - a) * s + a * v - hi) :=
          ih hrest
        _ ≤ hi + (1 - a) ^ values.length * ((1 - a) * (s - hi)) :=
          by linarith [mul_le_mul_of_nonneg_left hstep hpow]
        _ = hi + (1 - a) ^ (v :: values).length * (s - hi) := by
          rw [List.length_cons, pow_succ]
          ring

theorem le_smooth (h0 : 0 ≤ a) (h1 : a ≤ 1) (h : ∀ v ∈ values, lo ≤ v) :
    lo + (1 - a) ^ values.length * (s - lo) ≤ smooth a s values := by
  have hneg : ∀ v ∈ values.map fun v => -v, v ≤ -lo :=
    List.forall_mem_map.mpr fun v hv => neg_le_neg (h v hv)
  have hle := smooth_le (s := -s) h0 h1 hneg
  rw [smooth_neg, List.length_map] at hle
  linarith

end Order

end Prequal.Foundation
