import Mathlib.Algebra.BigOperators.Group.Finset.Basic
import Mathlib.Algebra.Order.Group.Defs
import Mathlib.Data.Nat.Find
import Mathlib.Data.Rat.Floor
import Mathlib.Order.Monotone.Basic
import Mathlib.Tactic.Linarith

/-!
# The arrival schedule

The client adds up the sampled gaps and dispatches a query at every partial
sum.  The deadline is tested before the next gap is added, so the arrival that
crosses it is dispatched as well.  Time is measured from the start of the load
phase, which may be any ordered additive group.
-/

namespace Prequal.Arrivals

open Finset

variable {T : Type*} [AddCommGroup T]

def scheduled (w : Nat → T) (k : Nat) : T := ∑ j ∈ range k, w j

@[simp] theorem scheduled_zero (w : Nat → T) : scheduled w 0 = 0 := rfl

theorem scheduled_succ (w : Nat → T) (k : Nat) :
    scheduled w (k + 1) = scheduled w k + w k := sum_range_succ w k

variable [LinearOrder T]

/--
The loop from sample number `k` on: the times it dispatches at, or `none` when
it is still running after `fuel` tests of the deadline.
-/
def dispatches (w : Nat → T) (deadline : T) : Nat → Nat → T → Option (List T)
  | 0, _, _ => none
  | fuel + 1, k, nextArrival =>
      if nextArrival < deadline then do
        let nextArrival := nextArrival + w k
        let rest ← dispatches w deadline fuel (k + 1) nextArrival
        return nextArrival :: rest
      else some []

def run (w : Nat → T) (duration : T) (fuel : Nat) : Option (List T) :=
  dispatches w duration fuel 0 0

def ExactlyBefore (w : Nat → T) (duration : T) (times : List T) : Prop :=
  ∀ t, t ∈ times ↔ ∃ k, 1 ≤ k ∧ t = scheduled w k ∧ t < duration

theorem dispatches_done {w : Nat → T} {deadline nextArrival : T}
    (h : deadline ≤ nextArrival) (fuel k : Nat) :
    dispatches w deadline (fuel + 1) k nextArrival = some [] := by
  rw [dispatches, if_neg (not_lt.mpr h)]

theorem dispatches_due {w : Nat → T} {deadline : T} {k : Nat}
    (h : scheduled w k < deadline) (fuel : Nat) :
    dispatches w deadline (fuel + 1) k (scheduled w k) =
      (dispatches w deadline fuel (k + 1) (scheduled w (k + 1))).map
        (scheduled w (k + 1) :: ·) := by
  rw [dispatches, if_pos h, scheduled_succ]
  dsimp only
  cases dispatches w deadline fuel (k + 1) (scheduled w k + w k) <;> rfl

theorem dispatches_of_lt {w : Nat → T} {deadline : T} {n : Nat}
    (hbefore : ∀ j < n, scheduled w j < deadline)
    (hafter : deadline ≤ scheduled w n) {fuel k : Nat} (hk : k ≤ n)
    (hfuel : n - k < fuel) :
    dispatches w deadline fuel k (scheduled w k) =
      some ((List.range' (k + 1) (n - k)).map (scheduled w)) := by
  induction fuel generalizing k with
  | zero => omega
  | succ fuel ih =>
      rcases hk.eq_or_lt with rfl | hlt
      · rw [dispatches_done hafter, Nat.sub_self]
        rfl
      · have hcount : n - k = n - (k + 1) + 1 := by omega
        rw [dispatches_due (hbefore k hlt), ih hlt (by omega), hcount]
        rfl

theorem dispatches_of_le {w : Nat → T} {deadline : T} {n : Nat}
    (hbefore : ∀ j < n, scheduled w j < deadline) {fuel k : Nat}
    (hfuel : k + fuel ≤ n) :
    dispatches w deadline fuel k (scheduled w k) = none := by
  induction fuel generalizing k with
  | zero => rfl
  | succ fuel ih =>
      rw [dispatches_due (hbefore k (by omega)), ih (by omega)]
      rfl

theorem run_eq {w : Nat → T} {duration : T} {n : Nat}
    (hbefore : ∀ j < n, scheduled w j < duration)
    (hafter : duration ≤ scheduled w n) (fuel : Nat) :
    run w duration fuel =
      if n < fuel then some ((List.range' 1 n).map (scheduled w))
      else none := by
  rw [run, ← scheduled_zero w]
  split
  · exact dispatches_of_lt hbefore hafter (Nat.zero_le n) ‹n < fuel›
  · exact dispatches_of_le hbefore (by omega)

section Overshoot

variable [IsOrderedAddMonoid T] {w : Nat → T}

theorem scheduled_strictMono (hpos : ∀ k, 0 < w k) :
    StrictMono (scheduled w) := by
  apply strictMono_nat_of_lt_succ
  intro k
  rw [scheduled_succ]
  exact lt_add_of_pos_right _ (hpos k)

theorem exists_first_late (hpos : ∀ k, 0 < w k)
    (hdiverges : ∀ t, ∃ k, t ≤ scheduled w k) {duration : T}
    (hduration : 0 < duration) :
    ∃ m, duration ≤ scheduled w (m + 1) ∧
      ∀ k, scheduled w k < duration ↔ k ≤ m := by
  classical
  have hlate := Nat.find_spec (hdiverges duration)
  have hfirst := fun k => Nat.find_min (hdiverges duration) (m := k)
  set n := Nat.find (hdiverges duration) with hn
  have hne : n ≠ 0 := by
    intro hzero
    rw [hzero, scheduled_zero] at hlate
    exact absurd hduration (not_lt.mpr hlate)
  obtain ⟨m, hm⟩ := Nat.exists_eq_succ_of_ne_zero hne
  rw [hm] at hlate hfirst
  refine ⟨m, hlate, fun k => ⟨fun hk => ?_, fun hk => ?_⟩⟩
  · by_contra hgt
    have hle := (scheduled_strictMono hpos).monotone (Nat.not_le.mp hgt)
    exact absurd hk (not_lt.mpr (hlate.trans hle))
  · exact not_le.mp (hfirst k (Nat.lt_succ_of_le hk))

/--
The loop always ends and misses no query before the deadline, but always
dispatches exactly one more, scheduled at the deadline or after it.
-/
theorem one_late_arrival (w : Nat → T) (hpos : ∀ k, 0 < w k)
    (hdiverges : ∀ t, ∃ k, t ≤ scheduled w k) (duration : T)
    (hduration : 0 < duration) :
    (∃ fuel times, run w duration fuel = some times) ∧
      ∀ fuel times, run w duration fuel = some times →
        ¬ ExactlyBefore w duration times ∧
        ∃ m, times = (List.range' 1 (m + 1)).map (scheduled w) ∧
          (∀ k, scheduled w k < duration ↔ k ≤ m) ∧
          duration ≤ scheduled w (m + 1) := by
  obtain ⟨m, hlate, hbefore⟩ := exists_first_late hpos hdiverges hduration
  have hrun := run_eq (fun j hj => (hbefore j).mpr (Nat.le_of_lt_succ hj)) hlate
  refine ⟨⟨m + 2, _, by rw [hrun, if_pos (by omega)]⟩, ?_⟩
  intro fuel times htimes
  rw [hrun, Option.ite_none_right_eq_some, Option.some.injEq] at htimes
  obtain ⟨-, rfl⟩ := htimes
  refine ⟨fun hexact => ?_, m, rfl, hbefore, hlate⟩
  have hlast : scheduled w (m + 1) ∈
      (List.range' 1 (m + 1)).map (scheduled w) := by
    apply List.mem_map_of_mem
    rw [List.mem_range'_1]
    omega
  obtain ⟨k, -, -, hlt⟩ := (hexact _).mp hlast
  exact absurd hlt (not_lt.mpr hlate)

end Overshoot

def everyTwo : Nat → Rat := fun _ => 2

theorem scheduled_everyTwo (k : Nat) : scheduled everyTwo k = 2 * k := by
  simp [scheduled, everyTwo, mul_comm]

theorem everyTwo_diverges (t : Rat) : ∃ k, t ≤ scheduled everyTwo k := by
  have hle := Nat.le_ceil t
  have hnonneg : (0 : Rat) ≤ ⌈t⌉₊ := Nat.cast_nonneg _
  refine ⟨⌈t⌉₊, ?_⟩
  rw [scheduled_everyTwo]
  linarith

theorem everyTwo_one_late : ∃ fuel times, run everyTwo 5 fuel = some times ∧
    ¬ ExactlyBefore everyTwo 5 times := by
  obtain ⟨⟨fuel, times, hrun⟩, hlate⟩ := one_late_arrival everyTwo
    (fun _ => zero_lt_two) everyTwo_diverges 5 (by norm_num)
  exact ⟨fuel, times, hrun, (hlate fuel times hrun).1⟩

/-- The first gap can outlast the whole load phase. -/
theorem first_gap_overshoots : ¬ ∀ (w : Nat → Rat) (duration : Rat),
    (∀ k, 0 < w k) → (∀ t, ∃ k, t ≤ scheduled w k) → 0 < duration →
      ∃ fuel times, run w duration fuel = some times ∧
        ExactlyBefore w duration times := by
  intro hall
  obtain ⟨fuel, times, hrun, hexact⟩ := hall everyTwo 1
    (fun _ => zero_lt_two) everyTwo_diverges zero_lt_one
  have hbefore : ∀ j < 1, scheduled everyTwo j < 1 := by decide +kernel
  rw [run_eq hbefore (by decide +kernel), Option.ite_none_right_eq_some,
    Option.some.injEq] at hrun
  obtain ⟨-, rfl⟩ := hrun
  obtain ⟨k, -, -, hlt⟩ := (hexact 2).mp (by decide +kernel)
  exact absurd hlt (by decide +kernel)

end Prequal.Arrivals
