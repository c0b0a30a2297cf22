import Prequal.Foundation.Runtime
import Mathlib.Data.Rat.Floor
import Mathlib.Tactic.Linarith
import Mathlib.Tactic.NormNum
import Mathlib.Tactic.Positivity

/-!
# Smoothed CPU utilisation

The tracker divides the CPU time of an interval by its length and by the
allocation.  The length is tested before the division, the allocation is taken
from the command line as it is.
-/

namespace Prequal

open Foundation

structure CpuReading where
  cpuUs : Nat
  wall : Instant
  deriving DecidableEq, Repr

structure CpuTracker where
  lastCpuUs : Nat
  lastWall : Instant
  alloc : Rat
  utilEma : Rat
  deriving DecidableEq, Repr

/-- Exact division, which has no result when the divisor is zero. -/
def guardedDiv (a b : Rat) : Option Rat := if b = 0 then none else some (a / b)

namespace CpuTracker

def new (alloc : Rat) (first : CpuReading) : CpuTracker :=
  ⟨first.cpuUs, first.wall, alloc, 0⟩

def sample (t : CpuTracker) (r : CpuReading) : Option CpuTracker := do
  let dw : Rat := (durationSince r.wall t.lastWall / 1000 : Nat)
  let utilEma ←
    if 0 < dw then do
      let used : Rat := wrapU64 (r.cpuUs + 2 ^ 64 - t.lastCpuUs)
      let util ← guardedDiv used (dw * t.alloc)
      pure (7 / 10 * t.utilEma + 3 / 10 * util)
    else pure t.utilEma
  return ⟨r.cpuUs, r.wall, t.alloc, utilEma⟩

def run (alloc : Rat) (first : CpuReading) (readings : List CpuReading) :
    Option CpuTracker :=
  readings.foldlM sample (new alloc first)

end CpuTracker

/-! ## What the average stands for -/

namespace CpuReading

def Precedes (r r' : CpuReading) : Prop :=
  r.cpuUs ≤ r'.cpuUs ∧ r.wall ≤ r'.wall ∧ r'.cpuUs < 2 ^ 64

instance (r r' : CpuReading) : Decidable (r.Precedes r') :=
  inferInstanceAs (Decidable (_ ∧ _))

def micros (r r' : CpuReading) : Nat := durationSince r'.wall r.wall / 1000

def utilisation (alloc : Rat) (r r' : CpuReading) : Rat :=
  ((r'.cpuUs - r.cpuUs : Nat) : Rat) / (r.micros r' * alloc)

/-- The utilisations of the intervals that take any time. -/
def utilisations (alloc : Rat) : CpuReading → List CpuReading → List Rat
  | _, [] => []
  | r, r' :: rest =>
      if 0 < r.micros r' then
        r.utilisation alloc r' :: utilisations alloc r' rest
      else utilisations alloc r' rest

end CpuReading

namespace CpuTracker

/--
For every sequence of readings of a clock and a counter that do not go back,
the samples are defined and the average lies between zero and the largest
utilisation so far.
-/
def WellDefined (alloc : Rat) : Prop :=
  ∀ (first : CpuReading) (readings : List CpuReading),
    (first :: readings).IsChain CpuReading.Precedes →
    ∃ t, run alloc first readings = some t ∧ 0 ≤ t.utilEma ∧
      t.utilEma ≤ (first.utilisations alloc readings).foldr max 0

structure At (t : CpuTracker) (alloc : Rat) (r : CpuReading) : Prop where
  cpu : t.lastCpuUs = r.cpuUs
  wall : t.lastWall = r.wall
  alloc : t.alloc = alloc

theorem sample_spec {t : CpuTracker} {alloc : Rat} {r r' : CpuReading}
    (hat : t.At alloc r) (hprecedes : r.Precedes r') (halloc : 0 < alloc) :
    ∃ t', t.sample r' = some t' ∧ t'.At alloc r' ∧
      t'.utilEma = if 0 < r.micros r' then
        7 / 10 * t.utilEma + 3 / 10 * r.utilisation alloc r'
      else t.utilEma := by
  obtain ⟨hcpu, hwall, rfl⟩ := hat
  obtain ⟨hle, -, hlt⟩ := hprecedes
  have hused : wrapU64 (r'.cpuUs + 2 ^ 64 - t.lastCpuUs) =
      r'.cpuUs - r.cpuUs := by
    unfold wrapU64
    omega
  have hmicros : durationSince r'.wall t.lastWall / 1000 = r.micros r' := by
    rw [hwall, CpuReading.micros]
  simp only [sample, hused, hmicros, Nat.cast_pos]
  by_cases hdw : 0 < r.micros r'
  · have hdivisor : (r.micros r' : Rat) * t.alloc ≠ 0 :=
      mul_ne_zero (Nat.cast_ne_zero.mpr hdw.ne') halloc.ne'
    simp only [if_pos hdw, guardedDiv, if_neg hdivisor]
    exact ⟨_, rfl, ⟨rfl, rfl, rfl⟩, rfl⟩
  · simp only [if_neg hdw]
    exact ⟨_, rfl, ⟨rfl, rfl, rfl⟩, rfl⟩

theorem utilisation_nonneg {alloc : Rat} (halloc : 0 < alloc)
    (r r' : CpuReading) : 0 ≤ r.utilisation alloc r' := by
  unfold CpuReading.utilisation
  positivity

theorem foldlM_sample {alloc bound : Rat} (halloc : 0 < alloc)
    {readings : List CpuReading} {t : CpuTracker} {r : CpuReading}
    (hat : t.At alloc r)
    (hchain : (r :: readings).IsChain CpuReading.Precedes)
    (hnonneg : 0 ≤ t.utilEma) (hle : t.utilEma ≤ bound)
    (hbound : ∀ util ∈ r.utilisations alloc readings, util ≤ bound) :
    ∃ t', readings.foldlM sample t = some t' ∧ 0 ≤ t'.utilEma ∧
      t'.utilEma ≤ bound := by
  induction readings generalizing t r with
  | nil => exact ⟨t, rfl, hnonneg, hle⟩
  | cons r' readings ih =>
      rw [List.isChain_cons_cons] at hchain
      obtain ⟨t', hsample, hat', hema⟩ := sample_spec hat hchain.1 halloc
      rw [List.foldlM_cons, hsample]
      have hutil := utilisation_nonneg halloc r r'
      by_cases hdw : 0 < r.micros r'
      · rw [CpuReading.utilisations, if_pos hdw, List.forall_mem_cons] at hbound
        rw [if_pos hdw] at hema
        exact ih hat' hchain.2 (by linarith) (by linarith) hbound.2
      · rw [CpuReading.utilisations, if_neg hdw] at hbound
        rw [if_neg hdw] at hema
        exact ih hat' hchain.2 (by rwa [hema]) (by rwa [hema]) hbound

theorem foldr_max_nonneg (utils : List Rat) : 0 ≤ utils.foldr max 0 := by
  induction utils with
  | nil => exact le_rfl
  | cons util utils ih => exact ih.trans (le_max_right _ _)

theorem wellDefined_of_pos {alloc : Rat} (halloc : 0 < alloc) :
    WellDefined alloc := by
  intro first readings hchain
  refine foldlM_sample halloc ⟨rfl, rfl, rfl⟩ hchain le_rfl
    (foldr_max_nonneg _) ?_
  exact fun util hutil => List.le_max_of_le' 0 hutil le_rfl

def busyInterval : List CpuReading := [⟨1, 1000⟩]

theorem run_busyInterval (alloc : Rat) :
    run alloc ⟨0, 0⟩ busyInterval =
      if alloc = 0 then none
      else some ⟨1, 1000, alloc, 3 / 10 * (1 / alloc)⟩ := by
  by_cases h : alloc = 0 <;>
    simp [run, busyInterval, new, sample, durationSince, wrapU64, guardedDiv, h]

/--
The reported utilisation is defined and bounded for all readings iff the
allocation is positive.
-/
theorem wellDefined_iff (alloc : Rat) : WellDefined alloc ↔ 0 < alloc := by
  refine ⟨fun h => ?_, wellDefined_of_pos⟩
  obtain ⟨t, hrun, hnonneg, -⟩ := h ⟨0, 0⟩ busyInterval (by decide)
  rw [run_busyInterval, Option.ite_none_left_eq_some, Option.some.injEq] at hrun
  obtain ⟨hne, rfl⟩ := hrun
  by_contra hle
  have hneg : 1 / alloc < 0 :=
    one_div_neg.mpr (lt_of_le_of_ne (not_lt.mp hle) hne)
  exact absurd hnonneg (by dsimp only; linarith)

theorem zeroAlloc_undefined : ¬ ∀ alloc : Rat, WellDefined alloc := by
  intro hall
  obtain ⟨t, hrun, -⟩ := hall 0 ⟨0, 0⟩ busyInterval (by decide)
  rw [run_busyInterval, if_pos rfl] at hrun
  cases hrun

end CpuTracker

end Prequal
