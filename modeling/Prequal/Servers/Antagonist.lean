import Prequal.Foundation.Runtime
import Mathlib.Data.Nat.Periodic
import Mathlib.Data.Rat.Floor
import Mathlib.Tactic.Linarith
import Mathlib.Tactic.NormNum

/-!
# The antagonist

Active time runs up a deficit, which the burner pays back in bursts of whole
microseconds.  A burst waits for a worker slot, so the time between two
iterations is arbitrary; the accounts below balance whatever it is.
-/

namespace Prequal

open Foundation

structure Antagonist where
  last : Instant
  deficitUs : Rat
  deriving DecidableEq, Repr

namespace Antagonist

def new (now : Instant) : Antagonist := ⟨now, 0⟩

def targetRate (cpuPct : Nat) : Rat := (min cpuPct 100 : Nat) / 100

def accrual (cpuPct : Nat) (s : Antagonist) (now : Instant) (active : Bool) :
    Rat :=
  if active then targetRate cpuPct * (durationSince now s.last / 1000 : Nat)
  else 0

def backlog (cpuPct : Nat) (s : Antagonist) (now : Instant) (active : Bool) :
    Rat :=
  min (s.deficitUs + s.accrual cpuPct now active) 300000

/-- One iteration: the state it leaves and the burst it runs, if any. -/
def iterate (cpuPct : Nat) (s : Antagonist) (now : Instant) (active : Bool) :
    Antagonist × Option Nat :=
  let deficitUs := s.backlog cpuPct now active
  if 20000 ≤ deficitUs then
    let burst := ⌊min deficitUs 100000⌋.toNat
    (⟨now, deficitUs - burst⟩, some burst)
  else (⟨now, deficitUs⟩, none)

def active (periodS phaseS secs : Nat) : Bool :=
  if periodS = 0 then true
  else wrapU64 (secs + phaseS) % periodS < periodS / 2

def reading (periodS phaseS : Nat) (origin now : Instant) : Instant × Bool :=
  (now, active periodS phaseS (durationSince now origin / 1000000000))

def loop (cpuPct : Nat) (start : Instant) (readings : List (Instant × Bool)) :
    Antagonist :=
  readings.foldl (fun s reading => (s.iterate cpuPct reading.1 reading.2).1)
    (new start)

/-- The task, whose iterations start at the given times. -/
def run (cpuPct periodS phaseS : Nat) (origin start : Instant)
    (times : List Instant) : Antagonist :=
  loop cpuPct start (times.map (reading periodS phaseS origin))

theorem burst_bounds {deficitUs : Rat} (h : 20000 ≤ deficitUs) :
    20000 ≤ ⌊min deficitUs 100000⌋.toNat ∧
      ⌊min deficitUs 100000⌋.toNat ≤ 100000 ∧
      (⌊min deficitUs 100000⌋.toNat : Rat) ≤ deficitUs := by
  have hmin : (20000 : Rat) ≤ min deficitUs 100000 := le_min h (by norm_num)
  have hnonneg : 0 ≤ ⌊min deficitUs 100000⌋ :=
    Int.floor_nonneg.mpr (le_trans (by norm_num) hmin)
  have hlow : 20000 ≤ ⌊min deficitUs 100000⌋ :=
    Int.le_floor.mpr (by exact_mod_cast hmin)
  have hhigh : ⌊min deficitUs 100000⌋ ≤ 100000 := by
    have hle := Int.floor_mono (min_le_right deficitUs 100000)
    rwa [Int.floor_ofNat] at hle
  refine ⟨by omega, by omega, ?_⟩
  calc
    (⌊min deficitUs 100000⌋.toNat : Rat) = (⌊min deficitUs 100000⌋ : Int) := by
      exact_mod_cast Int.toNat_of_nonneg hnonneg
    _ ≤ min deficitUs 100000 := Int.floor_le _
    _ ≤ deficitUs := min_le_left _ _

theorem targetRate_nonneg (cpuPct : Nat) : 0 ≤ targetRate cpuPct := by
  unfold targetRate
  positivity

theorem accrual_nonneg (cpuPct : Nat) (s : Antagonist) (now : Instant)
    (active : Bool) : 0 ≤ s.accrual cpuPct now active := by
  unfold accrual
  split
  · exact mul_nonneg (targetRate_nonneg cpuPct) (Nat.cast_nonneg _)
  · exact le_rfl

theorem backlog_nonneg {s : Antagonist} (h : 0 ≤ s.deficitUs) (cpuPct : Nat)
    (now : Instant) (active : Bool) : 0 ≤ s.backlog cpuPct now active :=
  le_min (add_nonneg h (accrual_nonneg cpuPct s now active)) (by norm_num)

theorem iterate_spec {s : Antagonist} (h : 0 ≤ s.deficitUs) (cpuPct : Nat)
    (now : Instant) (active : Bool) :
    let outcome := s.iterate cpuPct now active
    outcome.1.deficitUs = s.backlog cpuPct now active -
        (outcome.2.toList.sum : Nat) ∧
      (outcome.2.toList.sum : Nat) ≤ s.backlog cpuPct now active ∧
      ∀ burst ∈ outcome.2.toList, 20000 ≤ burst ∧ burst ≤ 100000 := by
  by_cases hlarge : 20000 ≤ s.backlog cpuPct now active
  · obtain ⟨hlow, hhigh, hle⟩ := burst_bounds hlarge
    simp [iterate, hlarge, hlow, hhigh, hle]
  · simp [iterate, hlarge, backlog_nonneg h]

/-! ## Balanced accounts -/

/--
What one iteration is entitled to by the clock: of each whole microsecond since
the reading before it, `cpuPct` percent and no more than all.
-/
def share (cpuPct : Nat) (previous now : Instant) (active : Bool) : Rat :=
  if active then
    (min cpuPct 100 : Nat) / 100 * (durationSince now previous / 1000 : Nat)
  else 0

/-- The target, summed over the active readings since `previous`. -/
def accrued (cpuPct : Nat) : Instant → List (Instant × Bool) → Rat
  | _, [] => 0
  | previous, (now, active) :: rest =>
      share cpuPct previous now active + accrued cpuPct now rest

/-- What the cap cuts off a run of the loop from `s`. -/
def dropped (cpuPct : Nat) :
    Antagonist → Instant → List (Instant × Bool) → Rat
  | _, _, [] => 0
  | s, previous, (now, active) :: rest =>
      max 0 (s.deficitUs + share cpuPct previous now active - 300000) +
        dropped cpuPct (s.iterate cpuPct now active).1 now rest

def bursts (cpuPct : Nat) : Antagonist → List (Instant × Bool) → List Nat
  | _, [] => []
  | s, (now, active) :: rest =>
      let outcome := s.iterate cpuPct now active
      outcome.2.toList ++ bursts cpuPct outcome.1 rest

theorem iterate_last (cpuPct : Nat) (s : Antagonist) (now : Instant)
    (active : Bool) : (s.iterate cpuPct now active).1.last = now := by
  rw [iterate]
  split <;> rfl

theorem dropped_nonneg (cpuPct : Nat) (s : Antagonist) (previous : Instant)
    (readings : List (Instant × Bool)) :
    0 ≤ dropped cpuPct s previous readings := by
  induction readings generalizing s previous with
  | nil => exact le_rfl
  | cons reading rest ih =>
      rw [dropped]
      exact add_nonneg (le_max_left _ _) (ih _ _)

-- The loop dates its accruals by the reading before, as the shares do.
theorem accrual_eq_share (cpuPct : Nat) (s : Antagonist) (now : Instant)
    (active : Bool) :
    s.accrual cpuPct now active = share cpuPct s.last now active := rfl

theorem backlog_eq (cpuPct : Nat) (s : Antagonist) (now : Instant)
    (active : Bool) :
    s.backlog cpuPct now active =
      s.deficitUs + share cpuPct s.last now active -
        max 0 (s.deficitUs + share cpuPct s.last now active - 300000) := by
  rw [backlog, accrual_eq_share]
  rcases le_total (s.deficitUs + share cpuPct s.last now active) 300000 with
    hle | hge
  · rw [min_eq_left hle, max_eq_left (sub_nonpos.mpr hle), sub_zero]
  · rw [min_eq_right hge, max_eq_right (sub_nonneg.mpr hge), sub_sub_cancel]

theorem foldl_balance (cpuPct : Nat) (s : Antagonist)
    (hnonneg : 0 ≤ s.deficitUs) (hcapped : s.deficitUs ≤ 300000)
    (readings : List (Instant × Bool)) :
    let final := readings.foldl
      (fun s reading => (s.iterate cpuPct reading.1 reading.2).1) s
    final.deficitUs = s.deficitUs + accrued cpuPct s.last readings -
        dropped cpuPct s s.last readings -
        ((bursts cpuPct s readings).sum : Nat) ∧
      0 ≤ final.deficitUs ∧ final.deficitUs ≤ 300000 ∧
      ∀ burst ∈ bursts cpuPct s readings, 20000 ≤ burst ∧ burst ≤ 100000 := by
  induction readings generalizing s with
  | nil => simp [accrued, dropped, bursts, hnonneg, hcapped]
  | cons reading rest ih =>
      obtain ⟨now, active⟩ := reading
      obtain ⟨hdeficit, hburned, hwhole⟩ :=
        iterate_spec hnonneg cpuPct now active
      have hcap : s.backlog cpuPct now active ≤ 300000 := min_le_right _ _
      have hspent : (0 : Rat) ≤
          ((s.iterate cpuPct now active).2.toList.sum : Nat) :=
        Nat.cast_nonneg _
      obtain ⟨hbalance, hlow, hhigh, hrest⟩ :=
        ih (s.iterate cpuPct now active).1 (by linarith) (by linarith)
      rw [iterate_last] at hbalance
      refine ⟨?_, hlow, hhigh, ?_⟩
      · rw [List.foldl_cons, hbalance, hdeficit, backlog_eq, accrued, dropped,
          bursts, List.sum_append, Nat.cast_add]
        ring
      · intro burst hburst
        rcases List.mem_append.mp hburst with hfirst | hlater
        · exact hwhole burst hfirst
        · exact hrest burst hlater

/--
The accounts of every run balance: the deficit is the target since the start
less what the cap dropped and the bursts burned, and stays between nothing and
the cap.  So the antagonist never burns more than its target, and falls short
of it by at most what was dropped and one full backlog.
-/
theorem deficit_conserved (cpuPct : Nat) (start : Instant)
    (readings : List (Instant × Bool)) :
    let deficit := (loop cpuPct start readings).deficitUs
    let target := accrued cpuPct start readings
    let lost := dropped cpuPct (new start) start readings
    let burned : Rat := ((bursts cpuPct (new start) readings).sum : Nat)
    deficit = target - lost - burned ∧ 0 ≤ deficit ∧ deficit ≤ 300000 ∧
      (∀ burst ∈ bursts cpuPct (new start) readings,
        20000 ≤ burst ∧ burst ≤ 100000) ∧
      burned ≤ target ∧ target - burned ≤ lost + 300000 := by
  intro deficit target lost burned
  obtain ⟨hbalance, hnonneg, hcapped, hwhole⟩ :=
    foldl_balance cpuPct (new start) le_rfl (by norm_num [new]) readings
  have hdeficit : deficit = target - lost - burned := by
    refine hbalance.trans ?_
    rw [show (new start).deficitUs = 0 from rfl, zero_add]
    rfl
  have hlost : 0 ≤ lost := dropped_nonneg cpuPct (new start) start readings
  have hlow : 0 ≤ deficit := hnonneg
  have hhigh : deficit ≤ 300000 := hcapped
  exact ⟨hdeficit, hlow, hhigh, hwhole, by linarith, by linarith⟩

-- A second without a free slot accrues 600 ms, of which the cap drops half.
example : run 60 0 0 0 0 [1000000000] = ⟨1000000000, 200000⟩ := by
  decide +kernel

/-! ## The square wave -/

def activeSeconds (periodS phaseS start : Nat) : Nat :=
  ((Finset.Ico start (start + periodS)).filter fun secs =>
    active periodS phaseS secs).card

theorem active_iff {periodS phaseS secs : Nat} (hperiod : 1 ≤ periodS)
    (hfits : secs + phaseS < 2 ^ 64) :
    active periodS phaseS secs ↔
      (secs + phaseS) % periodS < periodS / 2 := by
  rw [active, if_neg (by omega), wrapU64_of_lt hfits, decide_eq_true_eq]

theorem count_mod_lt {period limit : Nat} (h : limit ≤ period) :
    period.count (fun n => n % period < limit) = limit := by
  rw [Nat.count_eq_card_filter_range]
  have hfilter : (Finset.range period).filter (fun n => n % period < limit) =
      Finset.range limit := by
    ext n
    simp only [Finset.mem_filter, Finset.mem_range]
    constructor
    · rintro ⟨hn, hlt⟩
      rwa [Nat.mod_eq_of_lt hn] at hlt
    · intro hn
      have hlt : n < period := by omega
      exact ⟨hlt, by rwa [Nat.mod_eq_of_lt hlt]⟩
  rw [hfilter, Finset.card_range]

theorem activeSeconds_eq {periodS phaseS start : Nat} (hperiod : 1 ≤ periodS)
    (hfits : start + periodS + phaseS ≤ 2 ^ 64) :
    activeSeconds periodS phaseS start = periodS / 2 := by
  have hshift : activeSeconds periodS phaseS start =
      ((Finset.Ico (start + phaseS) (start + phaseS + periodS)).filter
        fun n => n % periodS < periodS / 2).card := by
    refine Finset.card_bij (fun secs _ => secs + phaseS) ?_ ?_ ?_
    · intro secs hsecs
      rw [Finset.mem_filter, Finset.mem_Ico] at hsecs ⊢
      have hactive := (active_iff hperiod (by omega)).mp hsecs.2
      exact ⟨by omega, hactive⟩
    · intro secs _ secs' _ heq
      exact Nat.add_right_cancel heq
    · intro n hn
      rw [Finset.mem_filter, Finset.mem_Ico] at hn
      have hback : n - phaseS + phaseS = n := by omega
      refine ⟨n - phaseS, ?_, hback⟩
      rw [Finset.mem_filter, Finset.mem_Ico, active_iff hperiod (by omega),
        hback]
      exact ⟨by omega, hn.2⟩
  have hperiodic : Function.Periodic (fun n => n % periodS < periodS / 2)
      periodS := by
    intro n
    simp only [Nat.add_mod_right]
  rw [hshift, Nat.filter_Ico_card_eq_of_periodic _ _ _ hperiodic,
    count_mod_lt (Nat.div_le_self _ _)]

/--
The wave is active for half of every window of one period iff the period is
even, whatever the phase and the position of the window.
-/
theorem half_active_iff (periodS phaseS start : Nat) (hperiod : 1 ≤ periodS)
    (hfits : start + periodS + phaseS ≤ 2 ^ 64) :
    2 * activeSeconds periodS phaseS start = periodS ↔ Even periodS := by
  rw [activeSeconds_eq hperiod hfits, Nat.even_iff]
  omega

theorem tenSeconds_half_active : 2 * activeSeconds 10 3 7 = 10 :=
  (half_active_iff 10 3 7 (by decide) (by decide)).mpr (by decide)

/-- With a period of one second the burner is never active. -/
theorem oneSecond_idle : ¬ ∀ periodS phaseS start : Nat, 1 ≤ periodS →
    start + periodS + phaseS ≤ 2 ^ 64 →
      2 * activeSeconds periodS phaseS start = periodS := by
  intro hall
  exact absurd (hall 1 0 0 (by decide) (by decide)) (by decide)

end Antagonist

end Prequal
