import Prequal.Foundation.Smoothing
import Prequal.Servers.CpuTracker

/-!
# How fast the utilisation settles

The tracker smooths the utilisations of its intervals.  An interval without
time counts for nothing; every other one takes away 30% of what the average was
off by, whatever the replica did before.
-/

namespace Prequal

open Foundation

theorem CpuReading.utilisations_append (alloc : Rat) (r : CpuReading)
    (past recent : List CpuReading) :
    r.utilisations alloc (past ++ recent) = r.utilisations alloc past ++
      (past.getLastD r).utilisations alloc recent := by
  induction past generalizing r with
  | nil => rfl
  | cons r' past ih =>
      rw [List.cons_append, utilisations, utilisations, ih,
        List.getLastD_cons]
      split <;> rfl

namespace CpuTracker

theorem foldlM_sample_eq {alloc : Rat} (halloc : 0 < alloc)
    {readings : List CpuReading} {t : CpuTracker} {r : CpuReading}
    (hat : t.At alloc r)
    (hchain : (r :: readings).IsChain CpuReading.Precedes) :
    ∃ t', readings.foldlM sample t = some t' ∧
      t'.At alloc (readings.getLastD r) ∧
      t'.utilEma =
        smooth (3 / 10) t.utilEma (r.utilisations alloc readings) := by
  induction readings generalizing t r with
  | nil => exact ⟨t, rfl, hat, rfl⟩
  | cons r' readings ih =>
      rw [List.isChain_cons_cons] at hchain
      obtain ⟨t', hsample, hat', hema⟩ := sample_spec hat hchain.1 halloc
      obtain ⟨t'', hrun, hat'', hsmooth⟩ := ih hat' hchain.2
      refine ⟨t'', ?_, ?_, ?_⟩
      · rw [List.foldlM_cons, hsample]
        exact hrun
      · rwa [List.getLastD_cons]
      · rw [hsmooth, hema, CpuReading.utilisations]
        split
        · rw [smooth_cons]
          congr 1
          ring
        · rfl

/--
However a replica was loaded before, the utilisation it reports approaches its
present load by 30% with every sample: after `k` intervals between two bounds
it is off them by at most the `k`-th power of 7/10 of what it was off by then.
-/
theorem utilEma_settles (alloc : Rat) (halloc : 0 < alloc)
    (first : CpuReading) (past recent : List CpuReading)
    (hchain : (first :: (past ++ recent)).IsChain CpuReading.Precedes) :
    let utils := (past.getLastD first).utilisations alloc recent
    ∃ t t', run alloc first past = some t ∧
      run alloc first (past ++ recent) = some t' ∧
      t.utilEma = smooth (3 / 10) 0 (first.utilisations alloc past) ∧
      ∀ lo hi, (∀ util ∈ utils, lo ≤ util ∧ util ≤ hi) →
        lo + (7 / 10) ^ utils.length * (t.utilEma - lo) ≤ t'.utilEma ∧
        t'.utilEma ≤ hi + (7 / 10) ^ utils.length * (t.utilEma - hi) := by
  intro utils
  have hpast : (first :: past).IsChain CpuReading.Precedes := by
    rw [← List.cons_append] at hchain
    exact hchain.left_of_append
  have hat : (new alloc first).At alloc first := ⟨rfl, rfl, rfl⟩
  obtain ⟨t, ht, -, hema⟩ := foldlM_sample_eq halloc hat hpast
  obtain ⟨t', ht', -, hema'⟩ := foldlM_sample_eq halloc hat hchain
  refine ⟨t, t', ht, ht', hema, fun lo hi hbounds => ?_⟩
  rw [CpuReading.utilisations_append, smooth_append, ← hema] at hema'
  have hrate : (7 / 10 : Rat) = 1 - 3 / 10 := by norm_num
  rw [hema', hrate]
  exact ⟨le_smooth (by norm_num) (by norm_num) fun u hu => (hbounds u hu).1,
    smooth_le (by norm_num) (by norm_num) fun u hu => (hbounds u hu).2⟩

theorem idleThenBusy_settles : ∃ t',
    run 1 ⟨0, 0⟩ ([⟨0, 1000⟩] ++ [⟨1, 2000⟩]) = some t' ∧
      3 / 10 ≤ t'.utilEma := by
  obtain ⟨t, t', ht, ht', hema, hbounds⟩ := utilEma_settles 1 (by norm_num)
    ⟨0, 0⟩ [⟨0, 1000⟩] [⟨1, 2000⟩] (by decide)
  have hzero : t.utilEma = 0 := by
    rw [hema]
    decide +kernel
  have hlow := (hbounds 1 1 (by decide +kernel)).1
  have hone : (CpuReading.utilisations 1 (List.getLastD
      [(⟨0, 1000⟩ : CpuReading)] ⟨0, 0⟩) [⟨1, 2000⟩]).length = 1 := rfl
  rw [hzero, hone] at hlow
  refine ⟨t', ht', le_trans ?_ hlow⟩
  norm_num

end CpuTracker

end Prequal
