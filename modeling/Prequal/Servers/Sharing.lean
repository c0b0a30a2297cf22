import Prequal.Servers.LatencyRing
import Mathlib.Tactic.Ring

/-!
# Soundness under processor sharing

Under processor sharing a query that arrives at occupancy `tag` lasts in
proportion to `tag + 1`.  The two medians of an estimate may come from
different samples, so the relation between them is not that of any one sample:
it holds because order statistics keep a pointwise order.
-/

namespace Prequal

open Foundation
open scoped List

namespace LatencyRing

/-- Every sample lasted between `lo` and `hi` for each query in flight. -/
def SharesWithin (lo hi : Nat) (samples : List RingEntry) : Prop :=
  ∀ e ∈ samples, lo * (e.rifAtArrival + 1) ≤ e.durationUs ∧
    e.durationUs ≤ hi * (e.rifAtArrival + 1)

theorem SharesWithin.mono {lo hi : Nat} {samples samples' : List RingEntry}
    (h : SharesWithin lo hi samples) (hsub : samples' ⊆ samples) :
    SharesWithin lo hi samples' :=
  fun e he => h e (hsub he)

/-! ## The medians of proportionate samples -/

theorem medianOf_map {f : Nat → Nat} (hf : Monotone f)
    {samples : List RingEntry} {tag : Nat}
    (htag : medianOf (samples.map RingEntry.rifAtArrival) = .ok tag) :
    medianOf (samples.map fun e => f e.rifAtArrival) = .ok (f tag) := by
  rw [medianOf_eq_ok_iff, List.length_map] at htag ⊢
  have hmap := kthSmallest_map hf (samples.map RingEntry.rifAtArrival)
    (samples.length / 2)
  rw [htag, List.map_map] at hmap
  exact hmap

theorem medianOf_le_of_pointwise {samples : List RingEntry}
    {f g : RingEntry → Nat} (h : ∀ e ∈ samples, f e ≤ g e) {m m' : Nat}
    (hm : medianOf (samples.map f) = .ok m)
    (hm' : medianOf (samples.map g) = .ok m') : m ≤ m' := by
  rw [medianOf_eq_ok_iff, List.length_map] at hm hm'
  refine kthSmallest_le_of_forall₂ ?_ hm hm'
  rw [List.forall₂_map_left_iff, List.forall₂_map_right_iff,
    List.forall₂_same]
  exact h

theorem SharesWithin.medians {lo hi : Nat} {samples : List RingEntry}
    (h : SharesWithin lo hi samples) {latency tag : Nat}
    (hlatency : medianOf (samples.map RingEntry.durationUs) = .ok latency)
    (htag : medianOf (samples.map RingEntry.rifAtArrival) = .ok tag) :
    lo * (tag + 1) ≤ latency ∧ latency ≤ hi * (tag + 1) := by
  have hmono : ∀ c : Nat, Monotone fun t => c * (t + 1) := by
    intro c t t' hle
    exact Nat.mul_le_mul_left c (Nat.succ_le_succ hle)
  constructor
  · exact medianOf_le_of_pointwise (fun e he => (h e he).1)
      (medianOf_map (hmono lo) htag) hlatency
  · exact medianOf_le_of_pointwise (fun e he => (h e he).2)
      hlatency (medianOf_map (hmono hi) htag)

theorem rescale_within {lo hi latency tag : Nat}
    (hlo : lo * (tag + 1) ≤ latency) (hhi : latency ≤ hi * (tag + 1))
    (rif : Nat) :
    lo * (rif + 1) ≤ latency * (rif + 1) / (tag + 1) ∧
      latency * (rif + 1) / (tag + 1) ≤ hi * (rif + 1) := by
  constructor
  · rw [Nat.le_div_iff_mul_le (Nat.succ_pos tag)]
    calc
      lo * (rif + 1) * (tag + 1) = lo * (tag + 1) * (rif + 1) := by ring
      _ ≤ latency * (rif + 1) := Nat.mul_le_mul_right _ hlo
  · apply Nat.div_le_of_le_mul
    calc
      latency * (rif + 1) ≤ hi * (tag + 1) * (rif + 1) :=
        Nat.mul_le_mul_right _ hhi
      _ = (tag + 1) * (hi * (rif + 1)) := by ring

/-! ## The estimate -/

theorem medianNear_of_fits {sort : SortByKey RingEntry} {ring : LatencyRing}
    {rif : Nat} {now : Instant} (hne : ring.candidates now ≠ [])
    (hfits : ring.EstimateFits sort rif now) :
    ∃ latency tag,
      medianOf ((ring.nearest sort rif now).map RingEntry.durationUs) =
          .ok latency ∧
        medianOf ((ring.nearest sort rif now).map RingEntry.rifAtArrival) =
          .ok tag ∧
        ring.medianNear sort rif now =
          .ok (latency * (rif + 1) / (tag + 1)) := by
  obtain ⟨latency, tag, hlatency, htag, he⟩ := medianNear_of_ne_nil sort
    (mt candidates_eq_nil_iff.mpr hne) rif now
  rw [wrapU64_of_lt (hfits latency hlatency)] at he
  exact ⟨latency, tag, hlatency, htag, he⟩

theorem medianNear_within {sort : SortByKey RingEntry} {ring : LatencyRing}
    {rif : Nat} {now : Instant} (hne : ring.candidates now ≠ [])
    (hfits : ring.EstimateFits sort rif now) :
    ∃ e, ring.medianNear sort rif now = .ok e ∧
      ∀ lo hi, SharesWithin lo hi (ring.candidates now) →
        lo * (rif + 1) ≤ e ∧ e ≤ hi * (rif + 1) := by
  obtain ⟨latency, tag, hlatency, htag, he⟩ := medianNear_of_fits hne hfits
  refine ⟨_, he, fun lo hi hshares => ?_⟩
  have hnear := hshares.mono (nearest_subset sort ring rif now)
  obtain ⟨hlo, hhi⟩ := hnear.medians hlatency htag
  exact rescale_within hlo hhi rif

theorem medianNear_of_fresh (sort : SortByKey RingEntry)
    {ring ring' : LatencyRing} {now : Instant} (hfresh : ring.fresh now ≠ [])
    (hsame : ring'.fresh now = ring.fresh now) (rif : Nat) :
    ring'.medianNear sort rif now = ring.medianNear sort rif now := by
  have hcandidates : ring'.candidates now = ring.candidates now := by
    rw [candidates, candidates, hsame]
    simp [hfresh]
  simp only [medianNear, nearest, hcandidates]

/--
The estimator is sound for proportionate samples, whatever order the sort
gives to equally near ones.
-/
theorem estimate_sound (sort : SortByKey RingEntry) (ring : LatencyRing)
    (rif : Nat) (now : Instant) (hne : ring.candidates now ≠ [])
    (hfits : ring.EstimateFits sort rif now) :
    ∃ e, ring.medianNear sort rif now = .ok e ∧
      (∀ lo hi, SharesWithin lo hi (ring.candidates now) →
        lo * (rif + 1) ≤ e ∧ e ≤ hi * (rif + 1)) ∧
      (∀ c, (∀ s ∈ ring.candidates now,
          s.durationUs = c * (s.rifAtArrival + 1)) → e = c * (rif + 1)) ∧
      (ring.fresh now ≠ [] → ∀ ring' : LatencyRing,
        ring'.fresh now = ring.fresh now →
          ring'.medianNear sort rif now = .ok e) := by
  obtain ⟨e, he, hbounds⟩ := medianNear_within hne hfits
  refine ⟨e, he, hbounds, ?_, ?_⟩
  · intro c hexact
    have hshares : SharesWithin c c (ring.candidates now) := fun s hs =>
      ⟨(hexact s hs).ge, (hexact s hs).le⟩
    obtain ⟨hlo, hhi⟩ := hbounds c c hshares
    exact Nat.le_antisymm hhi hlo
  · intro hfresh ring' hsame
    rw [medianNear_of_fresh sort hfresh hsame rif]
    exact he

def proportionate : LatencyRing :=
  ⟨[⟨7, 5, 0⟩, ⟨0, 100, 600000000⟩, ⟨1, 200, 600000001⟩,
    ⟨4, 500, 600000002⟩], 0, 512, fromMillis 500⟩

theorem proportionate_estimate :
    proportionate.medianNear (.stable RingEntry) 2 600000003 = .ok 300 := by
  have hfits : proportionate.EstimateFits (.stable RingEntry) 2
      600000003 := by
    intro m hm
    obtain rfl : 200 = m := Except.ok.inj hm
    decide
  obtain ⟨e, he, -, hexact, -⟩ := estimate_sound (.stable RingEntry)
    proportionate 2 600000003 (by decide) hfits
  obtain rfl : e = 100 * (2 + 1) := hexact 100 (by decide)
  exact he

end LatencyRing

end Prequal
