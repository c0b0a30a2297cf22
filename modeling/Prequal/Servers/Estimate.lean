import Prequal.Foundation.Execution
import Prequal.Servers.Replica

/-!
# Estimates at the occupancy of the samples

Samples are tagged with a RIF that counts their own query, whereas a probe asks
for the RIF without the query to come.  At equal occupancy the server therefore
scales its median by `(r + 1) / (r + 2)`.
-/

namespace Prequal

open Foundation
open scoped List

/-! ## Samples of one occupancy -/

theorem ringAfter_spec {capacity : Nat} {r : Nat} (hcapacity : 0 < capacity)
    (hr : r + 1 < 2 ^ 32) (maxAge : Duration)
    (completions : List Completion) :
    ∃ ring, ringAfter capacity maxAge r completions = .ok ring ∧
      ring.Valid ∧ (completions ≠ [] → ring.entries ≠ []) ∧
      ∀ e ∈ ring.entries, e.rifAtArrival = r + 1 := by
  refine foldlM_history (Completion.record r)
    (fun past (ring : LatencyRing) => ring.Valid ∧
      (past ≠ [] → ring.entries ≠ []) ∧
      ∀ e ∈ ring.entries, e.rifAtArrival = r + 1)
    (LatencyRing.new capacity maxAge)
    ⟨LatencyRing.new_valid hcapacity _, nofun, nofun⟩ ?_ completions
  rintro past c ring ⟨hvalid, -, htags⟩
  obtain ⟨ring', hpush, hvalid', hne, hentries⟩ :=
    hvalid.push (r + 1) c.durationUs c.finishedAt
  refine ⟨ring', ?_, hvalid', fun _ => hne, ?_⟩
  · simp only [Completion.record, RifGuard.arm_of_lt hr]
    exact hpush
  · intro e he
    rcases hentries e he with hold | rfl
    · exact htags e hold
    · rfl

def LatencyRing.Within (ring : LatencyRing) (latencyUs : Nat) : Prop :=
  (∃ e ∈ ring.entries, e.durationUs ≤ latencyUs) ∧
    ∃ e ∈ ring.entries, latencyUs ≤ e.durationUs

/-- A sample that scaling by `(r + 1) / (r + 2)` moves below all others. -/
def LatencyRing.FallsBelow (ring : LatencyRing) (r durationUs : Nat) : Bool :=
  ∀ e ∈ ring.entries, durationUs * (r + 1) < e.durationUs * (r + 2)

theorem medianNear_of_tags (sort : SortByKey RingEntry) {ring : LatencyRing}
    {r : Nat} {now : Instant} (hne : ring.entries ≠ [])
    (htags : ∀ e ∈ ring.entries, e.rifAtArrival = r + 1)
    (hfits : ring.EstimateFits sort r now) :
    ∃ m, (∃ e ∈ ring.entries, e.durationUs = m) ∧
      kthSmallest ((ring.nearest sort r now).map RingEntry.durationUs)
        ((ring.nearest sort r now).length / 2) = some m ∧
      ring.medianNear sort r now = .ok (m * (r + 1) / (r + 2)) := by
  obtain ⟨m, tag, hm, htag, hestimate⟩ :=
    LatencyRing.medianNear_of_ne_nil sort hne r now
  have hsubset : ring.nearest sort r now ⊆ ring.entries :=
    List.Subset.trans (LatencyRing.nearest_subset sort ring r now)
      (ring.candidates_subset now)
  have hkth := LatencyRing.medianOf_eq_ok_iff.mp hm
  obtain ⟨e, he, hduration⟩ := List.mem_map.mp (kthSmallest_mem hkth)
  obtain ⟨e', he', htag'⟩ := List.mem_map.mp
    (kthSmallest_mem (LatencyRing.medianOf_eq_ok_iff.mp htag))
  rw [List.length_map] at hkth
  refine ⟨m, ⟨e, hsubset he, hduration⟩, hkth, ?_⟩
  rw [hestimate, wrapU64_of_lt (hfits m hm), ← htag', htags e' (hsubset he')]

/-- Samples of one query at RIF zero are advertised at half their duration. -/
theorem advertised_below_every_sample : ¬ ∀ (sort : SortByKey RingEntry)
    (capacity : Nat) (maxAge : Duration) (r : Nat)
    (completions : List Completion) (ring : LatencyRing) (utilEma : Rat)
    (now : Instant), 0 < capacity → r + 1 < 2 ^ 32 → completions ≠ [] →
    ringAfter capacity maxAge r completions = .ok ring →
    ring.EstimateFits sort r now →
    ∃ resp, probe sort ⟨r, ring, utilEma⟩ now = .ok resp ∧
      ring.Within resp.latencyUs := by
  intro h
  have hfits : LatencyRing.EstimateFits (.stable RingEntry)
      ⟨[⟨1, 1000, 7⟩], 0, 512, fromMillis 500⟩ 0 9 := by
    intro m hm
    obtain rfl : 1000 = m := Except.ok.inj hm
    decide
  obtain ⟨resp, hprobe, ⟨e, he, hle⟩, -⟩ :=
    h (.stable RingEntry) 512 (fromMillis 500) 0 [⟨1000, 7⟩]
      ⟨[⟨1, 1000, 7⟩], 0, 512, fromMillis 500⟩ 0 9 (by decide) (by decide)
      (by decide) rfl hfits
  obtain rfl : (⟨0, 500, 0⟩ : ProbeResponse) = resp := Except.ok.inj hprobe
  rw [List.mem_singleton.mp he] at hle
  exact absurd hle (by decide)

/--
After completions that all arrived at RIF `r`, a probe at RIF `r` advertises a
latency between the retained durations iff at most half of the nearest samples
would fall below all of them when scaled by `(r + 1) / (r + 2)`.
-/
theorem advertised_within_iff (sort : SortByKey RingEntry) (capacity : Nat)
    (maxAge : Duration) (r : Nat) (completions : List Completion)
    (ring : LatencyRing) (utilEma : Rat) (now : Instant)
    (hcapacity : 0 < capacity) (hr : r + 1 < 2 ^ 32)
    (hne : completions ≠ [])
    (hring : ringAfter capacity maxAge r completions = .ok ring)
    (hfits : ring.EstimateFits sort r now) :
    (∃ resp, probe sort ⟨r, ring, utilEma⟩ now = .ok resp ∧
      ring.Within resp.latencyUs) ↔
    2 * (ring.nearest sort r now).countP
        (fun e => ring.FallsBelow r e.durationUs) ≤
      (ring.nearest sort r now).length := by
  obtain ⟨ring', hring', -, hfull, htags⟩ :=
    ringAfter_spec hcapacity hr maxAge completions
  obtain rfl : ring' = ring := Except.ok.inj (hring'.symm.trans hring)
  obtain ⟨m, ⟨e, he, hem⟩, hkth, hestimate⟩ :=
    medianNear_of_tags sort (hfull hne) htags hfits
  have hprobe : probe sort ⟨r, ring', utilEma⟩ now =
      .ok ⟨r, m * (r + 1) / (r + 2), utilEma⟩ := by
    simp only [probe, hestimate]
    rfl
  -- The scaled median is never above the median, so only one side can fail.
  have hupper : m * (r + 1) / (r + 2) ≤ m :=
    Nat.div_le_of_le_mul (by
      rw [Nat.mul_comm]
      exact Nat.mul_le_mul_right m (by omega))
  have hwithin : (∃ resp, probe sort ⟨r, ring', utilEma⟩ now = .ok resp ∧
      ring'.Within resp.latencyUs) ↔ ring'.FallsBelow r m = false := by
    rw [hprobe]
    constructor
    · rintro ⟨resp, hresp, ⟨e', he', hle⟩, -⟩
      obtain rfl := Except.ok.inj hresp
      rw [LatencyRing.FallsBelow, decide_eq_false_iff_not]
      intro hbelow
      have hlt := hbelow e' he'
      have hge := (Nat.le_div_iff_mul_le (by omega)).mp hle
      omega
    · intro hnot
      rw [LatencyRing.FallsBelow, decide_eq_false_iff_not] at hnot
      simp only [not_forall, not_lt, exists_prop] at hnot
      obtain ⟨e', he', hge⟩ := hnot
      exact ⟨_, rfl, ⟨e', he', (Nat.le_div_iff_mul_le (by omega)).mpr hge⟩,
        e, he, hupper.trans hem.ge⟩
  rw [hwithin, ← countP_le_iff_of_downward hkth, List.countP_map,
    Nat.le_div_iff_mul_le (by decide), Nat.mul_comm]
  · rfl
  · intro a b hab hb
    rw [LatencyRing.FallsBelow, decide_eq_true_eq] at hb ⊢
    exact fun e' he' =>
      (Nat.mul_le_mul_right _ hab).trans_lt (hb e' he')

theorem threeSamples_within :
    ∃ resp, probe (.stable RingEntry)
        ⟨1, ⟨[⟨2, 1000, 1⟩, ⟨2, 2000, 2⟩, ⟨2, 3000, 3⟩], 0, 512,
          fromMillis 500⟩, 0⟩ 9 = .ok resp ∧
      LatencyRing.Within ⟨[⟨2, 1000, 1⟩, ⟨2, 2000, 2⟩, ⟨2, 3000, 3⟩], 0, 512,
        fromMillis 500⟩ resp.latencyUs := by
  have hfits : LatencyRing.EstimateFits (.stable RingEntry)
      ⟨[⟨2, 1000, 1⟩, ⟨2, 2000, 2⟩, ⟨2, 3000, 3⟩], 0, 512, fromMillis 500⟩
      1 9 := by
    intro m hm
    obtain rfl : 2000 = m := Except.ok.inj hm
    decide
  exact (advertised_within_iff (.stable RingEntry) 512 (fromMillis 500) 1
    [⟨1000, 1⟩, ⟨2000, 2⟩, ⟨3000, 3⟩] _ 0 9 (by decide) (by decide)
    (by decide) rfl hfits).mpr (by decide)

end Prequal
