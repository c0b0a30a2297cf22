import Prequal.Foundation.Runtime
import Prequal.Foundation.OrderStatistic

/-!
# The latency ring

Completed queries are kept in a bounded vector that is overwritten circularly.
An estimate ranks the candidate samples by the distance of their tag, takes
medians over the nearest ones and rescales to the requested RIF.  The sort is
unstable, so it is a parameter known only to sort.
-/

namespace Prequal

open Foundation
open scoped List

structure RingEntry where
  rifAtArrival : Nat
  durationUs : Nat
  finishedAt : Instant
  deriving DecidableEq, Repr

structure LatencyRing where
  entries : List RingEntry
  head : Nat
  capacity : Nat
  maxAge : Duration
  deriving DecidableEq, Repr

namespace LatencyRing

def new (capacity : Nat) (maxAge : Duration) : LatencyRing :=
  ⟨[], 0, capacity, maxAge⟩

def push (rifAtArrival durationUs : Nat) (finishedAt : Instant)
    (ring : LatencyRing) : Except Panic LatencyRing :=
  let entry : RingEntry := ⟨rifAtArrival, durationUs, finishedAt⟩
  if ring.entries.length < ring.capacity then
    .ok { ring with entries := ring.entries ++ [entry] }
  else if ring.head < ring.entries.length then
    if ring.capacity = 0 then .error .divisionByZero
    else
      .ok { ring with
        entries := ring.entries.set ring.head entry
        head := (ring.head + 1) % ring.capacity }
  else .error .indexOutOfBounds

def fresh (ring : LatencyRing) (now : Instant) : List RingEntry :=
  ring.entries.filter fun e => durationSince now e.finishedAt ≤ ring.maxAge

/-- Fresh samples are preferred; a drained replica uses the whole ring. -/
def candidates (ring : LatencyRing) (now : Instant) : List RingEntry :=
  if (ring.fresh now).isEmpty then ring.entries else ring.fresh now

def nearest (sort : SortByKey RingEntry) (ring : LatencyRing) (rif : Nat)
    (now : Instant) : List RingEntry :=
  (sort.sortBy (fun e => absDiff e.rifAtArrival rif)
    (ring.candidates now)).take 16

def medianOf (v : List Nat) : Except Panic Nat :=
  match kthSmallest v (v.length / 2) with
  | some m => .ok m
  | none => .error .indexOutOfBounds

def medianNear (sort : SortByKey RingEntry) (ring : LatencyRing) (rif : Nat)
    (now : Instant) : Except Panic Nat := do
  if (ring.candidates now).isEmpty then
    return 0
  let nearest := ring.nearest sort rif now
  let latency ← medianOf (nearest.map RingEntry.durationUs)
  let tag ← medianOf (nearest.map RingEntry.rifAtArrival)
  return wrapU64 (latency * (rif + 1)) / (tag + 1)

def EstimateFits (sort : SortByKey RingEntry) (ring : LatencyRing)
    (rif : Nat) (now : Instant) : Prop :=
  ∀ m, medianOf ((ring.nearest sort rif now).map RingEntry.durationUs) =
    .ok m → m * (rif + 1) < 2 ^ 64

/-! ## Pushing -/

structure Valid (ring : LatencyRing) : Prop where
  bounded : ring.entries.length ≤ ring.capacity
  head_lt : ring.head < ring.capacity

theorem new_valid {capacity : Nat} (h : 0 < capacity) (maxAge : Duration) :
    (new capacity maxAge).Valid :=
  ⟨Nat.zero_le _, h⟩

theorem Valid.push {ring : LatencyRing} (h : ring.Valid)
    (rifAtArrival durationUs : Nat) (finishedAt : Instant) :
    ∃ ring', ring.push rifAtArrival durationUs finishedAt = .ok ring' ∧
      ring'.Valid ∧ ring'.entries ≠ [] ∧
      ∀ e ∈ ring'.entries,
        e ∈ ring.entries ∨ e = ⟨rifAtArrival, durationUs, finishedAt⟩ := by
  obtain ⟨hbounded, hhead⟩ := h
  unfold LatencyRing.push
  by_cases hroom : ring.entries.length < ring.capacity
  · rw [if_pos hroom]
    refine ⟨_, rfl, ⟨?_, hhead⟩, by simp, ?_⟩
    · rw [List.length_append]
      exact hroom
    · intro e he
      simpa using he
  · have hslot : ring.head < ring.entries.length := by omega
    rw [if_neg hroom, if_pos hslot, if_neg (by omega)]
    refine ⟨_, rfl, ⟨by simpa using hbounded, Nat.mod_lt _ (by omega)⟩, ?_, ?_⟩
    · intro hnil
      have hlength := congrArg List.length hnil
      simp only [List.length_set, List.length_nil] at hlength
      omega
    · intro e he
      exact List.mem_or_eq_of_mem_set he

/-! ## Estimating -/

theorem candidates_subset (ring : LatencyRing) (now : Instant) :
    ring.candidates now ⊆ ring.entries := by
  unfold candidates
  split
  · exact List.Subset.refl _
  · exact List.filter_sublist.subset

theorem candidates_eq_nil_iff {ring : LatencyRing} {now : Instant} :
    ring.candidates now = [] ↔ ring.entries = [] := by
  unfold candidates
  split
  · rfl
  · rename_i hfresh
    rw [List.isEmpty_iff] at hfresh
    refine ⟨fun h => absurd h hfresh, fun h => absurd ?_ hfresh⟩
    rw [fresh, h, List.filter_nil]

theorem nearest_subset (sort : SortByKey RingEntry) (ring : LatencyRing)
    (rif : Nat) (now : Instant) :
    ring.nearest sort rif now ⊆ ring.candidates now := by
  intro e he
  exact (sort.perm _ _).subset (List.mem_of_mem_take he)

theorem length_nearest (sort : SortByKey RingEntry) (ring : LatencyRing)
    (rif : Nat) (now : Instant) :
    (ring.nearest sort rif now).length =
      min 16 (ring.candidates now).length := by
  rw [nearest, List.length_take, (sort.perm _ _).length_eq]

theorem nearest_perm_of_few (sort : SortByKey RingEntry)
    {ring : LatencyRing} {now : Instant}
    (h : (ring.candidates now).length ≤ 16) (rif : Nat) :
    ring.nearest sort rif now ~ ring.candidates now := by
  rw [nearest, List.take_of_length_le]
  · exact sort.perm _ _
  · rwa [(sort.perm _ _).length_eq]

theorem medianOf_eq_ok_iff {v : List Nat} {m : Nat} :
    medianOf v = .ok m ↔ kthSmallest v (v.length / 2) = some m := by
  unfold medianOf
  cases kthSmallest v (v.length / 2) <;> simp

theorem medianOf_isSome {v : List Nat} (h : v ≠ []) :
    ∃ m, medianOf v = .ok m := by
  have hpos := List.length_pos_iff.mpr h
  obtain ⟨m, hm⟩ := kthSmallest_isSome (by omega : v.length / 2 < v.length)
  exact ⟨m, medianOf_eq_ok_iff.mpr hm⟩

theorem medianOf_perm {v w : List Nat} (h : v ~ w) :
    medianOf v = medianOf w := by
  rw [medianOf, medianOf, kthSmallest_perm h, h.length_eq]

theorem medianNear_of_nil (sort : SortByKey RingEntry) {ring : LatencyRing}
    (h : ring.entries = []) (rif : Nat) (now : Instant) :
    ring.medianNear sort rif now = .ok 0 := by
  have hnil : ring.candidates now = [] := candidates_eq_nil_iff.mpr h
  simp [medianNear, hnil, pure, Except.pure]

theorem medianNear_of_ne_nil (sort : SortByKey RingEntry)
    {ring : LatencyRing} (h : ring.entries ≠ []) (rif : Nat)
    (now : Instant) : ∃ latency tag,
      medianOf ((ring.nearest sort rif now).map RingEntry.durationUs) =
          .ok latency ∧
        medianOf ((ring.nearest sort rif now).map RingEntry.rifAtArrival) =
          .ok tag ∧
        ring.medianNear sort rif now =
          .ok (wrapU64 (latency * (rif + 1)) / (tag + 1)) := by
  have hne : ring.candidates now ≠ [] := mt candidates_eq_nil_iff.mp h
  have hnear : ring.nearest sort rif now ≠ [] := by
    rw [← List.length_pos_iff, length_nearest]
    have := List.length_pos_iff.mpr hne
    omega
  obtain ⟨latency, hlatency⟩ := medianOf_isSome
    (mt List.map_eq_nil_iff.mp hnear : List.map RingEntry.durationUs _ ≠ [])
  obtain ⟨tag, htag⟩ := medianOf_isSome
    (mt List.map_eq_nil_iff.mp hnear : List.map RingEntry.rifAtArrival _ ≠ [])
  refine ⟨latency, tag, hlatency, htag, ?_⟩
  simp [medianNear, hne, hlatency, htag, bind, Except.bind, pure,
    Except.pure]

theorem medianNear_of_same (sort : SortByKey RingEntry)
    {ring : LatencyRing} {now : Instant} {rif rif' : Nat}
    (hsame : ring.nearest sort rif now ~ ring.nearest sort rif' now)
    (hle : rif ≤ rif') (hfits : ring.EstimateFits sort rif' now) :
    ∃ m g, ring.medianNear sort rif now = .ok (m * (rif + 1) / (g + 1)) ∧
      ring.medianNear sort rif' now = .ok (m * (rif' + 1) / (g + 1)) := by
  by_cases hne : ring.entries = []
  · refine ⟨0, 0, ?_, ?_⟩
    · simpa using medianNear_of_nil sort hne rif now
    · simpa using medianNear_of_nil sort hne rif' now
  · obtain ⟨m, g, hm, hg, hestimate⟩ := medianNear_of_ne_nil sort hne rif now
    obtain ⟨m', g', hm', hg', hestimate'⟩ :=
      medianNear_of_ne_nil sort hne rif' now
    have hmm : m = m' := by
      rw [medianOf_perm (hsame.map _), hm'] at hm
      exact (Except.ok.inj hm).symm
    have hgg : g = g' := by
      rw [medianOf_perm (hsame.map _), hg'] at hg
      exact (Except.ok.inj hg).symm
    subst hmm hgg
    have hfits' := hfits m hm'
    have hlt : m * (rif + 1) < 2 ^ 64 :=
      (Nat.mul_le_mul_left m (Nat.succ_le_succ hle)).trans_lt hfits'
    rw [wrapU64_of_lt hlt] at hestimate
    rw [wrapU64_of_lt hfits'] at hestimate'
    exact ⟨m, g, hestimate, hestimate'⟩

end LatencyRing

end Prequal
