import Prequal.Servers.Sharing
import Prequal.Foundation.Nearest

/-!
# A leading indicator

With the same samples at both occupancies a rise in RIF raises the estimate.
Where it moves the window of nearest samples the new ones decide, and if they
were short the advertised latency falls.
-/

namespace Prequal

open Foundation
open scoped List

namespace RingEntry

def arrival (e : RingEntry) : Nat × Instant :=
  (e.rifAtArrival, e.finishedAt)

def lasting (durationUs : Nat) (e : RingEntry) : RingEntry :=
  { e with durationUs := durationUs }

@[simp]
theorem arrival_lasting (durationUs : Nat) (e : RingEntry) :
    (e.lasting durationUs).arrival = e.arrival :=
  rfl

@[simp]
theorem durationUs_lasting (durationUs : Nat) (e : RingEntry) :
    (e.lasting durationUs).durationUs = durationUs :=
  rfl

end RingEntry

namespace LatencyRing

/-! ## The slots an estimate reads -/

def nearestSlots {sort : SortByKey RingEntry} (pos : sort.Positions)
    (ring : LatencyRing) (rif : Nat) (now : Instant) : List Nat :=
  (pos.order ((ring.candidates now).map fun e =>
    absDiff e.rifAtArrival rif)).take 16

variable {sort : SortByKey RingEntry} (pos : sort.Positions)

theorem nearest_map_some (ring : LatencyRing) (rif : Nat) (now : Instant) :
    (ring.nearest sort rif now).map some =
      (ring.nearestSlots pos rif now).map fun i => (ring.candidates now)[i]? :=
  pos.map_take _ _ _

theorem nearest_perm_of_slots {ring : LatencyRing} {rif rif' : Nat}
    {now : Instant} (h : ring.nearestSlots pos rif now ~
      ring.nearestSlots pos rif' now) :
    ring.nearest sort rif now ~ ring.nearest sort rif' now := by
  rw [← List.map_perm_map_iff (Option.some_injective RingEntry),
    nearest_map_some pos, nearest_map_some pos]
  exact h.map _

theorem nearest_map (f : RingEntry → Nat) (ring : LatencyRing) (rif : Nat)
    (now : Instant) :
    (ring.nearest sort rif now).map f =
      (ring.nearestSlots pos rif now).map fun i =>
        (((ring.candidates now).map f)[i]?).getD 0 := by
  have hmap := congrArg (List.map fun o : Option RingEntry =>
    (o.map f).getD 0) (nearest_map_some pos ring rif now)
  simpa [Function.comp_def] using hmap

theorem nearestSlots_nodup (ring : LatencyRing) (rif : Nat) (now : Instant) :
    (ring.nearestSlots pos rif now).Nodup :=
  (pos.nodup _).sublist (List.take_sublist _ _)

theorem length_nearestSlots (ring : LatencyRing) (rif : Nat)
    (now : Instant) : (ring.nearestSlots pos rif now).length =
      min 16 (ring.candidates now).length := by
  rw [nearestSlots, List.length_take, pos.length, List.length_map]

theorem lt_of_mem_nearestSlots {ring : LatencyRing} {rif : Nat}
    {now : Instant} {i : Nat} (h : i ∈ ring.nearestSlots pos rif now) :
    i < (ring.candidates now).length := by
  have hmem := (pos.perm _).subset (List.mem_of_mem_take h)
  rwa [List.mem_range, List.length_map] at hmem

theorem nearestSlots_perm_of_few {ring : LatencyRing} {now : Instant}
    (h : (ring.candidates now).length ≤ 16) (rif rif' : Nat) :
    ring.nearestSlots pos rif now ~ ring.nearestSlots pos rif' now := by
  have hall : ∀ r, ring.nearestSlots pos r now ~
      List.range (ring.candidates now).length := by
    intro r
    rw [nearestSlots, List.take_of_length_le]
    · simpa using pos.perm ((ring.candidates now).map fun e =>
        absDiff e.rifAtArrival r)
    · rwa [pos.length, List.length_map]
  exact (hall rif).trans (hall rif').symm

/-! ## The same arrivals with other durations -/

/-- Two rings whose samples differ in nothing but their durations. -/
structure SameArrivals (ring ring' : LatencyRing) : Prop where
  arrivals : ring'.entries.map RingEntry.arrival =
    ring.entries.map RingEntry.arrival
  head : ring'.head = ring.head
  capacity : ring'.capacity = ring.capacity
  maxAge : ring'.maxAge = ring.maxAge

def isCandidate (ring : LatencyRing) (now : Instant)
    (arrival : Nat × Instant) : Bool :=
  (ring.fresh now).isEmpty || durationSince now arrival.2 ≤ ring.maxAge

theorem candidates_eq_filter (ring : LatencyRing) (now : Instant) :
    ring.candidates now =
      ring.entries.filter fun e => ring.isCandidate now e.arrival := by
  unfold candidates isCandidate
  cases (ring.fresh now).isEmpty with
  | true => simp
  | false =>
      simp only [Bool.false_eq_true, if_false, Bool.false_or]
      rfl

theorem map_arrival_filter (q : Nat × Instant → Bool) (l : List RingEntry) :
    (l.filter fun e => q e.arrival).map RingEntry.arrival =
      (l.map RingEntry.arrival).filter q :=
  (List.filter_map).symm

theorem SameArrivals.isCandidate {ring ring' : LatencyRing}
    (h : ring.SameArrivals ring') (now : Instant) :
    ring'.isCandidate now = ring.isCandidate now := by
  have hfresh : ∀ ring : LatencyRing,
      (ring.fresh now).map RingEntry.arrival =
        (ring.entries.map RingEntry.arrival).filter fun a =>
          durationSince now a.2 ≤ ring.maxAge := fun ring =>
    map_arrival_filter (fun a => durationSince now a.2 ≤ ring.maxAge) _
  have hempty : (ring'.fresh now).isEmpty = (ring.fresh now).isEmpty := by
    rw [← List.isEmpty_map (f := RingEntry.arrival), hfresh, h.arrivals,
      h.maxAge, ← hfresh, List.isEmpty_map]
  funext a
  rw [LatencyRing.isCandidate, hempty, h.maxAge, LatencyRing.isCandidate]

theorem SameArrivals.candidates {ring ring' : LatencyRing}
    (h : ring.SameArrivals ring') (now : Instant) :
    (ring'.candidates now).map RingEntry.arrival =
      (ring.candidates now).map RingEntry.arrival := by
  rw [candidates_eq_filter, candidates_eq_filter, h.isCandidate now,
    map_arrival_filter, map_arrival_filter, h.arrivals]

theorem SameArrivals.map_tag {ring ring' : LatencyRing}
    (h : ring.SameArrivals ring') (now : Instant) (f : Nat → Nat) :
    ((ring'.candidates now).map fun e => f e.rifAtArrival) =
      (ring.candidates now).map fun e => f e.rifAtArrival := by
  have hmap := congrArg (List.map fun a : Nat × Instant => f a.1)
    (h.candidates now)
  simpa [Function.comp_def, RingEntry.arrival] using hmap

theorem SameArrivals.nearestSlots {ring ring' : LatencyRing}
    (h : ring.SameArrivals ring') (rif : Nat) (now : Instant) :
    ring'.nearestSlots pos rif now = ring.nearestSlots pos rif now := by
  rw [LatencyRing.nearestSlots, LatencyRing.nearestSlots,
    h.map_tag now fun t => absDiff t rif]

theorem exists_durations (q : Nat × Instant → Bool) (l : List RingEntry)
    (ds : List Nat)
    (h : ds.length = (l.filter fun e => q e.arrival).length) :
    ∃ l' : List RingEntry,
      l'.map RingEntry.arrival = l.map RingEntry.arrival ∧
        (l'.filter fun e => q e.arrival).map RingEntry.durationUs = ds ∧
        ∀ e ∈ l', e.durationUs ∈ ds ∨ e.durationUs = 0 := by
  induction l generalizing ds with
  | nil =>
      obtain rfl : ds = [] := List.length_eq_zero_iff.mp h
      exact ⟨[], rfl, rfl, by simp⟩
  | cons e l ih =>
      cases hq : q e.arrival with
      | false =>
          obtain ⟨l', harrival, hduration, hbound⟩ :=
            ih ds (by simpa [hq] using h)
          refine ⟨e.lasting 0 :: l', ?_, ?_, ?_⟩
          · simp [harrival]
          · simpa [hq] using hduration
          · simpa using hbound
      | true =>
          cases ds with
          | nil => simp [hq] at h
          | cons d ds =>
              obtain ⟨l', harrival, hduration, hbound⟩ :=
                ih ds (by simpa [hq] using h)
              refine ⟨e.lasting d :: l', ?_, ?_, ?_⟩
              · simp [harrival]
              · simpa [hq] using hduration
              · intro e' he'
                rcases List.mem_cons.mp he' with rfl | he'
                · exact .inl List.mem_cons_self
                · exact (hbound e' he').imp_left (List.mem_cons_of_mem d)

theorem exists_sameArrivals (ring : LatencyRing) (now : Instant)
    (ds : List Nat) (h : ds.length = (ring.candidates now).length) :
    ∃ ring' : LatencyRing, ring.SameArrivals ring' ∧
      (ring'.candidates now).map RingEntry.durationUs = ds ∧
      ∀ e ∈ ring'.entries, e.durationUs ∈ ds ∨ e.durationUs = 0 := by
  rw [candidates_eq_filter] at h
  obtain ⟨l', harrival, hduration, hbound⟩ :=
    exists_durations _ ring.entries ds h
  have hsame : ring.SameArrivals { ring with entries := l' } :=
    ⟨harrival, rfl, rfl, rfl⟩
  refine ⟨_, hsame, ?_, hbound⟩
  rw [candidates_eq_filter, hsame.isCandidate now]
  exact hduration

/-! ## Where the estimate cannot fall -/

theorem SameArrivals.tag_lt {ring ring' : LatencyRing}
    (h : ring.SameArrivals ring') {bound : Nat}
    (htags : ∀ e ∈ ring.entries, e.rifAtArrival < bound) :
    ∀ e ∈ ring'.entries, e.rifAtArrival < bound := by
  intro e he
  have hmem : e.arrival ∈ ring.entries.map RingEntry.arrival := by
    rw [← h.arrivals]
    exact List.mem_map_of_mem he
  obtain ⟨e', he', harrival⟩ := List.mem_map.mp hmem
  have htag : e'.rifAtArrival = e.rifAtArrival := congrArg Prod.fst harrival
  rw [← htag]
  exact htags e' he'

theorem estimate_le_of_same {ring : LatencyRing} {rif rif' : Nat}
    {now : Instant} (hle : rif ≤ rif')
    (hsame : ring.nearest sort rif now ~ ring.nearest sort rif' now)
    (hfits : ring.EstimateFits sort rif' now) :
    ∃ e e', ring.medianNear sort rif now = .ok e ∧
      ring.medianNear sort rif' now = .ok e' ∧ e ≤ e' := by
  obtain ⟨m, g, he, he'⟩ := medianNear_of_same sort hsame hle hfits
  exact ⟨_, _, he, he', Nat.div_le_div_right
    (Nat.mul_le_mul_left m (Nat.succ_le_succ hle))⟩

theorem estimate_le_of_shares (sort : SortByKey RingEntry)
    {ring : LatencyRing} {rif rif' : Nat} {now : Instant} {lo hi : Nat}
    (hne : ring.candidates now ≠ [])
    (hshares : SharesWithin lo hi (ring.candidates now))
    (hspread : hi * (rif + 1) ≤ lo * (rif' + 1))
    (hfits : ring.EstimateFits sort rif now)
    (hfits' : ring.EstimateFits sort rif' now) :
    ∃ e e', ring.medianNear sort rif now = .ok e ∧
      ring.medianNear sort rif' now = .ok e' ∧ e ≤ e' := by
  obtain ⟨e, he, hbounds⟩ := medianNear_within hne hfits
  obtain ⟨e', he', hbounds'⟩ := medianNear_within hne hfits'
  refine ⟨e, e', he, he', ?_⟩
  calc
    e ≤ hi * (rif + 1) := (hbounds lo hi hshares).2
    _ ≤ lo * (rif' + 1) := hspread
    _ ≤ e' := (hbounds' lo hi hshares).1

theorem medianOf_eq_high {slots s : List Nat} {high m : Nat}
    (hfew : slots.countP (· ∉ s) ≤ slots.length / 2)
    (hm : medianOf (slots.map fun i => if i ∈ s then high else 0) =
      .ok m) : m = high := by
  rw [medianOf_eq_ok_iff, List.length_map] at hm
  have hle : m ≤ high := by
    obtain ⟨i, -, rfl⟩ := List.mem_map.mp (kthSmallest_mem hm)
    split
    · exact le_rfl
    · exact Nat.zero_le _
  refine Nat.le_antisymm hle ((le_kthSmallest_iff hm high).mpr ?_)
  rw [List.countP_map]
  refine le_trans (List.countP_mono_left fun i _ hi => ?_) hfew
  simp only [Function.comp_apply, decide_eq_true_eq] at hi ⊢
  intro hmem
  rw [if_pos hmem] at hi
  exact lt_irrefl _ hi

theorem medianOf_eq_zero {slots s : List Nat} {high m : Nat}
    (hmany : slots.length / 2 < slots.countP (· ∉ s))
    (hm : medianOf (slots.map fun i => if i ∈ s then high else 0) =
      .ok m) : m = 0 := by
  rw [medianOf_eq_ok_iff, List.length_map] at hm
  refine Nat.le_zero.mp ((kthSmallest_le_iff hm 0).mpr ?_)
  rw [List.countP_map]
  refine hmany.trans_le (List.countP_mono_left fun i _ hi => ?_)
  simp only [Function.comp_apply, decide_eq_true_eq] at hi ⊢
  rw [if_neg hi]

theorem exists_long_at (ring : LatencyRing) (now : Instant) (s : List Nat)
    (long : Nat) :
    ∃ ring' : LatencyRing, ring.SameArrivals ring' ∧
      (∀ rif, (ring'.nearest sort rif now).map RingEntry.durationUs =
        (ring.nearestSlots pos rif now).map fun i =>
          if i ∈ s then long else 0) ∧
      ∀ e ∈ ring'.entries, e.durationUs ≤ long := by
  obtain ⟨ring', hsame, hds, hbound⟩ := exists_sameArrivals ring now
    ((List.range (ring.candidates now).length).map fun i =>
      if i ∈ s then long else 0) (by simp)
  refine ⟨ring', hsame, fun rif => ?_, fun e he => ?_⟩
  · rw [nearest_map pos, hsame.nearestSlots pos, hds]
    refine List.map_congr_left fun i hi => ?_
    simp [lt_of_mem_nearestSlots pos hi]
  · rcases hbound e he with hdur | hdur
    · obtain ⟨i, -, hi⟩ := List.mem_map.mp hdur
      rw [← hi]
      split
      · exact le_rfl
      · exact Nat.zero_le _
    · rw [hdur]
      exact Nat.zero_le _

theorem medianOf_tag_lt {ring : LatencyRing} {rif tag bound : Nat}
    {now : Instant} (htags : ∀ e ∈ ring.entries, e.rifAtArrival < bound)
    (htag : medianOf ((ring.nearest sort rif now).map
      RingEntry.rifAtArrival) = .ok tag) : tag < bound := by
  rw [medianOf_eq_ok_iff] at htag
  obtain ⟨e, he, rfl⟩ := List.mem_map.mp (kthSmallest_mem htag)
  exact htags e (candidates_subset ring now
    (nearest_subset sort ring rif now he))

theorem exists_falling {ring : LatencyRing} {rif rif' : Nat} {now : Instant}
    (hle : rif ≤ rif') (hrif : rif' < 2 ^ 32)
    (htags : ∀ e ∈ ring.entries, e.rifAtArrival < 2 ^ 32)
    (h : ¬ ring.nearestSlots pos rif now ~ ring.nearestSlots pos rif' now) :
    ∃ ring' : LatencyRing, ring.SameArrivals ring' ∧
      (∀ e ∈ ring'.entries, e.durationUs < 2 ^ 64) ∧
      ring'.EstimateFits sort rif now ∧ ring'.EstimateFits sort rif' now ∧
      ∃ e e', ring'.medianNear sort rif now = .ok e ∧
        ring'.medianNear sort rif' now = .ok e' ∧ e' < e := by
  obtain ⟨s, hfew, hmany⟩ := exists_separating
    (nearestSlots_nodup pos ring rif now)
    (nearestSlots_nodup pos ring rif' now)
    (by rw [length_nearestSlots, length_nearestSlots]) h
  obtain ⟨ring', hsame, hdurations, hbound⟩ :=
    exists_long_at pos ring now s (2 ^ 32)
  -- The median duration is the long one at `rif` and zero at `rif'`.
  have hhigh : ∀ m, medianOf ((ring'.nearest sort rif now).map
      RingEntry.durationUs) = .ok m → m = 2 ^ 32 := by
    intro m hm
    rw [hdurations] at hm
    exact medianOf_eq_high hfew hm
  have hlow : ∀ m, medianOf ((ring'.nearest sort rif' now).map
      RingEntry.durationUs) = .ok m → m = 0 := by
    intro m hm
    rw [hdurations] at hm
    exact medianOf_eq_zero hmany hm
  have hlt : rif < rif' := by
    refine lt_of_le_of_ne hle fun heq => h ?_
    rw [heq]
  have hfits : ring'.EstimateFits sort rif now := by
    intro m hm
    rw [hhigh m hm]
    omega
  have hfits' : ring'.EstimateFits sort rif' now := by
    intro m hm
    rw [hlow m hm]
    omega
  have hne : ring'.candidates now ≠ [] := by
    have hlength := congrArg List.length (hdurations rif')
    have hcount := hmany.trans_le List.countP_le_length
    rw [List.length_map, List.length_map, length_nearest] at hlength
    rw [← List.length_pos_iff]
    omega
  obtain ⟨latency, tag, hlatency, htag, he⟩ := medianNear_of_fits hne hfits
  obtain ⟨latency', tag', hlatency', -, he'⟩ :=
    medianNear_of_fits hne hfits'
  obtain rfl := hhigh latency hlatency
  obtain rfl := hlow latency' hlatency'
  have htag_lt := medianOf_tag_lt (hsame.tag_lt htags) htag
  refine ⟨ring', hsame, fun e hmem => (hbound e hmem).trans_lt (by decide),
    hfits, hfits', _, _, he, he', ?_⟩
  rw [Nat.zero_mul, Nat.zero_div]
  exact Nat.div_pos (by omega) (Nat.succ_pos tag)

/--
For given arrivals and two occupancies the estimate never falls, whatever the
samples lasted, exactly when the same slots are nearest to both.
-/
theorem estimate_monotone_iff (ring : LatencyRing) (now : Instant)
    (rif rif' : Nat) (hle : rif ≤ rif') (hrif : rif' < 2 ^ 32)
    (htags : ∀ e ∈ ring.entries, e.rifAtArrival < 2 ^ 32) :
    (∀ ring' : LatencyRing, ring.SameArrivals ring' →
        (∀ e ∈ ring'.entries, e.durationUs < 2 ^ 64) →
        ring'.EstimateFits sort rif now → ring'.EstimateFits sort rif' now →
        ∃ e e', ring'.medianNear sort rif now = .ok e ∧
          ring'.medianNear sort rif' now = .ok e' ∧ e ≤ e') ↔
      ring.nearestSlots pos rif now ~ ring.nearestSlots pos rif' now := by
  constructor
  · intro hmono
    by_contra h
    obtain ⟨ring', hsame, hdurations, hfits, hfits', e, e', he, he', hlt⟩ :=
      exists_falling pos hle hrif htags h
    obtain ⟨f, f', hf, hf', hff'⟩ :=
      hmono ring' hsame hdurations hfits hfits'
    rw [he] at hf
    rw [he'] at hf'
    obtain rfl := Except.ok.inj hf
    obtain rfl := Except.ok.inj hf'
    exact absurd hlt (not_lt.mpr hff')
  · intro hslots ring' hsame _ _ hfits'
    refine estimate_le_of_same hle (nearest_perm_of_slots pos ?_) hfits'
    rw [hsame.nearestSlots pos, hsame.nearestSlots pos]
    exact hslots

/-- Sixteen samples at RIF 1 and sixteen at RIF 9, all equally long. -/
def mixedWork : LatencyRing :=
  ⟨List.replicate 16 ⟨1, 1000, 0⟩ ++ List.replicate 16 ⟨9, 1000, 0⟩, 0, 512,
    fromMillis 500⟩

theorem mixedWork_fits {rif : Nat} (h : rif = 1 ∨ rif = 4 ∨ rif = 6) :
    mixedWork.EstimateFits (.stable RingEntry) rif 1 := by
  rcases h with rfl | rfl | rfl
  all_goals
    intro m hm
    obtain rfl : 1000 = m := Except.ok.inj (Eq.trans (by decide +kernel) hm)
    decide

theorem mixedWork_rises :
    ∃ e e', mixedWork.medianNear (.stable RingEntry) 1 1 = .ok e ∧
      mixedWork.medianNear (.stable RingEntry) 4 1 = .ok e' ∧ e ≤ e' :=
  (estimate_monotone_iff (.stable RingEntry) mixedWork 1 1 4 (by decide)
    (by decide) (by decide)).mpr (by decide +kernel) mixedWork
    ⟨rfl, rfl, rfl, rfl⟩ (by decide) (mixedWork_fits (.inl rfl))
    (mixedWork_fits (.inr (.inl rfl)))

theorem mixedWork_falls :
    ¬ ∀ (sort : SortByKey RingEntry) (ring : LatencyRing) (now : Instant)
      (rif rif' : Nat), rif ≤ rif' → ring.EstimateFits sort rif now →
        ring.EstimateFits sort rif' now →
        ∃ e e', ring.medianNear sort rif now = .ok e ∧
          ring.medianNear sort rif' now = .ok e' ∧ e ≤ e' := by
  intro hall
  have hat4 : mixedWork.medianNear (.stable RingEntry) 4 1 = .ok 2500 := by
    decide +kernel
  have hat6 : mixedWork.medianNear (.stable RingEntry) 6 1 = .ok 700 := by
    decide +kernel
  obtain ⟨e, e', he, he', hle⟩ := hall (.stable RingEntry) mixedWork 1 4 6
    (by decide) (mixedWork_fits (.inr (.inl rfl)))
    (mixedWork_fits (.inr (.inr rfl)))
  obtain rfl : 2500 = e := Except.ok.inj (hat4.symm.trans he)
  obtain rfl : 700 = e' := Except.ok.inj (hat6.symm.trans he')
  exact absurd hle (by decide)

end LatencyRing

end Prequal
