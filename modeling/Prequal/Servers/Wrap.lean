import Prequal.Servers.LatencyRing
import Prequal.Foundation.Execution
import Prequal.Foundation.Nearest
import Prequal.Foundation.Window

/-!
# The ring as a window of completions

Read from its head the ring is the list of the last completions.  An estimate
reads the vector from slot zero, so two rings that hold one window can differ
by a rotation, and then differ where the cutoff has to choose among samples at
one distance.
-/

namespace Prequal

open Foundation
open scoped List

namespace LatencyRing

def pushAll (history : List RingEntry) (ring : LatencyRing) :
    Except Panic LatencyRing :=
  history.foldlM
    (fun ring e => ring.push e.rifAtArrival e.durationUs e.finishedAt) ring

/-- The cutoff to the nearest sixteen separates no two different samples. -/
def CutoffSettled (ring : LatencyRing) (rif : Nat) (now : Instant) : Prop :=
  SettledAt (fun e : RingEntry => absDiff e.rifAtArrival rif) 16
    (fun e => (e.rifAtArrival, e.durationUs)) (ring.candidates now)

theorem cutoffSettled_of_few {ring : LatencyRing} {now : Instant}
    (h : (ring.candidates now).length ≤ 16) (rif : Nat) :
    ring.CutoffSettled rif now :=
  SettledAt.of_length_le h

/-! ## The window -/

/-- The ring holds the last completions of a history, read from its head. -/
structure Holds (ring : LatencyRing) (capacity : Nat) (maxAge : Duration)
    (history : List RingEntry) : Prop where
  window : ring.entries.rotate ring.head = history.rtake capacity
  head : ring.head =
    if history.length < capacity then 0 else history.length % capacity
  capacity : ring.capacity = capacity
  maxAge : ring.maxAge = maxAge

theorem new_holds (capacity : Nat) (maxAge : Duration) :
    (new capacity maxAge).Holds capacity maxAge [] where
  window := by simp [new, List.rtake]
  head := by simp [new]
  capacity := rfl
  maxAge := rfl

theorem Holds.length {ring : LatencyRing} {capacity : Nat}
    {maxAge : Duration} {history : List RingEntry}
    (h : ring.Holds capacity maxAge history) :
    ring.entries.length = min capacity history.length := by
  have hlength := congrArg List.length h.window
  rwa [List.length_rotate, length_rtake] at hlength

theorem Holds.push_of_room {ring : LatencyRing} {capacity : Nat}
    {maxAge : Duration} {history : List RingEntry}
    (h : ring.Holds capacity maxAge history)
    (hroom : history.length < capacity) (e : RingEntry) :
    ∃ ring', ring.push e.rifAtArrival e.durationUs e.finishedAt = .ok ring' ∧
      ring'.Holds capacity maxAge (history ++ [e]) := by
  have hlength := h.length
  have hhead : ring.head = 0 := by rw [h.head, if_pos hroom]
  have hentries := h.window
  rw [hhead, List.rotate_zero] at hentries
  rw [push, if_pos (by rw [h.capacity, hlength]; omega)]
  refine ⟨_, rfl, ?_, ?_, h.capacity, h.maxAge⟩
  · rw [hhead, List.rotate_zero, hentries]
    exact (rtake_concat_of_lt hroom e).symm
  · rw [hhead, List.length_append, List.length_singleton]
    split
    · rfl
    · have heq : history.length + 1 = capacity := by omega
      rw [heq, Nat.mod_self]

theorem Holds.push_of_full {ring : LatencyRing} {capacity : Nat}
    {maxAge : Duration} {history : List RingEntry}
    (h : ring.Holds capacity maxAge history) (hcapacity : 1 ≤ capacity)
    (hfull : capacity ≤ history.length) (e : RingEntry) :
    ∃ ring', ring.push e.rifAtArrival e.durationUs e.finishedAt = .ok ring' ∧
      ring'.Holds capacity maxAge (history ++ [e]) := by
  have hlength : ring.entries.length = capacity := by
    rw [h.length]
    exact Nat.min_eq_left hfull
  have hhead : ring.head = history.length % capacity := by
    rw [h.head, if_neg (not_lt.mpr hfull)]
  have hslot : ring.head < ring.entries.length := by
    rw [hhead, hlength]
    exact Nat.mod_lt _ hcapacity
  rw [push, if_neg (by rw [h.capacity, hlength]; omega), if_pos hslot,
    if_neg (by rw [h.capacity]; omega)]
  refine ⟨_, rfl, ?_, ?_, h.capacity, h.maxAge⟩
  · have hrotate := rotate_set_next hslot e
    rw [hlength, h.window] at hrotate
    rw [rtake_concat_of_le hcapacity hfull, ← hrotate, h.capacity]
  · rw [List.length_append, List.length_singleton, if_neg (by omega),
      h.capacity, hhead, Nat.mod_add_mod]

theorem pushAll_holds {capacity : Nat} (hcapacity : 1 ≤ capacity)
    (maxAge : Duration) (history : List RingEntry) :
    ∃ ring, pushAll history (new capacity maxAge) = .ok ring ∧
      ring.Holds capacity maxAge history := by
  refine foldlM_history _
    (fun past (ring : LatencyRing) => ring.Holds capacity maxAge past) _
    (new_holds capacity maxAge) ?_ history
  intro past e ring hholds
  by_cases hroom : past.length < capacity
  · exact hholds.push_of_room hroom e
  · exact hholds.push_of_full hcapacity (not_lt.mp hroom) e

/--
The ring is a sliding window.  After any pushes it holds the last ones, no more
than its capacity, and read cyclically from its head they come oldest first.
-/
theorem ring_is_sliding_window (capacity : Nat) (maxAge : Duration)
    (hcapacity : 1 ≤ capacity) (history : List RingEntry) :
    ∃ ring, pushAll history (new capacity maxAge) = .ok ring ∧
      ring.entries.length = min history.length capacity ∧
      ring.head < capacity ∧
      (history.length ≤ capacity → ring.head = 0) ∧
      ring.entries.rotate ring.head = history.rtake capacity ∧
      ∀ k, k < ring.entries.length →
        ring.entries[(ring.head + k) % ring.entries.length]? =
          history[history.length - ring.entries.length + k]? := by
  obtain ⟨ring, hring, hholds⟩ := pushAll_holds hcapacity maxAge history
  have hlength := hholds.length
  refine ⟨ring, hring, hlength.trans (Nat.min_comm _ _), ?_, ?_,
    hholds.window, ?_⟩
  · rw [hholds.head]
    split
    · exact hcapacity
    · exact Nat.mod_lt _ hcapacity
  · intro hle
    rw [hholds.head]
    split
    · rfl
    · have heq : history.length = capacity := by omega
      rw [heq, Nat.mod_self]
  · intro k hk
    have hget := congrArg (fun l : List RingEntry => l[k]?) hholds.window
    simp only [List.getElem?_rotate hk, List.rtake, List.getElem?_drop] at hget
    rw [Nat.add_comm ring.head, hget]
    congr 1
    omega

theorem twoSlots_window :
    ∃ ring, pushAll [⟨9, 70, 0⟩, ⟨1, 1000, 1⟩, ⟨4, 3000, 2⟩]
        (new 2 (fromMillis 500)) = .ok ring ∧
      ring.head < 2 ∧
      ring.entries.rotate ring.head = [⟨1, 1000, 1⟩, ⟨4, 3000, 2⟩] := by
  obtain ⟨ring, hring, -, hhead, -, hwindow, -⟩ := ring_is_sliding_window 2
    (fromMillis 500) (by decide) [⟨9, 70, 0⟩, ⟨1, 1000, 1⟩, ⟨4, 3000, 2⟩]
  exact ⟨ring, hring, hhead, hwindow⟩

theorem Holds.eq_of_head {ring ring' : LatencyRing} {capacity : Nat}
    {maxAge : Duration} {history history' : List RingEntry}
    (h : ring.Holds capacity maxAge history)
    (h' : ring'.Holds capacity maxAge history')
    (hwindow : history.rtake capacity = history'.rtake capacity)
    (hhead : ring.head = ring'.head) : ring = ring' := by
  have hrotate : ring.entries.rotate ring.head =
      ring'.entries.rotate ring.head := by
    rw [h.window, hwindow, hhead, h'.window]
  obtain ⟨entries, head, capacity, maxAge⟩ := ring
  obtain ⟨entries', head', capacity', maxAge'⟩ := ring'
  obtain rfl : entries = entries' := List.rotate_injective _ hrotate
  obtain rfl : head = head' := hhead
  obtain rfl : capacity = capacity' := h.capacity.trans h'.capacity.symm
  obtain rfl : maxAge = maxAge' := h.maxAge.trans h'.maxAge.symm
  rfl

theorem Holds.entries_perm {ring ring' : LatencyRing} {capacity : Nat}
    {maxAge : Duration} {history history' : List RingEntry}
    (h : ring.Holds capacity maxAge history)
    (h' : ring'.Holds capacity maxAge history')
    (hwindow : history.rtake capacity = history'.rtake capacity) :
    ring.entries ~ ring'.entries := by
  calc
    ring.entries ~ ring.entries.rotate ring.head :=
      (List.rotate_perm _ _).symm
    _ = ring'.entries.rotate ring'.head := by
      rw [h.window, hwindow, h'.window]
    _ ~ ring'.entries := List.rotate_perm _ _

/-! ## Estimates from one window -/

theorem fresh_perm {ring ring' : LatencyRing}
    (hentries : ring.entries ~ ring'.entries)
    (hage : ring.maxAge = ring'.maxAge) (now : Instant) :
    ring.fresh now ~ ring'.fresh now := by
  rw [fresh, fresh, hage]
  exact hentries.filter _

theorem candidates_perm {ring ring' : LatencyRing}
    (hentries : ring.entries ~ ring'.entries)
    (hage : ring.maxAge = ring'.maxAge) (now : Instant) :
    ring.candidates now ~ ring'.candidates now := by
  have hfresh := fresh_perm hentries hage now
  rw [candidates, candidates, hfresh.isEmpty_eq]
  split
  · exact hentries
  · exact hfresh

theorem medianNear_congr {sort sort' : SortByKey RingEntry}
    {ring ring' : LatencyRing} {rif : Nat} {now : Instant}
    (hcandidates : ring.candidates now ~ ring'.candidates now)
    (hnear : (ring.nearest sort rif now).map
        (fun e => (e.rifAtArrival, e.durationUs)) ~
      (ring'.nearest sort' rif now).map
        fun e => (e.rifAtArrival, e.durationUs)) :
    ring.medianNear sort rif now = ring'.medianNear sort' rif now := by
  have hduration := medianOf_perm (hnear.map Prod.snd)
  have htag := medianOf_perm (hnear.map Prod.fst)
  rw [List.map_map, List.map_map] at hduration htag
  change medianOf ((ring.nearest sort rif now).map RingEntry.durationUs) =
    medianOf ((ring'.nearest sort' rif now).map RingEntry.durationUs)
      at hduration
  change medianOf ((ring.nearest sort rif now).map RingEntry.rifAtArrival) =
    medianOf ((ring'.nearest sort' rif now).map RingEntry.rifAtArrival)
      at htag
  simp only [medianNear, hcandidates.isEmpty_eq, hduration, htag]

theorem medianNear_of_settled (sort sort' : SortByKey RingEntry)
    {ring ring' : LatencyRing} {rif : Nat} {now : Instant}
    (hentries : ring.entries ~ ring'.entries)
    (hage : ring.maxAge = ring'.maxAge) (h : ring.CutoffSettled rif now) :
    ring.medianNear sort rif now = ring'.medianNear sort' rif now := by
  have hcandidates := candidates_perm hentries hage now
  refine medianNear_congr hcandidates ?_
  have hsorted := sort.perm (fun e => absDiff e.rifAtArrival rif)
    (ring.candidates now)
  have hsorted' := sort'.perm (fun e => absDiff e.rifAtArrival rif)
    (ring'.candidates now)
  exact (h.of_perm hsorted.symm).take_perm
    (hsorted.trans (hcandidates.trans hsorted'.symm)) (sort.sorted _ _)
    (sort'.sorted _ _)

/--
An estimate depends on the window of the last completions only, unless two
rings wrapped at different slots and the cutoff chooses among samples at one
distance that differ.
-/
theorem estimate_of_window (capacity : Nat) (maxAge : Duration)
    (history history' : List RingEntry) (hcapacity : 1 ≤ capacity)
    (hlength : capacity ≤ history.length)
    (hlength' : capacity ≤ history'.length)
    (hwindow : history.rtake capacity = history'.rtake capacity) :
    ∃ ring ring', pushAll history (new capacity maxAge) = .ok ring ∧
      pushAll history' (new capacity maxAge) = .ok ring' ∧
      ∀ (sort : SortByKey RingEntry) (rif : Nat) (now : Instant),
        history.length % capacity = history'.length % capacity ∨
          ring.CutoffSettled rif now →
        ring.medianNear sort rif now = ring'.medianNear sort rif now := by
  obtain ⟨ring, hring, hholds⟩ := pushAll_holds hcapacity maxAge history
  obtain ⟨ring', hring', hholds'⟩ := pushAll_holds hcapacity maxAge history'
  refine ⟨ring, ring', hring, hring', ?_⟩
  intro sort rif now hcase
  rcases hcase with hwrap | hsettled
  · have hhead : ring.head = ring'.head := by
      rw [hholds.head, hholds'.head, if_neg (not_lt.mpr hlength),
        if_neg (not_lt.mpr hlength'), hwrap]
    rw [hholds.eq_of_head hholds' hwindow hhead]
  · exact medianNear_of_settled sort sort
      (hholds.entries_perm hholds' hwindow)
      (hholds.maxAge.trans hholds'.maxAge.symm) hsettled

theorem twoSlots_estimate :
    ∃ ring ring', pushAll [⟨1, 1000, 1⟩, ⟨4, 3000, 2⟩]
          (new 2 (fromMillis 500)) = .ok ring ∧
      pushAll [⟨9, 70, 0⟩, ⟨1, 1000, 1⟩, ⟨4, 3000, 2⟩]
          (new 2 (fromMillis 500)) = .ok ring' ∧
      ring.medianNear (.stable RingEntry) 3 5 =
        ring'.medianNear (.stable RingEntry) 3 5 := by
  obtain ⟨ring, ring', hring, hring', hestimate⟩ := estimate_of_window 2
    (fromMillis 500) [⟨1, 1000, 1⟩, ⟨4, 3000, 2⟩]
    [⟨9, 70, 0⟩, ⟨1, 1000, 1⟩, ⟨4, 3000, 2⟩] (by decide) (by decide)
    (by decide) (by decide)
  refine ⟨ring, ring', hring, hring', hestimate _ 3 5 (.inr ?_)⟩
  apply cutoffSettled_of_few
  obtain rfl := Except.ok.inj hring
  decide

def slowMiddle : List RingEntry :=
  List.replicate 8 ⟨1, 1000, 0⟩ ++ List.replicate 8 ⟨1, 2000, 0⟩ ++
    [⟨1, 1000, 0⟩]

theorem slowMiddle_depends_on_slot :
    ¬ ∀ (sort : SortByKey RingEntry) (capacity : Nat) (maxAge : Duration)
      (history history' : List RingEntry), 1 ≤ capacity →
        capacity ≤ history.length → capacity ≤ history'.length →
        history.rtake capacity = history'.rtake capacity →
        ∃ ring ring', pushAll history (new capacity maxAge) = .ok ring ∧
          pushAll history' (new capacity maxAge) = .ok ring' ∧
          ∀ (rif : Nat) (now : Instant),
            ring.medianNear sort rif now = ring'.medianNear sort rif now := by
  intro hall
  obtain ⟨ring, ring', hring, hring', hestimate⟩ := hall (.stable RingEntry)
    17 (fromMillis 500) slowMiddle (⟨1, 1000, 0⟩ :: slowMiddle) (by decide)
    (by decide) (by decide) (by decide)
  obtain rfl := Except.ok.inj hring
  obtain rfl := Except.ok.inj hring'
  exact absurd (hestimate 1 0) (by decide +kernel)

end LatencyRing

end Prequal
