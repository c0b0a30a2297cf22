import Prequal.Foundation.Registry
import Prequal.Foundation.Transition
import Prequal.Servers.Accounting
import Prequal.Servers.Sharing

/-!
# Readings of a replica

A probe reports an earlier state of its replica.  Since then handlers may have
arrived and ended; what a replica has accepted, ended and sampled it never
takes back, so the two counts account for the whole difference in RIF.
-/

namespace Prequal

open Foundation Relation

namespace ReplicaState

def ended (s : ReplicaState) : Nat :=
  s.handlers.countP fun h => !h.phase.live

theorem live_add_ended (s : ReplicaState) :
    s.live + s.ended = s.handlers.length := by
  rw [live, ended, List.length_eq_countP_add_countP
    (fun h : Handler => h.phase.live)]
  simp

structure Later (s s' : ReplicaState) : Prop where
  arrivals : s.handlers.length ≤ s'.handlers.length
  ended : s.ended ≤ s'.ended
  samples : s.samples ⊆ s'.samples

theorem Later.refl (s : ReplicaState) : Later s s :=
  ⟨le_rfl, le_rfl, List.Subset.refl _⟩

theorem Later.trans {s s' s'' : ReplicaState} (h : Later s s')
    (h' : Later s' s'') : Later s s'' :=
  ⟨h.arrivals.trans h'.arrivals, h.ended.trans h'.ended,
    List.Subset.trans h.samples h'.samples⟩

theorem later_of_set {s s' : ReplicaState} {i : Nat} {h : Handler}
    {old phase : Phase} (hget : s.handlers[i]? = some h)
    (hold : h.phase = old) (hdies : phase.live = true → old.live = true)
    (hhandlers : s'.handlers = s.handlers.set i { h with phase := phase })
    (hsamples : s.samples ⊆ s'.samples) : Later s s' := by
  have hlive : s'.live = (s.setPhase i h phase).live := by
    rw [live, hhandlers]
    rfl
  have hset := live_setPhase hget hold phase
  have hlength : s'.handlers.length = s.handlers.length := by
    rw [hhandlers, List.length_set]
  have hbefore := s.live_add_ended
  have hafter := s'.live_add_ended
  refine ⟨hlength.ge, ?_, hsamples⟩
  cases hphase : phase.live with
  | false =>
      rw [hphase] at hset
      simp only [Bool.false_eq_true, if_false] at hset
      omega
  | true =>
      rw [hphase, hdies hphase] at hset
      simp only [if_true] at hset
      omega

theorem Step.later {s s' : ReplicaState} (hstep : Step s s') :
    Later s s' := by
  cases hstep with
  | arrive now =>
      have hlive := s.arrive_live now
      have hbefore := s.live_add_ended
      have hafter := (s.arrive now).live_add_ended
      have hlength : (s.arrive now).handlers.length =
          s.handlers.length + 1 := by simp [ReplicaState.arrive]
      exact ⟨by omega, by omega, List.Subset.refl _⟩
  | obtainSlot i handler hget hphase hfree =>
      exact later_of_set hget hphase (by decide) rfl (List.Subset.refl _)
  | spinEnds i handler hget hphase =>
      exact later_of_set hget hphase (by decide) rfl (List.Subset.refl _)
  | orphanEnds i handler hget hphase =>
      exact later_of_set hget hphase (by decide) rfl (List.Subset.refl _)
  | complete i handler now finishedAt ring hget hphase hpush =>
      exact later_of_set hget hphase (by decide) rfl (List.subset_append_left _ _)
  | cancelQueued i handler hget hphase =>
      exact later_of_set hget hphase (by decide) rfl (List.Subset.refl _)
  | cancelSpinning i handler hget hphase =>
      exact later_of_set hget hphase (by decide) rfl (List.Subset.refl _)
  | cancelSpun i handler hget hphase =>
      exact later_of_set hget hphase (by decide) rfl (List.Subset.refl _)
  | burstTakes hidle hfree => exact ⟨le_rfl, le_rfl, List.Subset.refl _⟩
  | burstReleases hburst => exact ⟨le_rfl, le_rfl, List.Subset.refl _⟩

theorem later_of_run {s s' : ReplicaState} (h : ReflTransGen Step s s') :
    Later s s' :=
  invariant_of_step (fun _ _ hlater hstep => hlater.trans hstep.later)
    (Later.refl s) h

/--
The replica loaded its RIF in state `seen`, answered from a state it passed
through afterwards and has reached `st` since.
-/
def ReadFrom (sort : SortByKey RingEntry) (seen : ReplicaState)
    (resp : ProbeResponse) (st : ReplicaState) : Prop :=
  ∃ mid utilEma now, ReflTransGen Step seen mid ∧ ReflTransGen Step mid st ∧
    probe sort ⟨seen.rif, mid.latencyRing, utilEma⟩ now = .ok resp

theorem ReadFrom.step {sort : SortByKey RingEntry} {seen st st' : ReplicaState}
    {resp : ProbeResponse} (h : ReadFrom sort seen resp st)
    (hstep : Step st st') : ReadFrom sort seen resp st' := by
  obtain ⟨mid, utilEma, now, hbefore, hafter, hprobe⟩ := h
  exact ⟨mid, utilEma, now, hbefore, hafter.tail hstep, hprobe⟩

theorem ReadFrom.later {sort : SortByKey RingEntry}
    {seen st : ReplicaState} {resp : ProbeResponse}
    (h : ReadFrom sort seen resp st) : Later seen st := by
  obtain ⟨mid, -, -, hbefore, hafter, -⟩ := h
  exact later_of_run (hbefore.trans hafter)

end ReplicaState

theorem probe_rif {sort : SortByKey RingEntry} {state : ServerState}
    {now : Instant} {resp : ProbeResponse}
    (h : probe sort state now = .ok resp) : resp.rif = state.rif := by
  rw [probe] at h
  cases hlatency : state.latencyRing.medianNear sort state.rif now with
  | error e =>
      rw [hlatency] at h
      cases h
  | ok latencyUs =>
      rw [hlatency] at h
      rw [← Except.ok.inj h]

theorem ReplicaState.ReadFrom.rif {sort : SortByKey RingEntry}
    {seen st : ReplicaState} {resp : ProbeResponse}
    (h : ReadFrom sort seen resp st) : resp.rif = seen.rif := by
  obtain ⟨mid, utilEma, now, -, -, hprobe⟩ := h
  exact probe_rif hprobe

/-! ## Tags and samples -/

namespace ReplicaState

variable {slots : Nat} {s s' : ReplicaState}

def TagsBounded (s : ReplicaState) : Prop :=
  ∀ h ∈ s.handlers, h.rifAtArrival ≤ s.handlers.length

theorem Counted.rif_le (h : s.Counted) : s.rif ≤ s.handlers.length := by
  rw [h]
  exact (wrapU32_le _).trans List.countP_le_length

private theorem tagsBounded_set (h : s.TagsBounded) {i : Nat}
    {handler : Handler} (hget : s.handlers[i]? = some handler)
    {phase : Phase}
    (hhandlers : s'.handlers =
      s.handlers.set i { handler with phase := phase }) :
    s'.TagsBounded := by
  rw [TagsBounded, hhandlers, List.length_set]
  exact forall_mem_set h (h handler (List.mem_of_getElem? hget))

theorem TagsBounded.step (h : s.TagsBounded) (hcounted : s.Counted)
    (hstep : Step s s') : s'.TagsBounded := by
  cases hstep with
  | arrive now =>
      intro handler hmem
      rw [ReplicaState.arrive, List.length_append, List.length_singleton]
      rcases List.mem_append.mp hmem with hold | hnew
      · exact (h handler hold).trans (Nat.le_succ _)
      · rw [List.mem_singleton.mp hnew]
        exact (wrapU32_le _).trans (Nat.succ_le_succ hcounted.rif_le)
  | obtainSlot i handler hget hphase hfree => exact tagsBounded_set h hget rfl
  | spinEnds i handler hget hphase => exact tagsBounded_set h hget rfl
  | orphanEnds i handler hget hphase => exact tagsBounded_set h hget rfl
  | complete i handler now finishedAt ring hget hphase hpush =>
      exact tagsBounded_set h hget rfl
  | cancelQueued i handler hget hphase => exact tagsBounded_set h hget rfl
  | cancelSpinning i handler hget hphase => exact tagsBounded_set h hget rfl
  | cancelSpun i handler hget hphase => exact tagsBounded_set h hget rfl
  | burstTakes hidle hfree => exact h
  | burstReleases hburst => exact h

theorem Reachable.tagsBounded (h : Reachable slots s) : s.TagsBounded := by
  induction h with
  | initial => simp [TagsBounded, new]
  | step hreach hstep ih => exact ih.step hreach.accounted.counted hstep

theorem SamplesFaithful.ring (h : s.SamplesFaithful) :
    (s.samples ≠ [] → s.latencyRing.entries ≠ []) ∧
      s.latencyRing.entries ⊆ s.samples.map Prod.snd := by
  obtain ⟨ring, hring, -, hfull, hsubset⟩ := foldlM_history pushSample
    (fun past (ring : LatencyRing) => ring.Valid ∧
      (past ≠ [] → ring.entries ≠ []) ∧
      ring.entries ⊆ past.map Prod.snd)
    (LatencyRing.new 512 (fromMillis 500))
    ⟨LatencyRing.new_valid (by decide) _, nofun, List.Subset.refl _⟩ (by
      rintro past e ring ⟨hvalid, -, hsubset⟩
      obtain ⟨ring', hpush, hvalid', hne, hentries⟩ :=
        hvalid.push e.2.rifAtArrival e.2.durationUs e.2.finishedAt
      refine ⟨ring', hpush, hvalid', fun _ => hne, fun entry hentry => ?_⟩
      rw [List.map_append, List.mem_append]
      rcases hentries entry hentry with hold | rfl
      · exact .inl (hsubset hold)
      · exact .inr (List.mem_singleton_self _)) s.samples
  obtain rfl : ring = s.latencyRing :=
    Except.ok.inj (hring.symm.trans h.pushed)
  exact ⟨hfull, hsubset⟩

theorem Reachable.estimateFits (h : Reachable slots s)
    {sort : SortByKey RingEntry} {lo hi : Nat}
    (hshares : LatencyRing.SharesWithin lo hi (s.samples.map Prod.snd))
    {rif bound : Nat} (hrif : rif ≤ bound)
    (harrivals : s.handlers.length ≤ bound)
    (hroom : hi * (bound + 1) * (bound + 1) < 2 ^ 64) (now : Instant) :
    s.latencyRing.EstimateFits sort rif now := by
  intro m hm
  have hfaithful := h.accounted.faithful
  obtain ⟨e, he, rfl⟩ := List.mem_map.mp
    (kthSmallest_mem (LatencyRing.medianOf_eq_ok_iff.mp hm))
  have hsample := hfaithful.ring.2 (LatencyRing.candidates_subset _ now
    (LatencyRing.nearest_subset sort _ rif now he))
  obtain ⟨⟨i, e⟩, hmem, rfl⟩ := List.mem_map.mp hsample
  obtain ⟨handler, hget, -, htag⟩ := hfaithful.tagged _ hmem
  have hbounded := h.tagsBounded handler (List.mem_of_getElem? hget)
  have hduration := (hshares _ hsample).2
  dsimp only at htag hduration ⊢
  calc
    e.durationUs * (rif + 1) ≤ hi * (e.rifAtArrival + 1) * (rif + 1) :=
      Nat.mul_le_mul_right _ hduration
    _ ≤ hi * (bound + 1) * (bound + 1) :=
      Nat.mul_le_mul (Nat.mul_le_mul_left hi (by omega)) (by omega)
    _ < 2 ^ 64 := hroom

theorem ReadFrom.latency {sort : SortByKey RingEntry}
    {seen st : ReplicaState} {resp : ProbeResponse}
    (h : ReadFrom sort seen resp st) (hreach : Reachable slots seen)
    {lo hi bound : Nat}
    (hshares : LatencyRing.SharesWithin lo hi (st.samples.map Prod.snd))
    (harrivals : st.handlers.length ≤ bound)
    (hroom : hi * (bound + 1) * (bound + 1) < 2 ^ 64) :
    resp.latencyUs ≤ hi * (resp.rif + 1) ∧
      (lo * (resp.rif + 1) ≤ resp.latencyUs ∨
        seen.samples = [] ∧ resp.latencyUs = 0) := by
  have hrif := h.rif
  obtain ⟨mid, utilEma, now, hbefore, hafter, hprobe⟩ := h
  have hmid : Reachable slots mid :=
    invariant_of_step (fun _ _ ht hstep => ht.step hstep) hreach hbefore
  have hlater := later_of_run hbefore
  have hlater' := later_of_run hafter
  have hring := hmid.accounted.faithful.ring
  rw [hrif]
  by_cases hnil : mid.latencyRing.entries = []
  · have hzero : resp.latencyUs = 0 := by
      rw [probe, LatencyRing.medianNear_of_nil sort hnil] at hprobe
      rw [← Except.ok.inj hprobe]
    have hnone : seen.samples = [] := by
      by_contra hsome
      refine hring.1 (fun hmidNil => hsome ?_) hnil
      have hsubset := hlater.samples
      rw [hmidNil] at hsubset
      exact List.subset_nil.mp hsubset
    exact ⟨by omega, .inr ⟨hnone, hzero⟩⟩
  · have hshares' : LatencyRing.SharesWithin lo hi
        (mid.samples.map Prod.snd) :=
      hshares.mono (List.map_subset _ hlater'.samples)
    have hseen := hreach.accounted.counted.rif_le
    have harrivals' := hlater.arrivals
    have harrivals'' := hlater'.arrivals
    have hfits : mid.latencyRing.EstimateFits sort seen.rif now :=
      hmid.estimateFits hshares' (by omega) (by omega) hroom now
    obtain ⟨e, he, hwithin⟩ := LatencyRing.medianNear_within
      (mt LatencyRing.candidates_eq_nil_iff.mp hnil) hfits
    obtain rfl : e = resp.latencyUs := by
      rw [probe, he] at hprobe
      rw [← Except.ok.inj hprobe]
    obtain ⟨hlow, hhigh⟩ := hwithin lo hi (hshares'.mono
      (List.Subset.trans (LatencyRing.candidates_subset _ now) hring.2))
    exact ⟨hhigh, .inl hlow⟩

end ReplicaState

theorem probe_ok (sort : SortByKey RingEntry) (state : ServerState)
    (now : Instant) : ∃ resp, probe sort state now = .ok resp := by
  have hlatency : ∃ latencyUs,
      state.latencyRing.medianNear sort state.rif now = .ok latencyUs := by
    by_cases hnil : state.latencyRing.entries = []
    · exact ⟨0, LatencyRing.medianNear_of_nil sort hnil state.rif now⟩
    · obtain ⟨latency, tag, -, -, hmedian⟩ :=
        LatencyRing.medianNear_of_ne_nil sort hnil state.rif now
      exact ⟨_, hmedian⟩
  obtain ⟨latencyUs, hlatency⟩ := hlatency
  exact ⟨⟨state.rif, latencyUs, state.utilEma⟩, by rw [probe, hlatency]; rfl⟩

end Prequal
