import Prequal.Foundation.Execution
import Prequal.Servers.Replica
import Prequal.Foundation.Vec

/-!
# Accounting under any interleaving

Handlers of `POST /work` run concurrently and can be dropped at either of their
await points.  The guard dies with the handler, while the permit has moved into
the blocking closure and outlives it.  Of the executor it is assumed that a
permit is granted only when one is free, that a cancelled acquire takes none,
and that a spawned closure runs to its end.
-/

namespace Prequal

open Foundation

inductive Phase where
  | queued
  -- The closure spins and the handler waits for it.
  | spinning
  -- The closure has ended and released its slot.
  | spun
  | completed
  -- The handler is gone while its closure still spins.
  | orphaned
  | cancelled
  deriving DecidableEq, Repr

namespace Phase

def live : Phase → Bool
  | .queued | .spinning | .spun => true
  | .completed | .orphaned | .cancelled => false

def running : Phase → Bool
  | .spinning | .orphaned => true
  | .queued | .spun | .completed | .cancelled => false

end Phase

structure Handler where
  rifAtArrival : Nat
  start : Instant
  phase : Phase
  deriving DecidableEq, Repr

/-- A replica; `samples` is a history variable, one entry for each push. -/
structure ReplicaState where
  rif : Nat
  freeSlots : Nat
  burst : Bool
  latencyRing : LatencyRing
  handlers : List Handler
  samples : List (Nat × RingEntry)
  deriving DecidableEq, Repr

namespace ReplicaState

def new (slots : Nat) : ReplicaState where
  rif := 0
  freeSlots := slots
  burst := false
  latencyRing := LatencyRing.new 512 (fromMillis 500)
  handlers := []
  samples := []

def arrive (s : ReplicaState) (now : Instant) : ReplicaState :=
  { s with
    rif := (RifGuard.arm s.rif).1
    handlers := s.handlers ++ [⟨(RifGuard.arm s.rif).2, now, .queued⟩] }

def setPhase (s : ReplicaState) (i : Nat) (h : Handler) (phase : Phase) :
    ReplicaState :=
  { s with handlers := s.handlers.set i { h with phase := phase } }

def takeSlot (s : ReplicaState) : ReplicaState :=
  { s with freeSlots := s.freeSlots - 1 }

def releaseSlot (s : ReplicaState) : ReplicaState :=
  { s with freeSlots := s.freeSlots + 1 }

def dropGuard (s : ReplicaState) : ReplicaState :=
  { s with rif := RifGuard.drop s.rif }

def sample (h : Handler) (now finishedAt : Instant) : RingEntry :=
  ⟨h.rifAtArrival, wrapU64 (durationSince now h.start / 1000), finishedAt⟩

def recordSample (s : ReplicaState) (i : Nat) (e : RingEntry)
    (ring : LatencyRing) : ReplicaState :=
  { s with latencyRing := ring, samples := s.samples ++ [(i, e)] }

def pushSample (ring : LatencyRing) (e : Nat × RingEntry) :
    Except Panic LatencyRing :=
  ring.push e.2.rifAtArrival e.2.durationUs e.2.finishedAt

/-- One atomic step of a handler, of a closure or of the antagonist. -/
inductive Step : ReplicaState → ReplicaState → Prop where
  | arrive (s : ReplicaState) (now : Instant) : Step s (s.arrive now)
  | obtainSlot (s : ReplicaState) (i : Nat) (h : Handler)
      (hget : s.handlers[i]? = some h) (hphase : h.phase = .queued)
      (hfree : 0 < s.freeSlots) :
      Step s (s.setPhase i h .spinning).takeSlot
  | spinEnds (s : ReplicaState) (i : Nat) (h : Handler)
      (hget : s.handlers[i]? = some h) (hphase : h.phase = .spinning) :
      Step s (s.setPhase i h .spun).releaseSlot
  | orphanEnds (s : ReplicaState) (i : Nat) (h : Handler)
      (hget : s.handlers[i]? = some h) (hphase : h.phase = .orphaned) :
      Step s (s.setPhase i h .cancelled).releaseSlot
  | complete (s : ReplicaState) (i : Nat) (h : Handler)
      (now finishedAt : Instant) (ring : LatencyRing)
      (hget : s.handlers[i]? = some h) (hphase : h.phase = .spun)
      (hpush : pushSample s.latencyRing (i, sample h now finishedAt) =
        .ok ring) :
      Step s ((s.recordSample i (sample h now finishedAt) ring).setPhase i h
        .completed).dropGuard
  | cancelQueued (s : ReplicaState) (i : Nat) (h : Handler)
      (hget : s.handlers[i]? = some h) (hphase : h.phase = .queued) :
      Step s (s.setPhase i h .cancelled).dropGuard
  | cancelSpinning (s : ReplicaState) (i : Nat) (h : Handler)
      (hget : s.handlers[i]? = some h) (hphase : h.phase = .spinning) :
      Step s (s.setPhase i h .orphaned).dropGuard
  | cancelSpun (s : ReplicaState) (i : Nat) (h : Handler)
      (hget : s.handlers[i]? = some h) (hphase : h.phase = .spun) :
      Step s (s.setPhase i h .cancelled).dropGuard
  | burstTakes (s : ReplicaState) (hidle : s.burst = false)
      (hfree : 0 < s.freeSlots) :
      Step s { s.takeSlot with burst := true }
  | burstReleases (s : ReplicaState) (hburst : s.burst = true) :
      Step s { s.releaseSlot with burst := false }

inductive Reachable (slots : Nat) : ReplicaState → Prop where
  | initial : Reachable slots (new slots)
  | step {s s' : ReplicaState} (h : Reachable slots s) (hstep : Step s s') :
      Reachable slots s'

/-! ## Counting handlers -/

def live (s : ReplicaState) : Nat := s.handlers.countP fun h => h.phase.live

def running (s : ReplicaState) : Nat :=
  (s.handlers.countP fun h => h.phase.running) + if s.burst then 1 else 0

section Updates

variable (s : ReplicaState) (i : Nat) (h : Handler) (phase : Phase)
  (e : RingEntry) (ring : LatencyRing)

@[simp] theorem setPhase_freeSlots :
    (s.setPhase i h phase).freeSlots = s.freeSlots := rfl

@[simp] theorem takeSlot_freeSlots :
    s.takeSlot.freeSlots = s.freeSlots - 1 := rfl

@[simp] theorem takeSlot_running : s.takeSlot.running = s.running := rfl

@[simp] theorem releaseSlot_freeSlots :
    s.releaseSlot.freeSlots = s.freeSlots + 1 := rfl

@[simp] theorem releaseSlot_running :
    s.releaseSlot.running = s.running := rfl

@[simp] theorem dropGuard_rif : s.dropGuard.rif = RifGuard.drop s.rif := rfl

@[simp] theorem dropGuard_freeSlots :
    s.dropGuard.freeSlots = s.freeSlots := rfl

@[simp] theorem dropGuard_live : s.dropGuard.live = s.live := rfl

@[simp] theorem dropGuard_running : s.dropGuard.running = s.running := rfl

@[simp] theorem recordSample_freeSlots :
    (s.recordSample i e ring).freeSlots = s.freeSlots := rfl

@[simp] theorem recordSample_running :
    (s.recordSample i e ring).running = s.running := rfl

end Updates

section SetPhase

variable {s : ReplicaState} {i : Nat} {h : Handler} {old : Phase}

theorem live_setPhase (hget : s.handlers[i]? = some h) (hold : h.phase = old)
    (phase : Phase) :
    (s.setPhase i h phase).live + (if old.live then 1 else 0) =
      s.live + if phase.live then 1 else 0 := by
  subst hold
  exact countP_set_add hget { h with phase := phase } fun h => h.phase.live

theorem running_setPhase (hget : s.handlers[i]? = some h)
    (hold : h.phase = old) (phase : Phase) :
    (s.setPhase i h phase).running + (if old.running then 1 else 0) =
      s.running + if phase.running then 1 else 0 := by
  subst hold
  have hcount : (s.handlers.set i { h with phase := phase }).countP
        (fun h => h.phase.running) + (if h.phase.running then 1 else 0) =
      s.handlers.countP (fun h => h.phase.running) +
        if phase.running then 1 else 0 :=
    countP_set_add hget { h with phase := phase } fun h => h.phase.running
  have hset : (s.setPhase i h phase).running =
      (s.handlers.set i { h with phase := phase }).countP
        (fun h => h.phase.running) + if s.burst then 1 else 0 := rfl
  rw [hset, running, Nat.add_right_comm, hcount, Nat.add_right_comm]

theorem live_of_kept (hget : s.handlers[i]? = some h) (hold : h.phase = old)
    {phase : Phase} (hsame : old.live = phase.live) :
    (s.setPhase i h phase).live = s.live := by
  have hlive := live_setPhase hget hold phase
  rw [hsame] at hlive
  exact Nat.add_right_cancel hlive

theorem live_of_ended (hget : s.handlers[i]? = some h) (hold : h.phase = old)
    {phase : Phase} (hbefore : old.live = true)
    (hafter : phase.live = false) :
    (s.setPhase i h phase).live + 1 = s.live := by
  have hlive := live_setPhase hget hold phase
  rwa [hbefore, hafter] at hlive

theorem running_of_kept (hget : s.handlers[i]? = some h)
    (hold : h.phase = old) (phase : Phase)
    (hsame : old.running = phase.running) :
    (s.setPhase i h phase).running = s.running := by
  have hrunning := running_setPhase hget hold phase
  rw [hsame] at hrunning
  exact Nat.add_right_cancel hrunning

theorem running_of_started (hget : s.handlers[i]? = some h)
    (hold : h.phase = old) {phase : Phase} (hbefore : old.running = false)
    (hafter : phase.running = true) :
    (s.setPhase i h phase).running = s.running + 1 := by
  have hrunning := running_setPhase hget hold phase
  rwa [hbefore, hafter] at hrunning

theorem running_of_ended (hget : s.handlers[i]? = some h)
    (hold : h.phase = old) {phase : Phase} (hbefore : old.running = true)
    (hafter : phase.running = false) :
    (s.setPhase i h phase).running + 1 = s.running := by
  have hrunning := running_setPhase hget hold phase
  rwa [hbefore, hafter] at hrunning

end SetPhase

theorem live_pos {s : ReplicaState} {i : Nat} {h : Handler}
    (hget : s.handlers[i]? = some h) (hlive : h.phase.live = true) :
    0 < s.live :=
  List.countP_pos_iff.mpr ⟨h, List.mem_of_getElem? hget, hlive⟩

theorem arrive_live (s : ReplicaState) (now : Instant) :
    (s.arrive now).live = s.live + 1 := by
  simp [live, arrive, Phase.live]

theorem arrive_running (s : ReplicaState) (now : Instant) :
    (s.arrive now).running = s.running := by
  have hqueued : (s.arrive now).handlers.countP (fun h => h.phase.running) =
      s.handlers.countP fun h => h.phase.running := by
    simp [arrive, Phase.running]
  rw [running, hqueued]
  rfl

/-! ## The RIF counter -/

def Counted (s : ReplicaState) : Prop := s.rif = wrapU32 s.live

theorem Counted.kept {s s' : ReplicaState} (h : s.Counted)
    (hrif : s'.rif = s.rif) (hlive : s'.live = s.live) : s'.Counted := by
  rw [Counted, hrif, hlive]
  exact h

theorem Counted.dropGuard {s s' : ReplicaState} (h : s.Counted)
    (hrif : s'.rif = s.rif) (hlive : s'.live + 1 = s.live) :
    s'.dropGuard.Counted := by
  rw [Counted, dropGuard_rif, dropGuard_live, hrif, h, ← hlive,
    RifGuard.drop_wrapU32]

theorem Counted.step {s s' : ReplicaState} (h : s.Counted)
    (hstep : Step s s') : s'.Counted := by
  cases hstep with
  | arrive now =>
      rw [Counted, arrive_live, arrive, RifGuard.arm, h]
      exact Nat.mod_add_mod _ _ _
  | obtainSlot i handler hget hphase hfree =>
      exact h.kept rfl (live_of_kept hget hphase rfl)
  | spinEnds i handler hget hphase =>
      exact h.kept rfl (live_of_kept hget hphase rfl)
  | orphanEnds i handler hget hphase =>
      exact h.kept rfl (live_of_kept hget hphase rfl)
  | complete i handler now finishedAt ring hget hphase hpush =>
      refine h.dropGuard rfl ?_
      exact live_of_ended (s := s.recordSample i _ ring) hget hphase rfl rfl
  | cancelQueued i handler hget hphase =>
      exact h.dropGuard rfl (live_of_ended hget hphase rfl rfl)
  | cancelSpinning i handler hget hphase =>
      exact h.dropGuard rfl (live_of_ended hget hphase rfl rfl)
  | cancelSpun i handler hget hphase =>
      exact h.dropGuard rfl (live_of_ended hget hphase rfl rfl)
  | burstTakes hidle hfree => exact h
  | burstReleases hburst => exact h

/-! ## Worker slots -/

def SlotsBalanced (slots : Nat) (s : ReplicaState) : Prop :=
  s.freeSlots + s.running = slots

theorem SlotsBalanced.step {slots : Nat} {s s' : ReplicaState}
    (h : s.SlotsBalanced slots) (hstep : Step s s') :
    s'.SlotsBalanced slots := by
  unfold SlotsBalanced at h ⊢
  cases hstep with
  | arrive now =>
      rw [arrive_running]
      exact h
  | obtainSlot i handler hget hphase hfree =>
      rw [takeSlot_freeSlots, takeSlot_running, setPhase_freeSlots,
        running_of_started hget hphase rfl rfl]
      omega
  | spinEnds i handler hget hphase =>
      have hended : (s.setPhase i handler .spun).running + 1 = s.running :=
        running_of_ended hget hphase rfl rfl
      rw [releaseSlot_freeSlots, releaseSlot_running, setPhase_freeSlots]
      omega
  | orphanEnds i handler hget hphase =>
      have hended : (s.setPhase i handler .cancelled).running + 1 =
          s.running := running_of_ended hget hphase rfl rfl
      rw [releaseSlot_freeSlots, releaseSlot_running, setPhase_freeSlots]
      omega
  | complete i handler now finishedAt ring hget hphase hpush =>
      rw [dropGuard_freeSlots, dropGuard_running, setPhase_freeSlots]
      have hkept : ((s.recordSample i (sample handler now finishedAt)
          ring).setPhase i handler .completed).running =
          (s.recordSample i (sample handler now finishedAt) ring).running :=
        running_of_kept hget hphase .completed rfl
      rw [hkept, recordSample_freeSlots, recordSample_running]
      exact h
  | cancelQueued i handler hget hphase =>
      rw [dropGuard_freeSlots, dropGuard_running, setPhase_freeSlots,
        running_of_kept hget hphase .cancelled rfl]
      exact h
  | cancelSpinning i handler hget hphase =>
      -- The permit stays with the closure.
      rw [dropGuard_freeSlots, dropGuard_running, setPhase_freeSlots,
        running_of_kept hget hphase .orphaned rfl]
      exact h
  | cancelSpun i handler hget hphase =>
      rw [dropGuard_freeSlots, dropGuard_running, setPhase_freeSlots,
        running_of_kept hget hphase .cancelled rfl]
      exact h
  | burstTakes hidle hfree =>
      simp only [running, takeSlot, hidle, Bool.false_eq_true, if_false,
        if_true] at h ⊢
      omega
  | burstReleases hburst =>
      simp only [running, releaseSlot, hburst, Bool.false_eq_true, if_false,
        if_true] at h ⊢
      omega

/-! ## Samples -/

structure SamplesFaithful (s : ReplicaState) : Prop where
  pushed : s.samples.foldlM pushSample (LatencyRing.new 512 (fromMillis 500)) =
    .ok s.latencyRing
  valid : s.latencyRing.Valid
  once : (s.samples.map Prod.fst).Nodup
  tagged : ∀ e ∈ s.samples, ∃ h, s.handlers[e.1]? = some h ∧
    h.phase = .completed ∧ e.2.rifAtArrival = h.rifAtArrival
  exhaustive : ∀ i h, s.handlers[i]? = some h → h.phase = .completed →
    i ∈ s.samples.map Prod.fst

theorem new_samplesFaithful (slots : Nat) : (new slots).SamplesFaithful where
  pushed := rfl
  valid := LatencyRing.new_valid (by decide) _
  once := .nil
  tagged := nofun
  exhaustive := nofun

theorem SamplesFaithful.congr {s s' : ReplicaState} (h : s.SamplesFaithful)
    (hring : s'.latencyRing = s.latencyRing)
    (hhandlers : s'.handlers = s.handlers)
    (hsamples : s'.samples = s.samples) : s'.SamplesFaithful where
  pushed := by rw [hsamples, hring]; exact h.pushed
  valid := by rw [hring]; exact h.valid
  once := by rw [hsamples]; exact h.once
  tagged := by rw [hsamples, hhandlers]; exact h.tagged
  exhaustive := by rw [hsamples, hhandlers]; exact h.exhaustive

theorem SamplesFaithful.arrive {s : ReplicaState} (h : s.SamplesFaithful)
    (now : Instant) : (s.arrive now).SamplesFaithful where
  pushed := h.pushed
  valid := h.valid
  once := h.once
  tagged := by
    intro e he
    obtain ⟨handler, hget, hphase, htag⟩ := h.tagged e he
    refine ⟨handler, ?_, hphase, htag⟩
    rw [ReplicaState.arrive, List.getElem?_append_left, hget]
    exact (List.getElem?_eq_some_iff.mp hget).1
  exhaustive := by
    intro i handler hget hphase
    rw [ReplicaState.arrive, List.getElem?_append] at hget
    split at hget
    · exact h.exhaustive i handler hget hphase
    · rw [List.getElem?_singleton] at hget
      split at hget
      · rw [← Option.some.inj hget] at hphase
        cases hphase
      · cases hget

theorem SamplesFaithful.setPhase {s : ReplicaState} (h : s.SamplesFaithful)
    {i : Nat} {handler : Handler} (hget : s.handlers[i]? = some handler)
    (hold : handler.phase ≠ .completed) (phase : Phase)
    (hnew : phase ≠ .completed) :
    (s.setPhase i handler phase).SamplesFaithful where
  pushed := h.pushed
  valid := h.valid
  once := h.once
  tagged := by
    intro e he
    obtain ⟨handler', hget', hphase, htag⟩ := h.tagged e he
    refine ⟨handler', ?_, hphase, htag⟩
    have hne : i ≠ e.1 := by
      rintro rfl
      rw [hget, Option.some.injEq] at hget'
      exact hold (hget' ▸ hphase)
    rw [ReplicaState.setPhase, List.getElem?_set_ne hne, hget']
  exhaustive := by
    intro j handler' hget' hphase
    rw [ReplicaState.setPhase, List.getElem?_set] at hget'
    split at hget'
    · split at hget'
      · rw [← Option.some.inj hget'] at hphase
        exact absurd hphase hnew
      · cases hget'
    · exact h.exhaustive j handler' hget' hphase

theorem SamplesFaithful.complete {s : ReplicaState} (h : s.SamplesFaithful)
    {i : Nat} {handler : Handler} (hget : s.handlers[i]? = some handler)
    (hspun : handler.phase = .spun) {now finishedAt : Instant}
    {ring : LatencyRing}
    (hpush : pushSample s.latencyRing (i, sample handler now finishedAt) =
      .ok ring) :
    ((s.recordSample i (sample handler now finishedAt) ring).setPhase i
      handler .completed).SamplesFaithful := by
  have hi : i < s.handlers.length := (List.getElem?_eq_some_iff.mp hget).1
  have hfresh : i ∉ s.samples.map Prod.fst := by
    intro hmem
    obtain ⟨e, he, rfl⟩ := List.mem_map.mp hmem
    obtain ⟨handler', hget', hphase, -⟩ := h.tagged e he
    rw [hget, Option.some.injEq] at hget'
    rw [← hget', hspun] at hphase
    cases hphase
  constructor
  · change (s.samples ++ [_]).foldlM pushSample _ = _
    exact (foldlM_concat h.pushed _).trans hpush
  · obtain ⟨ring', hpush', hvalid, -⟩ := h.valid.push
      (sample handler now finishedAt).rifAtArrival
      (sample handler now finishedAt).durationUs finishedAt
    obtain rfl : ring' = ring := Except.ok.inj (hpush'.symm.trans hpush)
    exact hvalid
  · change ((s.samples ++ [_]).map Prod.fst).Nodup
    rw [List.map_append, List.map_singleton]
    exact h.once.append (List.nodup_singleton _)
      (List.disjoint_singleton.mpr hfresh)
  · intro e he
    rcases List.mem_append.mp he with hold | hnew
    · obtain ⟨handler', hget', hphase, htag⟩ := h.tagged e hold
      have hne : i ≠ e.1 := by
        rintro rfl
        exact hfresh (List.mem_map_of_mem hold)
      refine ⟨handler', ?_, hphase, htag⟩
      rw [ReplicaState.setPhase, List.getElem?_set_ne hne]
      exact hget'
    · rw [List.mem_singleton.mp hnew]
      refine ⟨{ handler with phase := .completed }, ?_, rfl, rfl⟩
      exact List.getElem?_set_self hi
  · intro j handler' hget' hphase
    change j ∈ (s.samples ++ [_]).map Prod.fst
    rw [List.map_append, List.map_singleton, List.mem_append,
      List.mem_singleton]
    by_cases hij : i = j
    · exact .inr hij.symm
    · rw [ReplicaState.setPhase, List.getElem?_set_ne hij] at hget'
      exact .inl (h.exhaustive j handler' hget' hphase)

theorem SamplesFaithful.step {s s' : ReplicaState} (h : s.SamplesFaithful)
    (hstep : Step s s') : s'.SamplesFaithful := by
  cases hstep with
  | arrive now => exact h.arrive now
  | obtainSlot i handler hget hphase hfree =>
      exact (h.setPhase hget (by simp [hphase]) .spinning nofun).congr
        rfl rfl rfl
  | spinEnds i handler hget hphase =>
      exact (h.setPhase hget (by simp [hphase]) .spun nofun).congr
        rfl rfl rfl
  | orphanEnds i handler hget hphase =>
      exact (h.setPhase hget (by simp [hphase]) .cancelled nofun).congr
        rfl rfl rfl
  | complete i handler now finishedAt ring hget hphase hpush =>
      exact (h.complete hget hphase hpush).congr rfl rfl rfl
  | cancelQueued i handler hget hphase =>
      exact (h.setPhase hget (by simp [hphase]) .cancelled nofun).congr
        rfl rfl rfl
  | cancelSpinning i handler hget hphase =>
      exact (h.setPhase hget (by simp [hphase]) .orphaned nofun).congr
        rfl rfl rfl
  | cancelSpun i handler hget hphase =>
      exact (h.setPhase hget (by simp [hphase]) .cancelled nofun).congr
        rfl rfl rfl
  | burstTakes hidle hfree => exact h.congr rfl rfl rfl
  | burstReleases hburst => exact h.congr rfl rfl rfl

/-! ## Every reachable state -/

structure Accounted (slots : Nat) (s : ReplicaState) : Prop where
  counted : s.Counted
  balanced : s.SlotsBalanced slots
  faithful : s.SamplesFaithful

theorem Reachable.accounted {slots : Nat} {s : ReplicaState}
    (h : Reachable slots s) : s.Accounted slots := by
  induction h with
  | initial => exact ⟨rfl, rfl, new_samplesFaithful slots⟩
  | step _ hstep ih =>
      exact ⟨ih.counted.step hstep, ih.balanced.step hstep,
        ih.faithful.step hstep⟩

/--
Accounting of a replica: while fewer than `2 ^ 32` handlers are live the RIF
counter is their number and no guard drops it below zero, every slot is free
or held by one spin, and the ring has received exactly one sample of each
completed handler, carrying the tag of its arrival.
-/
theorem replica_accounting (slots : Nat) (s : ReplicaState)
    (h : Reachable slots s) :
    (s.live < 2 ^ 32 → s.rif = s.live ∧
      ∀ (i : Nat) (handler : Handler), s.handlers[i]? = some handler →
        handler.phase.live = true → 0 < s.rif) ∧
    (s.live + 1 < 2 ^ 32 → ∀ now, (s.arrive now).handlers =
      s.handlers ++ [⟨s.live + 1, now, .queued⟩]) ∧
    s.freeSlots + s.running = slots ∧
    s.running ≤ slots ∧
    (s.samples.map Prod.fst).Nodup ∧
    (∀ (i : Nat) (handler : Handler), s.handlers[i]? = some handler →
      (i ∈ s.samples.map Prod.fst ↔ handler.phase = .completed)) ∧
    (∀ e ∈ s.samples, ∃ handler, s.handlers[e.1]? = some handler ∧
      e.2.rifAtArrival = handler.rifAtArrival) ∧
    s.samples.foldlM pushSample (LatencyRing.new 512 (fromMillis 500)) =
      .ok s.latencyRing ∧
    (∀ e : Nat × RingEntry, ∃ ring, pushSample s.latencyRing e = .ok ring) := by
  obtain ⟨hcounted, hbalanced, hfaithful⟩ := h.accounted
  have hbalance : s.freeSlots + s.running = slots := hbalanced
  refine ⟨fun hfew => ?_, fun hfew now => ?_, hbalance, by omega,
    hfaithful.once, ?_, ?_, hfaithful.pushed, ?_⟩
  · have hrif : s.rif = s.live := hcounted.trans (wrapU32_of_lt hfew)
    refine ⟨hrif, fun i handler hget hlive => ?_⟩
    rw [hrif]
    exact live_pos hget hlive
  · have hrif : s.rif = s.live :=
      hcounted.trans (wrapU32_of_lt (Nat.lt_of_succ_lt hfew))
    rw [arrive, hrif, RifGuard.arm_of_lt hfew]
  · intro i handler hget
    refine ⟨fun hmem => ?_, hfaithful.exhaustive i handler hget⟩
    obtain ⟨e, he, rfl⟩ := List.mem_map.mp hmem
    obtain ⟨handler', hget', hphase, -⟩ := hfaithful.tagged e he
    rw [hget, Option.some.injEq] at hget'
    rw [hget']
    exact hphase
  · intro e he
    obtain ⟨handler, hget, -, htag⟩ := hfaithful.tagged e he
    exact ⟨handler, hget, htag⟩
  · intro e
    obtain ⟨ring, hpush, -⟩ := hfaithful.valid.push e.2.rifAtArrival
      e.2.durationUs e.2.finishedAt
    exact ⟨ring, hpush⟩

/--
One slot; the first handler has completed and the second is cancelled while its
closure spins.
-/
def orphanHoldsSlot : ReplicaState where
  rif := 1
  freeSlots := 0
  burst := false
  latencyRing :=
    { LatencyRing.new 512 (fromMillis 500) with entries := [⟨1, 5, 5030⟩] }
  handlers :=
    [⟨1, 10, .completed⟩, ⟨2, 20, .orphaned⟩, ⟨2, 6000, .queued⟩]
  samples := [(0, ⟨1, 5, 5030⟩)]

theorem orphanHoldsSlot_accounting :
    orphanHoldsSlot.rif = orphanHoldsSlot.live ∧
      orphanHoldsSlot.freeSlots + orphanHoldsSlot.running = 1 ∧
      (∀ (i : Nat) (handler : Handler),
        orphanHoldsSlot.handlers[i]? = some handler →
          (i ∈ orphanHoldsSlot.samples.map Prod.fst ↔
            handler.phase = .completed)) ∧
      orphanHoldsSlot.samples.foldlM pushSample
        (LatencyRing.new 512 (fromMillis 500)) =
          .ok orphanHoldsSlot.latencyRing := by
  have hserved : Reachable 1 _ :=
    .step (.step (.step (.step .initial (.arrive _ 10))
      (.obtainSlot _ 0 ⟨1, 10, .queued⟩ rfl rfl (by decide)))
      (.arrive _ 20))
      (.spinEnds _ 0 ⟨1, 10, .spinning⟩ rfl rfl)
  have hreachable : Reachable 1 orphanHoldsSlot :=
    .step (.step (.step (.step hserved
      (.obtainSlot _ 1 ⟨2, 20, .queued⟩ rfl rfl (by decide)))
      (.complete _ 0 ⟨1, 10, .spun⟩ 5010 5030 _ rfl rfl rfl))
      (.arrive _ 6000))
      (.cancelSpinning _ 1 ⟨2, 20, .spinning⟩ rfl rfl)
  obtain ⟨hrif, -, hslots, -, -, hexhaustive, -, hring, -⟩ :=
    replica_accounting 1 orphanHoldsSlot hreachable
  exact ⟨(hrif (by decide)).1, hslots, hexhaustive, hring⟩

end ReplicaState

end Prequal
