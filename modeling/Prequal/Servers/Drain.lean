import Mathlib.Algebra.Order.Round
import Mathlib.Data.Rat.Floor
import Prequal.Foundation.Registry
import Prequal.Foundation.Transition
import Prequal.Servers.Accounting

/-!
# Draining a replica

Once no query arrives and no burst starts, a replica comes to rest: whatever
the order of its steps, each takes some work away, and with at least one slot
it can only stop when nothing is left.  If no handler is dropped meanwhile,
every query it had accepted is completed.
-/

namespace Prequal

open Foundation Relation

structure ServerArgs where
  cpuAlloc : Rat
  deriving DecidableEq, Repr

/-- A negative allocation casts to zero; halves round away from zero. -/
def ServerArgs.slots (args : ServerArgs) : Nat :=
  max (min (round args.cpuAlloc).toNat (2 ^ 64 - 1)) 1

theorem ServerArgs.one_le_slots (args : ServerArgs) : 1 ≤ args.slots :=
  le_max_right _ _

/-! ## Remaining work -/

def Phase.remaining : Phase → Nat
  | .queued => 3
  | .spinning => 2
  | .spun | .orphaned => 1
  | .completed | .cancelled => 0

def Phase.dropped : Phase → Bool
  | .orphaned | .cancelled => true
  | .queued | .spinning | .spun | .completed => false

namespace Phase

variable {phase : Phase}

theorem remaining_le (phase : Phase) : phase.remaining ≤
    3 * (if phase.live then 1 else 0) + if phase.running then 1 else 0 := by
  cases phase <;> decide

theorem not_running (hspinning : phase ≠ .spinning)
    (horphaned : phase ≠ .orphaned) : phase.running = false := by
  cases phase <;> simp_all [running]

theorem remaining_eq_zero (hqueued : phase ≠ .queued)
    (hspinning : phase ≠ .spinning) (hspun : phase ≠ .spun)
    (horphaned : phase ≠ .orphaned) : phase.remaining = 0 := by
  cases phase <;> simp_all [remaining]

theorem not_live_of_remaining (h : phase.remaining = 0) :
    phase.live = false ∧ phase.running = false := by
  cases phase <;> simp_all [remaining, live, running]

theorem not_dropped_of_live (h : phase.live = true) :
    phase.dropped = false := by
  cases phase <;> simp_all [live, dropped]

theorem completed_of (hlive : phase.live = false)
    (hdropped : phase.dropped = false) : phase = .completed := by
  cases phase <;> simp_all [live, dropped]

end Phase

namespace ReplicaState

def remaining (s : ReplicaState) : Nat :=
  (s.handlers.map fun h => h.phase.remaining).sum + if s.burst then 1 else 0

def dropped (s : ReplicaState) : Nat :=
  s.handlers.countP fun h => h.phase.dropped

/-- A step that neither admits a query nor starts a burst. -/
structure Quiet (s s' : ReplicaState) : Prop where
  step : Step s s'
  closed : s'.handlers.length = s.handlers.length
  idle : s'.burst = true → s.burst = true

/-- A quiet step that drops no handler. -/
structure Serves (s s' : ReplicaState) : Prop extends Quiet s s' where
  kept : s'.dropped = s.dropped

section Handlers

variable {s : ReplicaState} {i : Nat} {h : Handler} {old : Phase}

@[simp] theorem setPhase_length (s : ReplicaState) (i : Nat) (h : Handler)
    (phase : Phase) :
    (s.setPhase i h phase).handlers.length = s.handlers.length :=
  List.length_set

theorem dropped_setPhase (hget : s.handlers[i]? = some h)
    (hold : h.phase = old) (phase : Phase) :
    (s.setPhase i h phase).dropped + (if old.dropped then 1 else 0) =
      s.dropped + if phase.dropped then 1 else 0 := by
  subst hold
  exact countP_set_add hget { h with phase := phase } fun h => h.phase.dropped

theorem remaining_setPhase (hget : s.handlers[i]? = some h)
    (hold : h.phase = old) (phase : Phase) :
    (s.setPhase i h phase).remaining + old.remaining =
      s.remaining + phase.remaining := by
  subst hold
  have hsum := sum_map_set_add hget { h with phase := phase }
    fun h => h.phase.remaining
  have hset : (s.setPhase i h phase).remaining =
      ((s.handlers.set i { h with phase := phase }).map
        fun h => h.phase.remaining).sum + if s.burst then 1 else 0 := rfl
  dsimp only at hsum
  rw [hset, remaining]
  omega

end Handlers

theorem remaining_setPhase_lt {s : ReplicaState} {i : Nat} {h : Handler}
    {old phase : Phase} (hget : s.handlers[i]? = some h)
    (hold : h.phase = old) (hlt : phase.remaining < old.remaining) :
    (s.setPhase i h phase).remaining < s.remaining := by
  have hset := remaining_setPhase hget hold phase
  omega

theorem Quiet.remaining_lt {s s' : ReplicaState} (h : Quiet s s') :
    s'.remaining < s.remaining := by
  obtain ⟨hstep, hclosed, hidle⟩ := h
  cases hstep with
  | arrive now => simp [arrive] at hclosed
  | obtainSlot i handler hget hphase hfree =>
      exact remaining_setPhase_lt hget hphase (by decide)
  | spinEnds i handler hget hphase =>
      exact remaining_setPhase_lt hget hphase (by decide)
  | orphanEnds i handler hget hphase =>
      exact remaining_setPhase_lt hget hphase (by decide)
  | complete i handler now finishedAt ring hget hphase hpush =>
      exact remaining_setPhase_lt (s := s.recordSample i _ ring) hget hphase
        (by decide)
  | cancelQueued i handler hget hphase =>
      exact remaining_setPhase_lt hget hphase (by decide)
  | cancelSpinning i handler hget hphase =>
      exact remaining_setPhase_lt hget hphase (by decide)
  | cancelSpun i handler hget hphase =>
      exact remaining_setPhase_lt hget hphase (by decide)
  | burstTakes hquiet hfree =>
      rw [hidle rfl] at hquiet
      cases hquiet
  | burstReleases hburst =>
      simp [remaining, releaseSlot, hburst]

/-! ## Progress -/

theorem serves_setPhase {s s' : ReplicaState} {i : Nat} {h : Handler}
    {old phase : Phase} (hget : s.handlers[i]? = some h)
    (hold : h.phase = old) (hstep : Step s s')
    (hhandlers : s'.handlers = (s.setPhase i h phase).handlers)
    (hburst : s'.burst = s.burst) (hkept : old.dropped = phase.dropped) :
    Serves s s' where
  step := hstep
  closed := by rw [hhandlers, setPhase_length]
  idle := by rw [hburst]; exact id
  kept := by
    have hset := dropped_setPhase hget hold phase
    rw [hkept] at hset
    have hdropped : s'.dropped = (s.setPhase i h phase).dropped := by
      rw [dropped, hhandlers, dropped]
    omega

/--
While work remains some step serves it.  A queued handler waits for a slot
only as long as a spin or a burst holds one.
-/
theorem exists_serves {slots : Nat} {s : ReplicaState}
    (h : Reachable slots s) (hslots : 1 ≤ slots) (hrest : ∀ s', ¬ Serves s s') :
    s.remaining = 0 := by
  obtain ⟨-, hbalanced, hfaithful⟩ := h.accounted
  have hburst : s.burst = false := by
    by_contra hburst
    rw [Bool.not_eq_false] at hburst
    exact hrest _ ⟨⟨.burstReleases s hburst, rfl, nofun⟩, rfl⟩
  have hspinning : ∀ (i : Nat) (handler : Handler),
      s.handlers[i]? = some handler → handler.phase ≠ .spinning := by
    intro i handler hget hphase
    exact hrest _ (serves_setPhase hget hphase
      (.spinEnds s i handler hget hphase) rfl rfl rfl)
  have horphaned : ∀ (i : Nat) (handler : Handler),
      s.handlers[i]? = some handler → handler.phase ≠ .orphaned := by
    intro i handler hget hphase
    exact hrest _ (serves_setPhase hget hphase
      (.orphanEnds s i handler hget hphase) rfl rfl rfl)
  have hspun : ∀ (i : Nat) (handler : Handler),
      s.handlers[i]? = some handler → handler.phase ≠ .spun := by
    intro i handler hget hphase
    obtain ⟨ring, hpush, -⟩ := hfaithful.valid.push
      (sample handler 0 0).rifAtArrival (sample handler 0 0).durationUs 0
    exact hrest _ (serves_setPhase hget hphase
      (.complete s i handler 0 0 ring hget hphase hpush) rfl rfl rfl)
  have hfree : s.freeSlots = slots := by
    have hnone : s.handlers.countP (fun h => h.phase.running) = 0 := by
      rw [List.countP_eq_zero]
      intro handler hmem
      obtain ⟨i, hget⟩ := List.mem_iff_getElem?.mp hmem
      rw [Phase.not_running (hspinning i handler hget)
        (horphaned i handler hget)]
      exact Bool.false_ne_true
    have hbalance : s.freeSlots + s.running = slots := hbalanced
    rw [running, hnone, hburst] at hbalance
    simpa using hbalance
  have hqueued : ∀ (i : Nat) (handler : Handler),
      s.handlers[i]? = some handler → handler.phase ≠ .queued := by
    intro i handler hget hphase
    exact hrest _ (serves_setPhase hget hphase
      (.obtainSlot s i handler hget hphase (by omega)) rfl rfl rfl)
  have hnone : ∀ handler ∈ s.handlers, handler.phase.remaining = 0 := by
    intro handler hmem
    obtain ⟨i, hget⟩ := List.mem_iff_getElem?.mp hmem
    exact Phase.remaining_eq_zero (hqueued i handler hget)
      (hspinning i handler hget) (hspun i handler hget)
      (horphaned i handler hget)
  have hzero : (s.handlers.map fun h => h.phase.remaining).sum = 0 := by
    rw [List.sum_eq_zero_iff_forall_eq_nat]
    simpa using hnone
  simp [remaining, hzero, hburst]

/-! ## At rest -/

structure AtRest (slots : Nat) (s : ReplicaState) : Prop where
  rif : s.rif = 0
  live : s.live = 0
  freeSlots : s.freeSlots = slots

theorem Reachable.atRest {slots : Nat} {s : ReplicaState}
    (h : Reachable slots s) (hnone : s.remaining = 0) : s.AtRest slots := by
  obtain ⟨hcounted, hbalanced, -⟩ := h.accounted
  have hidle : s.burst = false := by
    by_contra hburst
    simp [remaining, hburst] at hnone
  have hsum : (s.handlers.map fun h => h.phase.remaining).sum = 0 :=
    Nat.eq_zero_of_add_eq_zero_right hnone
  rw [List.sum_eq_zero_iff_forall_eq_nat] at hsum
  have hended : ∀ handler ∈ s.handlers, handler.phase.remaining = 0 :=
    fun handler hmem => hsum _ (List.mem_map_of_mem hmem)
  have hlive : s.live = 0 := by
    rw [live, List.countP_eq_zero]
    intro handler hmem
    rw [(Phase.not_live_of_remaining (hended handler hmem)).1]
    exact Bool.false_ne_true
  have hrunning : s.running = 0 := by
    rw [running, hidle, List.countP_eq_zero.mpr]
    · rfl
    · intro handler hmem
      rw [(Phase.not_live_of_remaining (hended handler hmem)).2]
      exact Bool.false_ne_true
  have hbalance : s.freeSlots + s.running = slots := hbalanced
  refine ⟨?_, hlive, by omega⟩
  rw [hcounted, hlive]
  rfl

theorem remaining_le (s : ReplicaState) :
    s.remaining ≤ 3 * s.live + s.running := by
  have hsum : (s.handlers.map fun h => h.phase.remaining).sum ≤
      3 * s.handlers.countP (fun h => h.phase.live) +
        s.handlers.countP fun h => h.phase.running := by
    induction s.handlers with
    | nil => simp
    | cons handler handlers ih =>
        rw [List.map_cons, List.sum_cons, List.countP_cons, List.countP_cons]
        have hphase := handler.phase.remaining_le
        omega
  unfold remaining live running
  omega

/-! ## What becomes of the handlers -/

def Undropped (s : ReplicaState) (i : Nat) : Prop :=
  ∃ handler, s.handlers[i]? = some handler ∧ handler.phase.dropped = false

theorem undropped_setPhase {s : ReplicaState} {i j : Nat} {h : Handler}
    {old phase : Phase} (hget : s.handlers[i]? = some h)
    (hold : h.phase = old) (hkept : old.dropped = phase.dropped)
    (hj : s.Undropped j) : (s.setPhase i h phase).Undropped j := by
  obtain ⟨handler, hhandler, hphase⟩ := hj
  unfold Undropped setPhase
  simp only [getElem?_set_of_some hget]
  split
  · rename_i hij
    subst hij
    rw [hget, Option.some.injEq] at hhandler
    refine ⟨_, rfl, ?_⟩
    rw [← hkept, ← hold, hhandler, hphase]
  · exact ⟨handler, hhandler, hphase⟩

theorem not_kept_of_dropped {s : ReplicaState} {i : Nat} {h : Handler}
    {old phase : Phase} (hget : s.handlers[i]? = some h)
    (hold : h.phase = old) (hbefore : old.dropped = false)
    (hafter : phase.dropped = true) :
    (s.setPhase i h phase).dropped ≠ s.dropped := by
  have hset := dropped_setPhase hget hold phase
  rw [hbefore, hafter] at hset
  simp at hset
  omega

theorem Serves.undropped {s s' : ReplicaState} {i : Nat} (h : Serves s s')
    (hi : s.Undropped i) : s'.Undropped i := by
  obtain ⟨⟨hstep, hclosed, hidle⟩, hkept⟩ := h
  cases hstep with
  | arrive now => simp [arrive] at hclosed
  | obtainSlot j handler hget hphase hfree =>
      exact undropped_setPhase hget hphase rfl hi
  | spinEnds j handler hget hphase =>
      exact undropped_setPhase hget hphase rfl hi
  | orphanEnds j handler hget hphase =>
      exact undropped_setPhase hget hphase rfl hi
  | complete j handler now finishedAt ring hget hphase hpush =>
      exact undropped_setPhase hget hphase rfl hi
  | cancelQueued j handler hget hphase =>
      exact absurd hkept (not_kept_of_dropped hget hphase rfl rfl)
  | cancelSpinning j handler hget hphase =>
      exact absurd hkept (not_kept_of_dropped hget hphase rfl rfl)
  | cancelSpun j handler hget hphase =>
      exact absurd hkept (not_kept_of_dropped hget hphase rfl rfl)
  | burstTakes hquiet hfree => exact hi
  | burstReleases hburst => exact hi

theorem undropped_of_live {s : ReplicaState} {i : Nat} {handler : Handler}
    (hget : s.handlers[i]? = some handler)
    (hlive : handler.phase.live = true) : s.Undropped i := by
  exact ⟨handler, hget, Phase.not_dropped_of_live hlive⟩

theorem completed_of_undropped {s : ReplicaState} {i : Nat}
    (hlive : s.live = 0) (hi : s.Undropped i) :
    ∃ handler, s.handlers[i]? = some handler ∧ handler.phase = .completed := by
  obtain ⟨handler, hget, hphase⟩ := hi
  have hended : handler.phase.live = false := by
    rw [live, List.countP_eq_zero] at hlive
    simpa using hlive handler (List.mem_of_getElem? hget)
  exact ⟨handler, hget, Phase.completed_of hended hphase⟩

/--
A replica that gets no more work comes to rest: a run without arrivals and
bursts is no longer than the work in progress, it stops only with every slot
free and a RIF of zero, and if it drops no handler then every query in flight
is completed and leaves its sample.
-/
theorem replica_drains (args : ServerArgs) (s : ReplicaState)
    (h : Reachable args.slots s) :
    (∀ run : List ReplicaState, (s :: run).IsChain Quiet →
      run.length ≤ 3 * s.live + s.running) ∧
    (∀ s', ReflTransGen Quiet s s' → (∀ t, ¬ Quiet s' t) →
      s'.AtRest args.slots) ∧
    (∃ s', ReflTransGen Serves s s' ∧ ∀ t, ¬ Serves s' t) ∧
    ∀ s', ReflTransGen Serves s s' → (∀ t, ¬ Serves s' t) →
      s'.AtRest args.slots ∧
      ∀ (i : Nat) (handler : Handler), s.handlers[i]? = some handler →
        handler.phase.live = true →
        i ∈ s'.samples.map Prod.fst ∧ ∃ handler',
          s'.handlers[i]? = some handler' ∧ handler'.phase = .completed := by
  have hslots := args.one_le_slots
  have hquiet : ∀ t t', Reachable args.slots t → Quiet t t' →
      Reachable args.slots t' := fun _ _ ht hquiet => ht.step hquiet.step
  have hserves : ∀ t t', Reachable args.slots t → Serves t t' →
      Reachable args.slots t' := fun _ _ ht hserves => ht.step hserves.step
  refine ⟨?_, ?_, ?_, ?_⟩
  · intro run hrun
    exact (chain_length_le hquiet (fun _ _ _ hquiet => hquiet.remaining_lt) h
      hrun).trans (remaining_le s)
  · intro s' hrun hrest
    have hreach := invariant_of_step hquiet h hrun
    exact hreach.atRest
      (exists_serves hreach hslots fun t ht => hrest t ht.toQuiet)
  · exact exists_at_rest hserves
      (fun _ _ _ hserves => hserves.toQuiet.remaining_lt) h
  · intro s' hrun hrest
    have hreach := invariant_of_step hserves h hrun
    have hatRest := hreach.atRest (exists_serves hreach hslots hrest)
    refine ⟨hatRest, fun i handler hget hlive => ?_⟩
    have hundropped : s'.Undropped i := invariant_of_step
      (I := fun t => t.Undropped i)
      (fun _ _ hi (hserves : Serves _ _) => hserves.undropped hi)
      (undropped_of_live hget hlive) hrun
    obtain ⟨handler', hget', hcompleted⟩ :=
      completed_of_undropped hatRest.live hundropped
    exact ⟨hreach.accounted.faithful.exhaustive i handler' hget' hcompleted,
      handler', hget', hcompleted⟩

def oneWaits : ReplicaState where
  rif := 2
  freeSlots := 0
  burst := false
  latencyRing := LatencyRing.new 512 (fromMillis 500)
  handlers := [⟨1, 10, .spinning⟩, ⟨2, 20, .queued⟩]
  samples := []

theorem oneWaits_drains : ∃ s', ReflTransGen Serves oneWaits s' ∧
    s'.AtRest 1 ∧ 1 ∈ s'.samples.map Prod.fst := by
  have hslots : (ServerArgs.mk 1).slots = 1 := by decide +kernel
  have hreachable : Reachable (ServerArgs.mk 1).slots oneWaits := by
    rw [hslots]
    exact .step (.step (.step .initial (.arrive _ 10))
      (.obtainSlot _ 0 ⟨1, 10, .queued⟩ rfl rfl (by decide))) (.arrive _ 20)
  obtain ⟨-, -, ⟨s', hrun, hrest⟩, hserved⟩ :=
    replica_drains ⟨1⟩ oneWaits hreachable
  obtain ⟨hatRest, hcompleted⟩ := hserved s' hrun hrest
  exact ⟨s', hrun, hslots ▸ hatRest,
    (hcompleted 1 ⟨2, 20, .queued⟩ rfl rfl).1⟩

end ReplicaState

end Prequal
