import Prequal.Config
import Prequal.Foundation.Vec
import Prequal.Foundation.OrderStatistic
import Prequal.Foundation.LatestMap

/-!
# The probe pool

Every operation of the pool runs in `PoolM`: it may unwind, and what it wrote
before unwinding stays written.  The pool is unordered, so removals swap the
last probe into the vacated slot.
-/

namespace Prequal

open Foundation

structure Probe where
  replica : Nat
  rif : Nat
  rifAtProbe : Nat
  latencyUs : Nat
  receivedAt : Instant
  uses : Nat
  deriving DecidableEq, Repr

namespace Probe

def adjustedLatency (p : Probe) : Nat :=
  wrapU64 (p.latencyUs * (p.rif + 1)) / (p.rifAtProbe + 1)

def use (p : Probe) : Probe := { p with uses := wrapU32 (p.uses + 1) }

def compensate (replica : Nat) (p : Probe) : Probe :=
  if p.replica = replica then { p with rif := wrapU32 (p.rif + 1) } else p

def fresh (replica : Nat) (resp : ProbeResponse) (receivedAt : Instant) :
    Probe where
  replica := replica
  rif := resp.rif
  rifAtProbe := resp.rif
  latencyUs := resp.latencyUs
  receivedAt := receivedAt
  uses := 0

end Probe

structure ProbePool where
  probes : List Probe
  capacity : Nat
  ttl : Duration
  reuseBudget : Nat
  qRif : Rat
  removeOldestNext : Bool
  deriving DecidableEq, Repr

/-- A computation on the pool that can unwind and keeps what it wrote. -/
abbrev PoolM := ExceptT Panic (StateM ProbePool)

namespace ProbePool

def new (capacity : Nat) (ttl : Duration) (reuseBudget : Nat) (qRif : Rat) :
    ProbePool :=
  ⟨[], capacity, ttl, reuseBudget, qRif, false⟩

def len (pool : ProbePool) : Nat := pool.probes.length

def swapRemove (i : Nat) : PoolM Unit := do
  match swapRemove? (← get).probes i with
  | some probes => modify fun pool => { pool with probes := probes }
  | none => throw .indexOutOfBounds

def oldestIdx (pool : ProbePool) : Option Nat :=
  firstMinIdx (fun _ => true) Probe.receivedAt pool.probes

def removeOldest : PoolM Unit := do
  match (← get).oldestIdx with
  | some i => swapRemove i
  | none => return

def insert (probe : Probe) : PoolM Unit := do
  let pool ← get
  if pool.probes.length ≥ pool.capacity then
    removeOldest
  modify fun pool => { pool with probes := pool.probes ++ [probe] }

def alive (pool : ProbePool) (now : Instant) (p : Probe) : Bool :=
  durationSince now p.receivedAt < pool.ttl ∧ p.uses < pool.reuseBudget

def expire (now : Instant) (pool : ProbePool) : ProbePool :=
  { pool with probes := pool.probes.filter (pool.alive now) }

def latestRifs (pool : ProbePool) : List Nat :=
  latestVals Probe.replica Probe.receivedAt Probe.rif pool.probes

def quantileIdx (pool : ProbePool) (count : Nat) : Nat :=
  ⌊pool.qRif * ((count - 1 : Nat) : Rat)⌋.toNat

def hotThreshold (pool : ProbePool) : Except Panic (Option Nat) :=
  let rifs := pool.latestRifs
  if rifs.isEmpty then .ok none
  else
    match kthSmallest rifs (pool.quantileIdx rifs.length) with
    | some rif => .ok (some rif)
    | none => .error .indexOutOfBounds

/--
The position chosen by the hot-cold rule: the least adjusted latency among the
cold probes, or the least RIF when every probe is hot.
-/
def hclIdx (pool : ProbePool) : Except Panic (Option Nat) := do
  match ← pool.hotThreshold with
  | none => return none
  | some threshold =>
      match firstMinIdx (fun p => p.rif ≤ threshold) Probe.adjustedLatency
          pool.probes with
      | some i => return some i
      | none => return firstMinIdx (fun _ => true) Probe.rif pool.probes

/-- Charge the query to the probe at `i` and to every copy of its replica. -/
def dispatchTo (pool : ProbePool) (i : Nat) (replica : Nat) : ProbePool :=
  { pool with
    probes := (pool.probes.modify i Probe.use).map (Probe.compensate replica) }

def hclSelect : PoolM (Option Nat) := do
  let pool ← get
  match ← pool.hclIdx with
  | none => return none
  | some i =>
      match pool.probes[i]? with
      | none => throw .indexOutOfBounds
      | some chosen =>
          set (pool.dispatchTo i chosen.replica)
          return some chosen.replica

def worstIdx (pool : ProbePool) (threshold : Nat) : Option Nat :=
  if pool.probes.any fun p => p.rif > threshold then
    lastMaxIdx Probe.rif pool.probes
  else lastMaxIdx Probe.adjustedLatency pool.probes

def removeOne : PoolM Unit := do
  if (← get).probes.isEmpty then
    return
  modify fun pool => { pool with removeOldestNext := !pool.removeOldestNext }
  let pool ← get
  if pool.removeOldestNext then
    removeOldest
  else
    match ← pool.hotThreshold with
    | none => throw .unwrapNone
    | some threshold =>
        match pool.worstIdx threshold with
        | some i => swapRemove i
        | none => return

/-! ## Executing pool operations -/

section Exec

variable {α β : Type}

def exec (pool : ProbePool) (x : PoolM α) : Except Panic α × ProbePool :=
  x.run.run pool

@[simp] theorem exec_pure (pool : ProbePool) (a : α) :
    pool.exec (pure a) = (.ok a, pool) := rfl

@[simp] theorem exec_get (pool : ProbePool) :
    pool.exec get = (.ok pool, pool) := rfl

@[simp] theorem exec_set (pool pool' : ProbePool) :
    pool.exec (set pool') = (.ok ⟨⟩, pool') := rfl

@[simp] theorem exec_modify (pool : ProbePool) (f : ProbePool → ProbePool) :
    pool.exec (modify f) = (.ok ⟨⟩, f pool) := rfl

@[simp] theorem exec_liftM (pool : ProbePool) (x : Except Panic α) :
    pool.exec (liftM x) = (x, pool) := rfl

theorem exec_bind (pool : ProbePool) (x : PoolM α) (f : α → PoolM β) :
    pool.exec (x >>= f) =
      match pool.exec x with
      | (.ok a, pool') => pool'.exec (f a)
      | (.error e, pool') => (.error e, pool') := by
  rcases hx : pool.exec x with ⟨e | a, pool'⟩ <;>
  · simp only [exec, ExceptT.run_bind, StateT.run_bind] at hx ⊢
    rw [hx]
    rfl

end Exec

/-! ## The effect of each operation -/

def evictIdx (pool : ProbePool) : Option Nat :=
  if pool.probes.length ≥ pool.capacity then pool.oldestIdx else none

def removalIdx (pool : ProbePool) : Except Panic (Option Nat) :=
  if pool.removeOldestNext then
    match pool.hotThreshold with
    | .error e => .error e
    | .ok none => .error .unwrapNone
    | .ok (some threshold) => .ok (pool.worstIdx threshold)
  else .ok pool.oldestIdx

theorem oldestIdx_eq_some {pool : ProbePool} {i : Nat}
    (h : pool.oldestIdx = some i) :
    ∃ p, pool.probes[i]? = some p ∧
      ∀ q ∈ pool.probes, p.receivedAt ≤ q.receivedAt := by
  obtain ⟨p, hp⟩ := firstMinIdx_eq_some_iff.mp h
  exact ⟨p, hp.get, fun q hq => hp.least q hq rfl⟩

theorem oldestIdx_eq_none_iff {pool : ProbePool} :
    pool.oldestIdx = none ↔ pool.probes = [] := by
  rw [oldestIdx, firstMinIdx_eq_none_iff]
  simp [List.eq_nil_iff_forall_not_mem]

theorem worstIdx_eq_some {pool : ProbePool} {threshold i : Nat}
    (h : pool.worstIdx threshold = some i) :
    ∃ p, pool.probes[i]? = some p := by
  unfold worstIdx at h
  split at h
  · obtain ⟨p, hp⟩ := lastMaxIdx_spec h
    exact ⟨p, hp.get⟩
  · obtain ⟨p, hp⟩ := lastMaxIdx_spec h
    exact ⟨p, hp.get⟩

theorem exec_swapRemove {pool : ProbePool} {i : Nat} {p : Probe}
    (hp : pool.probes[i]? = some p) :
    pool.exec (swapRemove i) =
      (.ok (), { pool with probes := swapRemoveAt pool.probes (some i) }) := by
  obtain ⟨w, hw⟩ := swapRemove?_isSome (List.getElem?_eq_some_iff.mp hp).1
  simp [swapRemove, exec_bind, hw, swapRemoveAt]

theorem exec_removeOldest (pool : ProbePool) :
    pool.exec removeOldest =
      (.ok (), { pool with
        probes := swapRemoveAt pool.probes pool.oldestIdx }) := by
  simp only [removeOldest, exec_bind, exec_get]
  cases hidx : pool.oldestIdx with
  | none => rfl
  | some i =>
      obtain ⟨p, hp, -⟩ := oldestIdx_eq_some hidx
      exact exec_swapRemove hp

theorem exec_insert (pool : ProbePool) (probe : Probe) :
    pool.exec (insert probe) =
      (.ok (), { pool with
        probes := swapRemoveAt pool.probes pool.evictIdx ++ [probe] }) := by
  simp only [insert, exec_bind, exec_get, evictIdx]
  split <;> simp [exec_bind, exec_removeOldest]

@[simp] theorem hotThreshold_removeOldestNext (pool : ProbePool) (b : Bool) :
    hotThreshold { pool with removeOldestNext := b } = pool.hotThreshold := rfl

@[simp] theorem worstIdx_removeOldestNext (pool : ProbePool) (b : Bool)
    (threshold : Nat) :
    worstIdx { pool with removeOldestNext := b } threshold =
      pool.worstIdx threshold := rfl

theorem exec_removeOne_nil {pool : ProbePool} (h : pool.probes = []) :
    pool.exec removeOne = (.ok (), pool) := by
  simp [removeOne, exec_bind, h]

theorem exec_removeOne {pool : ProbePool} (h : pool.probes ≠ []) :
    pool.exec removeOne =
      match pool.removalIdx with
      | .ok o => (.ok (), { pool with
          probes := swapRemoveAt pool.probes o
          removeOldestNext := !pool.removeOldestNext })
      | .error e => (.error e, { pool with
          removeOldestNext := !pool.removeOldestNext }) := by
  cases hflag : pool.removeOldestNext with
  | false =>
      simp [removeOne, exec_bind, removalIdx, h, hflag, exec_removeOldest,
        oldestIdx]
  | true =>
      simp only [removeOne, exec_bind, exec_get, exec_modify, removalIdx,
        List.isEmpty_iff, h, hflag, if_true, if_false, Bool.not_true,
        Bool.false_eq_true, hotThreshold_removeOldestNext, exec_liftM]
      rcases pool.hotThreshold with e | _ | threshold
      · rfl
      · rfl
      · simp only [worstIdx_removeOldestNext]
        cases hidx : pool.worstIdx threshold with
        | none => rfl
        | some i =>
            obtain ⟨p, hp⟩ := worstIdx_eq_some hidx
            have hexec : exec { pool with removeOldestNext := false }
                (swapRemove i) = _ := exec_swapRemove hp
            exact hexec

theorem hclIdx_eq (pool : ProbePool) :
    pool.hclIdx =
      match pool.hotThreshold with
      | .error e => .error e
      | .ok none => .ok none
      | .ok (some threshold) =>
          .ok ((firstMinIdx (fun p => p.rif ≤ threshold)
            Probe.adjustedLatency pool.probes).or
              (firstMinIdx (fun _ => true) Probe.rif pool.probes)) := by
  unfold hclIdx
  rcases pool.hotThreshold with e | _ | threshold
  · rfl
  · rfl
  · simp only [bind, Except.bind]
    cases firstMinIdx (fun p => decide (p.rif ≤ threshold))
      Probe.adjustedLatency pool.probes <;> rfl

theorem hclIdx_eq_some {pool : ProbePool} {i : Nat}
    (h : pool.hclIdx = .ok (some i)) : ∃ c, pool.probes[i]? = some c := by
  rw [hclIdx_eq] at h
  rcases hthreshold : pool.hotThreshold with e | _ | threshold
  · simp [hthreshold] at h
  · simp [hthreshold] at h
  · simp only [hthreshold, Except.ok.injEq, Option.or_eq_some_iff] at h
    rcases h with h | ⟨-, h⟩
    · obtain ⟨c, hc⟩ := firstMinIdx_eq_some_iff.mp h
      exact ⟨c, hc.get⟩
    · obtain ⟨c, hc⟩ := firstMinIdx_eq_some_iff.mp h
      exact ⟨c, hc.get⟩

theorem exec_hclSelect_of_error {pool : ProbePool} {e : Panic}
    (h : pool.hclIdx = .error e) :
    pool.exec hclSelect = (.error e, pool) := by
  simp [hclSelect, exec_bind, h]

theorem exec_hclSelect_of_idx {pool : ProbePool} {i : Nat} {c : Probe}
    (hidx : pool.hclIdx = .ok (some i)) (hc : pool.probes[i]? = some c) :
    pool.exec hclSelect =
      (.ok (some c.replica), pool.dispatchTo i c.replica) := by
  simp only [hclSelect, exec_bind, exec_get, exec_liftM, hidx, hc,
    exec_set, exec_pure]

theorem exec_hclSelect_cases (pool : ProbePool) :
    (∃ e, pool.hclIdx = .error e ∧
        pool.exec hclSelect = (.error e, pool)) ∨
      (pool.hclIdx = .ok none ∧ pool.exec hclSelect = (.ok none, pool)) ∨
      ∃ i c, pool.hclIdx = .ok (some i) ∧ pool.probes[i]? = some c ∧
        pool.exec hclSelect =
          (.ok (some c.replica), pool.dispatchTo i c.replica) := by
  rcases hidx : pool.hclIdx with e | _ | i
  · exact .inl ⟨e, rfl, exec_hclSelect_of_error hidx⟩
  · exact .inr (.inl ⟨rfl, by simp [hclSelect, exec_bind, hidx]⟩)
  · obtain ⟨c, hc⟩ := hclIdx_eq_some hidx
    exact .inr (.inr ⟨i, c, rfl, hc, exec_hclSelect_of_idx hidx hc⟩)

end ProbePool

end Prequal
