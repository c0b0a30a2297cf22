import Prequal.Config
import Prequal.Servers.LatencyRing

/-!
# The replica's load signals

The RIF counter is a `u32` that a guard increments on arrival and decrements
when it is dropped.  The value the guard returns counts the arriving query
itself and becomes the tag of its sample.
-/

namespace Prequal

open Foundation

structure ServerState where
  rif : Nat
  latencyRing : LatencyRing
  utilEma : Rat
  deriving DecidableEq, Repr

namespace RifGuard

/-- The counter after an arrival and the RIF including the new query. -/
def arm (rif : Nat) : Nat × Nat := (wrapU32 (rif + 1), wrapU32 (rif + 1))

def drop (rif : Nat) : Nat := if rif = 0 then u32Max else rif - 1

theorem arm_of_lt {rif : Nat} (h : rif + 1 < 2 ^ 32) :
    arm rif = (rif + 1, rif + 1) := by
  rw [arm, wrapU32_of_lt h]

theorem drop_wrapU32 (n : Nat) : drop (wrapU32 (n + 1)) = wrapU32 n := by
  unfold drop wrapU32 u32Max
  split <;> omega

end RifGuard

def probe (sort : SortByKey RingEntry) (state : ServerState) (now : Instant) :
    Except Panic ProbeResponse := do
  let latencyUs ← state.latencyRing.medianNear sort state.rif now
  return ⟨state.rif, latencyUs, state.utilEma⟩

structure Completion where
  durationUs : Nat
  finishedAt : Instant
  deriving DecidableEq, Repr

def Completion.record (rif : Nat) (ring : LatencyRing) (c : Completion) :
    Except Panic LatencyRing :=
  ring.push (RifGuard.arm rif).2 c.durationUs c.finishedAt

def ringAfter (capacity : Nat) (maxAge : Duration) (rif : Nat)
    (completions : List Completion) : Except Panic LatencyRing :=
  completions.foldlM (Completion.record rif) (LatencyRing.new capacity maxAge)

end Prequal
