import Prequal.Client.Runs

/-!
# The Prequal policy

One query runs one round under the pool lock: expire, select, remove.  Probes
arrive between rounds.  The draw used when fewer than two probes are left is
an argument, so every statement holds for every outcome of it.
-/

namespace Prequal

open Foundation

structure ClientArgs where
  servers : List String
  rProbe : Nat
  poolCapacity : Nat
  probeTtlMs : Nat
  qRif : Rat
  deriving DecidableEq, Repr

/-- The configuration `client::run` builds; the other fields are defaults. -/
def ClientArgs.config (args : ClientArgs) : PrequalConfig :=
  { PrequalConfig.default with
    rProbe := args.rProbe
    poolCapacity := args.poolCapacity
    probeTtlMs := args.probeTtlMs
    qRif := args.qRif }

@[simp] theorem ClientArgs.config_rRemove (args : ClientArgs) :
    args.config.rRemove = 1 := rfl

def PrequalConfig.newPool (cfg : PrequalConfig) (n : Nat) : ProbePool :=
  ProbePool.new cfg.poolCapacity (fromMillis cfg.probeTtlMs)
    (cfg.reuseBudget n) cfg.qRif

def PrequalConfig.probeCount (cfg : PrequalConfig) (n : Nat) : Nat :=
  min cfg.rProbe n

namespace Balancer

open ProbePool

def removeMany : Nat → PoolM Unit
  | 0 => return
  | count + 1 => do
      removeOne
      removeMany count

def lockedRound (cfg : PrequalConfig) (now : Instant) : PoolM (Option Nat) := do
  modify (ProbePool.expire now)
  let choice ← if (← get).len < 2 then pure none else hclSelect
  removeMany cfg.rRemove
  return choice

/-- `random` is the outcome of the uniform draw of the fallback. -/
def select (cfg : PrequalConfig) (now : Instant) (random : Nat) :
    PoolM Nat := do
  return (← lockedRound cfg now).getD random

def insertResponse (replica : Nat) (resp : ProbeResponse)
    (receivedAt : Instant) : PoolM Unit :=
  insert (Probe.fresh replica resp receivedAt)

end Balancer

end Prequal
