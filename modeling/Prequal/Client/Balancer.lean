import Prequal.Client.LockStep
import Prequal.Client.Safety
import Prequal.Client.Wrr
import Prequal.Foundation.Rotation

/-!
# Balancers of every policy

A balancer holds one policy, chosen by name.  Three of the policies pick a
replica without asking anybody; power of two compares two synchronous probes
and the Prequal policy runs its rounds on a pool.
-/

namespace Prequal

open Foundation

inductive Policy where
  | random
  -- The counter is the next index, before reduction.
  | roundRobin (counter : Nat)
  | po2
  | wrr (weights : Wrr)
  | prequal (pool : ProbePool) (cfg : PrequalConfig)
  deriving DecidableEq, Repr

/-- One balancer; `events` is a history variable, empty without a pool. -/
structure Balancer where
  policy : Policy
  events : List PoolEvent
  deriving DecidableEq, Repr

namespace Balancer

/-- `Balancer::new` for `n` replica URLs; it panics on an unknown name. -/
def new (policyName : String) (n : Nat) (cfg : PrequalConfig) :
    Except String Balancer :=
  match policyName with
  | "random" => .ok ⟨.random, []⟩
  | "round-robin" => .ok ⟨.roundRobin 0, []⟩
  | "po2" => .ok ⟨.po2, []⟩
  | "wrr" => .ok ⟨.wrr (Wrr.new n), []⟩
  | "prequal" => .ok ⟨.prequal (cfg.newPool n) cfg, []⟩
  | other => .error ("unknown policy: " ++ other)

def enter (b : Balancer) (e : PoolEvent) (pool : ProbePool)
    (cfg : PrequalConfig) : Balancer :=
  ⟨.prequal pool cfg, b.events ++ [e]⟩

end Balancer

/-! ## Arguments of a run -/

structure RunArgs extends ClientArgs where
  policy : String
  balancers : Nat
  deriving DecidableEq, Repr

namespace RunArgs

abbrev n (args : RunArgs) : Nat := args.servers.length

def startBalancers (args : RunArgs) : Except String (List Balancer) := do
  if args.n < 2 then
    throw "need at least 2 replica URLs (--servers)"
  let balancer ← Balancer.new args.policy args.n args.config
  return List.replicate (max args.balancers 1) balancer

theorem startBalancers_ok {args : RunArgs} {balancers : List Balancer}
    (h : args.startBalancers = .ok balancers) :
    2 ≤ args.n ∧ ∃ b, Balancer.new args.policy args.n args.config = .ok b ∧
      balancers = List.replicate (max args.balancers 1) b := by
  rw [startBalancers] at h
  by_cases hfew : args.n < 2
  · rw [if_pos hfew] at h
    cases h
  · rw [if_neg hfew] at h
    cases hnew : Balancer.new args.policy args.n args.config with
    | error e =>
        rw [hnew] at h
        cases h
    | ok b =>
        rw [hnew] at h
        exact ⟨not_lt.mp hfew, b, rfl, (Except.ok.inj h).symm⟩

end RunArgs

/-! ## What a balancer keeps -/

/-- The state of the policy is the one its history leads to. -/
def Balancer.Valid (args : RunArgs) (b : Balancer) : Prop :=
  match b.policy with
  | .random | .roundRobin _ | .po2 => b.events = []
  | .wrr weights => weights.Valid args.n ∧ b.events = []
  | .prequal pool cfg =>
      cfg = args.config ∧ pool = args.config.poolAfter args.n b.events

namespace Balancer

variable {args : RunArgs} {b : Balancer} {pool : ProbePool}
  {cfg : PrequalConfig}

theorem new_valid {policyName : String} (hn : 1 ≤ args.n)
    (h : new policyName args.n args.config = .ok b) : b.Valid args := by
  unfold new at h
  split at h
  · cases h
    rfl
  · cases h
    rfl
  · cases h
    rfl
  · cases h
    exact ⟨Wrr.new_valid hn, rfl⟩
  · cases h
    exact ⟨rfl, rfl⟩
  · cases h

theorem new_events {policyName : String}
    (h : new policyName args.n args.config = .ok b) : b.events = [] := by
  unfold new at h
  split at h <;> cases h <;> rfl

theorem Valid.cfg_eq (h : b.Valid args) (hpolicy : b.policy = .prequal pool cfg) :
    cfg = args.config := by
  rw [Valid, hpolicy] at h
  exact h.1

theorem Valid.pool_eq (h : b.Valid args)
    (hpolicy : b.policy = .prequal pool cfg) :
    pool = args.config.poolAfter args.n b.events := by
  rw [Valid, hpolicy] at h
  exact h.2

theorem Valid.enter (h : b.Valid args)
    (hpolicy : b.policy = .prequal pool cfg) {e : PoolEvent}
    {pool' : ProbePool} (hpool : pool' = e.apply cfg pool) :
    (b.enter e pool' cfg).Valid args := by
  refine ⟨h.cfg_eq hpolicy, ?_⟩
  rw [hpool, h.pool_eq hpolicy, h.cfg_eq hpolicy]
  exact (PrequalConfig.poolAfter_concat _ _ _ _).symm

theorem Valid.refresh (h : b.Valid args) {weights weights' : Wrr}
    (hpolicy : b.policy = .wrr weights) {fetched : Option ProbeResponse}
    (hrefresh : weights.refresh args.n fetched = .ok weights') :
    ({ b with policy := .wrr weights' } : Balancer).Valid args := by
  rw [Valid, hpolicy] at h
  obtain ⟨hweights, hevents⟩ := h
  obtain ⟨next, hnext, hvalid⟩ := hweights.refresh fetched
  rw [hrefresh, Except.ok.injEq] at hnext
  exact ⟨hnext ▸ hvalid, hevents⟩

end Balancer

/-! ## The pool of a balancer -/

section Pool

variable {cfg : PrequalConfig} {n : Nat} {events : List PoolEvent}

theorem poolAfter_eq_run (cfg : PrequalConfig) (n : Nat)
    (events : List PoolEvent) : ∃ ops : List PoolOp,
      cfg.poolAfter n events = (cfg.newPool n).run ops ∧
        ops.flatMap PoolOp.inserted = events.flatMap PoolEvent.inserted := by
  refine foldl_history (PoolEvent.apply cfg) (fun past pool =>
    ∃ ops : List PoolOp, pool = (cfg.newPool n).run ops ∧
      ops.flatMap PoolOp.inserted = past.flatMap PoolEvent.inserted)
    (cfg.newPool n) ⟨[], rfl, rfl⟩ ?_ events
  rintro past e pool ⟨ops, rfl, hinserted⟩
  refine ⟨ops ++ e.ops cfg ((cfg.newPool n).run ops), ?_, ?_⟩
  · rw [← PoolEvent.run_ops]
    exact List.foldl_append.symm
  · rw [List.flatMap_append, List.flatMap_append, hinserted,
      PoolEvent.ops_inserted, List.flatMap_singleton]

def EventsBelow (n : Nat) (events : List PoolEvent) : Prop :=
  ∀ p ∈ events.flatMap PoolEvent.inserted, p.replica < n

theorem EventsBelow.concat (h : EventsBelow n events) {e : PoolEvent}
    (he : ∀ p ∈ e.inserted, p.replica < n) :
    EventsBelow n (events ++ [e]) := by
  intro p hp
  rw [List.flatMap_append, List.flatMap_singleton, List.mem_append] at hp
  exact hp.elim (h p) (he p)

theorem EventsBelow.replica_lt (h : EventsBelow n events) {p : Probe}
    (hp : p ∈ (cfg.poolAfter n events).probes) : p.replica < n := by
  obtain ⟨ops, hrun, hinserted⟩ := poolAfter_eq_run cfg n events
  rw [hrun] at hp
  refine ProbePool.run_new_replica_lt ?_ p hp
  intro p' hp'
  exact h p' (hinserted ▸ hp')

theorem EventsBelow.select_lt (h : EventsBelow n events) {now : Instant}
    {random r : Nat} {pool' : ProbePool} (hrandom : random < n)
    (hexec : (cfg.poolAfter n events).exec
      (Balancer.select cfg now random) = (.ok r, pool')) : r < n := by
  rw [ProbePool.exec_select, Prod.mk.injEq] at hexec
  obtain ⟨hchoice, -⟩ := hexec
  rcases (cfg.poolAfter n events).roundChoice_cases now with
    ⟨-, -, hround⟩ | ⟨e, -, -, -, hround⟩ | ⟨i, c, -, -, hget, -, hround⟩
  · rw [hround] at hchoice
    exact Except.ok.inj hchoice ▸ hrandom
  · rw [hround] at hchoice
    cases hchoice
  · rw [hround] at hchoice
    have hmem := List.mem_of_getElem? hget
    rw [← Except.ok.inj hchoice]
    exact h.replica_lt (List.mem_filter.mp hmem).1

theorem PrequalConfig.select_ok (hq : cfg.qRif ≤ 1) {now : Instant}
    {random : Nat} {e : Panic} {pool' : ProbePool} :
    (cfg.poolAfter n events).exec (Balancer.select cfg now random) ≠
      (.error e, pool') := by
  intro hexec
  have hlimit : ((cfg.poolAfter n events).expire now).qRif ≤ 1 :=
    (cfg.poolAfter_limits n events).2.2.2.trans_le hq
  obtain ⟨o, ho⟩ := ProbePool.hotThreshold_ok_of_le hlimit
  rw [ProbePool.exec_select, Prod.mk.injEq] at hexec
  obtain ⟨hchoice, -⟩ := hexec
  rcases (cfg.poolAfter n events).roundChoice_cases now with
    ⟨-, -, hround⟩ | ⟨e', -, hidx, -, hround⟩ | ⟨i, c, -, -, -, -, hround⟩
  · rw [hround] at hchoice
    cases hchoice
  · rw [ProbePool.hclIdx_eq, ho] at hidx
    cases o <;> cases hidx
  · rw [hround] at hchoice
    cases hchoice

end Pool

/-! ## Selections without probes -/

/--
A selection that needs no probe.  Random policies return the outcome of their
draw; `fetch_add` returns the counter it increments.
-/
inductive Policy.Picks (n : Nat) : Policy → Nat → Policy → Prop where
  | random (r : Nat) (hr : r < n) : Picks n .random r .random
  | roundRobin (counter : Nat) :
      Picks n (.roundRobin counter) (counter % n)
        (.roundRobin (wrapU64 (counter + 1)))
  | wrr (weights : Wrr) (draw : Rat)
      (hdraw : 0 ≤ draw ∧ draw < weights.weights.sum) :
      Picks n (.wrr weights) (Wrr.select n weights.weights draw) (.wrr weights)

namespace Policy.Picks

variable {n r : Nat} {policy policy' : Policy}

theorem valid {args : RunArgs} {b : Balancer}
    (hpick : Picks args.n b.policy r policy') (h : b.Valid args) :
    ({ b with policy := policy' } : Balancer).Valid args := by
  unfold Balancer.Valid at h ⊢
  cases b
  dsimp only at hpick
  cases hpick with
  | random hr => exact h
  | roundRobin counter => exact h
  | wrr weights draw hdraw => exact h

theorem lt {args : RunArgs} {b : Balancer} (hn : 0 < args.n)
    (hpick : Picks args.n b.policy r policy') (h : b.Valid args) :
    r < args.n := by
  unfold Balancer.Valid at h
  cases b
  dsimp only at hpick
  cases hpick with
  | random _ hr => exact hr
  | roundRobin counter => exact Nat.mod_lt _ hn
  | wrr weights draw hdraw =>
      have hvalid : weights.Valid args.n := h.1
      have hne : weights.weights ≠ [] := by
        intro hnil
        have := hvalid.length
        simp [hnil] at this
        omega
      obtain ⟨i, hi, hwalk, -⟩ := Wrr.exists_hit hvalid.pos hne hdraw
      rw [Wrr.select, hwalk]
      exact hi.trans_eq hvalid.length

end Policy.Picks

/-! ## Power of two choices -/

namespace Po2

/-- The two replicas compared, from draws below `n` and below `n - 1`. -/
def pair (x y : Nat) : Nat × Nat := (x, if y ≥ x then y + 1 else y)

/-- The choice between `a` and `b`; a lost probe counts as no answer. -/
def choose (a b : Nat) (pa pb : Option ProbeResponse) : Nat :=
  match pa, pb with
  | some pa, some pb => if pa.rif ≤ pb.rif then a else b
  | some _, none => a
  | none, some _ => b
  | none, none => a

theorem pair_bijOn (n : Nat) :
    Set.BijOn (fun d : Nat × Nat => pair d.1 d.2)
      {d | d.1 < n ∧ d.2 < n - 1} {p | p.1 < n ∧ p.2 < n ∧ p.1 ≠ p.2} := by
  refine ⟨?_, ?_, ?_⟩
  · rintro ⟨x, y⟩ ⟨hx, hy⟩
    simp only [pair, Set.mem_ofPred_eq] at hx hy ⊢
    split <;> omega
  · rintro ⟨x, y⟩ - ⟨x', y'⟩ - heq
    simp only [pair, Prod.mk.injEq] at heq ⊢
    obtain ⟨rfl, heq⟩ := heq
    refine ⟨rfl, ?_⟩
    split at heq <;> split at heq <;> omega
  · rintro ⟨a, b⟩ ⟨ha, hb, hne⟩
    dsimp only at ha hb hne
    by_cases hlt : b < a
    · refine ⟨(a, b), ⟨ha, by omega⟩, ?_⟩
      simp only [pair, if_neg (not_le.mpr hlt)]
    · refine ⟨(a, b - 1), ⟨ha, by omega⟩, ?_⟩
      have hge : b - 1 ≥ a := by omega
      simp only [pair, if_pos hge, Prod.mk.injEq, true_and]
      omega

theorem choose_mem (a b : Nat) (pa pb : Option ProbeResponse) :
    choose a b pa pb = a ∨ choose a b pa pb = b := by
  unfold choose
  split
  · split
    · exact .inl rfl
    · exact .inr rfl
  · exact .inl rfl
  · exact .inr rfl
  · exact .inl rfl

end Po2

end Prequal
