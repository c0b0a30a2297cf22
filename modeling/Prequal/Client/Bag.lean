import Prequal.Client.Removal
import Prequal.Client.Eviction
import Prequal.Foundation.Simulation

/-!
# The pool as a multiset

A probe pool is meant to be an unordered collection.  The abstract pool below
is one: its operations say which probe may be taken and nothing about where it
lies.  Every operation of the vector is one of its steps, and the step is the
only one when a single probe attains the extremum that decides it.  So the
order that `swap_remove` leaves behind is not observable.
-/

namespace Prequal

open Foundation
open scoped List

structure BagPool where
  probes : Multiset Probe
  capacity : Nat
  ttl : Duration
  reuseBudget : Nat
  qRif : Rat
  removeOldestNext : Bool

namespace BagPool

def latest (b : BagPool) : Multiset Probe :=
  b.probes.filter fun p =>
    ∀ q ∈ b.probes, q.replica = p.replica → q.receivedAt ≤ p.receivedAt

def threshold (b : BagPool) : Option Nat :=
  ((b.latest.map Probe.rif).sort (· ≤ ·))[
    ⌊b.qRif * ((b.latest.card - 1 : Nat) : Rat)⌋.toNat]?

def alive (b : BagPool) (now : Instant) (p : Probe) : Prop :=
  durationSince now p.receivedAt < b.ttl ∧ p.uses < b.reuseBudget

instance (b : BagPool) (now : Instant) : DecidablePred (b.alive now) :=
  fun _ => inferInstanceAs (Decidable (_ ∧ _))

def cold (b : BagPool) (t : Nat) : Multiset Probe :=
  b.probes.filter fun p => decide (p.rif ≤ t) = true

def hot (b : BagPool) (t : Nat) : Prop := ∃ p ∈ b.probes, t < p.rif

/-- What one operation may return and leave behind. -/
inductive Step : BagPool → PoolOp → Option Nat → BagPool → Prop
  | insertRoom {b : BagPool} (probe : Probe)
      (hroom : b.probes.card < b.capacity ∨ b.probes = 0) :
      Step b (.insert probe) none { b with probes := probe ::ₘ b.probes }
  | insertFull {b : BagPool} (probe p : Probe)
      (hfull : b.capacity ≤ b.probes.card)
      (hold : LeastIn Probe.receivedAt b.probes p) :
      Step b (.insert probe) none
        { b with probes := probe ::ₘ b.probes.erase p }
  | expire {b : BagPool} (now : Instant) :
      Step b (.expire now) none
        { b with probes := b.probes.filter (b.alive now) }
  | selectNone {b : BagPool} (hnone : b.probes = 0) :
      Step b .hclSelect none b
  | select {b : BagPool} (t : Nat) (c : Probe) (ht : b.threshold = some t)
      (hc : LeastIn Probe.adjustedLatency (b.cold t) c) :
      Step b .hclSelect (some c.replica) { b with
        probes := (c.use ::ₘ b.probes.erase c).map
          (Probe.compensate c.replica) }
  | removeNone {b : BagPool} (hnone : b.probes = 0) :
      Step b .removeOne none b
  | removeOldest {b : BagPool} (p : Probe)
      (hturn : b.removeOldestNext = false)
      (hold : LeastIn Probe.receivedAt b.probes p) :
      Step b .removeOne none
        { b with probes := b.probes.erase p, removeOldestNext := true }
  | removeHottest {b : BagPool} (t : Nat) (p : Probe)
      (hturn : b.removeOldestNext = true) (ht : b.threshold = some t)
      (hhot : b.hot t) (hmax : GreatestIn Probe.rif b.probes p) :
      Step b .removeOne none
        { b with probes := b.probes.erase p, removeOldestNext := false }
  | removeSlowest {b : BagPool} (t : Nat) (p : Probe)
      (hturn : b.removeOldestNext = true) (ht : b.threshold = some t)
      (hcold : ¬ b.hot t)
      (hmax : GreatestIn Probe.adjustedLatency b.probes p) :
      Step b .removeOne none
        { b with probes := b.probes.erase p, removeOldestNext := false }

/-- Only one probe attains the extremum that decides the operation. -/
def Decided (b : BagPool) : PoolOp → Prop
  | .insert _ => b.capacity ≤ b.probes.card →
      OnlyOne (LeastIn Probe.receivedAt b.probes)
  | .expire _ => True
  | .hclSelect => ∀ t, b.threshold = some t →
      OnlyOne (LeastIn Probe.adjustedLatency (b.cold t))
  | .removeOne =>
      (b.removeOldestNext = false →
        OnlyOne (LeastIn Probe.receivedAt b.probes)) ∧
      (b.removeOldestNext = true → ∀ t, b.threshold = some t →
        (b.hot t → OnlyOne (GreatestIn Probe.rif b.probes)) ∧
        (¬ b.hot t → OnlyOne (GreatestIn Probe.adjustedLatency b.probes)))

/-! ## Determinism without ties -/

theorem Step.deterministic {b b₁ b₂ : BagPool} {op : PoolOp}
    {o₁ o₂ : Option Nat} (hdecided : b.Decided op)
    (h₁ : Step b op o₁ b₁) (h₂ : Step b op o₂ b₂) : o₁ = o₂ ∧ b₁ = b₂ := by
  cases h₁ with
  | insertRoom probe hroom =>
      cases h₂ with
      | insertRoom _ _ => exact ⟨rfl, rfl⟩
      | insertFull _ p hfull hold =>
          rcases hroom with hroom | hnone
          · exact absurd hfull (not_le.mpr hroom)
          · exact absurd hnone hold.ne_zero
  | insertFull probe p hfull hold =>
      cases h₂ with
      | insertRoom _ hroom =>
          rcases hroom with hroom | hnone
          · exact absurd hfull (not_le.mpr hroom)
          · exact absurd hnone hold.ne_zero
      | insertFull _ p' _ hold' =>
          obtain rfl := hdecided hfull p p' hold hold'
          exact ⟨rfl, rfl⟩
  | expire now =>
      cases h₂ with
      | expire _ => exact ⟨rfl, rfl⟩
  | selectNone hnone =>
      cases h₂ with
      | selectNone _ => exact ⟨rfl, rfl⟩
      | select t c ht hc =>
          exact absurd (by rw [cold, hnone]; rfl) hc.ne_zero
  | select t c ht hc =>
      cases h₂ with
      | selectNone hnone =>
          exact absurd (by rw [cold, hnone]; rfl) hc.ne_zero
      | select t' c' ht' hc' =>
          obtain rfl : t = t' := Option.some.inj (ht.symm.trans ht')
          obtain rfl := hdecided t ht c c' hc hc'
          exact ⟨rfl, rfl⟩
  | removeNone hnone =>
      cases h₂ with
      | removeNone _ => exact ⟨rfl, rfl⟩
      | removeOldest p _ hold => exact absurd hnone hold.ne_zero
      | removeHottest t p _ _ _ hmax => exact absurd hnone hmax.ne_zero
      | removeSlowest t p _ _ _ hmax => exact absurd hnone hmax.ne_zero
  | removeOldest p hturn hold =>
      cases h₂ with
      | removeNone hnone => exact absurd hnone hold.ne_zero
      | removeOldest p' _ hold' =>
          obtain rfl := hdecided.1 hturn p p' hold hold'
          exact ⟨rfl, rfl⟩
      | removeHottest t p' hturn' _ _ _ => simp [hturn] at hturn'
      | removeSlowest t p' hturn' _ _ _ => simp [hturn] at hturn'
  | removeHottest t p hturn ht hhot hmax =>
      cases h₂ with
      | removeNone hnone => exact absurd hnone hmax.ne_zero
      | removeOldest p' hturn' _ => simp [hturn] at hturn'
      | removeHottest t' p' _ ht' _ hmax' =>
          obtain rfl := (hdecided.2 hturn t ht).1 hhot p p' hmax hmax'
          exact ⟨rfl, rfl⟩
      | removeSlowest t' p' _ ht' hcold _ =>
          obtain rfl : t = t' := Option.some.inj (ht.symm.trans ht')
          exact absurd hhot hcold
  | removeSlowest t p hturn ht hcold hmax =>
      cases h₂ with
      | removeNone hnone => exact absurd hnone hmax.ne_zero
      | removeOldest p' hturn' _ => simp [hturn] at hturn'
      | removeHottest t' p' _ ht' hhot _ =>
          obtain rfl : t = t' := Option.some.inj (ht.symm.trans ht')
          exact absurd hhot hcold
      | removeSlowest t' p' _ ht' _ hmax' =>
          obtain rfl := (hdecided.2 hturn t ht).2 hcold p p' hmax hmax'
          exact ⟨rfl, rfl⟩

end BagPool

/-! ## The vector refines the multiset -/

def PoolOp.result (pool : ProbePool) : PoolOp → Except Panic (Option Nat)
  | .insert probe =>
      (pool.exec (ProbePool.insert probe)).1.map fun _ => none
  | .expire _ => .ok none
  | .hclSelect => (pool.exec ProbePool.hclSelect).1
  | .removeOne => (pool.exec ProbePool.removeOne).1.map fun _ => none

namespace ProbePool

def bag (pool : ProbePool) : BagPool where
  probes := pool.probes
  capacity := pool.capacity
  ttl := pool.ttl
  reuseBudget := pool.reuseBudget
  qRif := pool.qRif
  removeOldestNext := pool.removeOldestNext

theorem bag_congr {pool pool' : ProbePool} (hlimits : SameLimits pool pool')
    (hflag : pool'.removeOldestNext = pool.removeOldestNext)
    (hperm : pool'.probes ~ pool.probes) : pool'.bag = pool.bag := by
  obtain ⟨hcapacity, httl, hbudget, hq⟩ := hlimits
  simp only [bag, hcapacity, httl, hbudget, hq, hflag,
    Multiset.coe_eq_coe.mpr hperm]

theorem bag_latest (pool : ProbePool) :
    pool.bag.latest = (pool.latestProbes : Multiset Probe) := by
  rw [BagPool.latest, latestProbes, latestReports]
  exact Multiset.filter_congr fun p _ => by simp [bag, IsLatest]

theorem DistinctCopies.bag_threshold {pool : ProbePool} {t : Nat}
    (hdistinct : pool.DistinctCopies)
    (ht : pool.hotThreshold = .ok (some t)) :
    pool.bag.threshold = some t := by
  have hkth := hdistinct.hotThreshold_eq_kth ht
  rw [kthSmallest_eq_sort, ← Multiset.map_coe, ← bag_latest,
    ← length_latestProbes hdistinct.nodup_latest, ← Multiset.coe_card,
    ← bag_latest] at hkth
  exact hkth

theorem bag_insert (pool : ProbePool) (probe : Probe) :
    BagPool.Step pool.bag (.insert probe) none
      ((PoolOp.insert probe).apply pool).bag := by
  have hframe : (PoolOp.insert probe).apply pool = { pool with
      probes := ((PoolOp.insert probe).apply pool).probes } := by
    rw [PoolOp.apply, exec_insert]
  by_cases hroom : pool.probes.length < pool.capacity
  · have hstep := BagPool.Step.insertRoom (b := pool.bag) probe (.inl hroom)
    rw [hframe, apply_insert_of_room probe hroom]
    convert hstep using 1
    simp only [bag, Multiset.cons_coe, BagPool.mk.injEq, and_true]
    exact Multiset.coe_eq_coe.mpr (List.perm_append_singleton _ _)
  · by_cases hne : pool.probes = []
    · have hnone : pool.bag.probes = 0 := by rw [bag, hne]; rfl
      have hstep := BagPool.Step.insertRoom probe (.inr hnone)
      convert hstep using 1
      rw [PoolOp.apply, exec_insert, evictIdx, if_pos (not_lt.mp hroom)]
      simp [bag, oldestIdx_eq_none_iff.mpr hne, hne]
    · obtain ⟨oldest, rest, hperm, hleast, hprobes⟩ :=
        apply_insert_of_full probe (not_lt.mp hroom) hne
      have hold : LeastIn Probe.receivedAt pool.bag.probes oldest :=
        ⟨hperm.subset List.mem_cons_self, hleast⟩
      have hfull : pool.bag.capacity ≤ pool.bag.probes.card :=
        not_lt.mp hroom
      have hstep := BagPool.Step.insertFull probe oldest hfull hold
      rw [hframe, hprobes]
      convert hstep using 1
      simp only [bag, ← coe_eq_erase hperm, Multiset.cons_coe,
        BagPool.mk.injEq, and_true]
      exact Multiset.coe_eq_coe.mpr (List.perm_append_singleton _ _)

theorem bag_expire (pool : ProbePool) (now : Instant) :
    BagPool.Step pool.bag (.expire now) none
      ((PoolOp.expire now).apply pool).bag := by
  have hprobes : pool.bag.probes.filter (pool.bag.alive now) =
      ((pool.expire now).probes : Multiset Probe) := by
    apply congrArg Multiset.ofList
    apply List.filter_congr
    intro p _
    simp only [alive, BagPool.alive]
    rfl
  have hstep := BagPool.Step.expire (b := pool.bag) now
  rw [hprobes] at hstep
  exact hstep

theorem bag_select {pool : ProbePool} {t : Nat}
    (hdistinct : pool.DistinctCopies)
    (ht : pool.hotThreshold = .ok (some t)) :
    ∃ r, (pool.exec hclSelect).1 = .ok (some r) ∧
      BagPool.Step pool.bag .hclSelect (some r)
        (PoolOp.hclSelect.apply pool).bag := by
  obtain ⟨i, c, hc, -⟩ := exists_isColdest ht
  have hexec := exec_hclSelect_of_isColdest ht hc
  refine ⟨c.replica, by rw [hexec], ?_⟩
  have hstep := BagPool.Step.select t c (hdistinct.bag_threshold ht)
    hc.leastIn
  rw [PoolOp.apply, hexec]
  convert hstep using 1
  have hrest := coe_eq_erase (cons_eraseIdx_perm hc.get)
  simp only [dispatchTo, bag, BagPool.mk.injEq, and_true, ← hrest,
    Multiset.cons_coe, Multiset.map_coe]
  exact Multiset.coe_eq_coe.mpr ((modify_perm _ hc.get).map _)

theorem bag_removeOne {pool : ProbePool} (hdistinct : pool.DistinctCopies)
    (hq : pool.qRif ≤ 1) (hne : pool.probes ≠ []) :
    (pool.exec removeOne).1 = .ok () ∧
      BagPool.Step pool.bag .removeOne none
        (PoolOp.removeOne.apply pool).bag := by
  obtain ⟨p, pool', hexec, hframe, hperm, hodd, heven⟩ :=
    exec_removeOne_spec hq hne
  refine ⟨by rw [hexec], ?_⟩
  have hmem : p ∈ pool.bag.probes := hperm.subset List.mem_cons_self
  have hrest := coe_eq_erase hperm
  rw [PoolOp.apply, hexec, hframe]
  cases hturn : pool.removeOldestNext with
  | false =>
      have hstep := BagPool.Step.removeOldest p hturn ⟨hmem, hodd hturn⟩
      simpa only [bag, hrest, Bool.not_false] using hstep
  | true =>
      obtain ⟨t, ht, hworst⟩ := heven hturn
      have hthreshold := hdistinct.bag_threshold ht
      rcases hot_or_cold pool t with hhot | hcold
      · have hstep := BagPool.Step.removeHottest t p hturn hthreshold hhot
          ⟨hmem, hworst.hottest hhot⟩
        simpa only [bag, hrest, Bool.not_true] using hstep
      · have hnot : ¬ pool.bag.hot t := by
          rintro ⟨q, hq, hlt⟩
          exact absurd (hcold q hq) (not_le.mpr hlt)
        have hstep := BagPool.Step.removeSlowest t p hturn hthreshold hnot
          ⟨hmem, hworst.slowest hcold⟩
        simpa only [bag, hrest, Bool.not_true] using hstep

theorem bag_step {pool : ProbePool} (hq : pool.qRif ≤ 1)
    (hdistinct : pool.DistinctCopies) (op : PoolOp) :
    ∃ out, op.result pool = .ok out ∧
      BagPool.Step pool.bag op out (op.apply pool).bag := by
  cases op with
  | insert probe =>
      refine ⟨none, ?_, bag_insert pool probe⟩
      rw [PoolOp.result, exec_insert]
      rfl
  | expire now => exact ⟨none, rfl, bag_expire pool now⟩
  | hclSelect =>
      by_cases hne : pool.probes = []
      · have hexec := exec_hclSelect_of_nil hne
        refine ⟨none, by rw [PoolOp.result, hexec], ?_⟩
        rw [PoolOp.apply, hexec]
        exact .selectNone (by rw [bag, hne]; rfl)
      · obtain ⟨t, ht⟩ := hotThreshold_isSome hq hne
        obtain ⟨r, hr, hstep⟩ := bag_select hdistinct ht
        exact ⟨some r, hr, hstep⟩
  | removeOne =>
      refine ⟨none, ?_⟩
      by_cases hne : pool.probes = []
      · rw [PoolOp.result, PoolOp.apply, exec_removeOne_nil hne]
        exact ⟨rfl, .removeNone (by rw [bag, hne]; rfl)⟩
      · obtain ⟨hok, hstep⟩ := bag_removeOne hdistinct hq hne
        rw [PoolOp.result, hok]
        exact ⟨rfl, hstep⟩

theorem run_refines_bag {capacity ttl budget : Nat} {q : Rat}
    {ops : List PoolOp} (hq : q ≤ 1) (hops : IncreasingInserts ops) :
    ∃ outs,
      outputs PoolOp.apply (fun pool op => op.result pool)
        (new capacity ttl budget q) ops = outs.map .ok ∧
      Trace BagPool.Step (new capacity ttl budget q).bag ops outs
        ((new capacity ttl budget q).run ops).bag := by
  apply Trace.of_steps
  intro past op rest heq
  apply bag_step ((run_limits (new capacity ttl budget q) past).2.2.2.trans_le
    hq)
  have hpast : IncreasingInserts past := by
    rw [heq] at hops
    exact hops.of_append
  have hnodup : (((new capacity ttl budget q).run past).probes.map
      Probe.receivedAt).Nodup := run_new_receivedAt_nodup hpast
  rw [List.Nodup, List.pairwise_map] at hnodup
  refine hnodup.imp ?_
  intro p p' hne _
  exact hne

theorem DistinctCopies.perm {pool pool' : ProbePool}
    (h : pool.DistinctCopies) (hperm : pool'.probes ~ pool.probes) :
    pool'.DistinctCopies :=
  (hperm.pairwise_iff fun hne hr heq => hne hr.symm heq.symm).mpr h

/--
The order of the vector is not observable.  Two pools that hold the same
probes in any order answer an operation alike and hold the same probes after
it, whenever a single probe attains the extremum that decides the operation;
it is then the only step that a pool kept as a plain multiset can take.
-/
theorem vector_order_unobservable (pool pool' : ProbePool) (op : PoolOp)
    (hq : pool.qRif ≤ 1) (hlimits : SameLimits pool pool')
    (hflag : pool'.removeOldestNext = pool.removeOldestNext)
    (hperm : pool'.probes ~ pool.probes) (hdistinct : pool.DistinctCopies)
    (hdecided : pool.bag.Decided op) :
    op.result pool' = op.result pool ∧
    (op.apply pool').probes ~ (op.apply pool).probes ∧
    (op.apply pool').removeOldestNext = (op.apply pool).removeOldestNext ∧
    SameLimits (op.apply pool) (op.apply pool') ∧
    ∃ out, op.result pool = .ok out ∧ ∀ out' b,
      BagPool.Step pool.bag op out' b ↔
        out' = out ∧ b = (op.apply pool).bag := by
  have hq' : pool'.qRif ≤ 1 := hlimits.2.2.2.trans_le hq
  obtain ⟨out, hout, hstep⟩ := bag_step hq hdistinct op
  obtain ⟨out', hout', hstep'⟩ := bag_step hq' (hdistinct.perm hperm) op
  rw [bag_congr hlimits hflag hperm] at hstep'
  obtain ⟨rfl, hbag⟩ := hstep'.deterministic hdecided hstep
  have hsame := hbag
  simp only [bag, BagPool.mk.injEq] at hsame
  obtain ⟨hprobes, hcapacity, httl, hbudget, hqRif, hnext⟩ := hsame
  refine ⟨hout'.trans hout.symm, Multiset.coe_eq_coe.mp hprobes, hnext,
    ⟨hcapacity, httl, hbudget, hqRif⟩, out', hout, fun o b => ?_⟩
  constructor
  · exact fun h => h.deterministic hdecided hstep
  · rintro ⟨rfl, rfl⟩
    exact hstep

theorem fourReplicasPool_order :
    let reversed :=
      { fourReplicasPool with probes := fourReplicasPool.probes.reverse }
    (PoolOp.removeOne.apply reversed).probes ~
      (PoolOp.removeOne.apply fourReplicasPool).probes := by
  have hdistinct : fourReplicasPool.DistinctCopies := by
    unfold DistinctCopies DistinctStamps
    decide
  have hdecided : fourReplicasPool.bag.Decided .removeOne :=
    ⟨fun _ => onlyOne_leastIn (by decide), nofun⟩
  exact (vector_order_unobservable fourReplicasPool
    { fourReplicasPool with probes := fourReplicasPool.probes.reverse }
    .removeOne (by decide +kernel) ⟨rfl, rfl, rfl, rfl⟩ rfl
    (List.reverse_perm _) hdistinct hdecided).2.1

end ProbePool

end Prequal
