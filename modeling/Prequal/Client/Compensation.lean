import Prequal.Client.Ledger
import Mathlib.Algebra.Order.BigOperators.Group.List
import Mathlib.Data.Finset.Max

/-!
# Self-compensation

The RIF of a pooled probe is what its replica reported plus the queries this
balancer has dispatched there since.  Uses are counted per copy and dispatches
per replica, so the copies of a replica cannot have been used more often in
total than the copy that has seen most dispatches.
-/

namespace Prequal

open Foundation
open scoped List

namespace Probe

def gain (p : Probe) : Nat := p.rif - p.rifAtProbe

theorem compensate_gain {r : Nat} {p : Probe} (hle : p.rifAtProbe ≤ p.rif)
    (hfits : p.replica = r → p.rif + 1 < 2 ^ 32) :
    (p.compensate r).gain = if p.replica = r then p.gain + 1 else p.gain := by
  rw [gain, compensate_rif hfits, compensate_rifAtProbe, gain]
  split <;> omega

end Probe

/-! ## Uses of the copies of one replica -/

def Probe.Behind (p q : Probe) : Bool :=
  q.replica = p.replica ∧ q.gain ≤ p.gain

def usesBehind (probes : List Probe) (p : Probe) : Nat :=
  ((probes.filter p.Behind).map Probe.uses).sum

/-- The dispatches seen by a probe cover the uses of the copies behind it. -/
structure UsesCovered (probes : List Probe) : Prop where
  reported : ∀ p ∈ probes, p.rifAtProbe ≤ p.rif
  covered : ∀ p ∈ probes, usesBehind probes p ≤ p.gain

theorem usesBehind_cons (q : Probe) (probes : List Probe) (p : Probe) :
    usesBehind (q :: probes) p =
      (if p.Behind q then q.uses else 0) + usesBehind probes p := by
  unfold usesBehind
  rw [List.filter_cons]
  split <;> simp

theorem usesBehind_congr {p p' : Probe} (probes : List Probe)
    (hreplica : p'.replica = p.replica) (hgain : p'.gain = p.gain) :
    usesBehind probes p' = usesBehind probes p := by
  unfold usesBehind Probe.Behind
  rw [hreplica, hgain]

theorem usesBehind_subperm {probes probes' : List Probe}
    (h : probes' <+~ probes) (p : Probe) :
    usesBehind probes' p ≤ usesBehind probes p := by
  obtain ⟨kept, hperm, hsub⟩ := subperm_map Probe.uses (h.filter p.Behind)
  unfold usesBehind
  rw [← hperm.sum_eq]
  exact hsub.sum_le_sum fun _ _ => Nat.zero_le _

theorem UsesCovered.subperm {probes probes' : List Probe}
    (hcovered : UsesCovered probes) (h : probes' <+~ probes) :
    UsesCovered probes' where
  reported := fun p hp => hcovered.reported p (h.subset hp)
  covered := fun p hp =>
    (usesBehind_subperm h p).trans (hcovered.covered p (h.subset hp))

theorem UsesCovered.insert {probes : List Probe} {x : Probe}
    (hcovered : UsesCovered probes) (hrif : x.rif = x.rifAtProbe)
    (huses : x.uses = 0) : UsesCovered (x :: probes) := by
  have hgain : x.gain = 0 := by rw [Probe.gain, hrif, Nat.sub_self]
  constructor
  · intro p hp
    rcases List.mem_cons.mp hp with rfl | hp
    · exact hrif.ge
    · exact hcovered.reported p hp
  · intro p hp
    have hnew : usesBehind (x :: probes) p = usesBehind probes p := by
      rw [usesBehind_cons, huses, ite_self, Nat.zero_add]
    rw [hnew]
    rcases List.mem_cons.mp hp with rfl | hp
    · rw [hgain, Nat.le_zero, usesBehind, List.sum_eq_zero_iff]
      intro u hu
      obtain ⟨q, hq, rfl⟩ := List.mem_map.mp hu
      obtain ⟨hmem, hbehind⟩ := List.mem_filter.mp hq
      have hzero : q.gain = 0 := by
        have hle : q.replica = p.replica ∧ q.gain ≤ p.gain := by
          simpa [Probe.Behind] using hbehind
        omega
      have hself : q.uses ≤ usesBehind probes q := by
        apply List.single_le_sum (fun _ _ => Nat.zero_le _)
        exact List.mem_map_of_mem (List.mem_filter.mpr
          ⟨hmem, by simp [Probe.Behind]⟩)
      have := hcovered.covered q hmem
      omega
    · exact hcovered.covered p hp

theorem behind_compensate {r : Nat} {p q : Probe}
    (hp : p.rifAtProbe ≤ p.rif) (hq : q.rifAtProbe ≤ q.rif)
    (hfitsp : p.replica = r → p.rif + 1 < 2 ^ 32)
    (hfitsq : q.replica = r → q.rif + 1 < 2 ^ 32) :
    (p.compensate r).Behind (q.compensate r) = p.Behind q := by
  unfold Probe.Behind
  rw [Probe.compensate_replica, Probe.compensate_replica,
    Probe.compensate_gain hp hfitsp, Probe.compensate_gain hq hfitsq,
    decide_eq_decide]
  by_cases heq : q.replica = p.replica
  · rw [heq]
    split <;> omega
  · simp [heq]

theorem usesBehind_compensate {r : Nat} {probes : List Probe} {p : Probe}
    (hreported : ∀ q ∈ probes, q.rifAtProbe ≤ q.rif)
    (hfits : ∀ q ∈ probes, q.replica = r → q.rif + 1 < 2 ^ 32)
    (hp : p.rifAtProbe ≤ p.rif)
    (hfitsp : p.replica = r → p.rif + 1 < 2 ^ 32) :
    usesBehind (probes.map (Probe.compensate r)) (p.compensate r) =
      usesBehind probes p := by
  unfold usesBehind
  rw [List.filter_map, List.map_map]
  have hfilter : probes.filter
        ((p.compensate r).Behind ∘ Probe.compensate r) =
      probes.filter p.Behind :=
    List.filter_congr fun q hq =>
      behind_compensate hp (hreported q hq) hfitsp (hfits q hq)
  have huses : Probe.uses ∘ Probe.compensate r = Probe.uses :=
    funext fun q => Probe.compensate_uses r q
  rw [hfilter, huses]

theorem behind_replica {p q : Probe} (h : p.Behind q = true) :
    q.replica = p.replica := by
  have hboth : q.replica = p.replica ∧ q.gain ≤ p.gain := by
    simpa [Probe.Behind] using h
  exact hboth.1

section Charge

variable {c : Probe} {rest : List Probe}

private theorem usesBehind_charge (hold : UsesCovered (c :: rest))
    (hfits : ∀ p ∈ c :: rest, p.replica = c.replica → p.rif + 1 < 2 ^ 32)
    {p : Probe} (hp : p ∈ c :: rest) :
    usesBehind (c.use.compensate c.replica ::
        rest.map (Probe.compensate c.replica)) (p.compensate c.replica) ≤
      (p.compensate c.replica).gain := by
  have hreported := hold.reported p hp
  have hrest := usesBehind_compensate
    (fun q hq => hold.reported q (List.mem_cons_of_mem _ hq))
    (fun q hq => hfits q (List.mem_cons_of_mem _ hq)) hreported (hfits p hp)
  have hbehind : (p.compensate c.replica).Behind
      (c.use.compensate c.replica) = p.Behind c :=
    behind_compensate hreported (hold.reported c List.mem_cons_self)
      (hfits p hp) (hfits c List.mem_cons_self)
  have huse : c.use.uses ≤ c.uses + 1 := wrapU32_le _
  have hbefore := hold.covered p hp
  rw [usesBehind_cons] at hbefore
  rw [usesBehind_cons, hrest, hbehind, Probe.compensate_uses,
    Probe.compensate_gain hreported (hfits p hp)]
  by_cases hmem : p.Behind c = true
  · rw [if_pos hmem] at hbefore
    rw [if_pos hmem, if_pos (behind_replica hmem).symm]
    omega
  · rw [if_neg hmem] at hbefore
    rw [if_neg hmem]
    split <;> omega

private theorem UsesCovered.charge (hold : UsesCovered (c :: rest))
    (hfits : ∀ p ∈ c :: rest, p.replica = c.replica → p.rif + 1 < 2 ^ 32) :
    UsesCovered (c.use.compensate c.replica ::
      rest.map (Probe.compensate c.replica)) := by
  have hreported : ∀ p ∈ c :: rest,
      (p.compensate c.replica).rifAtProbe ≤ (p.compensate c.replica).rif := by
    intro p hp
    rw [Probe.compensate_rifAtProbe, Probe.compensate_rif (hfits p hp)]
    have := hold.reported p hp
    split <;> omega
  -- The use counter of the new head matters to neither side.
  have hhead : (c.use.compensate c.replica).rif =
      (c.compensate c.replica).rif := by
    simp [Probe.compensate, Probe.use]
  have hheadAtProbe : (c.use.compensate c.replica).rifAtProbe =
      (c.compensate c.replica).rifAtProbe := by
    rw [Probe.compensate_rifAtProbe, Probe.compensate_rifAtProbe]
    rfl
  have hheadGain : (c.use.compensate c.replica).gain =
      (c.compensate c.replica).gain := by
    rw [Probe.gain, hhead, hheadAtProbe, Probe.gain]
  have hheadReplica : (c.use.compensate c.replica).replica =
      (c.compensate c.replica).replica := by
    rw [Probe.compensate_replica, Probe.compensate_replica]
    rfl
  constructor
  · intro p' hp'
    rcases List.mem_cons.mp hp' with rfl | hp'
    · rw [hhead, hheadAtProbe]
      exact hreported c List.mem_cons_self
    · obtain ⟨p, hp, rfl⟩ := List.mem_map.mp hp'
      exact hreported p (List.mem_cons_of_mem _ hp)
  · intro p' hp'
    rcases List.mem_cons.mp hp' with rfl | hp'
    · rw [usesBehind_congr _ hheadReplica hheadGain, hheadGain]
      exact usesBehind_charge hold hfits List.mem_cons_self
    · obtain ⟨p, hp, rfl⟩ := List.mem_map.mp hp'
      exact usesBehind_charge hold hfits (List.mem_cons_of_mem _ hp)

end Charge

theorem UsesCovered.dispatch {probes : List Probe} {i : Nat} {c : Probe}
    (hcovered : UsesCovered probes) (hc : probes[i]? = some c)
    (hfits : ∀ p ∈ probes, p.replica = c.replica → p.rif + 1 < 2 ^ 32) :
    UsesCovered
      ((probes.modify i Probe.use).map (Probe.compensate c.replica)) := by
  have hperm : c :: probes.eraseIdx i ~ probes := cons_eraseIdx_perm hc
  have hcharged := (hcovered.subperm hperm.subperm).charge
    fun p hp => hfits p (hperm.mem_iff.mp hp)
  exact hcharged.subperm
    ((modify_perm Probe.use hc).map (Probe.compensate c.replica)).subperm

theorem UsesCovered.total {probes : List Probe} (h : UsesCovered probes)
    (r : Nat) :
    ((probes.filter fun p => p.replica = r).map Probe.uses).sum ≤
      ((probes.filter fun p => p.replica = r).map Probe.gain).foldr max 0 := by
  set copies := probes.filter fun p => p.replica = r with hcopies
  by_cases hnil : copies = []
  · simp [hnil]
  · obtain ⟨p, hp, hmax⟩ := copies.toFinset.exists_max_image Probe.gain
      (List.toFinset_nonempty_iff _ |>.mpr hnil)
    rw [List.mem_toFinset] at hp
    obtain ⟨hmem, hreplica⟩ := List.mem_filter.mp hp
    have hbehind : copies = probes.filter p.Behind := by
      refine List.filter_congr fun q hq => ?_
      rw [Probe.Behind, of_decide_eq_true hreplica, decide_eq_decide]
      refine ⟨fun hqr => ⟨hqr, hmax q ?_⟩, And.left⟩
      exact List.mem_toFinset.mpr (List.mem_filter.mpr ⟨hq, by simpa⟩)
    calc
      (copies.map Probe.uses).sum = usesBehind probes p := by
        rw [hbehind, usesBehind]
      _ ≤ p.gain := h.covered p hmem
      _ ≤ _ := List.le_max_of_le' 0 (List.mem_map_of_mem hp) le_rfl

/-! ## Runs of a balancer -/

namespace ProbePool

instance (pool : ProbePool) (c : Probe) : Decidable (pool.DispatchFits c) :=
  inferInstanceAs (Decidable (_ ∧ _))

def RoundFits (pool : ProbePool) (now : Instant) : Prop :=
  ∀ c ∈ pool.roundWinner now, (pool.expire now).DispatchFits c

instance (pool : ProbePool) (now : Instant) :
    Decidable (pool.RoundFits now) :=
  inferInstanceAs (Decidable (∀ c ∈ pool.roundWinner now, _))

end ProbePool

def PoolEvent.Fits (pool : ProbePool) : PoolEvent → Prop
  | .insert .. => True
  | .round now _ => pool.RoundFits now

/-- No increment of the run leaves a `u32`. -/
def NoOverflow (cfg : PrequalConfig) : ProbePool → List PoolEvent → Prop
  | _, [] => True
  | pool, e :: events => e.Fits pool ∧ NoOverflow cfg (e.apply cfg pool) events

instance (pool : ProbePool) : (e : PoolEvent) → Decidable (e.Fits pool)
  | .insert .. => .isTrue trivial
  | .round now _ => inferInstanceAs (Decidable (pool.RoundFits now))

instance NoOverflow.decide (cfg : PrequalConfig) : (pool : ProbePool) →
    (events : List PoolEvent) → Decidable (NoOverflow cfg pool events)
  | _, [] => .isTrue trivial
  | pool, e :: events =>
      have := NoOverflow.decide cfg (e.apply cfg pool) events
      inferInstanceAs (Decidable (e.Fits pool ∧ NoOverflow cfg _ events))

theorem noOverflow_concat {cfg : PrequalConfig} {pool : ProbePool}
    {past : List PoolEvent} {e : PoolEvent} :
    NoOverflow cfg pool (past ++ [e]) ↔ NoOverflow cfg pool past ∧
      e.Fits (past.foldl (PoolEvent.apply cfg) pool) := by
  induction past generalizing pool with
  | nil => simp [NoOverflow]
  | cons e' past ih => simp [NoOverflow, ih, and_assoc]

namespace Ledger

def dispatchesSince (l : Ledger) (id r : Nat) : Nat :=
  (l.log.drop (id + 1)).countP fun record => record.dispatched = some r

structure Compensated (l : Ledger) : Prop where
  exact : ∀ e ∈ l.entries,
    e.2.rif = e.2.rifAtProbe + l.dispatchesSince e.1 e.2.replica
  uses : UsesCovered l.pool.probes

theorem dispatchesSince_step {l : Ledger} {id r : Nat}
    (cfg : PrequalConfig) (e : PoolEvent) (hid : id < l.log.length) :
    (l.step cfg e).dispatchesSince id r =
      l.dispatchesSince id r +
        if (l.record cfg e).dispatched = some r then 1 else 0 := by
  rw [dispatchesSince, step, List.drop_append_of_le_length hid,
    List.countP_append, List.countP_singleton, dispatchesSince]
  simp

theorem dispatchesSince_last {l : Ledger} {r : Nat} (cfg : PrequalConfig)
    (e : PoolEvent) : (l.step cfg e).dispatchesSince l.log.length r = 0 := by
  simp [dispatchesSince, step]

theorem Compensated.step_insert {l : Ledger} (h : l.Compensated)
    (cfg : PrequalConfig) (replica : Nat) (resp : ProbeResponse)
    (receivedAt : Instant) :
    (l.step cfg (.insert replica resp receivedAt)).Compensated := by
  constructor
  · intro e he
    rw [step_insert_entries, List.mem_append, List.mem_singleton] at he
    rcases he with hold | rfl
    · have hmem := (swapRemoveAt_subperm _ _).subset hold
      rw [h.exact e hmem, dispatchesSince_step _ _ (mem_entries_born hmem)]
      simp [record, PoolEvent.dispatched]
    · rw [dispatchesSince_last]
      rfl
  · rw [step_pool, PoolEvent.apply, Balancer.insertResponse,
      ProbePool.exec_insert]
    have hkept := h.uses.subperm (swapRemoveAt_subperm _ l.pool.evictIdx)
    exact (hkept.insert (x := Probe.fresh replica resp receivedAt) rfl
      rfl).subperm (List.perm_append_singleton _ _).subperm

theorem Charged.rif {live charged : List (Nat × Probe)} {i r : Nat}
    (h : Charged live charged i r)
    (hfits : ∀ p ∈ live.map Prod.snd, p.replica = r → p.rif + 1 < 2 ^ 32)
    {e : Nat × Probe} (he : e ∈ charged) :
    ∃ p, (e.1, p) ∈ live ∧ e.2.replica = p.replica ∧
      e.2.rifAtProbe = p.rifAtProbe ∧
      e.2.rif = if p.replica = r then p.rif + 1 else p.rif := by
  obtain ⟨j, p, hget, hp⟩ := h.mem he
  have hmem : (e.1, p) ∈ live := List.mem_of_getElem? hget
  have hfitsp := hfits p (List.mem_map_of_mem hmem)
  refine ⟨p, hmem, ?_, ?_, ?_⟩
  · rw [hp, Probe.compensate_replica]
    split <;> rfl
  · rw [hp, Probe.compensate_rifAtProbe]
    split <;> rfl
  · rw [hp, Probe.compensate_rif]
    · split <;> rfl
    · split <;> exact hfitsp

theorem Compensated.step_round {l : Ledger} {cfg : PrequalConfig}
    (h : l.Compensated) (hone : cfg.rRemove = 1) (now : Instant)
    (random : Nat) (hfits : l.pool.RoundFits now) :
    (l.step cfg (.round now random)).Compensated := by
  have hlive : ∀ e ∈ l.live now, e ∈ l.entries :=
    fun e he => (List.mem_filter.mp he).1
  have hpool := (l.step cfg (.round now random)).entries_map_snd
  have huses : UsesCovered ((l.live now).map Prod.snd) := by
    apply h.uses.subperm
    rw [live_map_snd]
    exact List.filter_sublist.subperm
  cases l.round_outcome cfg now random with
  | fallback hfew hrecord hentries hlength =>
      -- The removal of the round leaves nothing that missed the dispatch.
      have hnil : (l.step cfg (.round now random)).entries = [] := by
        apply List.eq_nil_of_length_eq_zero
        omega
      constructor
      · simp [hnil]
      · rw [← hpool, hnil]
        exact ⟨nofun, nofun⟩
  | unwound hrecord hentries =>
      constructor
      · intro e he
        rw [hentries] at he
        have hmem := hlive e he
        rw [h.exact e hmem, dispatchesSince_step _ _ (mem_entries_born hmem),
          hrecord]
        simp
      · rwa [← hpool, hentries]
  | selected i id c charged hidx hget hrecord hcharged hentries =>
      have hc : (l.pool.expire now).probes[i]? = some c := by
        rw [← live_map_snd, List.getElem?_map, hget]
        rfl
      have hwinner : c ∈ l.pool.roundWinner now := by
        rw [ProbePool.roundWinner, hidx]
        exact hc
      have hdispatch := (hfits c hwinner).2
      rw [← live_map_snd] at hc
      simp only [← live_map_snd] at hdispatch
      constructor
      · intro e he
        obtain ⟨p, hp, hreplica, hreport, hrif⟩ :=
          hcharged.rif hdispatch (hentries.subset he)
        have hmem := hlive _ hp
        have hcount := h.exact _ hmem
        rw [dispatchesSince_step _ _ (mem_entries_born hmem), hrecord, hrif,
          hreport, hreplica, hcount]
        simp only [Option.some.injEq, eq_comm (a := p.replica)]
        split <;> omega
      · rw [← hpool]
        apply UsesCovered.subperm _ (subperm_map Prod.snd hentries)
        rw [hcharged.map_snd]
        exact huses.dispatch hc hdispatch

theorem Compensated.step {l : Ledger} {cfg : PrequalConfig}
    (h : l.Compensated) (hone : cfg.rRemove = 1) (e : PoolEvent)
    (hfits : e.Fits l.pool) : (l.step cfg e).Compensated := by
  cases e with
  | insert replica resp receivedAt => exact h.step_insert cfg _ _ _
  | round now random => exact h.step_round hone now random hfits

theorem run_compensated {cfg : PrequalConfig} {n : Nat}
    {events : List PoolEvent} (hone : cfg.rRemove = 1)
    (hfits : NoOverflow cfg (cfg.newPool n) events) :
    (run cfg n events).Compensated := by
  induction events using List.reverseRecOn with
  | nil => exact ⟨nofun, nofun, nofun⟩
  | append_singleton past e ih =>
      obtain ⟨hpast, hlast⟩ := noOverflow_concat.mp hfits
      rw [← run_pool] at hlast
      rw [run, List.foldl_append]
      exact (ih hpast).step hone e hlast

/--
Self-compensation over whole runs: the pool is a sub-collection of the
insertions, a pooled probe has been charged with exactly the queries dispatched
to its replica since its insertion, whichever branch dispatched them, and the
uses of the copies of a replica stay within the charges of one of them.
-/
theorem compensation_exact (args : ClientArgs) (events : List PoolEvent)
    (hfits : NoOverflow args.config (args.config.newPool args.servers.length)
      events) :
    let l := run args.config args.servers.length events
    l.pool = events.foldl (PoolEvent.apply args.config)
        (args.config.newPool args.servers.length) ∧
      l.log.map Record.event = events ∧
      l.entries.map Prod.snd = l.pool.probes ∧
      (l.entries.map Prod.fst).Nodup ∧
      (∀ id p, (id, p) ∈ l.entries → ∃ resp receivedAt,
        events[id]? = some (.insert p.replica resp receivedAt) ∧
          p.origin = (Probe.fresh p.replica resp receivedAt).origin) ∧
      (∀ id p, (id, p) ∈ l.entries →
        p.rif = p.rifAtProbe + l.dispatchesSince id p.replica) ∧
      ∀ r, ((l.pool.probes.filter fun p => p.replica = r).map
          Probe.uses).sum ≤
        ((l.pool.probes.filter fun p => p.replica = r).map fun p =>
          p.rif - p.rifAtProbe).foldr max 0 := by
  intro l
  have hcompensated : l.Compensated :=
    run_compensated args.config_rRemove hfits
  have hlog : l.log.map Record.event = events := run_log _ _ _
  refine ⟨run_pool _ _ _, hlog, l.entries_map_snd, ?_, ?_, ?_, ?_⟩
  · rw [TaggedPool.entries_map_fst]
    exact l.distinct
  · intro id p hp
    have hsourced := run_sourced args.config args.servers.length events _ hp
    rwa [hlog] at hsourced
  · intro id p hp
    exact hcompensated.exact _ hp
  · exact hcompensated.uses.total

def fallbackThenSelections : List PoolEvent :=
  [.insert 0 ⟨3, 1000, 0⟩ 1, .round 2 1, .insert 0 ⟨1, 1000, 0⟩ 3,
   .insert 0 ⟨2, 1500, 0⟩ 4, .insert 1 ⟨7, 4000, 0⟩ 5,
   .insert 1 ⟨8, 4000, 0⟩ 6, .round 7 0, .round 8 0]

def twoServers : ClientArgs where
  servers := ["http://r1:8000", "http://r2:8000"]
  rProbe := 3
  poolCapacity := 4
  probeTtlMs := 1000
  qRif := defaultQRif

theorem fallbackThenSelections_compensation :
    4 = 2 + (run twoServers.config 2 fallbackThenSelections).dispatchesSince
      3 0 :=
  (compensation_exact twoServers fallbackThenSelections
    (by decide +kernel)).2.2.2.2.2.1 3 ⟨0, 4, 2, 1500, 4, 0⟩
      (by decide +kernel)

end Ledger

end Prequal
