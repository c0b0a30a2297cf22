import Prequal.Client.Ledger

/-!
# Lock-step runs

Each round is followed by the probes it fired, and the next round comes before
they age out.  The last two probes of a batch then survive insertion and
expiry, so two of them per query and room for two keep the policy supplied.
With less of either the pool never decides anything.
-/

namespace Prequal

open Foundation
open scoped List

/-! ## Histories of insertions -/

namespace PoolEvent

def inserted : PoolEvent → List Probe
  | .insert replica resp receivedAt =>
      [Probe.fresh replica resp receivedAt]
  | .round .. => []

theorem ops_inserted (cfg : PrequalConfig) (pool : ProbePool)
    (e : PoolEvent) :
    (e.ops cfg pool).flatMap PoolOp.inserted = e.inserted := by
  cases e with
  | insert replica resp receivedAt => rfl
  | round now random => exact ProbePool.roundOps_inserted cfg pool now

def times (events : List PoolEvent) : List Instant :=
  (events.flatMap inserted).map Probe.receivedAt

@[simp] theorem times_append (events more : List PoolEvent) :
    times (events ++ more) = times events ++ times more := by
  simp [times]

end PoolEvent

namespace PrequalConfig

def poolAfter (cfg : PrequalConfig) (n : Nat) (events : List PoolEvent) :
    ProbePool :=
  events.foldl (PoolEvent.apply cfg) (cfg.newPool n)

theorem poolAfter_concat (cfg : PrequalConfig) (n : Nat)
    (events : List PoolEvent) (e : PoolEvent) :
    cfg.poolAfter n (events ++ [e]) = e.apply cfg (cfg.poolAfter n events) := by
  rw [poolAfter, List.foldl_append]
  rfl

theorem poolAfter_limits (cfg : PrequalConfig) (n : Nat)
    (events : List PoolEvent) :
    ProbePool.SameLimits (cfg.newPool n) (cfg.poolAfter n events) := by
  refine foldl_history (PoolEvent.apply cfg)
    (fun _ => ProbePool.SameLimits (cfg.newPool n)) (cfg.newPool n)
    ⟨rfl, rfl, rfl, rfl⟩ ?_ events
  intro _ e s ⟨hc, ht, hb, hq⟩
  rw [← PoolEvent.run_ops]
  obtain ⟨hc', ht', hb', hq'⟩ := s.run_limits (e.ops cfg s)
  exact ⟨hc'.trans hc, ht'.trans ht, hb'.trans hb, hq'.trans hq⟩

theorem poolAfter_times (cfg : PrequalConfig) (n : Nat)
    (events : List PoolEvent) :
    (cfg.poolAfter n events).probes.map Probe.receivedAt <+~
      PoolEvent.times events := by
  refine foldl_history (PoolEvent.apply cfg) (fun past s =>
    s.probes.map Probe.receivedAt <+~ PoolEvent.times past) (cfg.newPool n)
    (List.Subperm.refl _) ?_ events
  intro past e s ih
  have hops := subperm_map Origin.receivedAt (s.run_origins (e.ops cfg s))
  rw [PoolEvent.ops_inserted, PoolEvent.run_ops, List.map_append,
    List.map_map, List.map_map, List.map_map] at hops
  rw [PoolEvent.times_append]
  refine hops.trans (ih.append ?_)
  simp [PoolEvent.times, Function.comp_def, Probe.origin, List.Subperm.refl]

theorem poolAfter_insert {cfg : PrequalConfig} {n : Nat}
    {events : List PoolEvent} {replica : Nat} {resp : ProbeResponse}
    {receivedAt : Instant}
    (h : (PoolEvent.times
      (events ++ [.insert replica resp receivedAt])).Pairwise (· < ·)) :
    let pool := cfg.poolAfter n (events ++ [.insert replica resp receivedAt])
    Probe.fresh replica resp receivedAt ∈ pool.probes ∧
      (pool.probes.map Probe.receivedAt).Nodup ∧
      ∀ q ∈ pool.probes, q.receivedAt ≤ receivedAt := by
  intro pool
  have hsub := cfg.poolAfter_times n
    (events ++ [.insert replica resp receivedAt])
  refine ⟨?_, nodup_of_subperm hsub (h.imp ne_of_lt), fun q hq => ?_⟩
  · change _ ∈ (cfg.poolAfter n _).probes
    rw [poolAfter_concat, PoolEvent.apply, Balancer.insertResponse,
      ProbePool.exec_insert]
    exact List.mem_append_right _ (List.mem_singleton_self _)
  · have hmem := hsub.subset (List.mem_map_of_mem hq)
    rw [PoolEvent.times_append, List.mem_append] at hmem
    rw [PoolEvent.times_append, List.pairwise_append] at h
    rcases hmem with hold | hnew
    · exact (h.2.2 _ hold receivedAt (List.mem_singleton_self _)).le
    · exact (List.mem_singleton.mp hnew).le

end PrequalConfig

namespace ProbePool

theorem mem_insert_of_newest {pool : ProbePool} {x y : Probe}
    (hcapacity : 2 ≤ pool.capacity) (hx : x ∈ pool.probes)
    (hnodup : (pool.probes.map Probe.receivedAt).Nodup)
    (hnewest : ∀ q ∈ pool.probes, q.receivedAt ≤ x.receivedAt) :
    x ∈ (pool.exec (insert y)).2.probes := by
  rw [exec_insert]
  apply List.mem_append_left
  unfold evictIdx
  split
  · rename_i hfull
    cases hidx : pool.oldestIdx with
    | none => exact hx
    | some i =>
        obtain ⟨p, hp, holdest⟩ := oldestIdx_eq_some hidx
        have hperm := swapRemoveAt_perm hp
        rcases List.mem_cons.mp (hperm.mem_iff.mpr hx) with rfl | hrest
        · exfalso
          -- Any other probe would share its time of receipt.
          have hlength := hperm.length_eq
          rw [List.length_cons] at hlength
          obtain ⟨q, hq⟩ := List.exists_mem_of_length_pos
            (by omega : 0 < (swapRemoveAt pool.probes (some i)).length)
          have hqmem := hperm.mem_iff.mp (List.mem_cons_of_mem _ hq)
          have hsame : x.receivedAt = q.receivedAt :=
            le_antisymm (holdest q hqmem) (hnewest q hqmem)
          have hnodup' := (hperm.map Probe.receivedAt).nodup_iff.mpr hnodup
          rw [List.map_cons, List.nodup_cons] at hnodup'
          exact hnodup'.1 (hsame ▸ List.mem_map_of_mem hq)
        · exact hrest
  · exact hx

end ProbePool

/-! ## Turns -/

structure Arrival where
  replica : Nat
  resp : ProbeResponse
  receivedAt : Instant
  deriving DecidableEq, Repr

def Arrival.event (a : Arrival) : PoolEvent :=
  .insert a.replica a.resp a.receivedAt

def Arrival.probe (a : Arrival) : Probe :=
  Probe.fresh a.replica a.resp a.receivedAt

/-- One round followed by the responses to the probes it fired. -/
structure Turn where
  now : Instant
  random : Nat
  batch : List Arrival
  deriving DecidableEq, Repr

def Turn.events (t : Turn) : List PoolEvent :=
  .round t.now t.random :: t.batch.map Arrival.event

/-- Every round gets the answers to all its probes before the next one. -/
structure LockStep (cfg : PrequalConfig) (n : Nat) (turns : List Turn) :
    Prop where
  complete : ∀ t ∈ turns, t.batch.length = cfg.probeCount n
  increasing : (PoolEvent.times (turns.flatMap Turn.events)).Pairwise (· < ·)
  prompt : turns.IsChain fun t t' => ∀ a ∈ t.batch,
    durationSince t'.now a.receivedAt < fromMillis cfg.probeTtlMs

def poolBefore (cfg : PrequalConfig) (n : Nat) (turns : List Turn) (k : Nat) :
    ProbePool :=
  cfg.poolAfter n ((turns.take k).flatMap Turn.events)

/-! ## Supplied policies -/

theorem poolAfter_batch {cfg : PrequalConfig} {n : Nat}
    {events : List PoolEvent} {batch : List Arrival}
    (hcapacity : 2 ≤ cfg.poolCapacity) (hbatch : 2 ≤ batch.length)
    (h : (PoolEvent.times (events ++ batch.map Arrival.event)).Pairwise
      (· < ·)) :
    let pool := cfg.poolAfter n (events ++ batch.map Arrival.event)
    ∃ a ∈ batch, ∃ b ∈ batch, a.receivedAt < b.receivedAt ∧
      a.probe ∈ pool.probes ∧ b.probe ∈ pool.probes := by
  intro pool
  obtain ⟨rest, b, rfl⟩ : ∃ rest b, batch = rest ++ [b] := by
    rcases batch.eq_nil_or_concat with rfl | hconcat
    · simp at hbatch
    · simpa using hconcat
  obtain ⟨init, a, rfl⟩ : ∃ init a, rest = init ++ [a] := by
    rcases rest.eq_nil_or_concat with rfl | hconcat
    · simp at hbatch
    · simpa using hconcat
  have hevents : events ++ (init ++ [a] ++ [b]).map Arrival.event =
      (events ++ init.map Arrival.event ++ [a.event]) ++ [b.event] := by
    simp
  rw [hevents] at h
  obtain ⟨hb, -, hnewest⟩ := PrequalConfig.poolAfter_insert (n := n) h
  have hpast := h
  rw [PoolEvent.times_append, List.pairwise_append] at hpast
  obtain ⟨ha, hnodup, hnewest'⟩ :=
    PrequalConfig.poolAfter_insert (n := n) hpast.1
  have hlt : a.receivedAt < b.receivedAt := by
    apply hpast.2.2
    · rw [PoolEvent.times_append]
      exact List.mem_append_right _ (List.mem_singleton_self _)
    · exact List.mem_singleton_self _
  refine ⟨a, by simp, b, by simp, hlt, ?_, ?_⟩
  · change _ ∈ (cfg.poolAfter n _).probes
    rw [hevents, PrequalConfig.poolAfter_concat]
    apply ProbePool.mem_insert_of_newest _ ha hnodup hnewest'
    rwa [(cfg.poolAfter_limits n _).1]
  · change _ ∈ (cfg.poolAfter n _).probes
    rw [hevents]
    exact hb

theorem two_le_length {α : Type} {l : List α} {a b : α} (ha : a ∈ l)
    (hb : b ∈ l) (hne : a ≠ b) : 2 ≤ l.length := by
  rcases l with _ | ⟨x, _ | ⟨y, l⟩⟩
  · cases ha
  · simp_all
  · simp

theorem LockStep.two_live {cfg : PrequalConfig} {n : Nat}
    {turns : List Turn} (h : LockStep cfg n turns) (hn : 2 ≤ n)
    (hprobe : 2 ≤ cfg.rProbe) (hcapacity : 2 ≤ cfg.poolCapacity) {k : Nat}
    {t : Turn} (hk : 1 ≤ k) (ht : turns[k]? = some t) :
    2 ≤ ((poolBefore cfg n turns k).expire t.now).len := by
  obtain ⟨k, rfl⟩ : ∃ j, k = j + 1 := ⟨k - 1, by omega⟩
  obtain ⟨hlt, rfl⟩ := List.getElem?_eq_some_iff.mp ht
  set last := turns[k] with hlast
  have hmem : last ∈ turns := List.getElem_mem _
  have htake : (turns.take (k + 1)).flatMap Turn.events =
      ((turns.take k).flatMap Turn.events ++
        [.round last.now last.random]) ++
          last.batch.map Arrival.event := by
    rw [← List.take_append_getElem (by omega), List.flatMap_append,
      List.flatMap_singleton, List.append_assoc]
    rfl
  have hincreasing := h.increasing
  rw [← List.take_append_drop (k + 1) turns, List.flatMap_append,
    PoolEvent.times_append, List.pairwise_append, htake] at hincreasing
  have hbatch : 2 ≤ last.batch.length := by
    rw [h.complete last hmem, PrequalConfig.probeCount]
    omega
  obtain ⟨a, ha, b, hb, hab, hamem, hbmem⟩ :=
    poolAfter_batch (n := n) hcapacity hbatch hincreasing.1
  rw [← htake] at hamem hbmem
  have hprompt := List.isChain_iff_getElem.mp h.prompt k hlt
  obtain ⟨-, httl, hbudget, -⟩ :=
    cfg.poolAfter_limits n ((turns.take (k + 1)).flatMap Turn.events)
  have hsurvives : ∀ c ∈ last.batch,
      c.probe ∈ (poolBefore cfg n turns (k + 1)).probes →
      c.probe ∈ ((poolBefore cfg n turns (k + 1)).expire
        turns[k + 1].now).probes := by
    intro c hc hcmem
    refine List.mem_filter.mpr ⟨hcmem, ?_⟩
    rw [ProbePool.alive_iff, poolBefore, httl, hbudget]
    exact ⟨hprompt c hc, cfg.one_le_reuseBudget n⟩
  refine two_le_length (hsurvives a ha hamem) (hsurvives b hb hbmem) ?_
  intro hsame
  exact hab.ne (congrArg Probe.receivedAt hsame)

/-! ## Starved policies -/

theorem length_insert_le (pool : ProbePool) (probe : Probe) :
    (pool.exec (ProbePool.insert probe)).2.probes.length ≤
      pool.probes.length + 1 := by
  rw [ProbePool.exec_insert, List.length_append]
  exact Nat.succ_le_succ (swapRemoveAt_subperm _ _).length_le

theorem length_insert_le_one {pool : ProbePool} (probe : Probe)
    (hcapacity : pool.capacity ≤ 1) (hlength : pool.probes.length ≤ 1) :
    (pool.exec (ProbePool.insert probe)).2.probes.length ≤ 1 := by
  rw [ProbePool.exec_insert, List.length_append]
  by_cases hnil : pool.probes = []
  · have hnone : swapRemoveAt pool.probes pool.evictIdx = [] := by
      rw [hnil]
      exact List.subperm_nil.mp (swapRemoveAt_subperm _ _)
    rw [hnone]
    rfl
  · obtain ⟨i, hi⟩ := Option.ne_none_iff_exists'.mp
      (mt ProbePool.oldestIdx_eq_none_iff.mp hnil)
    obtain ⟨p, hp, -⟩ := ProbePool.oldestIdx_eq_some hi
    have hpos := List.length_pos_iff.mpr hnil
    have hevict : pool.evictIdx = some i := by
      rw [ProbePool.evictIdx, if_pos (by omega), hi]
    have hremoved := (swapRemoveAt_perm hp).length_eq
    rw [List.length_cons] at hremoved
    rw [hevict, List.length_singleton]
    omega

theorem length_round_le (cfg : PrequalConfig) (pool : ProbePool)
    (now : Instant) (random : Nat) :
    ((PoolEvent.round now random).apply cfg pool).probes.length ≤
      pool.probes.length := by
  have hops := (pool.run_origins
    ((PoolEvent.round now random).ops cfg pool)).length_le
  rw [PoolEvent.ops_inserted, PoolEvent.run_ops] at hops
  simpa [PoolEvent.inserted] using hops

theorem length_poolAfter_of_capacity {cfg : PrequalConfig} (n : Nat)
    (h : cfg.poolCapacity ≤ 1) (events : List PoolEvent) :
    (cfg.poolAfter n events).probes.length ≤ 1 := by
  induction events using List.reverseRecOn with
  | nil => exact Nat.zero_le _
  | append_singleton past e ih =>
      rw [PrequalConfig.poolAfter_concat]
      cases e with
      | insert replica resp receivedAt =>
          apply length_insert_le_one _ _ ih
          rwa [(cfg.poolAfter_limits n past).1]
      | round now random =>
          exact (length_round_le cfg _ now random).trans ih

theorem length_round_of_few {cfg : PrequalConfig} {pool : ProbePool}
    (hone : cfg.rRemove = 1) (hfew : pool.probes.length ≤ 1) (now : Instant)
    (random : Nat) :
    ((PoolEvent.round now random).apply cfg pool).probes = [] := by
  have hexpired : (pool.expire now).probes.length ≤ 1 :=
    (List.length_filter_le _ _).trans hfew
  have hlt : (pool.expire now).len < 2 := Nat.lt_succ_of_le hexpired
  have hok := ProbePool.hotThreshold_ok_of_length_lt hlt
  have hlength := ProbePool.length_run_removeOne hok cfg.rRemove
  rw [hone, Nat.sub_eq_zero_of_le hexpired] at hlength
  rw [PoolEvent.apply, ProbePool.exec_select,
    ProbePool.roundOps_of_few cfg hlt, hone]
  exact List.eq_nil_of_length_eq_zero hlength

theorem length_poolAfter_of_probes {cfg : PrequalConfig} {n : Nat}
    (hone : cfg.rRemove = 1) (hprobe : cfg.rProbe ≤ 1) (turns : List Turn)
    (hcomplete : ∀ t ∈ turns, t.batch.length = cfg.probeCount n) :
    (cfg.poolAfter n (turns.flatMap Turn.events)).probes.length ≤ 1 := by
  induction turns using List.reverseRecOn with
  | nil => exact Nat.zero_le _
  | append_singleton past t ih =>
      have hpast := ih fun u hu => hcomplete u (List.mem_append_left _ hu)
      have hbatch : t.batch.length ≤ 1 := by
        rw [hcomplete t (by simp), PrequalConfig.probeCount]
        omega
      have hround := length_round_of_few hone hpast t.now t.random
      rw [List.flatMap_append, List.flatMap_singleton, Turn.events,
        List.append_cons, PrequalConfig.poolAfter]
      rcases hshape : t.batch with _ | ⟨a, _ | ⟨b, rest⟩⟩
      · rw [List.map_nil, List.append_nil, ← PrequalConfig.poolAfter,
          PrequalConfig.poolAfter_concat, hround]
        exact Nat.zero_le _
      · rw [List.map_singleton, ← PrequalConfig.poolAfter,
          PrequalConfig.poolAfter_concat, PrequalConfig.poolAfter_concat]
        refine (length_insert_le _ _).trans ?_
        rw [hround]
        exact le_rfl
      · rw [hshape] at hbatch
        simp at hbatch

/-! ## The exact condition -/

/-- Two probes are live, and whatever the draw, the selection has the say. -/
def LeftToSelection (cfg : PrequalConfig) (pool : ProbePool) (t : Turn) :
    Prop :=
  2 ≤ (pool.expire t.now).len ∧ ∃ outcome : Except Panic Nat,
    ((pool.expire t.now).exec ProbePool.hclSelect).1 = outcome.map some ∧
      ∀ random,
        (pool.exec (Balancer.select cfg t.now random)).1 = outcome

/-- Two probes are live, and the selection chooses the replica. -/
def DecidedByPool (cfg : PrequalConfig) (pool : ProbePool) (t : Turn) :
    Prop :=
  2 ≤ (pool.expire t.now).len ∧ ∃ r,
    ((pool.expire t.now).exec ProbePool.hclSelect).1 = .ok (some r) ∧
      ∀ random, (pool.exec (Balancer.select cfg t.now random)).1 = .ok r

/-- The pool has no say in the round: the draw is the replica. -/
def DecidedByDraw (cfg : PrequalConfig) (pool : ProbePool) (t : Turn) :
    Prop :=
  (pool.expire t.now).len < 2 ∧
    ∀ random, (pool.exec (Balancer.select cfg t.now random)).1 = .ok random

theorem leftToSelection_of_live {cfg : PrequalConfig} {pool : ProbePool}
    {t : Turn} (hlive : 2 ≤ (pool.expire t.now).len) :
    LeftToSelection cfg pool t := by
  rcases pool.roundChoice_cases t.now with
    ⟨hfew, -, -⟩ | ⟨e, -, hidx, -, hchoice⟩ | ⟨i, c, -, hidx, hc, -, hchoice⟩
  · omega
  · refine ⟨hlive, .error e, ?_, ?_⟩
    · rw [ProbePool.exec_hclSelect_of_error hidx]
      rfl
    · intro random
      rw [ProbePool.exec_select, hchoice]
      rfl
  · refine ⟨hlive, .ok c.replica, ?_, ?_⟩
    · rw [ProbePool.exec_hclSelect_of_idx hidx hc]
      rfl
    · intro random
      rw [ProbePool.exec_select, hchoice]
      rfl

theorem LeftToSelection.decided {cfg : PrequalConfig} {pool : ProbePool}
    {t : Turn} (h : LeftToSelection cfg pool t) (hq : pool.qRif ≤ 1) :
    DecidedByPool cfg pool t := by
  obtain ⟨hlive, outcome, hselect, hround⟩ := h
  have hthreshold : ∃ o, (pool.expire t.now).hotThreshold = .ok o :=
    ProbePool.hotThreshold_ok_of_le hq
  obtain ⟨o, ho⟩ := ProbePool.hclSelect_ok_iff.mpr hthreshold
  cases outcome with
  | error e =>
      rw [ho] at hselect
      cases hselect
  | ok r => exact ⟨hlive, r, hselect, hround⟩

theorem decidedByDraw_of_few {cfg : PrequalConfig} {pool : ProbePool}
    {t : Turn} (hfew : pool.probes.length ≤ 1) :
    DecidedByDraw cfg pool t := by
  have hlt : (pool.expire t.now).len < 2 :=
    Nat.lt_succ_of_le ((List.length_filter_le _ _).trans hfew)
  refine ⟨hlt, fun random => ?_⟩
  rw [ProbePool.exec_select, ProbePool.roundChoice, if_pos hlt]
  rfl

/--
A lock-step run is supplied exactly when two probes per query find room in the
pool: then the selection has the say in every round but the first, and chooses
a replica where the quantile is at most one; otherwise the draw decides every
round.
-/
theorem lockStep_depletion (cfg : PrequalConfig) (n : Nat) (hn : 2 ≤ n)
    (hone : cfg.rRemove = 1) (turns : List Turn)
    (h : LockStep cfg n turns) :
    (2 ≤ cfg.rProbe ∧ 2 ≤ cfg.poolCapacity →
      ∀ k t, 1 ≤ k → turns[k]? = some t →
        LeftToSelection cfg (poolBefore cfg n turns k) t ∧
          (cfg.qRif ≤ 1 → DecidedByPool cfg (poolBefore cfg n turns k) t)) ∧
    (cfg.rProbe ≤ 1 ∨ cfg.poolCapacity ≤ 1 →
      ∀ k t, turns[k]? = some t →
        DecidedByDraw cfg (poolBefore cfg n turns k) t) := by
  constructor
  · rintro ⟨hprobe, hcapacity⟩ k t hk ht
    have hleft : LeftToSelection cfg (poolBefore cfg n turns k) t :=
      leftToSelection_of_live (h.two_live hn hprobe hcapacity hk ht)
    have hq : (poolBefore cfg n turns k).qRif = cfg.qRif :=
      (cfg.poolAfter_limits n _).2.2.2
    exact ⟨hleft, fun hle => hleft.decided (hq.trans_le hle)⟩
  · intro hstarved k t ht
    apply decidedByDraw_of_few
    rcases hstarved with hprobe | hcapacity
    · exact length_poolAfter_of_probes hone hprobe (turns.take k)
        fun u hu => h.complete u (List.mem_of_mem_take hu)
    · exact length_poolAfter_of_capacity n hcapacity _

def twoTurns : List Turn :=
  [⟨0, 1, [⟨0, ⟨4, 2000, 0⟩, 5⟩, ⟨1, ⟨1, 3000, 0⟩, 6⟩]⟩,
   ⟨9, 0, [⟨1, ⟨2, 3000, 0⟩, 11⟩, ⟨0, ⟨3, 2000, 0⟩, 12⟩]⟩]

theorem twoTurns_decided :
    DecidedByPool PrequalConfig.default
      (poolBefore PrequalConfig.default 2 twoTurns 1)
      ⟨9, 0, [⟨1, ⟨2, 3000, 0⟩, 11⟩, ⟨0, ⟨3, 2000, 0⟩, 12⟩]⟩ :=
  ((lockStep_depletion PrequalConfig.default 2 le_rfl rfl twoTurns
    ⟨by decide, by decide, by decide⟩).1 (by decide) 1 _ le_rfl rfl).2
      (by norm_num [PrequalConfig.default, defaultQRif])

/-- With a quantile of two the second round of this supplied run unwinds. -/
theorem twoTurns_unwind :
    let cfg : PrequalConfig := { PrequalConfig.default with qRif := 2 }
    let pool := poolBefore cfg 2 twoTurns 1
    (LockStep cfg 2 twoTurns ∧ cfg.rRemove = 1 ∧ 2 ≤ cfg.rProbe ∧
        2 ≤ cfg.poolCapacity ∧
        ∀ t ∈ twoTurns, (t.batch.map Arrival.replica).Nodup) ∧
      (∀ random, ∃ e,
        (pool.exec (Balancer.select cfg 9 random)).1 = .error e) ∧
      ∀ t, twoTurns[1]? = some t → ¬ DecidedByPool cfg pool t := by
  intro cfg pool
  have hnone : ((pool.expire 9).exec ProbePool.hclSelect).1.toOption =
      none := by
    decide +kernel
  obtain ⟨e, he⟩ : ∃ e,
      ((pool.expire 9).exec ProbePool.hclSelect).1 = .error e := by
    cases hselect : ((pool.expire 9).exec ProbePool.hclSelect).1 with
    | error e => exact ⟨e, rfl⟩
    | ok o =>
        rw [hselect] at hnone
        cases hnone
  have hleft : LeftToSelection cfg pool ⟨9, 0, []⟩ :=
    leftToSelection_of_live (by decide +kernel)
  obtain ⟨-, outcome, houtcome, hround⟩ := hleft
  refine ⟨⟨⟨by decide, by decide, by decide⟩, by decide, by decide,
    by decide, by decide⟩, fun random => ?_, ?_⟩
  · rw [he] at houtcome
    cases outcome with
    | error e' => exact ⟨e', hround random⟩
    | ok r => cases houtcome
  · rintro t ht ⟨-, r, hr, -⟩
    cases ht
    rw [he] at hr
    cases hr

end Prequal
