import Prequal.Client.Round

/-!
# Ledgers of a balancer

A ledger runs the pool beside a record of its history: each pooled probe
carries the number of the event that inserted it, and each event leaves a
record of the query it dispatched and of the probe that won it.  The tags move
with the positions of the vector and never influence the pool.
-/

namespace Prequal

open Foundation
open scoped List

/-! ## Tagged pools -/

structure TaggedPool (τ : Type) where
  pool : ProbePool
  tags : List τ
  aligned : tags.length = pool.probes.length

namespace ProbePool

theorem apply_insert_probes (pool : ProbePool) (probe : Probe) :
    ((PoolOp.insert probe).apply pool).probes =
      swapRemoveAt pool.probes pool.evictIdx ++ [probe] := by
  rw [PoolOp.apply, exec_insert]

theorem apply_hclSelect_length (pool : ProbePool) :
    (PoolOp.hclSelect.apply pool).probes.length = pool.probes.length := by
  rcases exec_hclSelect_cases pool with
    ⟨e, -, h⟩ | ⟨-, h⟩ | ⟨i, c, -, -, h⟩ <;>
    simp [PoolOp.apply, h]

end ProbePool

namespace TaggedPool

variable {τ : Type}

def entries (t : TaggedPool τ) : List (τ × Probe) := t.tags.zip t.pool.probes

theorem entries_map_fst (t : TaggedPool τ) :
    t.entries.map Prod.fst = t.tags :=
  List.map_fst_zip t.aligned.le

theorem entries_map_snd (t : TaggedPool τ) :
    t.entries.map Prod.snd = t.pool.probes :=
  List.map_snd_zip t.aligned.ge

def retag (tag : τ) (t : TaggedPool τ) : PoolOp → List τ
  | .insert _ => swapRemoveAt t.tags t.pool.evictIdx ++ [tag]
  | .expire now =>
      (t.entries.filter fun e => t.pool.alive now e.2).map Prod.fst
  | .hclSelect => t.tags
  | .removeOne => swapRemoveAt t.tags t.pool.vacatedIdx

private theorem filter_entries_map_snd (t : TaggedPool τ)
    (keep : Probe → Bool) :
    (t.entries.filter fun e => keep e.2).map Prod.snd =
      t.pool.probes.filter keep := by
  rw [← t.entries_map_snd, List.filter_map]
  rfl

theorem retag_length (tag : τ) (t : TaggedPool τ) (op : PoolOp) :
    (t.retag tag op).length = (op.apply t.pool).probes.length := by
  cases op with
  | insert probe =>
      rw [retag, ProbePool.apply_insert_probes, List.length_append,
        List.length_append, swapRemoveAt_length_congr t.aligned]
      rfl
  | expire now =>
      have h := congrArg List.length
        (filter_entries_map_snd t (t.pool.alive now))
      rw [List.length_map] at h
      rw [retag, List.length_map, h]
      rfl
  | hclSelect => rw [retag, ProbePool.apply_hclSelect_length, t.aligned]
  | removeOne =>
      rw [retag, ProbePool.apply_removeOne_probes,
        swapRemoveAt_length_congr t.aligned]

def apply (tag : τ) (t : TaggedPool τ) (op : PoolOp) : TaggedPool τ where
  pool := op.apply t.pool
  tags := t.retag tag op
  aligned := t.retag_length tag op

def run (tag : τ) (t : TaggedPool τ) (ops : List PoolOp) : TaggedPool τ :=
  ops.foldl (apply tag) t

/-- Erasing the tags of a run gives the run of the pool. -/
theorem run_pool (tag : τ) (t : TaggedPool τ) (ops : List PoolOp) :
    (t.run tag ops).pool = t.pool.run ops := by
  induction ops generalizing t with
  | nil => rfl
  | cons op ops ih => exact ih (t.apply tag op)

private theorem entries_eq {t : TaggedPool τ} {l : List (τ × Probe)}
    (hfst : t.tags = l.map Prod.fst) (hsnd : t.pool.probes = l.map Prod.snd) :
    t.entries = l := by
  rw [entries, hfst, hsnd]
  exact (List.zip_of_prod rfl rfl).symm

theorem apply_insert_entries (tag : τ) (t : TaggedPool τ) (probe : Probe) :
    (t.apply tag (.insert probe)).entries =
      swapRemoveAt t.entries t.pool.evictIdx ++ [(tag, probe)] := by
  apply entries_eq
  · simp [apply, retag, ← swapRemoveAt_map, entries_map_fst]
  · simp [apply, ProbePool.apply_insert_probes, ← swapRemoveAt_map,
      entries_map_snd]

theorem apply_expire_entries (tag : τ) (t : TaggedPool τ) (now : Instant) :
    (t.apply tag (.expire now)).entries =
      t.entries.filter fun e => t.pool.alive now e.2 := by
  apply entries_eq
  · rfl
  · exact (filter_entries_map_snd t (t.pool.alive now)).symm

theorem apply_removeOne_entries (tag : τ) (t : TaggedPool τ) :
    (t.apply tag .removeOne).entries =
      swapRemoveAt t.entries t.pool.vacatedIdx := by
  apply entries_eq
  · simp [apply, retag, ← swapRemoveAt_map, entries_map_fst]
  · simp [apply, ProbePool.apply_removeOne_probes, ← swapRemoveAt_map,
      entries_map_snd]

theorem apply_hclSelect_entries {t : TaggedPool τ} {i : Nat} {c : Probe}
    (tag : τ)
    (h : t.pool.exec ProbePool.hclSelect =
      (.ok (some c.replica), t.pool.dispatchTo i c.replica)) (j : Nat) :
    (t.apply tag .hclSelect).entries[j]? =
      t.entries[j]?.map fun e =>
        (e.1, Probe.compensate c.replica (if i = j then e.2.use else e.2)) := by
  have hpool : (t.apply tag .hclSelect).pool =
      t.pool.dispatchTo i c.replica := by
    exact congrArg Prod.snd h
  have htags : (t.apply tag .hclSelect).tags = t.tags := rfl
  simp only [entries, hpool, htags, List.zip_eq_zipWith,
    List.getElem?_zipWith, ProbePool.dispatchTo_getElem?]
  cases t.tags[j]? <;> cases t.pool.probes[j]? <;> rfl

theorem apply_hclSelect_entries_of_error {t : TaggedPool τ} {e : Panic}
    (tag : τ) (h : t.pool.hclIdx = .error e) :
    (t.apply tag .hclSelect).entries = t.entries := by
  have hpool : (t.apply tag .hclSelect).pool = t.pool :=
    congrArg Prod.snd (ProbePool.exec_hclSelect_of_error h)
  rw [entries, hpool]
  rfl

theorem run_removeOne_subperm (tag : τ) (t : TaggedPool τ) (count : Nat) :
    (t.run tag (List.replicate count .removeOne)).entries <+~ t.entries := by
  induction count generalizing t with
  | zero => exact .refl _
  | succ count ih =>
      refine (ih (t.apply tag .removeOne)).trans ?_
      rw [apply_removeOne_entries]
      exact swapRemoveAt_subperm _ _

theorem retag_subperm (tag : τ) (t : TaggedPool τ) (op : PoolOp) :
    t.retag tag op <+~ t.tags ++ op.inserted.map fun _ => tag := by
  cases op with
  | insert probe => exact (swapRemoveAt_subperm _ _).append (.refl _)
  | expire now =>
      simp only [retag, PoolOp.inserted, List.map_nil, List.append_nil]
      rw [← t.entries_map_fst]
      exact (List.filter_sublist.map _).subperm
  | hclSelect =>
      simp only [retag, PoolOp.inserted, List.map_nil, List.append_nil]
      exact .refl _
  | removeOne =>
      simp only [PoolOp.inserted, List.map_nil, List.append_nil]
      exact swapRemoveAt_subperm _ _

theorem run_tags_subperm (tag : τ) (t : TaggedPool τ) (ops : List PoolOp) :
    (t.run tag ops).tags <+~
      t.tags ++ (ops.flatMap PoolOp.inserted).map fun _ => tag := by
  refine foldl_history (apply tag) (fun past s =>
    s.tags <+~ t.tags ++ (past.flatMap PoolOp.inserted).map fun _ => tag) t
    (by simp [List.Subperm.refl]) ?_ ops
  intro past op s ih
  rw [List.flatMap_append, List.map_append, List.flatMap_singleton,
    ← List.append_assoc]
  exact (s.retag_subperm tag op).trans (ih.append (.refl _))

end TaggedPool

/-! ## Events -/

inductive PoolEvent where
  | insert (replica : Nat) (resp : ProbeResponse) (receivedAt : Instant)
  | round (now : Instant) (random : Nat)
  deriving DecidableEq, Repr

namespace PoolEvent

def apply (cfg : PrequalConfig) (pool : ProbePool) : PoolEvent → ProbePool
  | .insert replica resp receivedAt =>
      (pool.exec (Balancer.insertResponse replica resp receivedAt)).2
  | .round now random => (pool.exec (Balancer.select cfg now random)).2

def dispatched (cfg : PrequalConfig) (pool : ProbePool) :
    PoolEvent → Option Nat
  | .insert .. => none
  | .round now random =>
      (pool.exec (Balancer.select cfg now random)).1.toOption

def ops (cfg : PrequalConfig) (pool : ProbePool) : PoolEvent → List PoolOp
  | .insert replica resp receivedAt =>
      [.insert (Probe.fresh replica resp receivedAt)]
  | .round now _ => pool.roundOps cfg now

theorem run_ops (cfg : PrequalConfig) (pool : ProbePool) (e : PoolEvent) :
    pool.run (e.ops cfg pool) = e.apply cfg pool := by
  cases e with
  | insert replica resp receivedAt => rfl
  | round now random => rw [apply, ProbePool.exec_select, ops]

end PoolEvent

/-! ## Ledgers -/

structure Record where
  event : PoolEvent
  dispatched : Option Nat
  winner : Option Nat
  deriving DecidableEq, Repr

/-- A tagged pool whose tags number the events that inserted the probes. -/
structure Ledger where
  tagged : TaggedPool Nat
  log : List Record
  distinct : tagged.tags.Nodup
  born : ∀ id ∈ tagged.tags, id < log.length

namespace Ledger

abbrev pool (l : Ledger) : ProbePool := l.tagged.pool

abbrev entries (l : Ledger) : List (Nat × Probe) := l.tagged.entries

theorem entries_map_snd (l : Ledger) :
    l.entries.map Prod.snd = l.pool.probes :=
  l.tagged.entries_map_snd

def new (cfg : PrequalConfig) (n : Nat) : Ledger where
  tagged := ⟨cfg.newPool n, [], rfl⟩
  log := []
  distinct := .nil
  born := nofun

def live (l : Ledger) (now : Instant) : List (Nat × Probe) :=
  l.entries.filter fun e => l.pool.alive now e.2

def winner (l : Ledger) : PoolEvent → Option Nat
  | .insert .. => none
  | .round now _ =>
      match l.pool.roundIdx now with
      | .ok (some i) => (l.live now)[i]?.map Prod.fst
      | _ => none

def record (cfg : PrequalConfig) (l : Ledger) (e : PoolEvent) : Record :=
  ⟨e, e.dispatched cfg l.pool, l.winner e⟩

private theorem step_tags_subperm (cfg : PrequalConfig) (l : Ledger)
    (e : PoolEvent) :
    (l.tagged.run l.log.length (e.ops cfg l.pool)).tags <+~
      l.tagged.tags ++ [l.log.length] := by
  refine (TaggedPool.run_tags_subperm _ _ _).trans ?_
  cases e with
  | insert replica resp receivedAt => exact .refl _
  | round now random =>
      rw [PoolEvent.ops, ProbePool.roundOps_inserted, List.map_nil,
        List.append_nil]
      exact (List.sublist_append_left _ _).subperm

private theorem next_tags_nodup (l : Ledger) :
    (l.tagged.tags ++ [l.log.length]).Nodup := by
  refine l.distinct.append (List.nodup_singleton _) ?_
  rw [List.disjoint_singleton]
  exact fun h => absurd (l.born _ h) (lt_irrefl _)

def step (cfg : PrequalConfig) (l : Ledger) (e : PoolEvent) : Ledger where
  tagged := l.tagged.run l.log.length (e.ops cfg l.pool)
  log := l.log ++ [l.record cfg e]
  distinct := nodup_of_subperm (l.step_tags_subperm cfg e) l.next_tags_nodup
  born := by
    intro id hid
    rw [List.length_append, List.length_singleton]
    rcases List.mem_append.mp ((l.step_tags_subperm cfg e).subset hid)
      with hold | hnew
    · exact Nat.lt_succ_of_lt (l.born id hold)
    · rw [List.mem_singleton.mp hnew]
      exact Nat.lt_succ_self _

def run (cfg : PrequalConfig) (n : Nat) (events : List PoolEvent) : Ledger :=
  events.foldl (step cfg) (new cfg n)

theorem step_pool (cfg : PrequalConfig) (l : Ledger) (e : PoolEvent) :
    (l.step cfg e).pool = e.apply cfg l.pool := by
  rw [pool, step, TaggedPool.run_pool, PoolEvent.run_ops]

theorem run_pool (cfg : PrequalConfig) (n : Nat) (events : List PoolEvent) :
    (run cfg n events).pool =
      events.foldl (PoolEvent.apply cfg) (cfg.newPool n) := by
  induction events using List.reverseRecOn with
  | nil => rfl
  | append_singleton past e ih =>
      rw [run, List.foldl_append, List.foldl_append, ← ih]
      exact step_pool cfg _ e

theorem run_log (cfg : PrequalConfig) (n : Nat) (events : List PoolEvent) :
    (run cfg n events).log.map Record.event = events := by
  refine foldl_history (step cfg)
    (fun past l => l.log.map Record.event = past) (new cfg n) rfl ?_ events
  intro past e l ih
  rw [step, List.map_append, ih]
  rfl

/-! ## What an event does to the entries -/

theorem step_insert_entries (cfg : PrequalConfig) (l : Ledger)
    (replica : Nat) (resp : ProbeResponse) (receivedAt : Instant) :
    (l.step cfg (.insert replica resp receivedAt)).entries =
      swapRemoveAt l.entries l.pool.evictIdx ++
        [(l.log.length, Probe.fresh replica resp receivedAt)] :=
  TaggedPool.apply_insert_entries _ _ _

theorem live_map_snd (l : Ledger) (now : Instant) :
    (l.live now).map Prod.snd = (l.pool.expire now).probes := by
  rw [live, ← TaggedPool.apply_expire_entries 0]
  exact TaggedPool.entries_map_snd _

theorem length_live (l : Ledger) (now : Instant) :
    (l.live now).length = (l.pool.expire now).len := by
  rw [ProbePool.len, ← live_map_snd, List.length_map]

structure Charged (live charged : List (Nat × Probe)) (i : Nat) (r : Nat) :
    Prop where
  get : ∀ j, charged[j]? = live[j]?.map fun e =>
    (e.1, Probe.compensate r (if i = j then e.2.use else e.2))

theorem Charged.mem {live charged : List (Nat × Probe)} {i r : Nat}
    (h : Charged live charged i r) {e : Nat × Probe} (he : e ∈ charged) :
    ∃ j p, live[j]? = some (e.1, p) ∧
      e.2 = Probe.compensate r (if i = j then p.use else p) := by
  obtain ⟨j, hj⟩ := List.mem_iff_getElem?.mp he
  rw [h.get, Option.map_eq_some_iff] at hj
  obtain ⟨⟨id, p⟩, hget, rfl⟩ := hj
  exact ⟨j, p, hget, rfl⟩

theorem Charged.map_snd {live charged : List (Nat × Probe)} {i r : Nat}
    (h : Charged live charged i r) :
    charged.map Prod.snd =
      ((live.map Prod.snd).modify i Probe.use).map (Probe.compensate r) := by
  apply List.ext_getElem?
  intro j
  rw [List.getElem?_map, h.get, List.getElem?_map, List.getElem?_modify,
    List.getElem?_map]
  cases live[j]? with
  | none => rfl
  | some e => by_cases hij : i = j <;> simp [hij]

theorem mem_entries_born {l : Ledger} {e : Nat × Probe}
    (he : e ∈ l.entries) : e.1 < l.log.length := by
  apply l.born
  rw [← TaggedPool.entries_map_fst]
  exact List.mem_map_of_mem he

inductive RoundOutcome (cfg : PrequalConfig) (l : Ledger) (now : Instant)
    (random : Nat) (l' : Ledger) : Prop where
  | fallback (hfew : (l.live now).length < 2)
      (hrecord : l.record cfg (.round now random) =
        ⟨.round now random, some random, none⟩)
      (hentries : l'.entries <+~ l.live now)
      (hlength : l'.entries.length = (l.live now).length - cfg.rRemove)
  | unwound (hrecord : l.record cfg (.round now random) =
        ⟨.round now random, none, none⟩)
      (hentries : l'.entries = l.live now)
  | selected (i id : Nat) (c : Probe) (charged : List (Nat × Probe))
      (hidx : l.pool.roundIdx now = .ok (some i))
      (hget : (l.live now)[i]? = some (id, c))
      (hrecord : l.record cfg (.round now random) =
        ⟨.round now random, some c.replica, some id⟩)
      (hcharged : Charged (l.live now) charged i c.replica)
      (hentries : l'.entries <+~ charged)

theorem record_round {cfg : PrequalConfig} {l : Ledger} {now : Instant}
    (random : Nat) {choice : Except Panic (Option Nat)}
    (h : l.pool.roundChoice now = choice) :
    l.record cfg (.round now random) =
      ⟨.round now random, (choice.map (·.getD random)).toOption,
        l.winner (.round now random)⟩ := by
  rw [record, PoolEvent.dispatched, ProbePool.exec_select, h]

theorem live_get {l : Ledger} {now : Instant} {i : Nat} {c : Probe}
    (h : (l.pool.expire now).probes[i]? = some c) :
    ∃ id, (l.live now)[i]? = some (id, c) := by
  rw [← live_map_snd, List.getElem?_map, Option.map_eq_some_iff] at h
  obtain ⟨⟨id, p⟩, hget, rfl⟩ := h
  exact ⟨id, hget⟩

theorem round_outcome (cfg : PrequalConfig) (l : Ledger) (now : Instant)
    (random : Nat) :
    RoundOutcome cfg l now random (l.step cfg (.round now random)) := by
  set tag := l.log.length with htag
  set expired := l.tagged.apply tag (.expire now) with hexpired
  have hlive : expired.entries = l.live now :=
    TaggedPool.apply_expire_entries _ _ _
  have hpool : expired.pool = l.pool.expire now := rfl
  rcases ProbePool.roundChoice_cases l.pool now with
    ⟨hfew, hidx, hchoice⟩ | ⟨e, hmany, herr, hidx, hchoice⟩ |
      ⟨i, c, hmany, hok, hc, hidx, hchoice⟩
  · have htagged : (l.step cfg (.round now random)).tagged =
        expired.run tag (List.replicate cfg.rRemove .removeOne) := by
      simp only [step, PoolEvent.ops, ProbePool.roundOps_of_few cfg hfew]
      rfl
    refine .fallback (by rwa [length_live]) ?_ ?_ ?_
    · rw [record_round random hchoice, winner, hidx]
      rfl
    · rw [entries, htagged, ← hlive]
      exact TaggedPool.run_removeOne_subperm _ _ _
    · have hthreshold := ProbePool.hotThreshold_ok_of_length_lt hfew
      rw [length_live, ProbePool.len, ← ProbePool.length_run_removeOne
        hthreshold, entries, htagged, ← hpool, ← TaggedPool.run_pool tag,
        ← TaggedPool.entries_map_snd, List.length_map]
  · have htagged : (l.step cfg (.round now random)).tagged =
        expired.apply tag .hclSelect := by
      simp only [step, PoolEvent.ops,
        ProbePool.roundOps_of_error cfg hmany herr]
      rfl
    refine .unwound ?_ ?_
    · rw [record_round random hchoice, winner, hidx]
      rfl
    · rw [entries, htagged, ← hlive]
      exact TaggedPool.apply_hclSelect_entries_of_error _ herr
  · have htagged : (l.step cfg (.round now random)).tagged =
        (expired.apply tag .hclSelect).run tag
          (List.replicate cfg.rRemove .removeOne) := by
      simp only [step, PoolEvent.ops, ProbePool.roundOps_of_ok cfg hmany hok]
      rfl
    obtain ⟨id, hget⟩ := live_get hc
    refine .selected i id c (expired.apply tag .hclSelect).entries hidx hget
      ?_ ⟨fun j => ?_⟩ ?_
    · simp only [record_round random hchoice, winner, hidx, hget]
      rfl
    · rw [← hlive]
      exact TaggedPool.apply_hclSelect_entries tag
        (ProbePool.exec_hclSelect_of_idx hok hc) j
    · rw [entries, htagged]
      exact TaggedPool.run_removeOne_subperm _ _ _

/-! ## Where the entries come from -/

def Sourced (l : Ledger) : Prop :=
  ∀ e ∈ l.entries, ∃ resp receivedAt,
    (l.log.map Record.event)[e.1]? =
        some (.insert e.2.replica resp receivedAt) ∧
      e.2.origin = (Probe.fresh e.2.replica resp receivedAt).origin

theorem step_entry {cfg : PrequalConfig} {l : Ledger} {event : PoolEvent}
    {e : Nat × Probe} (he : e ∈ (l.step cfg event).entries) :
    (∃ replica resp receivedAt, event = .insert replica resp receivedAt ∧
        e = (l.log.length, Probe.fresh replica resp receivedAt)) ∨
      ∃ p, (e.1, p) ∈ l.entries ∧ p.origin = e.2.origin := by
  cases event with
  | insert replica resp receivedAt =>
      rw [step_insert_entries, List.mem_append, List.mem_singleton] at he
      rcases he with hold | rfl
      · exact .inr ⟨e.2, (swapRemoveAt_subperm _ _).subset hold, rfl⟩
      · exact .inl ⟨replica, resp, receivedAt, rfl, rfl⟩
  | round now random =>
      right
      have hlive : ∀ e ∈ l.live now, e ∈ l.entries :=
        fun e he => (List.mem_filter.mp he).1
      cases l.round_outcome cfg now random with
      | fallback hfew hrecord hentries hlength =>
          exact ⟨e.2, hlive _ (hentries.subset he), rfl⟩
      | unwound hrecord hentries =>
          rw [hentries] at he
          exact ⟨e.2, hlive _ he, rfl⟩
      | selected i id c charged hidx hget hrecord hcharged hentries =>
          obtain ⟨j, p, hp, hep⟩ := hcharged.mem (hentries.subset he)
          refine ⟨p, hlive _ (List.mem_of_getElem? hp), ?_⟩
          rw [hep, Probe.compensate_origin]
          split <;> rfl

theorem Sourced.step {l : Ledger} (h : l.Sourced) (cfg : PrequalConfig)
    (event : PoolEvent) : (l.step cfg event).Sourced := by
  intro e he
  have hlog : (l.step cfg event).log.map Record.event =
      l.log.map Record.event ++ [event] := by
    rw [Ledger.step, List.map_append]
    rfl
  rw [hlog]
  rcases step_entry he with
    ⟨replica, resp, receivedAt, rfl, rfl⟩ | ⟨p, hp, horigin⟩
  · refine ⟨resp, receivedAt, ?_, rfl⟩
    rw [List.getElem?_append_right (by simp)]
    simp [Probe.fresh]
  · obtain ⟨resp, receivedAt, hget, hsource⟩ := h _ hp
    have hreplica : p.replica = e.2.replica :=
      congrArg Origin.replica horigin
    rw [hreplica] at hget hsource
    refine ⟨resp, receivedAt, ?_, horigin.symm.trans hsource⟩
    rw [List.getElem?_append_left, hget]
    exact (List.getElem?_eq_some_iff.mp hget).1

theorem run_sourced (cfg : PrequalConfig) (n : Nat)
    (events : List PoolEvent) : (run cfg n events).Sourced :=
  foldl_history (step cfg) (fun _ => Sourced) (new cfg n) nofun
    (fun _ e _ h => h.step cfg e) events

end Ledger

end Prequal
