import Prequal.Client.Ledger

/-!
# Arithmetic of the compensation

The reports come off the wire unchecked, so a report near the limits wraps the
RIF or the rescaled product.  Compensation makes a replica look worse exactly
as long as none of the increments and products of the run leaves its width.
-/

namespace Prequal

open Foundation

theorem le_wrapU32_succ_iff {n : Nat} (h : n < 2 ^ 32) :
    n ≤ wrapU32 (n + 1) ↔ n + 1 < 2 ^ 32 := by
  unfold wrapU32
  omega

namespace Probe

def ExactLatency (p : Probe) : Prop :=
  p.adjustedLatency = p.latencyUs * (p.rif + 1) / (p.rifAtProbe + 1)

theorem exactLatency_iff {p : Probe} (h : p.rifAtProbe < 2 ^ 32) :
    p.ExactLatency ↔ p.latencyUs * (p.rif + 1) < 2 ^ 64 := by
  constructor
  · intro hexact
    by_contra hge
    have hlost : wrapU64 (p.latencyUs * (p.rif + 1)) + (p.rifAtProbe + 1) ≤
        p.latencyUs * (p.rif + 1) := by
      unfold wrapU64
      omega
    have hlt := Nat.div_le_div_right (c := p.rifAtProbe + 1) hlost
    rw [Nat.add_div_right _ p.rifAtProbe.zero_lt_succ] at hlt
    rw [ExactLatency, adjustedLatency] at hexact
    exact absurd hexact (Nat.ne_of_lt hlt)
  · intro hlt
    rw [ExactLatency, adjustedLatency, wrapU64_of_lt hlt]

structure HasRoom (k : Nat) (p : Probe) : Prop where
  report : p.rifAtProbe < 2 ^ 32
  uses : p.uses + k < 2 ^ 32
  rif : p.rif + k < 2 ^ 32
  product : p.latencyUs * (p.rif + k + 1) < 2 ^ 64

instance (k : Nat) (p : Probe) : Decidable (p.HasRoom k) :=
  decidable_of_iff (p.rifAtProbe < 2 ^ 32 ∧ p.uses + k < 2 ^ 32 ∧
      p.rif + k < 2 ^ 32 ∧ p.latencyUs * (p.rif + k + 1) < 2 ^ 64)
    ⟨fun ⟨hreport, huses, hrif, hproduct⟩ =>
      ⟨hreport, huses, hrif, hproduct⟩,
      fun ⟨hreport, huses, hrif, hproduct⟩ =>
        ⟨hreport, huses, hrif, hproduct⟩⟩

theorem HasRoom.mono {p : Probe} {j k : Nat} (h : p.HasRoom k) (hjk : j ≤ k) :
    p.HasRoom j where
  report := h.report
  uses := by have := h.uses; omega
  rif := by have := h.rif; omega
  product := by
    refine lt_of_le_of_lt (Nat.mul_le_mul_left _ ?_) h.product
    omega

theorem HasRoom.exact {p : Probe} {k : Nat} (h : p.HasRoom k) :
    p.ExactLatency :=
  (exactLatency_iff h.report).mpr (h.mono (Nat.zero_le k)).product

end Probe

/-- What the decoder lets through: any `u32` RIF and any `u64` latency. -/
def PoolOp.Decoded (op : PoolOp) : Prop :=
  ∀ p ∈ op.inserted, p.rif = p.rifAtProbe ∧ p.uses = 0 ∧ p.rif < 2 ^ 32 ∧
    p.latencyUs < 2 ^ 64

namespace ProbePool

def Room (k : Nat) (pool : ProbePool) : Prop :=
  ∀ p ∈ pool.probes, p.HasRoom k

/--
What compensation is for: after the step every rescaled latency is exact, and
a selection lowers no use count, makes no copy more attractive and every copy
of the replica it returns less so.
-/
structure Compensates (pool : ProbePool) (op : PoolOp) : Prop where
  exact : ∀ p ∈ (op.apply pool).probes, p.ExactLatency
  charged : op = .hclSelect → ∀ r, pool.Chooses r → ∀ (j : Nat) (p p' : Probe),
    pool.probes[j]? = some p → (op.apply pool).probes[j]? = some p' →
      p.uses ≤ p'.uses ∧ p.adjustedLatency ≤ p'.adjustedLatency ∧
        (p.replica = r → p.rif < p'.rif)

def RoomFor (pool : ProbePool) : PoolOp → Prop
  | .insert p => p.latencyUs * (p.rif + 1) < 2 ^ 64
  | .hclSelect => ∀ t i c, pool.hotThreshold = .ok (some t) →
      pool.IsColdest t i c → pool.DispatchFits c ∧
        ∀ p ∈ pool.probes, p.replica = c.replica →
          p.latencyUs * (p.rif + 2) < 2 ^ 64
  | _ => True

theorem Room.subset {pool pool' : ProbePool} {k : Nat} (h : pool.Room k)
    (hsub : pool'.probes ⊆ pool.probes) : pool'.Room k :=
  fun p hp => h p (hsub hp)

theorem Room.insert {pool : ProbePool} {k : Nat} {probe : Probe}
    (h : pool.Room k) (hprobe : probe.HasRoom k) :
    ((PoolOp.insert probe).apply pool).Room k := by
  intro p hp
  rw [apply_insert_probes, List.mem_append, List.mem_singleton] at hp
  rcases hp with hold | rfl
  · exact h p ((swapRemoveAt_subperm _ _).subset hold)
  · exact hprobe

/-! ## What a charge does to a copy -/

theorem mem_dispatchTo {pool : ProbePool} {i : Nat} {c p' : Probe}
    (hc : pool.probes[i]? = some c) (hfits : pool.DispatchFits c)
    (hp' : p' ∈ (pool.dispatchTo i c.replica).probes) :
    ∃ p ∈ pool.probes, p'.rifAtProbe = p.rifAtProbe ∧
      p'.latencyUs = p.latencyUs ∧
      (p'.uses = p.uses ∨ p = c ∧ p'.uses = c.uses + 1) ∧
      (p'.rif = p.rif ∨ p.replica = c.replica ∧ p'.rif = p.rif + 1) := by
  obtain ⟨j, hj⟩ := List.mem_iff_getElem?.mp hp'
  cases hp : pool.probes[j]? with
  | none =>
      rw [dispatchTo_getElem?, hp] at hj
      cases hj
  | some p =>
      rw [dispatchTo_getElem?_of_fits hc hfits hp] at hj
      cases hj
      refine ⟨p, List.mem_of_getElem? hp, rfl, rfl, ?_, ?_⟩
      · by_cases hij : j = i
        · subst hij
          obtain rfl : c = p := Option.some.inj (hc.symm.trans hp)
          simp
        · simp [hij]
      · by_cases hr : p.replica = c.replica <;> simp [hr]

theorem Room.dispatchTo {pool : ProbePool} {k i : Nat} {c : Probe}
    (h : pool.Room k) (hc : pool.probes[i]? = some c)
    (huse : c.uses + k + 1 < 2 ^ 32)
    (hcopies : ∀ p ∈ pool.probes, p.replica = c.replica →
      p.rif + k + 1 < 2 ^ 32 ∧ p.latencyUs * (p.rif + k + 2) < 2 ^ 64) :
    (pool.dispatchTo i c.replica).Room k := by
  have hfits : pool.DispatchFits c := by
    refine ⟨by omega, fun p hp hr => ?_⟩
    have := (hcopies p hp hr).1
    omega
  intro p' hp'
  obtain ⟨p, hp, hreport, hlatency, huses, hrif⟩ :=
    mem_dispatchTo hc hfits hp'
  have hroom := h p hp
  have huses' := hroom.uses
  have hrif' := hroom.rif
  constructor
  · rw [hreport]
    exact hroom.report
  · rcases huses with huses | ⟨rfl, huses⟩ <;> omega
  · rcases hrif with hrif | ⟨hr, hrif⟩
    · omega
    · have := (hcopies p hp hr).1
      omega
  · rcases hrif with hrif | ⟨hr, hrif⟩
    · rw [hlatency, hrif]
      exact hroom.product
    · rw [hlatency, hrif, Nat.add_right_comm p.rif 1 k]
      exact (hcopies p hp hr).2

/-! ## One step -/

theorem apply_hclSelect_cases (pool : ProbePool) :
    (PoolOp.hclSelect.apply pool = pool ∧ ∀ r, ¬ pool.Chooses r) ∨
      ∃ t i c, pool.hotThreshold = .ok (some t) ∧ pool.IsColdest t i c ∧
        PoolOp.hclSelect.apply pool = pool.dispatchTo i c.replica ∧
        ∀ r, pool.Chooses r → r = c.replica := by
  rcases hthreshold : pool.hotThreshold with e | _ | t
  · have hexec : pool.exec hclSelect = (.error e, pool) :=
      exec_hclSelect_of_error (by rw [hclIdx_eq, hthreshold])
    exact .inl ⟨by rw [PoolOp.apply, hexec], by simp [Chooses, hexec]⟩
  · have hexec := exec_hclSelect_of_nil (hotThreshold_eq_none_iff.mp hthreshold)
    exact .inl ⟨by rw [PoolOp.apply, hexec], by simp [Chooses, hexec]⟩
  · obtain ⟨i, c, hc, -⟩ := exists_isColdest hthreshold
    have hexec := exec_hclSelect_of_isColdest hthreshold hc
    refine .inr ⟨t, i, c, rfl, hc, by rw [PoolOp.apply, hexec], ?_⟩
    simp [Chooses, hexec, eq_comm]

theorem Room.apply {pool : ProbePool} (h : pool.Room 0) {op : PoolOp}
    (hop : op.Decoded) (hroom : pool.RoomFor op) : (op.apply pool).Room 0 := by
  cases op with
  | insert p =>
      obtain ⟨hreport, huses, hrif, -⟩ := hop p List.mem_cons_self
      exact h.insert ⟨by omega, by omega, hrif, hroom⟩
  | expire now => exact h.subset (List.filter_subset_self _)
  | hclSelect =>
      rcases apply_hclSelect_cases pool with
        ⟨happly, -⟩ | ⟨t, i, c, ht, hc, happly, -⟩
      · rwa [happly]
      · obtain ⟨hfits, hproduct⟩ := hroom t i c ht hc
        rw [happly]
        exact h.dispatchTo hc.get hfits.1 fun p hp hr =>
          ⟨hfits.2 p hp hr, hproduct p hp hr⟩
  | removeOne => exact h.subset (apply_removeOne_subset pool)

theorem compensates_of_room {pool : ProbePool} (h : pool.Room 0) {op : PoolOp}
    (hop : op.Decoded) (hroom : pool.RoomFor op) : pool.Compensates op := by
  have hafter := h.apply hop hroom
  refine ⟨fun p hp => (hafter p hp).exact, ?_⟩
  rintro rfl r hr j p p' hp hp'
  rcases apply_hclSelect_cases pool with
    ⟨-, hnone⟩ | ⟨t, i, c, ht, hc, happly, hreturns⟩
  · exact absurd hr (hnone r)
  · obtain ⟨hfits, -⟩ := hroom t i c ht hc
    obtain rfl := hreturns r hr
    have hexact := (h p (List.mem_of_getElem? hp)).exact
    have hexact' := (hafter p' (List.mem_of_getElem? hp')).exact
    rw [happly, dispatchTo_getElem?_of_fits hc.get hfits hp] at hp'
    obtain rfl := Option.some.inj hp'
    refine ⟨?_, ?_, fun hcopy => ?_⟩
    · dsimp only
      split <;> omega
    · rw [hexact, hexact']
      refine Nat.div_le_div_right (Nat.mul_le_mul_left _ ?_)
      dsimp only
      split <;> omega
    · simp [hcopy]

theorem dispatchTo_copy {pool : ProbePool} {i j r : Nat} {p : Probe}
    (hp : pool.probes[j]? = some p) (hr : p.replica = r) :
    ∃ p', (pool.dispatchTo i r).probes[j]? = some p' ∧
      p'.rif = wrapU32 (p.rif + 1) ∧ p'.rifAtProbe = p.rifAtProbe ∧
      p'.latencyUs = p.latencyUs ∧
      (i = j → p'.uses = wrapU32 (p.uses + 1)) := by
  refine ⟨_, by rw [dispatchTo_getElem?, hp, Option.map_some], ?_⟩
  by_cases hij : i = j <;> simp [hij, hr, Probe.compensate, Probe.use]

section Charged

variable {pool : ProbePool} {i : Nat} {c : Probe}

theorem Compensates.copy_fits (hcomp : pool.Compensates .hclSelect)
    (h : pool.Room 0) (hchosen : pool.Chooses c.replica)
    (happly : PoolOp.hclSelect.apply pool = pool.dispatchTo i c.replica)
    {p : Probe} (hp : p ∈ pool.probes) (hr : p.replica = c.replica) :
    p.rif + 1 < 2 ^ 32 ∧ p.latencyUs * (p.rif + 2) < 2 ^ 64 := by
  obtain ⟨j, hj⟩ := List.mem_iff_getElem?.mp hp
  obtain ⟨p', hp', hrif, hreport, hlatency, -⟩ :=
    dispatchTo_copy (i := i) hj hr
  rw [← happly] at hp'
  have hlt := (hcomp.charged rfl c.replica hchosen j p p' hj hp').2.2 hr
  rw [hrif] at hlt
  have hfits := (le_wrapU32_succ_iff (h p hp).rif).mp hlt.le
  have hexact := hcomp.exact p' (List.mem_of_getElem? hp')
  rw [Probe.exactLatency_iff (hreport ▸ (h p hp).report), hlatency, hrif,
    wrapU32_of_lt hfits] at hexact
  exact ⟨hfits, hexact⟩

theorem Compensates.use_fits (hcomp : pool.Compensates .hclSelect)
    (h : pool.Room 0) (hchosen : pool.Chooses c.replica)
    (happly : PoolOp.hclSelect.apply pool = pool.dispatchTo i c.replica)
    (hc : pool.probes[i]? = some c) : c.uses + 1 < 2 ^ 32 := by
  obtain ⟨c', hc', -, -, -, huses⟩ := dispatchTo_copy (i := i) hc rfl
  rw [← happly] at hc'
  have hle := (hcomp.charged rfl c.replica hchosen i c c' hc hc').1
  rw [huses rfl] at hle
  have hroom := h c (List.mem_of_getElem? hc)
  exact (le_wrapU32_succ_iff hroom.uses).mp hle

end Charged

theorem room_of_compensates {pool : ProbePool} (h : pool.Room 0) {op : PoolOp}
    (hop : op.Decoded) (hcomp : pool.Compensates op) : pool.RoomFor op := by
  cases op with
  | insert p =>
      obtain ⟨hreport, -, hrif, -⟩ := hop p List.mem_cons_self
      refine (Probe.exactLatency_iff (hreport ▸ hrif)).mp (hcomp.exact p ?_)
      rw [apply_insert_probes]
      exact List.mem_append_right _ List.mem_cons_self
  | expire now => trivial
  | hclSelect =>
      intro t i c ht hc
      have hexec := exec_hclSelect_of_isColdest ht hc
      have happly : PoolOp.hclSelect.apply pool =
          pool.dispatchTo i c.replica := by rw [PoolOp.apply, hexec]
      have hchosen : pool.Chooses c.replica := by rw [Chooses, hexec]
      have hcopies := fun p (hp : p ∈ pool.probes) (hr : p.replica = _) =>
        hcomp.copy_fits h hchosen happly hp hr
      exact ⟨⟨hcomp.use_fits h hchosen happly hc.get,
        fun p hp hr => (hcopies p hp hr).1⟩,
        fun p hp hr => (hcopies p hp hr).2⟩
  | removeOne => trivial

/-! ## Runs -/

theorem room_new (k capacity : Nat) (ttl : Duration) (budget : Nat)
    (q : Rat) : (new capacity ttl budget q).Room k :=
  fun _ hp => absurd hp List.not_mem_nil

theorem along_compensates_iff {pool : ProbePool} (hpool : pool.Room 0)
    {ops : List PoolOp} (hops : ∀ op ∈ ops, op.Decoded) :
    Along PoolOp.apply Compensates pool ops ↔
      Along PoolOp.apply RoomFor pool ops := by
  refine along_iff (I := Room 0) ?_ (fun _ _ h => h.apply) hpool hops
  intro pool op hroom hop
  exact ⟨room_of_compensates hroom hop, compensates_of_room hroom hop⟩

def selections (ops : List PoolOp) : Nat := ops.count .hclSelect

theorem along_roomFor {ops : List PoolOp} {pool : ProbePool}
    (hpool : pool.Room (selections ops))
    (hops : ∀ op ∈ ops, ∀ p ∈ op.inserted, p.HasRoom (selections ops)) :
    Along PoolOp.apply RoomFor pool ops := by
  induction ops generalizing pool with
  | nil => trivial
  | cons op ops ih =>
      have hle : selections ops ≤ selections (op :: ops) := by
        simp [selections, List.count_cons]
      have hkept : pool.Room (selections ops) :=
        fun p hp => (hpool p hp).mono hle
      have hrest : ∀ op' ∈ ops, ∀ p ∈ op'.inserted,
          p.HasRoom (selections ops) := fun op' hop' p hp =>
        (hops op' (List.mem_cons_of_mem op hop') p hp).mono hle
      cases op with
      | insert p =>
          have hp := hops _ List.mem_cons_self p List.mem_cons_self
          exact ⟨(hp.mono (Nat.zero_le _)).product,
            ih (hkept.insert (hp.mono hle)) hrest⟩
      | expire now =>
          exact ⟨trivial, ih (hkept.subset (List.filter_subset_self _)) hrest⟩
      | hclSelect =>
          have hmore : selections (.hclSelect :: ops) = selections ops + 1 :=
            List.count_cons_self
          rw [hmore] at hpool
          constructor
          · intro t i c ht hc
            have hone : pool.Room 1 := fun p hp => (hpool p hp).mono (by omega)
            have hmem := List.mem_of_getElem? hc.get
            exact ⟨⟨(hone c hmem).uses, fun p hp _ => (hone p hp).rif⟩,
              fun p hp _ => (hone p hp).product⟩
          · apply ih _ hrest
            rcases apply_hclSelect_cases pool with
              ⟨happly, -⟩ | ⟨t, i, c, ht, hc, happly, -⟩
            · rwa [happly]
            · have hmem := List.mem_of_getElem? hc.get
              rw [happly]
              exact hkept.dispatchTo hc.get (hpool c hmem).uses
                fun p hp _ => ⟨(hpool p hp).rif, (hpool p hp).product⟩
      | removeOne =>
          exact ⟨trivial, ih (hkept.subset (apply_removeOne_subset pool)) hrest⟩

theorem compensates_of_reports (capacity : Nat) (ttl : Duration) (budget : Nat)
    (q : Rat) (ops : List PoolOp)
    (hops : ∀ op ∈ ops, op.Decoded ∧ ∀ p ∈ op.inserted,
      p.rif + selections ops < 2 ^ 32 ∧
        p.latencyUs * (p.rif + selections ops + 1) < 2 ^ 64) :
    Along PoolOp.apply Compensates (new capacity ttl budget q) ops := by
  rw [along_compensates_iff (room_new _ _ _ _ _) fun op hop => (hops op hop).1]
  apply along_roomFor (room_new _ _ _ _ _)
  intro op hop p hp
  obtain ⟨hdecoded, hroom⟩ := hops op hop
  obtain ⟨hreport, huses, hrif, -⟩ := hdecoded p hp
  obtain ⟨hcount, hproduct⟩ := hroom p hp
  exact ⟨by omega, by omega, hcount, hproduct⟩

/--
Along any run of decoded reports compensation works iff no report and no
selection of the run reaches the limits of its width.
-/
theorem compensation_iff_room (capacity : Nat) (ttl : Duration) (budget : Nat)
    (q : Rat) (ops : List PoolOp) (hops : ∀ op ∈ ops, op.Decoded) :
    Along PoolOp.apply Compensates (new capacity ttl budget q) ops ↔
      Along PoolOp.apply RoomFor (new capacity ttl budget q) ops :=
  along_compensates_iff (room_new _ _ _ _ _) hops

def evenReports (rif : Nat) : List PoolOp :=
  [.insert (Probe.fresh 0 ⟨rif, 1000, 0⟩ 1),
   .insert (Probe.fresh 1 ⟨rif, 2000, 0⟩ 2), .hclSelect, .hclSelect]

theorem evenReports_decoded {rif : Nat} (h : rif < 2 ^ 32) :
    ∀ op ∈ evenReports rif, op.Decoded := by
  simp [evenReports, PoolOp.Decoded, PoolOp.inserted, Probe.fresh]
  omega

theorem lowReports_compensated :
    Along PoolOp.apply Compensates (new 4 (fromMillis 1000) 9 defaultQRif)
      (evenReports 5) := by
  refine (compensation_iff_room 4 (fromMillis 1000) 9 defaultQRif
    (evenReports 5) (evenReports_decoded (by decide))).mpr ?_
  exact along_roomFor (room_new _ _ _ _ _) (by decide)

/-- At the limit the first dispatch turns a RIF of `u32Max` into zero. -/
theorem wrapped_rif_attracts : ¬ ∀ (capacity : Nat) (ttl : Duration)
    (budget : Nat) (q : Rat) (ops : List PoolOp),
    (∀ op ∈ ops, op.Decoded) →
      Along PoolOp.apply Compensates (new capacity ttl budget q) ops := by
  intro hall
  obtain ⟨-, -, ⟨-, hcharged⟩, -⟩ := hall 4 (fromMillis 1000) 9 defaultQRif
    (evenReports u32Max) (evenReports_decoded (by decide))
  have hrif := (hcharged rfl 0 (by unfold Chooses; decide +kernel) 0
    (Probe.fresh 0 ⟨u32Max, 1000, 0⟩ 1) ⟨0, 0, u32Max, 1000, 1, 1⟩ rfl
    (by decide +kernel)).2.2 rfl
  exact absurd hrif (Nat.not_lt_zero _)

end ProbePool

end Prequal
