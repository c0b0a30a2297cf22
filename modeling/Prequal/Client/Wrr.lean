import Prequal.Config
import Prequal.Foundation.Cumulative
import Prequal.Foundation.Execution
import Mathlib.Algebra.Order.BigOperators.Group.List

/-!
# Weighted round robin

A background task visits the replicas in turn and turns every report it gets
into a weight.  A selection draws below the total weight and walks the weights
down; the weights are positive whatever the replicas report, so the walk ends
inside its loop.
-/

namespace Prequal

open Foundation

/-! ## The refresher -/

/-- The weights of a balancer and the replica its refresher visits next. -/
structure Wrr where
  weights : List Rat
  next : Nat
  deriving DecidableEq, Repr

namespace Wrr

def new (n : Nat) : Wrr := ⟨List.replicate n 1, 0⟩

def weight (resp : ProbeResponse) : Rat := 1 / max resp.cpuUtil (1 / 20)

def store (weights : List Rat) (i : Nat) (w : Rat) : Except Panic (List Rat) :=
  if i < weights.length then .ok (weights.set i w)
  else .error .indexOutOfBounds

/-- One iteration of the loop over the `n` replicas, which starts over. -/
def refresh (n : Nat) (wrr : Wrr) (fetched : Option ProbeResponse) :
    Except Panic Wrr := do
  let next := (wrr.next + 1) % n
  match fetched with
  | some resp =>
      let weights ← store wrr.weights wrr.next (weight resp)
      return ⟨weights, next⟩
  | none => return ⟨wrr.weights, next⟩

def run (n : Nat) (fetches : List (Option ProbeResponse)) :
    Except Panic Wrr :=
  fetches.foldlM (refresh n) (new n)

structure Valid (n : Nat) (wrr : Wrr) : Prop where
  length : wrr.weights.length = n
  next : wrr.next < n
  pos : ∀ w ∈ wrr.weights, 0 < w
  le : ∀ w ∈ wrr.weights, w ≤ 20

theorem weight_pos (resp : ProbeResponse) : 0 < weight resp := by
  apply one_div_pos.mpr
  exact lt_of_lt_of_le (by norm_num) (le_max_right _ _)

theorem weight_le (resp : ProbeResponse) : weight resp ≤ 20 := by
  have hle : 1 / max resp.cpuUtil (1 / 20) ≤ 1 / (1 / 20) :=
    one_div_le_one_div_of_le (by norm_num) (le_max_right _ _)
  rwa [one_div_one_div] at hle

theorem new_valid {n : Nat} (hn : 1 ≤ n) : (new n).Valid n where
  length := List.length_replicate
  next := hn
  pos := fun w hw => by
    rw [List.eq_of_mem_replicate hw]
    exact one_pos
  le := fun w hw => by
    rw [List.eq_of_mem_replicate hw]
    norm_num

theorem Valid.refresh {n : Nat} {wrr : Wrr} (h : wrr.Valid n)
    (fetched : Option ProbeResponse) :
    ∃ wrr', wrr.refresh n fetched = .ok wrr' ∧ wrr'.Valid n := by
  have hnext : (wrr.next + 1) % n < n := Nat.mod_lt _ (by have := h.next; omega)
  cases fetched with
  | none => exact ⟨_, rfl, h.length, hnext, h.pos, h.le⟩
  | some resp =>
      have hlt : wrr.next < wrr.weights.length := h.length ▸ h.next
      refine ⟨⟨wrr.weights.set wrr.next (weight resp), (wrr.next + 1) % n⟩,
        ?_, ?_, hnext, ?_, ?_⟩
      · simp [Wrr.refresh, store, hlt]
      · rw [List.length_set, h.length]
      · intro w hw
        rcases List.mem_or_eq_of_mem_set hw with hw | rfl
        · exact h.pos w hw
        · exact weight_pos resp
      · intro w hw
        rcases List.mem_or_eq_of_mem_set hw with hw | rfl
        · exact h.le w hw
        · exact weight_le resp

theorem run_valid {n : Nat} (hn : 1 ≤ n)
    (fetches : List (Option ProbeResponse)) :
    ∃ wrr, run n fetches = .ok wrr ∧ wrr.Valid n :=
  foldlM_history (Wrr.refresh n) (fun _ => Valid n) (new n) (new_valid hn)
    (fun _ fetched _ h => h.refresh fetched) fetches

/-! ## The draw -/

def walk (i : Nat) : List Rat → Rat → Option Nat
  | [], _ => none
  | w :: weights, x =>
      let x := x - w
      if x ≤ 0 then some i else walk (i + 1) weights x

def select (n : Nat) (weights : List Rat) (draw : Rat) : Nat :=
  (walk 0 weights draw).getD (n - 1)

theorem walk_eq (i : Nat) (weights : List Rat) (x : Rat) :
    walk i weights x = (locate weights x).map (· + i) := by
  induction weights generalizing i x with
  | nil => rfl
  | cons w weights ih =>
      simp only [walk, locate]
      split
      · simp
      · rw [ih, Option.map_map]
        congr 1
        funext j
        simp only [Function.comp_apply]
        omega

theorem walk_zero (weights : List Rat) (x : Rat) :
    walk 0 weights x = locate weights x := by
  simp [walk_eq]

/-- The draw lies above the weights before `i` and not above those up to `i`. -/
def Hits (weights : List Rat) (draw : Rat) (i : Nat) : Prop :=
  (cumulative weights i < draw ∧ draw ≤ cumulative weights (i + 1)) ∨
    (draw = 0 ∧ i = 0)

theorem walk_eq_some_iff {weights : List Rat} (hpos : ∀ w ∈ weights, 0 < w)
    {x : Rat} (hx : 0 ≤ x ∧ x < weights.sum) {i : Nat} :
    walk 0 weights x = some i ↔ Hits weights x i := by
  rw [walk_zero, locate_eq_some_iff hpos, Hits]
  constructor
  · rintro ⟨-, rfl | hbefore, hafter⟩
    · rcases hx.1.eq_or_lt with hzero | hlt
      · exact .inr ⟨hzero.symm, rfl⟩
      · exact .inl ⟨hlt, hafter⟩
    · exact .inl ⟨hbefore, hafter⟩
  · rintro (⟨hbefore, hafter⟩ | ⟨rfl, rfl⟩)
    · refine ⟨?_, .inr hbefore, hafter⟩
      by_contra hge
      rw [cumulative, List.take_of_length_le (by omega)] at hbefore
      exact lt_asymm hbefore hx.2
    · refine ⟨?_, .inl rfl, cumulative_nonneg hpos _⟩
      by_contra hnil
      obtain rfl : weights = [] := List.eq_nil_of_length_eq_zero (by omega)
      exact lt_irrefl _ hx.2

theorem exists_hit {weights : List Rat} (hpos : ∀ w ∈ weights, 0 < w)
    (hne : weights ≠ []) {x : Rat} (hx : 0 ≤ x ∧ x < weights.sum) :
    ∃ i < weights.length, walk 0 weights x = some i ∧
      ∀ j, Hits weights x j ↔ j = i := by
  obtain ⟨i, hi⟩ := locate_isSome hne hx.2.le
  refine ⟨i, ((locate_eq_some_iff hpos).mp hi).1, ?_, fun j => ?_⟩
  · rw [walk_zero, hi]
  · rw [← walk_eq_some_iff hpos hx, walk_zero, hi, Option.some.injEq, eq_comm]

/--
Whatever the reports, the refresher never unwinds and keeps one weight in
`(0, 20]` for each replica.  For all such weights a draw below the total ends
inside the loop at the one weight it hits, and the draws that select a replica
are an interval as long as its weight.
-/
theorem draws_in_proportion (n : Nat) (hn : 1 ≤ n) :
    (∀ fetches : List (Option ProbeResponse), ∃ wrr,
      run n fetches = .ok wrr ∧ wrr.weights.length = n ∧
        ∀ w ∈ wrr.weights, 0 < w ∧ w ≤ 20) ∧
    ∀ weights : List Rat, weights.length = n →
      (∀ w ∈ weights, 0 < w ∧ w ≤ 20) →
      0 < weights.sum ∧
      (∀ x, 0 ≤ x → x < weights.sum → ∃ i < n,
        walk 0 weights x = some i ∧ select n weights x = i ∧
          ∀ j, Hits weights x j ↔ j = i) ∧
      ∀ (i : Nat) (w : Rat), weights[i]? = some w →
        let draws := {x | 0 ≤ x ∧ x < weights.sum ∧ select n weights x = i}
        draws.OrdConnected ∧
          Set.Ioo (cumulative weights i) (cumulative weights i + w) ⊆ draws ∧
          draws ⊆
            Set.Icc (cumulative weights i) (cumulative weights i + w) := by
  constructor
  · intro fetches
    obtain ⟨wrr, hrun, hvalid⟩ := run_valid hn fetches
    exact ⟨wrr, hrun, hvalid.length, fun w hw => ⟨hvalid.pos w hw,
      hvalid.le w hw⟩⟩
  · intro weights hlength hweights
    have hpos : ∀ w ∈ weights, 0 < w := fun w hw => (hweights w hw).1
    have hne : weights ≠ [] := by
      rintro rfl
      simp at hlength
      omega
    have hselect : ∀ x, 0 ≤ x → x < weights.sum → ∃ i < n,
        walk 0 weights x = some i ∧ select n weights x = i ∧
          ∀ j, Hits weights x j ↔ j = i := by
      intro x hx hlt
      obtain ⟨i, hi, hwalk, hhits⟩ := exists_hit hpos hne ⟨hx, hlt⟩
      exact ⟨i, hlength ▸ hi, hwalk, by rw [select, hwalk]; rfl, hhits⟩
    refine ⟨List.sum_pos weights hpos hne, hselect, ?_⟩
    intro i w hw draws
    have hdraws : draws = drawsOf weights i := by
      ext x
      refine and_congr_right fun hx => and_congr_right fun hlt => ?_
      obtain ⟨j, -, hwalk, hj, -⟩ := hselect x hx hlt
      rw [hj, ← walk_zero, hwalk, Option.some.injEq]
    rw [hdraws]
    exact drawsOf_interval hpos hw

def twoWeights : List Rat := [weight ⟨0, 0, 1⟩, weight ⟨0, 0, 2 / 5⟩]

theorem twoWeights_drawn :
    ∃ i < 2, walk 0 twoWeights 1 = some i ∧ select 2 twoWeights 1 = i := by
  have hweights : ∀ w ∈ twoWeights, 0 < w ∧ w ≤ 20 := by decide +kernel
  have hdraw := ((draws_in_proportion 2 (by decide)).2 twoWeights rfl
    hweights).2.1 1 (by decide) (by decide +kernel)
  obtain ⟨i, hi, hwalk, hselect, -⟩ := hdraw
  exact ⟨i, hi, hwalk, hselect⟩

end Wrr

end Prequal
