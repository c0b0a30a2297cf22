import Prequal.Client.Wrr

/-!
# What the weights stand for

The refresher visits the replicas in turn and a probe that gets lost leaves the
weight alone.  So at any time the weight of a replica is that of the last
report it gave, however long ago that was.
-/

namespace Prequal

open Foundation

namespace Wrr

def lastReport (n r : Nat) (fetches : List (Option ProbeResponse)) :
    Option ProbeResponse :=
  (fetches.zipIdx.filterMap fun e =>
    if e.2 % n = r then e.1 else none).getLast?

def latestWeight (n r : Nat) (fetches : List (Option ProbeResponse)) : Rat :=
  ((lastReport n r fetches).map weight).getD 1

theorem lastReport_concat (n r : Nat)
    (past : List (Option ProbeResponse)) (fetched : Option ProbeResponse) :
    lastReport n r (past ++ [fetched]) =
      if past.length % n = r then fetched.or (lastReport n r past)
      else lastReport n r past := by
  rw [lastReport, List.zipIdx_append, List.filterMap_append,
    List.getLast?_append]
  by_cases hr : past.length % n = r
  · cases fetched <;> simp [hr, lastReport]
  · simp [hr, lastReport]

theorem latestWeight_other {n r : Nat} {past : List (Option ProbeResponse)}
    (hr : past.length % n ≠ r) (fetched : Option ProbeResponse) :
    latestWeight n r (past ++ [fetched]) = latestWeight n r past := by
  rw [latestWeight, latestWeight, lastReport_concat, if_neg hr]

theorem latestWeight_none {n r : Nat}
    (past : List (Option ProbeResponse)) :
    latestWeight n r (past ++ [none]) = latestWeight n r past := by
  rw [latestWeight, latestWeight, lastReport_concat, Option.none_or, ite_self]

theorem latestWeight_some {n r : Nat} {past : List (Option ProbeResponse)}
    (hr : past.length % n = r) (resp : ProbeResponse) :
    latestWeight n r (past ++ [some resp]) = weight resp := by
  rw [latestWeight, lastReport_concat, if_pos hr]
  rfl

structure Latest (n : Nat) (fetches : List (Option ProbeResponse))
    (wrr : Wrr) : Prop where
  length : wrr.weights.length = n
  next : wrr.next = fetches.length % n
  weights : ∀ r < n, wrr.weights[r]? = some (latestWeight n r fetches)

theorem new_latest (n : Nat) : Latest n [] (new n) where
  length := List.length_replicate
  next := by simp [new]
  weights := by
    intro r hr
    simp [new, hr, latestWeight, lastReport]

theorem Latest.refresh {n : Nat} (hn : 1 ≤ n)
    {past : List (Option ProbeResponse)} {wrr : Wrr}
    (h : Latest n past wrr) (fetched : Option ProbeResponse) :
    ∃ wrr', wrr.refresh n fetched = .ok wrr' ∧
      Latest n (past ++ [fetched]) wrr' := by
  have hnext : (wrr.next + 1) % n = (past ++ [fetched]).length % n := by
    rw [h.next, List.length_append, List.length_singleton, Nat.mod_add_mod]
  cases fetched with
  | none =>
      refine ⟨⟨wrr.weights, (wrr.next + 1) % n⟩, rfl, h.length, hnext, ?_⟩
      intro r hr
      rw [latestWeight_none]
      exact h.weights r hr
  | some resp =>
      have hlt : wrr.next < wrr.weights.length := by
        rw [h.length, h.next]
        exact Nat.mod_lt _ hn
      refine ⟨⟨wrr.weights.set wrr.next (weight resp), (wrr.next + 1) % n⟩,
        by simp [Wrr.refresh, store, hlt], ?_, hnext, ?_⟩
      · rw [List.length_set, h.length]
      · intro r hr
        dsimp only
        rw [List.getElem?_set]
        by_cases hvisit : wrr.next = r
        · rw [if_pos hvisit, if_pos hlt,
            latestWeight_some (h.next.symm.trans hvisit)]
        · rw [if_neg hvisit, h.weights r hr,
            latestWeight_other fun heq => hvisit (h.next.trans heq)]

/--
After any fetches, lost ones among them, the refresher has gone round in turn
and keeps for each replica the weight of its last report: it never unwinds, and
the weight times the utilisation reported, but at least 5%, is one.
-/
theorem weights_are_latest (n : Nat) (hn : 1 ≤ n)
    (fetches : List (Option ProbeResponse)) :
    ∃ wrr, run n fetches = .ok wrr ∧ wrr.next = fetches.length % n ∧
      wrr.weights.length = n ∧ ∀ r < n,
        wrr.weights[r]? = some (latestWeight n r fetches) ∧
        (lastReport n r fetches = none → latestWeight n r fetches = 1) ∧
        ∀ resp, lastReport n r fetches = some resp →
          latestWeight n r fetches * max resp.cpuUtil (1 / 20) = 1 := by
  obtain ⟨wrr, hrun, hlatest⟩ := foldlM_history (Wrr.refresh n)
    (Latest n) (new n) (new_latest n)
    (fun _ fetched _ h => h.refresh hn fetched) fetches
  refine ⟨wrr, hrun, hlatest.next, hlatest.length, fun r hr =>
    ⟨hlatest.weights r hr, fun hnone => ?_, fun resp hsome => ?_⟩⟩
  · rw [latestWeight, hnone]
    rfl
  · have hpos : max resp.cpuUtil (1 / 20) ≠ 0 :=
      (lt_of_lt_of_le (by norm_num) (le_max_right _ _)).ne'
    rw [latestWeight, hsome, Option.map_some, Option.getD_some, weight,
      one_div_mul_cancel hpos]

theorem threeFetches_latest : ∃ wrr,
    run 2 [none, some ⟨0, 0, 1 / 2⟩, none, none] = .ok wrr ∧
      wrr.next = 0 ∧ wrr.weights[1]? = some 2 := by
  obtain ⟨wrr, hrun, hnext, -, hweights⟩ := weights_are_latest 2 (by decide)
    [none, some ⟨0, 0, 1 / 2⟩, none, none]
  refine ⟨wrr, hrun, hnext, ?_⟩
  rw [(hweights 1 (by decide)).1]
  decide +kernel

end Wrr

end Prequal
