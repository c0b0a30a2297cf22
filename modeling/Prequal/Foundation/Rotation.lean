import Mathlib.Data.Int.CardIntervalMod

/-!
# Rotation by a wrapping counter

A counter that wraps at `M`, reduced modulo `n`, visits `n` positions in turn.
Between two wraps no position gets ahead of another by more than one visit.
Each wrap restarts the rotation and can cost one more.
-/

namespace Prequal.Foundation

variable {M n r r' : Nat}

def turn (M n k : Nat) : Nat := k % M % n

def visits (M n r count : Nat) : Nat := count.count fun k => turn M n k = r

theorem turn_add (k : Nat) : turn M n (M + k) = turn M n k := by
  simp [turn]

theorem visits_succ (r count : Nat) :
    visits M n r (count + 1) =
      visits M n r count + if turn M n count = r then 1 else 0 := by
  rw [visits, Nat.count_succ, visits]

theorem visits_of_le (hn : 0 < n) (hr : r < n) {count : Nat}
    (h : count ≤ M) :
    visits M n r count = count / n + if r < count % n then 1 else 0 := by
  have hcongr : visits M n r count = count.count (· ≡ r [MOD n]) := by
    rw [visits, Nat.count_eq_card_filter_range,
      Nat.count_eq_card_filter_range]
    congr 1
    refine Finset.filter_congr fun k hk => ?_
    have hlt : k < M := (Finset.mem_range.mp hk).trans_le h
    rw [turn, Nat.mod_eq_of_lt hlt, Nat.ModEq, Nat.mod_eq_of_lt hr]
  rw [hcongr, Nat.count_modEq_card _ hn, Nat.mod_eq_of_lt hr]

theorem visits_add (r count : Nat) :
    visits M n r (M + count) = visits M n r M + visits M n r count := by
  simp only [visits, Nat.count_add, turn_add]

theorem visits_le (hM : 0 < M) (hn : 0 < n) (hr : r < n) (hr' : r' < n)
    (count : Nat) :
    visits M n r count ≤ visits M n r' count + 1 + count / M := by
  induction count using Nat.strong_induction_on with
  | _ count ih =>
      by_cases hle : count ≤ M
      · rw [visits_of_le hn hr hle, visits_of_le hn hr' hle]
        generalize count / M = wraps
        split <;> split <;> omega
      · obtain ⟨rest, rfl⟩ := Nat.exists_eq_add_of_le (not_le.mp hle).le
        have hrest := ih rest (by omega)
        have hwrap : (M + rest) / M = rest / M + 1 := by
          rw [Nat.add_div_left _ hM]
        rw [visits_add, visits_add, hwrap, visits_of_le hn hr le_rfl,
          visits_of_le hn hr' le_rfl]
        generalize rest / M = wraps at hrest ⊢
        split <;> split <;> omega

theorem visits_of_dvd (hn : 0 < n) (hr : r < n) (hdvd : n ∣ M)
    (count : Nat) :
    visits M n r count = count / n + if r < count % n then 1 else 0 := by
  have hcongr : visits M n r count = visits count n r count := by
    rw [visits, visits, Nat.count_eq_card_filter_range,
      Nat.count_eq_card_filter_range]
    congr 1
    refine Finset.filter_congr fun k hk => ?_
    rw [turn, turn, Nat.mod_mod_of_dvd k hdvd,
      Nat.mod_eq_of_lt (Finset.mem_range.mp hk)]
  rw [hcongr, visits_of_le hn hr le_rfl]

end Prequal.Foundation
