import Prequal.Foundation.Runtime
import Mathlib.Data.Rat.Floor
import Mathlib.Algebra.Order.Field.Basic
import Mathlib.Tactic.Linarith

/-!
# Wire types and tuning parameters

Floating-point parameters are exact rationals.  A cast back to an integer
saturates at both ends of its range, so `reuseBudget` clamps at `u32Max`.
There is at least one replica: the quotient by zero is `0` here, infinite there.
-/

namespace Prequal

open Foundation

structure ProbeResponse where
  rif : Nat
  latencyUs : Nat
  cpuUtil : Rat
  deriving DecidableEq, Repr

structure PrequalConfig where
  poolCapacity : Nat
  probeTtlMs : Nat
  rProbe : Nat
  rRemove : Nat
  delta : Rat
  qRif : Rat
  deriving DecidableEq, Repr

/-- The default quantile is the double nearest to `2 ^ (-1/4)`. -/
def defaultQRif : Rat := 7574121564787629 / 9007199254740992

def PrequalConfig.default : PrequalConfig where
  poolCapacity := 16
  probeTtlMs := 1000
  rProbe := 3
  rRemove := 1
  delta := 1
  qRif := defaultQRif

/--
Maximum times one probe may be reused.  `net` is the rate at which probes grow
the pool less the rate at which queries drain it.
-/
def PrequalConfig.reuseBudget (cfg : PrequalConfig) (nReplicas : Nat) : Nat :=
  let m : Rat := cfg.poolCapacity
  let n : Rat := nReplicas
  let net := (1 - m / n) * cfg.rProbe - cfg.rRemove
  if net ≤ 0 then u32Max
  else min u32Max ⌈max ((1 + cfg.delta) / net) 1⌉.toNat

theorem PrequalConfig.reuseBudget_le (cfg : PrequalConfig) (n : Nat) :
    cfg.reuseBudget n ≤ u32Max := by
  simp only [reuseBudget]
  split
  · exact le_rfl
  · exact min_le_left _ _

theorem PrequalConfig.one_le_reuseBudget (cfg : PrequalConfig) (n : Nat) :
    1 ≤ cfg.reuseBudget n := by
  simp only [reuseBudget]
  split
  · decide
  · refine le_min (by decide) ?_
    have hone : (1 : Int) ≤ ⌈max ((1 + cfg.delta) /
        ((1 - (cfg.poolCapacity : Rat) / n) * cfg.rProbe - cfg.rRemove)) 1⌉ :=
      Int.one_le_ceil_iff.mpr (lt_max_of_lt_right one_pos)
    omega

example : PrequalConfig.default.reuseBudget 100 = 2 := by decide +kernel

/-! ## Monotonicity of the budget -/

def PrequalConfig.netGrowth (cfg : PrequalConfig) (n : Nat) : Rat :=
  (1 - (cfg.poolCapacity : Rat) / n) * cfg.rProbe - cfg.rRemove

def budgetOf (delta net : Rat) : Nat :=
  if net ≤ 0 then u32Max else min u32Max ⌈max ((1 + delta) / net) 1⌉.toNat

theorem PrequalConfig.reuseBudget_eq (cfg : PrequalConfig) (n : Nat) :
    cfg.reuseBudget n = budgetOf cfg.delta (cfg.netGrowth n) := rfl

theorem budgetOf_le (delta net : Rat) : budgetOf delta net ≤ u32Max := by
  unfold budgetOf
  split
  · exact le_rfl
  · exact min_le_left _ _

private theorem ceil_toNat_mono {x y : Rat} (h : x ≤ y) :
    ⌈max x 1⌉.toNat ≤ ⌈max y 1⌉.toNat :=
  Int.toNat_le_toNat (Int.ceil_le_ceil (max_le_max h le_rfl))

theorem budgetOf_antitone {delta net net' : Rat} (hdelta : 0 ≤ delta)
    (h : net ≤ net') : budgetOf delta net' ≤ budgetOf delta net := by
  by_cases hnet : net ≤ 0
  · have hmax : budgetOf delta net = u32Max := if_pos hnet
    rw [hmax]
    exact budgetOf_le delta net'
  · have hpos : 0 < net := not_le.mp hnet
    have hnet' : ¬ net' ≤ 0 := not_le.mpr (hpos.trans_le h)
    rw [budgetOf, budgetOf, if_neg hnet, if_neg hnet']
    refine min_le_min le_rfl (ceil_toNat_mono ?_)
    exact div_le_div_of_nonneg_left (by linarith) hpos h

theorem budgetOf_mono {delta delta' : Rat} (net : Rat) (h : delta ≤ delta') :
    budgetOf delta net ≤ budgetOf delta' net := by
  unfold budgetOf
  split
  · exact le_rfl
  · rename_i hnet
    refine min_le_min le_rfl (ceil_toNat_mono ?_)
    exact div_le_div_of_nonneg_right (by linarith) (not_le.mp hnet).le

namespace PrequalConfig

variable {cfg cfg' : PrequalConfig} {n : Nat}

theorem netGrowth_le (hrate : (1 - (cfg.poolCapacity : Rat) / n) * cfg.rProbe ≤
      (1 - (cfg'.poolCapacity : Rat) / n) * cfg'.rProbe)
    (hremove : cfg'.rRemove ≤ cfg.rRemove) :
    cfg.netGrowth n ≤ cfg'.netGrowth n := by
  have hcast : (cfg'.rRemove : Rat) ≤ cfg.rRemove := by exact_mod_cast hremove
  unfold netGrowth
  linarith

theorem netGrowth_nonpos (hn : 1 ≤ n) (h : n ≤ cfg.poolCapacity) :
    cfg.netGrowth n ≤ 0 := by
  have hpos : (0 : Rat) < n := by exact_mod_cast hn
  have hratio : 1 ≤ (cfg.poolCapacity : Rat) / n := by
    rw [le_div_iff₀ hpos, one_mul]
    exact_mod_cast h
  have hrate : (1 - (cfg.poolCapacity : Rat) / n) * cfg.rProbe ≤ 0 :=
    mul_nonpos_of_nonpos_of_nonneg (by linarith) (Nat.cast_nonneg _)
  have hremove : (0 : Rat) ≤ cfg.rRemove := Nat.cast_nonneg _
  unfold netGrowth
  linarith

end PrequalConfig

/--
The budget follows the formula and moves with its parameters in one direction
each: more room, more removals and more slack never lower it, more probes and
more replicas never raise it.
-/
theorem PrequalConfig.reuseBudget_spec (cfg : PrequalConfig) (n : Nat)
    (hn : 1 ≤ n) (hdelta : 0 ≤ cfg.delta) :
    let net := (1 - (cfg.poolCapacity : Rat) / n) * cfg.rProbe - cfg.rRemove
    (net ≤ 0 → cfg.reuseBudget n = u32Max) ∧
    (0 < net → cfg.reuseBudget n =
      min u32Max ⌈max 1 ((1 + cfg.delta) / net)⌉₊) ∧
    1 ≤ cfg.reuseBudget n ∧
    (∀ m, cfg.poolCapacity ≤ m →
      cfg.reuseBudget n ≤ { cfg with poolCapacity := m }.reuseBudget n) ∧
    (∀ r, cfg.rRemove ≤ r →
      cfg.reuseBudget n ≤ { cfg with rRemove := r }.reuseBudget n) ∧
    (∀ d, cfg.delta ≤ d →
      cfg.reuseBudget n ≤ { cfg with delta := d }.reuseBudget n) ∧
    (∀ r, cfg.rProbe ≤ r →
      { cfg with rProbe := r }.reuseBudget n ≤ cfg.reuseBudget n) ∧
    (∀ n', n ≤ n' → cfg.reuseBudget n' ≤ cfg.reuseBudget n) := by
  intro net
  have hpos : (0 : Rat) < n := by exact_mod_cast hn
  have hprobe : (0 : Rat) ≤ cfg.rProbe := Nat.cast_nonneg _
  refine ⟨fun h => if_pos h, fun h => ?_, cfg.one_le_reuseBudget n, ?_, ?_,
    ?_, ?_, ?_⟩
  · have hnet : cfg.netGrowth n = net := rfl
    rw [reuseBudget_eq, hnet, budgetOf, if_neg (not_le.mpr h), max_comm,
      Int.ceil_toNat]
  · intro m hm
    refine budgetOf_antitone hdelta (netGrowth_le ?_ le_rfl)
    have hcast : (cfg.poolCapacity : Rat) ≤ m := by exact_mod_cast hm
    have hratio := div_le_div_of_nonneg_right hcast hpos.le
    exact mul_le_mul_of_nonneg_right (by linarith) hprobe
  · intro r hr
    exact budgetOf_antitone hdelta (netGrowth_le le_rfl hr)
  · intro d hd
    exact budgetOf_mono _ hd
  · intro r hr
    rcases le_total n cfg.poolCapacity with hfull | hroom
    · -- Both pools only shrink, whatever the probe rate.
      have hmax : cfg.reuseBudget n = u32Max :=
        if_pos (netGrowth_nonpos hn hfull)
      rw [hmax]
      exact reuseBudget_le _ n
    · refine budgetOf_antitone hdelta (netGrowth_le ?_ le_rfl)
      have hratio : (cfg.poolCapacity : Rat) / n ≤ 1 := by
        rw [div_le_one hpos]
        exact_mod_cast hroom
      have hcast : (cfg.rProbe : Rat) ≤ r := by exact_mod_cast hr
      exact mul_le_mul_of_nonneg_left hcast (by linarith)
  · intro n' hn'
    refine budgetOf_antitone hdelta ?_
    have hcast : (n : Rat) ≤ n' := by exact_mod_cast hn'
    have hratio : (cfg.poolCapacity : Rat) / n' ≤ cfg.poolCapacity / n :=
      div_le_div_of_nonneg_left (Nat.cast_nonneg _) hpos hcast
    have hrate := mul_le_mul_of_nonneg_right
      (by linarith : 1 - (cfg.poolCapacity : Rat) / n ≤
        1 - cfg.poolCapacity / n') hprobe
    exact sub_le_sub_right hrate _

theorem PrequalConfig.default_reuseBudget_le :
    PrequalConfig.default.reuseBudget 200 ≤
      PrequalConfig.default.reuseBudget 100 := by
  obtain ⟨-, -, -, -, -, -, -, hreplicas⟩ :=
    PrequalConfig.reuseBudget_spec .default 100 (by decide)
      (by decide +kernel)
  exact hreplicas 200 (by decide)

end Prequal
