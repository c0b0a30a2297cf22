import Mathlib.Algebra.Group.Nat.Defs
import Mathlib.Tactic.Common

/-!
# The runtime fragment shared by every component

Machine integers are natural numbers reduced where the code's own arithmetic
can leave its width.  Points in time are nanoseconds since an arbitrary
origin, so a duration between two of them is a truncated difference.
-/

namespace Prequal.Foundation

inductive Panic where
  | indexOutOfBounds
  | unwrapNone
  | divisionByZero
  deriving DecidableEq, Repr

/-! ## Fixed-width arithmetic -/

def u32Max : Nat := 2 ^ 32 - 1

def wrapU32 (n : Nat) : Nat := n % 2 ^ 32

def wrapU64 (n : Nat) : Nat := n % 2 ^ 64

theorem wrapU32_of_lt {n : Nat} (h : n < 2 ^ 32) : wrapU32 n = n :=
  Nat.mod_eq_of_lt h

theorem wrapU64_of_lt {n : Nat} (h : n < 2 ^ 64) : wrapU64 n = n :=
  Nat.mod_eq_of_lt h

theorem wrapU32_le (n : Nat) : wrapU32 n ≤ n := Nat.mod_le _ _

def absDiff (a b : Nat) : Nat := (a - b) + (b - a)

/-! ## Points in time -/

abbrev Instant := Nat

abbrev Duration := Nat

/-- Time elapsed from `earlier` to `now`, zero when `earlier` lies ahead. -/
def durationSince (now earlier : Instant) : Duration := now - earlier

def fromMillis (ms : Nat) : Duration := ms * 1000000

end Prequal.Foundation
