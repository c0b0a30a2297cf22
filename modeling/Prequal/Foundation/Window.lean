import Mathlib.Data.List.DropRight
import Mathlib.Data.List.Rotate

/-!
# Windows of a history

The last `k` elements of a growing list move on by one element at a time.  A
vector of fixed length that is overwritten circularly holds such a window, up
to a rotation by the next slot to overwrite.
-/

namespace Prequal.Foundation

open scoped List

variable {α β : Type*}

theorem rtake_of_length_le {l : List α} {k : Nat} (h : l.length ≤ k) :
    l.rtake k = l := by
  rw [List.rtake, Nat.sub_eq_zero_of_le h, List.drop_zero]

theorem length_rtake (l : List α) (k : Nat) :
    (l.rtake k).length = min k l.length := by
  rw [List.rtake, List.length_drop]
  omega

theorem rtake_sublist (l : List α) (k : Nat) : (l.rtake k).Sublist l :=
  List.drop_sublist _ _

theorem rtake_concat_of_lt {l : List α} {k : Nat} (h : l.length < k) (a : α) :
    (l ++ [a]).rtake k = l.rtake k ++ [a] := by
  rw [rtake_of_length_le h.le, rtake_of_length_le]
  rw [List.length_append]
  exact h

theorem rtake_concat_of_le {l : List α} {k : Nat} (hk : 0 < k)
    (h : k ≤ l.length) (a : α) :
    (l ++ [a]).rtake k = (l.rtake k).tail ++ [a] := by
  obtain ⟨k, rfl⟩ : ∃ j, k = j + 1 := ⟨k - 1, by omega⟩
  rw [List.rtake_concat_succ, List.rtake, List.rtake, List.tail_drop]
  congr 2
  omega

theorem rotate_set_next {v : List α} {head : Nat} (h : head < v.length)
    (a : α) :
    (v.set head a).rotate ((head + 1) % v.length) =
      (v.rotate head).tail ++ [a] := by
  obtain ⟨init, x, rest, hv, hhead⟩ : ∃ init x rest,
      v = init ++ x :: rest ∧ init.length = head :=
    ⟨v.take head, v[head], v.drop (head + 1), by simp, by
      rw [List.length_take]
      omega⟩
  subst hv hhead
  have hset : (init ++ x :: rest).set init.length a =
      (init ++ [a]) ++ rest := by simp
  have hlength : (init ++ x :: rest).length = ((init ++ [a]) ++ rest).length := by
    simp
  have hnext : init.length + 1 = (init ++ [a]).length := by simp
  rw [hset, hlength, List.rotate_mod, hnext, List.rotate_append_length_eq,
    List.rotate_append_length_eq]
  simp

end Prequal.Foundation
