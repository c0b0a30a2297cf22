import Mathlib.Algebra.BigOperators.Group.Finset.Basic
import Mathlib.Algebra.BigOperators.Group.Finset.Piecewise
import Mathlib.Algebra.BigOperators.Group.List.Basic
import Mathlib.Algebra.GroupWithZero.Nat
import Mathlib.Data.Finset.Card
import Mathlib.Data.List.Induction
import Mathlib.Data.List.Nodup
import Mathlib.Data.Set.Insert
import Prequal.Foundation.Vec

/-!
# Tables whose entries hold keys

A table grows at its end and an entry keeps its number when it changes.  Some
entries hold a key that has been issued to them.  Keys are never issued twice
and never taken back, so counting the keys of a set counts their holders.
-/

namespace Prequal.Foundation

open scoped List

variable {α κ : Type*} {table : List α} {i j : Nat} {x y : α}

/-! ## Entries by number -/

theorem getElem?_concat (table : List α) (y : α) (j : Nat) :
    (table ++ [y])[j]? = if j = table.length then some y else table[j]? := by
  rcases Nat.lt_trichotomy j table.length with hlt | rfl | hgt
  · rw [List.getElem?_append_left hlt, if_neg hlt.ne]
  · simp
  · rw [if_neg hgt.ne', List.getElem?_eq_none hgt.le,
      List.getElem?_eq_none (by simpa using Nat.succ_le_of_lt hgt)]

theorem getElem?_set_of_some (h : table[i]? = some x) (y : α) (j : Nat) :
    (table.set i y)[j]? = if i = j then some y else table[j]? := by
  have hi : i < table.length := (List.getElem?_eq_some_iff.mp h).1
  by_cases hij : i = j
  · subst hij
    simp [hi]
  · simp [hij]

theorem set_self (h : table[i]? = some x) : table.set i x = table := by
  refine List.ext_getElem? fun j => ?_
  rw [getElem?_set_of_some h]
  split
  · rename_i hij
    rw [← hij, h]
  · rfl

theorem set_ne (h : table[i]? = some x) (hne : y ≠ x) :
    table.set i y ≠ table := by
  intro hsame
  have hget := congrArg (fun table => table[i]?) hsame
  simp only [getElem?_set_of_some h, h, if_true, Option.some.injEq] at hget
  exact hne hget

theorem sum_map_set_add (h : table[i]? = some x) (y : α) (f : α → Nat) :
    ((table.set i y).map f).sum + f x = (table.map f).sum + f y := by
  obtain ⟨hi, rfl⟩ := List.getElem?_eq_some_iff.mp h
  have hset := ((List.set_perm_cons_eraseIdx hi y).map f).sum_eq
  have hold := ((List.getElem_cons_eraseIdx_perm hi).map f).sum_eq
  rw [List.map_cons, List.sum_cons] at hset hold
  omega

theorem forall_mem_set {P : α → Prop} (h : ∀ x ∈ table, P x) (hy : P y) :
    ∀ x ∈ table.set i y, P x := by
  intro x hx
  rcases List.mem_or_eq_of_mem_set hx with hold | rfl
  · exact h x hold
  · exact hy

def numbers (p : α → Bool) (table : List α) : Finset Nat :=
  (Finset.range table.length).filter fun i => table[i]?.any p = true

theorem mem_numbers {p : α → Bool} :
    i ∈ numbers p table ↔ ∃ x, table[i]? = some x ∧ p x = true := by
  rw [numbers, Finset.mem_filter, Finset.mem_range, Option.any_eq_true]
  refine ⟨fun h => h.2, fun h => ⟨?_, h⟩⟩
  obtain ⟨x, hx, -⟩ := h
  exact (List.getElem?_eq_some_iff.mp hx).1

theorem card_numbers (p : α → Bool) (table : List α) :
    (numbers p table).card = table.countP p := by
  induction table using List.reverseRecOn with
  | nil => rfl
  | append_singleton table y ih =>
      have hsplit : numbers p (table ++ [y]) =
          if p y then insert table.length (numbers p table)
          else numbers p table := by
        ext i
        rw [mem_numbers, getElem?_concat]
        by_cases hi : i = table.length
        · subst hi
          by_cases hy : p y = true <;> simp [hy, mem_numbers]
        · by_cases hy : p y = true <;> simp [hy, hi, mem_numbers]
      have hnew : table.length ∉ numbers p table := by
        simp [mem_numbers]
      rw [hsplit, List.countP_append, List.countP_singleton]
      split
      · rw [Finset.card_insert_of_notMem hnew, ih]
      · exact ih

/-! ## Counting -/

theorem countP_split (p q : α → Bool) (table : List α) :
    table.countP p = table.countP (fun x => p x && q x) +
      table.countP fun x => p x && !q x := by
  induction table with
  | nil => rfl
  | cons x table ih =>
      rw [List.countP_cons, List.countP_cons, List.countP_cons, ih]
      cases p x <;> cases q x <;> simp <;> omega

theorem countP_set_of_eq {p : α → Bool} (hget : table[i]? = some x)
    (hsame : p y = p x) : (table.set i y).countP p = table.countP p := by
  have hset := countP_set_add hget y p
  rw [hsame] at hset
  omega

theorem sum_countP_eq {key : α → Nat} {bound : Nat} (p : α → Bool)
    (hkey : ∀ x ∈ table, key x < bound) :
    ∑ i ∈ Finset.range bound, table.countP (fun x => key x = i && p x) =
      table.countP p := by
  induction table with
  | nil => simp
  | cons x table ih =>
      have hx := hkey x List.mem_cons_self
      have hrest := ih fun y hy => hkey y (List.mem_cons_of_mem x hy)
      simp only [List.countP_cons, Finset.sum_add_distrib, hrest]
      cases p x <;> simp [hx]

theorem countP_add_le {p q t : α → Bool} (hp : ∀ x ∈ table, p x → t x)
    (hq : ∀ x ∈ table, q x → t x ∧ ¬ p x) :
    table.countP p + table.countP q ≤ table.countP t := by
  rw [countP_split t p]
  refine Nat.add_le_add ?_ ?_
  · refine List.countP_mono_left fun x hx hpx => ?_
    rw [hp x hx hpx, hpx]
    rfl
  · refine List.countP_mono_left fun x hx hqx => ?_
    obtain ⟨ht, hnp⟩ := hq x hx hqx
    simp [ht, hnp]

/-! ## Keys -/

theorem filterMap_set_perm (held : α → Option κ) (hget : table[i]? = some x)
    (y : α) :
    (table.set i y).filterMap held ~
        (held y).toList ++ (table.eraseIdx i).filterMap held ∧
      table.filterMap held ~
        (held x).toList ++ (table.eraseIdx i).filterMap held := by
  have hcons : ∀ (z : α) (rest : List α), (z :: rest).filterMap held =
      (held z).toList ++ rest.filterMap held := by
    intro z rest
    cases hz : held z <;> simp [hz]
  have hi : i < table.length := (List.getElem?_eq_some_iff.mp hget).1
  have hset := (List.set_perm_cons_eraseIdx hi y).filterMap held
  have hold := (cons_eraseIdx_perm hget).symm.filterMap held
  rw [hcons] at hset hold
  exact ⟨hset, hold⟩

/-- The keys of `issued` are held by one entry each and there are no others. -/
structure Issued (held : α → Option κ) (table : List α) (issued : Set κ) :
    Prop where
  once : (table.filterMap held).Nodup
  mem_iff : ∀ k, k ∈ table.filterMap held ↔ k ∈ issued

namespace Issued

variable {held : α → Option κ} {issued : Set κ} {k : κ}

theorem nil : Issued held [] ∅ where
  once := .nil
  mem_iff := by simp

theorem of_perm {table' : List α} (h : Issued held table issued)
    (hperm : table'.filterMap held ~ table.filterMap held) :
    Issued held table' issued where
  once := hperm.nodup_iff.mpr h.once
  mem_iff := fun k => hperm.mem_iff.trans (h.mem_iff k)

theorem append {more : List α} (h : Issued held table issued)
    (hmore : ∀ y ∈ more, held y = none) :
    Issued held (table ++ more) issued := by
  apply h.of_perm
  have hnil : more.filterMap held = [] := List.filterMap_eq_nil_iff.mpr hmore
  simp [hnil]

theorem set (h : Issued held table issued) (hget : table[i]? = some x)
    (hsame : held y = held x) : Issued held (table.set i y) issued := by
  obtain ⟨hset, hold⟩ := filterMap_set_perm held hget y
  rw [hsame] at hset
  exact h.of_perm (hset.trans hold.symm)

theorem issue (h : Issued held table issued) (hget : table[i]? = some x)
    (hnone : held x = none) (hnew : held y = some k) (hk : k ∉ issued) :
    Issued held (table.set i y) (insert k issued) := by
  obtain ⟨hset, hold⟩ := filterMap_set_perm held hget y
  rw [hnone, Option.toList_none, List.nil_append] at hold
  rw [hnew, Option.toList_some, List.singleton_append] at hset
  have hperm := hset.trans (hold.symm.cons k)
  constructor
  · rw [hperm.nodup_iff, List.nodup_cons]
    exact ⟨fun hmem => hk ((h.mem_iff k).mp hmem), h.once⟩
  · intro k'
    rw [hperm.mem_iff, List.mem_cons, h.mem_iff, Set.mem_insert_iff]

theorem mem (h : Issued held table issued) (hget : table[i]? = some x)
    (hx : held x = some k) : k ∈ issued :=
  (h.mem_iff k).mp
    (List.mem_filterMap.mpr ⟨x, List.mem_of_getElem? hget, hx⟩)

theorem exists_holder (h : Issued held table issued) (hk : k ∈ issued) :
    ∃ (i : Nat) (x : α), table[i]? = some x ∧ held x = some k := by
  obtain ⟨x, hmem, hx⟩ := List.mem_filterMap.mp ((h.mem_iff k).mpr hk)
  obtain ⟨i, hi⟩ := List.mem_iff_getElem?.mp hmem
  exact ⟨i, x, hi, hx⟩

theorem unique (h : Issued held table issued) (hi : table[i]? = some x)
    (hj : table[j]? = some y) (hx : held x = some k)
    (hy : held y = some k) : i = j := by
  have hpairs := List.pairwise_filterMap.mp h.once
  rw [List.pairwise_iff_getElem] at hpairs
  obtain ⟨hilt, rfl⟩ := List.getElem?_eq_some_iff.mp hi
  obtain ⟨hjlt, rfl⟩ := List.getElem?_eq_some_iff.mp hj
  rcases Nat.lt_trichotomy i j with hlt | heq | hgt
  · exact absurd rfl (hpairs i j hilt hjlt hlt k hx k hy)
  · exact heq
  · exact absurd rfl (hpairs j i hjlt hilt hgt k hy k hx)

theorem existsUnique_holder (h : Issued held table issued)
    (hk : k ∈ issued) :
    ∃! i : Nat, ∃ x, table[i]? = some x ∧ held x = some k := by
  obtain ⟨i, x, hi, hx⟩ := h.exists_holder hk
  refine ⟨i, ⟨x, hi, hx⟩, ?_⟩
  rintro j ⟨y, hj, hy⟩
  exact h.unique hj hi hy hx

theorem countP_eq_card (h : Issued held table issued) {p : α → Bool}
    {keys : Finset κ} (hkeys : ∀ k ∈ keys, k ∈ issued)
    (hp : ∀ x ∈ table, p x = true ↔ ∃ k ∈ keys, held x = some k) :
    table.countP p = keys.card := by
  classical
  have hcount : table.countP p =
      (table.filterMap held).countP fun k => k ∈ keys := by
    rw [List.countP_filterMap]
    refine List.countP_congr fun x hx => ?_
    rw [hp x hx]
    cases held x <;> simp
  have hperm : ((table.filterMap held).filter fun k => k ∈ keys) ~
      keys.toList := by
    rw [List.perm_ext_iff_of_nodup (h.once.filter _) keys.nodup_toList]
    intro k
    rw [List.mem_filter, h.mem_iff, Finset.mem_toList, decide_eq_true_iff]
    exact ⟨And.right, fun hk => ⟨hkeys k hk, hk⟩⟩
  rw [hcount, List.countP_eq_length_filter, hperm.length_eq,
    Finset.length_toList]

end Issued

end Prequal.Foundation
