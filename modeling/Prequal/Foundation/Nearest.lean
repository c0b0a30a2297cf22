import Prequal.Foundation.OrderStatistic
import Mathlib.Data.List.Perm.Subperm
import Mathlib.Data.List.Lattice

/-!
# The first elements in the order of a key

A sort by key decides nothing among elements of equal key, so the first `n`
elements of its result depend on the sort only where the cutoff falls inside
such a class.  A sort that sees keys and no values picks positions.
-/

namespace Prequal.Foundation

open scoped List

variable {α σ : Type*}

/-! ## The cutoff -/

/--
The cutoff after `n` elements leaves no choice that `sig` can see: elements of
equal key on both sides of it look the same.
-/
def SettledAt (key : α → Nat) (n : Nat) (sig : α → σ) (l : List α) : Prop :=
  ∀ a ∈ l, ∀ b ∈ l, key a = key b → l.countP (key · < key a) < n →
    n < l.countP (key · ≤ key a) → sig a = sig b

theorem SettledAt.of_length_le {key : α → Nat} {n : Nat} {sig : α → σ}
    {l : List α} (h : l.length ≤ n) : SettledAt key n sig l := by
  intro a _ b _ _ _ hhigh
  exact absurd (hhigh.trans_le List.countP_le_length) (not_lt.mpr h)

theorem SettledAt.of_perm {key : α → Nat} {n : Nat} {sig : α → σ}
    {l l' : List α} (h : SettledAt key n sig l) (hperm : l ~ l') :
    SettledAt key n sig l' := by
  intro a ha b hb hkey hlow hhigh
  rw [← hperm.countP_eq] at hlow hhigh
  exact h a (hperm.mem_iff.mpr ha) b (hperm.mem_iff.mpr hb) hkey hlow hhigh

theorem filter_append_filter_not {p : α → Bool} {s : List α}
    (hs : s.Pairwise fun a b => p b = true → p a = true) :
    s.filter p ++ s.filter (fun a => !p a) = s := by
  induction s with
  | nil => rfl
  | cons a s ih =>
      obtain ⟨ha, hs⟩ := List.pairwise_cons.mp hs
      cases hpa : p a with
      | true => simp [hpa, ih hs]
      | false =>
          have hnone : ∀ b ∈ s, p b = false := by
            intro b hb
            by_contra hpb
            rw [ha b hb (by simpa using hpb)] at hpa
            cases hpa
          have hlow : s.filter p = [] := by
            simpa [List.filter_eq_nil_iff] using hnone
          have hhigh : s.filter (fun a => !p a) = s := by
            simpa [List.filter_eq_self] using hnone
          simp [hpa, hlow, hhigh]

theorem sorted_split {key : α → Nat} {s : List α}
    (hs : s.Pairwise fun a b => key a ≤ key b) (k : Nat) :
    ∃ rest, s = s.filter (key · < k) ++ (s.filter (key · = k) ++ rest) := by
  set t := s.filter fun a => !decide (key a < k) with ht
  have hlow : s.filter (key · < k) ++ t = s := by
    apply filter_append_filter_not
    refine hs.imp fun hab hb => ?_
    rw [decide_eq_true_eq] at hb ⊢
    omega
  have hmid : t.filter (key · = k) ++ t.filter (fun a => !decide (key a = k)) =
      t := by
    apply filter_append_filter_not
    refine (hs.filter _).imp_of_mem fun {a b} ha _ hab hb => ?_
    have hge := (List.mem_filter.mp ha).2
    simp only [Bool.not_eq_true', decide_eq_false_iff_not,
      decide_eq_true_eq] at hge hb ⊢
    omega
  have hclass : t.filter (key · = k) = s.filter (key · = k) := by
    rw [ht, List.filter_filter]
    refine List.filter_congr fun a _ => ?_
    rw [Bool.eq_iff_iff]
    simp only [Bool.and_eq_true, Bool.not_eq_true', decide_eq_false_iff_not,
      decide_eq_true_eq]
    omega
  rw [hclass] at hmid
  exact ⟨_, by rw [hmid, hlow]⟩

theorem countP_le_eq_add (key : α → Nat) (l : List α) (k : Nat) :
    l.countP (key · ≤ k) =
      l.countP (key · < k) + (l.filter (key · = k)).length := by
  rw [← List.countP_eq_length_filter]
  induction l with
  | nil => rfl
  | cons a l ih =>
      simp only [List.countP_cons, decide_eq_true_eq, ih]
      split_ifs <;> omega

theorem take_of_sorted {key : α → Nat} {s : List α}
    (hs : s.Pairwise fun a b => key a ≤ key b) {n k : Nat}
    (hlow : s.countP (key · < k) ≤ n) (hhigh : n ≤ s.countP (key · ≤ k)) :
    s.take n = s.filter (key · < k) ++
      (s.filter (key · = k)).take (n - s.countP (key · < k)) := by
  obtain ⟨rest, hsplit⟩ := sorted_split hs k
  have hlength := List.countP_eq_length_filter (p := (key · < k)) (l := s)
  have hclass := countP_le_eq_add key s k
  conv_lhs => rw [hsplit]
  rw [List.take_append, List.take_of_length_le (by omega), ← hlength,
    List.take_append_of_le_length (by omega)]

theorem take_map_eq_replicate {l : List α} {sig : α → σ} {n : Nat} {v : σ}
    (hn : n ≤ l.length) (h : ∀ a ∈ l, sig a = v) :
    (l.take n).map sig = List.replicate n v := by
  rw [List.eq_replicate_iff]
  constructor
  · rw [List.length_map, List.length_take]
    omega
  · intro x hx
    obtain ⟨a, ha, rfl⟩ := List.mem_map.mp hx
    exact h a (List.mem_of_mem_take ha)

theorem take_map_perm_of_same {c c' : List α} {sig : α → σ} {n : Nat}
    (hperm : c ~ c') (hn : n ≤ c.length)
    (hsame : 0 < n → ∀ a ∈ c, ∀ b ∈ c, sig a = sig b) :
    (c.take n).map sig ~ (c'.take n).map sig := by
  cases n with
  | zero => simp
  | succ n =>
      obtain ⟨b, hb⟩ := List.exists_mem_of_length_pos
        (by omega : 0 < c.length)
      have hall : ∀ a ∈ c, sig a = sig b := fun a ha =>
        hsame (Nat.succ_pos n) a ha b hb
      rw [take_map_eq_replicate hn hall, take_map_eq_replicate
        (hn.trans_eq hperm.length_eq) fun a ha =>
          hall a (hperm.mem_iff.mpr ha)]

theorem SettledAt.take_perm {key : α → Nat} {n : Nat} {sig : α → σ}
    {s s' : List α} (h : SettledAt key n sig s) (hperm : s ~ s')
    (hs : s.Pairwise fun a b => key a ≤ key b)
    (hs' : s'.Pairwise fun a b => key a ≤ key b) :
    (s.take n).map sig ~ (s'.take n).map sig := by
  by_cases hn : n < s.length
  · obtain ⟨k, hk⟩ := kthSmallest_isSome
      (by rwa [List.length_map] : n < (s.map key).length)
    have hlow : s.countP (key · < k) ≤ n := by
      simpa [List.countP_map, Function.comp_def] using
        countP_lt_kthSmallest hk
    have hhigh : n < s.countP (key · ≤ k) := by
      simpa [List.countP_map, Function.comp_def] using
        lt_countP_le_kthSmallest hk
    have hlow' := hperm.countP_eq (key · < k)
    have hhigh' := hperm.countP_eq (key · ≤ k)
    have hclass := countP_le_eq_add key s k
    rw [take_of_sorted hs hlow hhigh.le,
      take_of_sorted hs' (hlow'.ge.trans hlow) (hhigh.le.trans hhigh'.le),
      ← hlow', List.map_append, List.map_append]
    refine ((hperm.filter _).map sig).append
      (take_map_perm_of_same (hperm.filter _) (by omega) ?_)
    -- The cutoff lies inside the class of `k`, which is settled.
    intro hpos a ha b hb
    obtain ⟨has, hak⟩ := List.mem_filter.mp ha
    obtain ⟨hbs, hbk⟩ := List.mem_filter.mp hb
    rw [decide_eq_true_eq] at hak hbk
    subst hak
    exact h a has b hbs hbk.symm (by omega) hhigh
  · rw [List.take_of_length_le (not_lt.mp hn),
      List.take_of_length_le (hperm.length_eq.ge.trans (not_lt.mp hn))]
    exact hperm.map sig

/-! ## Sorting by position -/

/-- A sort that compares keys and never looks at the values picks positions. -/
structure SortByKey.Positions (sort : SortByKey α) where
  order : List Nat → List Nat
  perm : ∀ keys, order keys ~ List.range keys.length
  spec : ∀ (key : α → Nat) (l : List α), (sort.sortBy key l).map some =
    (order (l.map key)).map fun i => l[i]?

def stableOrder (keys : List Nat) : List Nat :=
  (keys.zipIdx.insertionSort fun a b => a.1 ≤ b.1).map Prod.snd

theorem stableOrder_perm (keys : List Nat) :
    stableOrder keys ~ List.range keys.length := by
  rw [List.range_eq_range', ← List.zipIdx_map_snd 0 keys]
  exact (List.perm_insertionSort _ _).map _

theorem insertionSort_map_some (key : α → Nat) (l : List α) :
    (l.insertionSort fun a b => key a ≤ key b).map some =
      (stableOrder (l.map key)).map fun i => l[i]? := by
  set z := l.zipIdx.insertionSort fun a b => key a.1 ≤ key b.1 with hz
  have hvalues : z.map Prod.fst =
      l.insertionSort fun a b => key a ≤ key b := by
    rw [hz, List.map_insertionSort _ (fun a b => key a ≤ key b) Prod.fst _
      fun _ _ _ _ => Iff.rfl, List.zipIdx_map_fst]
  have hkeys : z.map (Prod.map key id) =
      (l.map key).zipIdx.insertionSort fun a b => a.1 ≤ b.1 := by
    rw [← List.map_zipIdx, hz]
    exact List.map_insertionSort _ _ (Prod.map key id) _
      fun _ _ _ _ => Iff.rfl
  have hslot : ∀ p ∈ z, l[p.2]? = some p.1 := fun p hp =>
    List.mem_zipIdx_iff_getElem?.mp
      ((List.perm_insertionSort _ _).subset hp)
  rw [← hvalues, stableOrder, ← hkeys, List.map_map, List.map_map,
    List.map_map]
  exact List.map_congr_left fun p hp => (hslot p hp).symm

def SortByKey.Positions.stable (α : Type*) :
    (SortByKey.stable α).Positions where
  order := stableOrder
  perm := stableOrder_perm
  spec := insertionSort_map_some

theorem SortByKey.Positions.map_take {sort : SortByKey α}
    (pos : sort.Positions) (key : α → Nat) (l : List α) (n : Nat) :
    ((sort.sortBy key l).take n).map some =
      ((pos.order (l.map key)).take n).map fun i => l[i]? := by
  rw [List.map_take, pos.spec, List.map_take]

theorem SortByKey.Positions.nodup {sort : SortByKey α}
    (pos : sort.Positions) (keys : List Nat) : (pos.order keys).Nodup :=
  (pos.perm keys).nodup_iff.mpr List.nodup_range

theorem SortByKey.Positions.length {sort : SortByKey α}
    (pos : sort.Positions) (keys : List Nat) :
    (pos.order keys).length = keys.length := by
  rw [(pos.perm keys).length_eq, List.length_range]

/-! ## Telling two selections apart -/

theorem exists_mem_notMem_of_not_perm {l l' : List α} (hnodup : l.Nodup)
    (hlength : l'.length ≤ l.length) (h : ¬ l ~ l') : ∃ a ∈ l, a ∉ l' := by
  by_contra hall
  push Not at hall
  have hsub : l <+~ l' := List.subperm_of_subset hnodup hall
  exact h (hsub.perm_of_length_le hlength)

theorem length_le_countP_mem [DecidableEq α] {l s : List α}
    (hs : s.Nodup) (hsub : s ⊆ l) : s.length ≤ l.countP (· ∈ s) := by
  rw [List.countP_eq_length_filter]
  refine (List.subperm_of_subset hs ?_).length_le
  intro a ha
  simpa using ⟨hsub ha, ha⟩

theorem countP_mem_le [DecidableEq α] {l s : List α} (hl : l.Nodup) :
    l.countP (· ∈ s) ≤ s.length := by
  rw [List.countP_eq_length_filter]
  refine (List.subperm_of_subset (hl.filter _) ?_).length_le
  intro a ha
  simpa using (List.mem_filter.mp ha).2

theorem exists_separating [DecidableEq α] {l l' : List α} (hl : l.Nodup)
    (hl' : l'.Nodup) (hlength : l'.length = l.length) (h : ¬ l ~ l') :
    ∃ s : List α, l.countP (· ∉ s) ≤ l.length / 2 ∧
      l'.length / 2 < l'.countP (· ∉ s) := by
  obtain ⟨a, ha, ha'⟩ := exists_mem_notMem_of_not_perm hl hlength.le h
  -- More than half of `l`, the element that `l'` lacks among it.
  set half := (l.erase a).take (l.length - l.length / 2 - 1) with hhalf
  have hpos : 0 < l.length := List.length_pos_of_mem ha
  have hsize : half.length = l.length - l.length / 2 - 1 := by
    rw [hhalf, List.length_take, List.length_erase_of_mem ha]
    omega
  have hsub : half ⊆ l.erase a := List.take_subset _ _
  have hnodup : (a :: half).Nodup := by
    refine List.nodup_cons.mpr ⟨?_, (hl.erase a).sublist
      (List.take_sublist _ _)⟩
    exact fun hmem => hl.not_mem_erase (hsub hmem)
  have hmem : a :: half ⊆ l := by
    refine List.cons_subset.mpr ⟨ha, ?_⟩
    exact List.Subset.trans hsub List.erase_subset
  refine ⟨a :: half, ?_, ?_⟩
  · have hmany := length_le_countP_mem hnodup hmem
    have hall := List.length_eq_countP_add_countP (l := l) (· ∈ a :: half)
    simp only [decide_eq_true_eq] at hall
    rw [List.length_cons] at hmany
    omega
  · have hmiss : l'.countP (· ∈ a :: half) = l'.countP (· ∈ half) := by
      refine List.countP_congr fun b hb => ?_
      have hba : b ≠ a := fun hba => ha' (hba ▸ hb)
      simp [hba]
    have hfew : l'.countP (· ∈ half) ≤ half.length := countP_mem_le hl'
    have hall := List.length_eq_countP_add_countP (l := l') (· ∈ a :: half)
    simp only [decide_eq_true_eq] at hall
    rw [hmiss] at hall
    omega

end Prequal.Foundation
