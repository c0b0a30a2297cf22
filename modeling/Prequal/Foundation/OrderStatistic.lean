import Mathlib.Data.List.Sort
import Mathlib.Data.List.Count
import Mathlib.Data.List.Forall2

/-!
# Order statistics of finite lists

The element of rank `i` is read off a sorted copy of the list.  Everything
later proofs need is the pair of counting characterizations
`kthSmallest_le_iff` and `le_kthSmallest_iff`: they replace reasoning about
positions in the sorted copy by counting in the list itself.
-/

namespace Prequal.Foundation

open scoped List

variable {α : Type*} [LinearOrder α]

def kthSmallest (l : List α) (i : Nat) : Option α :=
  (l.insertionSort (· ≤ ·))[i]?

theorem kthSmallest_isSome {l : List α} {i : Nat} (h : i < l.length) :
    ∃ t, kthSmallest l i = some t := by
  have : i < (l.insertionSort (· ≤ ·)).length := by
    rwa [List.length_insertionSort]
  exact ⟨_, List.getElem?_eq_getElem this⟩

theorem kthSmallest_eq_none_iff {l : List α} {i : Nat} :
    kthSmallest l i = none ↔ l.length ≤ i := by
  simp [kthSmallest, List.length_insertionSort]

theorem kthSmallest_mem {l : List α} {i : Nat} {t : α}
    (h : kthSmallest l i = some t) : t ∈ l :=
  (List.mem_insertionSort (· ≤ ·)).mp (List.mem_of_getElem? h)

theorem kthSmallest_perm {l l' : List α} (h : l ~ l') (i : Nat) :
    kthSmallest l i = kthSmallest l' i := by
  have hsorted : l.insertionSort (· ≤ ·) = l'.insertionSort (· ≤ ·) := by
    apply List.Perm.eq_of_pairwise' (r := (· ≤ ·))
    · exact List.pairwise_insertionSort _ l
    · exact List.pairwise_insertionSort _ l'
    · exact (List.perm_insertionSort _ l).trans
        (h.trans (List.perm_insertionSort _ l').symm)
  rw [kthSmallest, kthSmallest, hsorted]

private theorem countP_lt_of_pairwise {s : List α}
    (hs : s.Pairwise (· ≤ ·)) {i : Nat} {t : α} (ht : s[i]? = some t) :
    s.countP (· < t) ≤ i ∧ i < s.countP (· ≤ t) := by
  induction s generalizing i with
  | nil => simp at ht
  | cons a s ih =>
      obtain ⟨ha, hs⟩ := List.pairwise_cons.mp hs
      cases i with
      | zero =>
          obtain rfl : a = t := by simpa using ht
          have hzero : s.countP (· < a) = 0 := by
            rw [List.countP_eq_zero]
            intro b hb
            simpa using ha b hb
          simp [hzero]
      | succ i =>
          have ht' : s[i]? = some t := by simpa using ht
          obtain ⟨hlow, hhigh⟩ := ih hs ht'
          have hat : a ≤ t := ha t (List.mem_of_getElem? ht')
          rw [List.countP_cons, List.countP_cons_of_pos (by simpa using hat)]
          constructor
          · split <;> omega
          · omega

theorem countP_lt_kthSmallest {l : List α} {i : Nat} {t : α}
    (h : kthSmallest l i = some t) : l.countP (· < t) ≤ i := by
  rw [← (List.perm_insertionSort (· ≤ ·) l).countP_eq]
  exact (countP_lt_of_pairwise (List.pairwise_insertionSort _ l) h).1

theorem lt_countP_le_kthSmallest {l : List α} {i : Nat} {t : α}
    (h : kthSmallest l i = some t) : i < l.countP (· ≤ t) := by
  rw [← (List.perm_insertionSort (· ≤ ·) l).countP_eq]
  exact (countP_lt_of_pairwise (List.pairwise_insertionSort _ l) h).2

theorem kthSmallest_le_iff {l : List α} {i : Nat} {t : α}
    (h : kthSmallest l i = some t) (x : α) :
    t ≤ x ↔ i < l.countP (· ≤ x) := by
  constructor
  · intro hx
    refine (lt_countP_le_kthSmallest h).trans_le (List.countP_mono_left ?_)
    intro a _ ha
    simp only [decide_eq_true_eq] at ha ⊢
    exact ha.trans hx
  · intro hcount
    by_contra hx
    have hle : l.countP (· ≤ x) ≤ l.countP (· < t) := by
      apply List.countP_mono_left
      intro a _ ha
      simp only [decide_eq_true_eq] at ha ⊢
      exact ha.trans_lt (not_le.mp hx)
    have := countP_lt_kthSmallest h
    omega

theorem le_kthSmallest_iff {l : List α} {i : Nat} {t : α}
    (h : kthSmallest l i = some t) (x : α) :
    x ≤ t ↔ l.countP (· < x) ≤ i := by
  constructor
  · intro hx
    refine le_trans (List.countP_mono_left ?_) (countP_lt_kthSmallest h)
    intro a _ ha
    simp only [decide_eq_true_eq] at ha ⊢
    exact ha.trans_le hx
  · intro hcount
    by_contra hx
    have hle : l.countP (· ≤ t) ≤ l.countP (· < x) := by
      apply List.countP_mono_left
      intro a _ ha
      simp only [decide_eq_true_eq] at ha ⊢
      exact ha.trans_lt (not_le.mp hx)
    have := lt_countP_le_kthSmallest h
    omega

theorem countP_gt_kthSmallest {l : List α} {i : Nat} {t : α}
    (h : kthSmallest l i = some t) :
    l.countP (t < ·) ≤ l.length - 1 - i := by
  have hle := lt_countP_le_kthSmallest h
  have hsplit := List.length_eq_countP_add_countP (l := l) (· ≤ t)
  have hgt : l.countP (fun a => decide ¬ (decide (a ≤ t)) = true) =
      l.countP (t < ·) := by
    apply List.countP_congr
    simp
  rw [hgt] at hsplit
  omega

theorem kthSmallest_mono {l l' : List α} {i : Nat} {t t' : α}
    (ht : kthSmallest l i = some t) (ht' : kthSmallest l' i = some t')
    (h : ∀ x, l'.countP (· ≤ x) ≤ l.countP (· ≤ x)) : t ≤ t' :=
  (kthSmallest_le_iff ht t').mpr
    ((lt_countP_le_kthSmallest ht').trans_le (h t'))

/-! ## The extreme ranks -/

theorem kthSmallest_zero_le {l : List α} {t a : α}
    (h : kthSmallest l 0 = some t) (ha : a ∈ l) : t ≤ a := by
  by_contra hlt
  have hpos : 0 < l.countP (· < t) :=
    List.countP_pos_iff.mpr ⟨a, ha, by simpa using hlt⟩
  have := countP_lt_kthSmallest h
  omega

theorem le_kthSmallest_last {l : List α} {t a : α}
    (h : kthSmallest l (l.length - 1) = some t) (ha : a ∈ l) : a ≤ t := by
  by_contra hlt
  have hpos : 0 < l.countP (t < ·) :=
    List.countP_pos_iff.mpr ⟨a, ha, by simpa using hlt⟩
  have := countP_gt_kthSmallest h
  omega

/-! ## Pointwise order -/

theorem countP_le_of_forall₂ {l l' : List α} (h : List.Forall₂ (· ≤ ·) l l')
    (x : α) : l'.countP (· ≤ x) ≤ l.countP (· ≤ x) := by
  induction h with
  | nil => exact le_rfl
  | @cons a b l l' hab _ ih =>
      rw [List.countP_cons, List.countP_cons]
      simp only [decide_eq_true_eq]
      split_ifs with hb ha
      · omega
      · exact absurd (hab.trans hb) ha
      · omega
      · omega

theorem kthSmallest_le_of_forall₂ {l l' : List α} {i : Nat} {t t' : α}
    (h : List.Forall₂ (· ≤ ·) l l') (ht : kthSmallest l i = some t)
    (ht' : kthSmallest l' i = some t') : t ≤ t' :=
  kthSmallest_mono ht ht' (countP_le_of_forall₂ h)

theorem kthSmallest_map {β : Type*} [LinearOrder β] {f : α → β}
    (hf : Monotone f) (l : List α) (i : Nat) :
    kthSmallest (l.map f) i = (kthSmallest l i).map f := by
  have hsorted : (l.map f).insertionSort (· ≤ ·) =
      (l.insertionSort (· ≤ ·)).map f := by
    apply List.Perm.eq_of_pairwise' (r := (· ≤ ·))
    · exact List.pairwise_insertionSort _ _
    · rw [List.pairwise_map]
      exact (List.pairwise_insertionSort _ l).imp fun hab => hf hab
    · exact (List.perm_insertionSort _ _).trans
        ((List.perm_insertionSort _ l).map f).symm
  rw [kthSmallest, hsorted, List.getElem?_map]
  rfl

/-! ## Changing one entry -/

theorem countP_set_of_le {l : List α} {j : Nat} {a b : α}
    (hb : l[j]? = some b) (hab : a ≤ b) (x : α) :
    l.countP (· ≤ x) ≤ (l.set j a).countP (· ≤ x) := by
  obtain ⟨hj, rfl⟩ := List.getElem?_eq_some_iff.mp hb
  rw [List.countP_set hj]
  have hpos : decide (l[j] ≤ x) = true → 0 < l.countP (· ≤ x) := fun h =>
    List.countP_pos_iff.mpr ⟨l[j], List.getElem_mem hj, h⟩
  simp only [decide_eq_true_eq] at hpos ⊢
  split_ifs with hbx hax
  · omega
  · exact absurd (hab.trans hbx) hax
  · omega
  · omega

theorem kthSmallest_set_le {l : List α} {i j : Nat} {a b t t' : α}
    (hb : l[j]? = some b) (hab : a ≤ b) (ht : kthSmallest l i = some t)
    (ht' : kthSmallest (l.set j a) i = some t') : t' ≤ t :=
  kthSmallest_mono ht' ht (countP_set_of_le hb hab)

theorem le_kthSmallest_set {l : List α} {i j : Nat} {a b t t' : α}
    (hb : l[j]? = some b) (hab : a ≤ b) (hbt : b ≤ t)
    (ht : kthSmallest l i = some t)
    (ht' : kthSmallest (l.set j a) i = some t') : a ≤ t' := by
  by_contra ha
  obtain ⟨hj, rfl⟩ := List.getElem?_eq_some_iff.mp hb
  -- Neither value counts below `t'`, so the old statistic is at most `t'`.
  have hcount : (l.set j a).countP (· ≤ t') = l.countP (· ≤ t') := by
    have hl : ¬ l[j] ≤ t' := fun h => ha (hab.trans h)
    rw [List.countP_set hj]
    simp [ha, hl]
  have hle : t ≤ t' := by
    rw [kthSmallest_le_iff ht, ← hcount]
    exact lt_countP_le_kthSmallest ht'
  exact ha (hab.trans (hbt.trans hle))

theorem countP_le_iff_of_downward {l : List α} {i : Nat} {t : α}
    (h : kthSmallest l i = some t) {p : α → Bool}
    (hp : ∀ a b, a ≤ b → p b = true → p a = true) :
    l.countP p ≤ i ↔ p t = false := by
  constructor
  · intro hle
    by_contra hpt
    rw [Bool.not_eq_false] at hpt
    have hmono : l.countP (· ≤ t) ≤ l.countP p :=
      List.countP_mono_left fun a _ ha => hp a t (of_decide_eq_true ha) hpt
    have := lt_countP_le_kthSmallest h
    omega
  · intro hpt
    have hmono : l.countP p ≤ l.countP (· < t) := by
      refine List.countP_mono_left fun a _ ha => ?_
      rw [decide_eq_true_eq]
      by_contra hge
      rw [hp t a (not_lt.mp hge) ha] at hpt
      cases hpt
    exact hmono.trans (countP_lt_kthSmallest h)

/-! ## Sorting by key -/

/-- All that is known of a sort that may reorder elements of equal key. -/
structure SortByKey (ε : Type*) where
  sortBy : (ε → Nat) → List ε → List ε
  perm : ∀ key l, sortBy key l ~ l
  sorted : ∀ key l, (sortBy key l).Pairwise fun a b => key a ≤ key b

def SortByKey.stable (ε : Type*) : SortByKey ε where
  sortBy := fun key l => l.insertionSort fun a b => key a ≤ key b
  perm := fun key l => List.perm_insertionSort _ l
  sorted := fun key l => by
    have htotal : Std.Total fun a b : ε => key a ≤ key b :=
      ⟨fun a b => Nat.le_total (key a) (key b)⟩
    have htrans : IsTrans ε fun a b => key a ≤ key b :=
      ⟨fun _ _ _ => Nat.le_trans⟩
    exact List.pairwise_insertionSort _ l

end Prequal.Foundation
