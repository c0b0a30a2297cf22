import Mathlib.Data.List.Basic
import Mathlib.Data.List.Perm.Basic
import Mathlib.Data.List.MinMax

/-!
# Growable vectors as lists

Constant-time removal and the positional extrema that decide it.  An
extremum scan walks the vector from the front: the minimum keeps its first
witness and the maximum its last one, which is the tie rule of the iterator
adaptors `min_by_key` and `max_by_key`.
-/

namespace Prequal.Foundation

open scoped List

variable {α β : Type*}

/-! ## Sub-collections -/

theorem subperm_map (f : α → β) {v w : List α} (h : v <+~ w) :
    v.map f <+~ w.map f := by
  obtain ⟨u, hperm, hsub⟩ := h
  exact ⟨u.map f, hperm.map f, hsub.map f⟩

theorem nodup_of_subperm {v w : List α} (h : v <+~ w) (hw : w.Nodup) :
    v.Nodup := by
  obtain ⟨u, hperm, hsub⟩ := h
  exact hperm.nodup_iff.mp (hsub.nodup hw)

theorem cons_eraseIdx_perm {v : List α} {i : Nat} {x : α}
    (h : v[i]? = some x) : x :: v.eraseIdx i ~ v := by
  obtain ⟨hi, rfl⟩ := List.getElem?_eq_some_iff.mp h
  exact List.getElem_cons_eraseIdx_perm hi

theorem modify_perm {v : List α} {i : Nat} {x : α} (f : α → α)
    (h : v[i]? = some x) : v.modify i f ~ f x :: v.eraseIdx i := by
  obtain ⟨hi, rfl⟩ := List.getElem?_eq_some_iff.mp h
  have hset : v.modify i f = v.set i (f v[i]) := by
    apply List.ext_getElem?
    intro j
    rw [List.getElem?_modify, List.getElem?_set]
    by_cases hij : i = j
    · subst hij
      simp [hi]
    · simp [hij]
  rw [hset]
  exact List.set_perm_cons_eraseIdx hi _

theorem countP_set_add {v : List α} {i : Nat} {x : α}
    (h : v[i]? = some x) (y : α) (p : α → Bool) :
    (v.set i y).countP p + (if p x then 1 else 0) =
      v.countP p + if p y then 1 else 0 := by
  obtain ⟨hi, rfl⟩ := List.getElem?_eq_some_iff.mp h
  rw [(List.set_perm_cons_eraseIdx hi y).countP_eq,
    ← (List.getElem_cons_eraseIdx_perm hi).countP_eq, List.countP_cons,
    List.countP_cons]
  omega

/-! ## Removal by swapping with the last element -/

def swapRemove? (v : List α) (i : Nat) : Option (List α) :=
  if i < v.length then
    v.getLast?.map fun last => (v.set i last).dropLast
  else none

theorem swapRemove?_eq_none_iff {v : List α} {i : Nat} :
    swapRemove? v i = none ↔ v.length ≤ i := by
  unfold swapRemove?
  split
  · cases v with
    | nil => simp
    | cons x xs => simp_all
  · simp_all

theorem swapRemove?_map (f : α → β) (v : List α) (i : Nat) :
    swapRemove? (v.map f) i = (swapRemove? v i).map (List.map f) := by
  unfold swapRemove?
  rw [List.length_map, List.getLast?_map]
  split
  · cases v.getLast? with
    | none => rfl
    | some last => simp [List.map_set, List.map_dropLast]
  · rfl

theorem swapRemove?_isSome {v : List α} {i : Nat} (hi : i < v.length) :
    ∃ w, swapRemove? v i = some w := by
  apply Option.ne_none_iff_exists'.mp
  rw [Ne, swapRemove?_eq_none_iff]
  omega

private theorem swapRemove?_concat (init : List α) (last : α) (i : Nat)
    (hi : i ≤ init.length) :
    swapRemove? (init ++ [last]) i =
      some (if i < init.length then init.set i last else init) := by
  have hlt : i < (init ++ [last]).length := by simp; omega
  rw [swapRemove?, if_pos hlt]
  simp only [List.getLast?_append, List.getLast?_singleton, Option.some_or,
    Option.map_some, Option.some.injEq]
  split
  · rename_i h
    rw [List.set_append_left _ _ h, List.dropLast_concat]
  · have : i = init.length := by omega
    subst this
    simp

theorem swapRemove?_perm {v w : List α} {i : Nat} {x : α}
    (hx : v[i]? = some x) (hw : swapRemove? v i = some w) :
    x :: w ~ v := by
  obtain ⟨hi, rfl⟩ := List.getElem?_eq_some_iff.mp hx
  induction v using List.reverseRecOn with
  | nil => simp at hi
  | append_singleton init last _ =>
      have hle : i ≤ init.length := by
        simp at hi
        omega
      rw [swapRemove?_concat init last i hle, Option.some.injEq] at hw
      subst hw
      split
      · rename_i h
        rw [List.getElem_append_left h]
        calc
          init[i] :: init.set i last
              ~ init[i] :: last :: init.eraseIdx i :=
                (List.set_perm_cons_eraseIdx h last).cons _
          _ ~ last :: init[i] :: init.eraseIdx i := .swap _ _ _
          _ ~ last :: init := (List.getElem_cons_eraseIdx_perm h).cons _
          _ ~ init ++ [last] := (List.perm_append_singleton _ _).symm
      · have : i = init.length := by omega
        subst this
        simpa using (List.perm_append_singleton last init).symm

def swapRemoveAt (v : List α) : Option Nat → List α
  | none => v
  | some i => (swapRemove? v i).getD v

@[simp] theorem swapRemoveAt_none (v : List α) : swapRemoveAt v none = v := rfl

theorem swapRemoveAt_map (f : α → β) (v : List α) (o : Option Nat) :
    swapRemoveAt (v.map f) o = (swapRemoveAt v o).map f := by
  cases o with
  | none => rfl
  | some i =>
      simp only [swapRemoveAt, swapRemove?_map]
      cases swapRemove? v i <;> rfl

theorem swapRemoveAt_length_congr {v : List α} {w : List β}
    (h : v.length = w.length) (o : Option Nat) :
    (swapRemoveAt v o).length = (swapRemoveAt w o).length := by
  have hunit : v.map (fun _ => ()) = w.map (fun _ => ()) := by
    rw [List.map_const', List.map_const', h]
  rw [← List.length_map (fun _ => ()), ← swapRemoveAt_map, hunit,
    swapRemoveAt_map, List.length_map]

theorem swapRemoveAt_perm {v : List α} {i : Nat} {x : α}
    (hx : v[i]? = some x) : x :: swapRemoveAt v (some i) ~ v := by
  obtain ⟨w, hw⟩ := swapRemove?_isSome (List.getElem?_eq_some_iff.mp hx).1
  simpa [swapRemoveAt, hw] using swapRemove?_perm hx hw

theorem swapRemoveAt_subperm (v : List α) (o : Option Nat) :
    swapRemoveAt v o <+~ v := by
  cases o with
  | none => exact List.Subperm.refl v
  | some i =>
      by_cases hi : i < v.length
      · exact (List.sublist_cons_self _ _).subperm.trans
          (swapRemoveAt_perm (List.getElem?_eq_getElem hi)).subperm
      · rw [swapRemoveAt, swapRemove?_eq_none_iff.mpr (not_lt.mp hi)]
        exact List.Subperm.refl v

/-! ## Positional extrema -/

section Extrema

variable [LinearOrder β]

def firstMinIdx (keep : α → Bool) (key : α → β) (v : List α) : Option Nat :=
  ((v.zipIdx.filter fun e => keep e.1).argmin fun e => key e.1).map Prod.snd

def lastMaxIdx (key : α → β) (v : List α) : Option Nat :=
  (v.zipIdx.reverse.argmax fun e => key e.1).map Prod.snd

/-- `i` is the position that a forward scan for the least key settles on. -/
structure IsFirstMin (keep : α → Bool) (key : α → β) (v : List α) (i : Nat)
    (x : α) : Prop where
  get : v[i]? = some x
  kept : keep x = true
  least : ∀ y ∈ v, keep y = true → key x ≤ key y
  first : ∀ j y, j < i → v[j]? = some y → keep y = true → key x < key y

structure IsLastMax (key : α → β) (v : List α) (i : Nat) (x : α) : Prop where
  get : v[i]? = some x
  greatest : ∀ y ∈ v, key y ≤ key x
  last : ∀ j y, i < j → v[j]? = some y → key y < key x

private theorem argmin_zipIdx_spec (keep : α → Bool) (key : α → β)
    (v : List α) :
    match (v.zipIdx.filter fun e => keep e.1).argmin fun e => key e.1 with
    | none => ∀ y ∈ v, keep y = false
    | some e => IsFirstMin keep key v e.2 e.1 := by
  induction v using List.reverseRecOn with
  | nil => simp
  | append_singleton v a ih =>
      rw [List.zipIdx_append, List.filter_append]
      cases hkeep : keep a with
      | false =>
          simp only [List.zipIdx_singleton, List.filter_cons, hkeep,
            Bool.false_eq_true, if_false, List.filter_nil, List.append_nil]
          cases hmin : (v.zipIdx.filter fun e => keep e.1).argmin
              fun e => key e.1 with
          | none =>
              simp only [hmin] at ih ⊢
              grind
          | some e =>
              simp only [hmin] at ih ⊢
              obtain ⟨hget, hkept, hleast, hfirst⟩ := ih
              constructor <;> grind
      | true =>
          simp only [List.zipIdx_singleton, List.filter_cons, hkeep, if_true,
            List.filter_nil, List.argmin_concat]
          cases hmin : (v.zipIdx.filter fun e => keep e.1).argmin
              fun e => key e.1 with
          | none =>
              simp only [hmin] at ih ⊢
              constructor <;> grind
          | some e =>
              simp only [hmin] at ih ⊢
              obtain ⟨hget, hkept, hleast, hfirst⟩ := ih
              by_cases hlt : key a < key e.1
              · simp only [hlt, if_true]
                constructor <;> grind
              · simp only [hlt, if_false]
                constructor <;> grind

private theorem argmax_zipIdx_spec (key : α → β) (v : List α) :
    match v.zipIdx.reverse.argmax fun e => key e.1 with
    | none => v = []
    | some e => IsLastMax key v e.2 e.1 := by
  induction v using List.reverseRecOn with
  | nil => simp
  | append_singleton v a ih =>
      rw [List.zipIdx_append, List.reverse_append]
      simp only [List.zipIdx_singleton, List.reverse_singleton,
        List.singleton_append, List.argmax_cons]
      cases hmax : v.zipIdx.reverse.argmax fun e => key e.1 with
      | none =>
          simp only [hmax] at ih ⊢
          subst ih
          constructor <;> grind
      | some e =>
          simp only [hmax] at ih ⊢
          obtain ⟨hget, hgreatest, hlast⟩ := ih
          by_cases hlt : key a < key e.1
          · simp only [hlt, if_true]
            constructor <;> grind
          · simp only [hlt, if_false]
            constructor <;> grind

theorem IsFirstMin.unique {keep : α → Bool} {key : α → β} {v : List α}
    {i j : Nat} {x y : α} (hi : IsFirstMin keep key v i x)
    (hj : IsFirstMin keep key v j y) : i = j ∧ x = y := by
  have hx := List.mem_of_getElem? hi.get
  have hy := List.mem_of_getElem? hj.get
  rcases lt_trichotomy i j with h | h | h
  · exact absurd (hj.first i x h hi.get hi.kept)
      (not_lt.mpr (hi.least y hy hj.kept))
  · subst h
    exact ⟨rfl, Option.some.inj (hi.get.symm.trans hj.get)⟩
  · exact absurd (hi.first j y h hj.get hj.kept)
      (not_lt.mpr (hj.least x hx hi.kept))

theorem firstMinIdx_eq_some_iff {keep : α → Bool} {key : α → β}
    {v : List α} {i : Nat} :
    firstMinIdx keep key v = some i ↔ ∃ x, IsFirstMin keep key v i x := by
  have hspec := argmin_zipIdx_spec keep key v
  unfold firstMinIdx
  cases hmin : (v.zipIdx.filter fun e => keep e.1).argmin
      fun e => key e.1 with
  | none =>
      simp only [hmin] at hspec
      simp only [Option.map_none, reduceCtorEq, false_iff, not_exists]
      intro x hx
      have := hspec x (List.mem_of_getElem? hx.get)
      simp [hx.kept] at this
  | some e =>
      simp only [hmin] at hspec
      simp only [Option.map_some, Option.some.injEq]
      constructor
      · rintro rfl
        exact ⟨e.1, hspec⟩
      · rintro ⟨x, hx⟩
        exact (hspec.unique hx).1

theorem firstMinIdx_eq_none_iff {keep : α → Bool} {key : α → β}
    {v : List α} :
    firstMinIdx keep key v = none ↔ ∀ y ∈ v, keep y = false := by
  have hspec := argmin_zipIdx_spec keep key v
  unfold firstMinIdx
  cases hmin : (v.zipIdx.filter fun e => keep e.1).argmin
      fun e => key e.1 with
  | none =>
      simp only [hmin] at hspec
      simpa using hspec
  | some e =>
      simp only [hmin] at hspec
      simp only [Option.map_some, reduceCtorEq, false_iff]
      intro hnone
      have := hnone e.1 (List.mem_of_getElem? hspec.get)
      simp [hspec.kept] at this

theorem lastMaxIdx_spec {key : α → β} {v : List α} {i : Nat}
    (h : lastMaxIdx key v = some i) : ∃ x, IsLastMax key v i x := by
  have hspec := argmax_zipIdx_spec key v
  unfold lastMaxIdx at h
  cases hmax : v.zipIdx.reverse.argmax fun e => key e.1 with
  | none => simp [hmax] at h
  | some e =>
      simp only [hmax, Option.map_some, Option.some.injEq] at h hspec
      subst h
      exact ⟨e.1, hspec⟩

theorem lastMaxIdx_eq_none_iff {key : α → β} {v : List α} :
    lastMaxIdx key v = none ↔ v = [] := by
  have hspec := argmax_zipIdx_spec key v
  unfold lastMaxIdx
  cases hmax : v.zipIdx.reverse.argmax fun e => key e.1 with
  | none => simpa [hmax] using hspec
  | some e =>
      simp only [hmax] at hspec
      simpa using List.ne_nil_of_mem (List.mem_of_getElem? hspec.get)

end Extrema

end Prequal.Foundation
