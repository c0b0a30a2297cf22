import Mathlib.Data.List.AList
import Mathlib.Data.Finset.Card
import Mathlib.Data.Finset.Dedup
import Mathlib.Data.List.MinMax

/-!
# Last-writer-wins maps

A sequence of stamped reports is folded into a map that keeps, for each key,
the report with the greatest stamp.  Without ties the kept reports form a
sublist of the sequence that can be described without mentioning the map.
-/

namespace Prequal.Foundation

open scoped List

variable {ε κ τ ν : Type*} [DecidableEq κ] [LinearOrder τ]

/--
Look up the entry of `k`, creating it from the present report when it is
vacant, and overwrite it unless it carries a later stamp.
-/
def recordLatest (m : AList fun _ : κ => τ × ν) (k : κ) (t : τ) (v : ν) :
    AList fun _ : κ => τ × ν :=
  let e := (m.lookup k).getD (t, v)
  m.insert k (if e.1 ≤ t then (t, v) else e)

def latestMap (key : ε → κ) (stamp : ε → τ) (val : ε → ν) (l : List ε) :
    AList fun _ : κ => τ × ν :=
  l.foldl (fun m p => recordLatest m (key p) (stamp p) (val p)) ∅

def latestVals (key : ε → κ) (stamp : ε → τ) (val : ε → ν) (l : List ε) :
    List ν :=
  (latestMap key stamp val l).entries.map fun e => e.2.2

def IsLatest (key : ε → κ) (stamp : ε → τ) (l : List ε) (p : ε) : Prop :=
  ∀ q ∈ l, key q = key p → stamp q ≤ stamp p

instance (key : ε → κ) (stamp : ε → τ) (l : List ε) :
    DecidablePred (IsLatest key stamp l) := fun p =>
  inferInstanceAs (Decidable (∀ q ∈ l, key q = key p → stamp q ≤ stamp p))

def latestReports (key : ε → κ) (stamp : ε → τ) (l : List ε) : List ε :=
  l.filter fun p => IsLatest key stamp l p

def DistinctStamps (key : ε → κ) (stamp : ε → τ) (l : List ε) : Prop :=
  l.Pairwise fun p q => key p = key q → stamp p ≠ stamp q

variable {key : ε → κ} {stamp : ε → τ} {val : ε → ν}

theorem mem_latestReports {l : List ε} {p : ε} :
    p ∈ latestReports key stamp l ↔ p ∈ l ∧ IsLatest key stamp l p := by
  simp [latestReports]

@[simp] theorem latestMap_nil :
    latestMap key stamp val ([] : List ε) = ∅ := rfl

@[simp] theorem latestMap_concat (l : List ε) (a : ε) :
    latestMap key stamp val (l ++ [a]) =
      recordLatest (latestMap key stamp val l) (key a) (stamp a) (val a) := by
  simp [latestMap]

theorem mem_latestMap {l : List ε} {k : κ} :
    k ∈ latestMap key stamp val l ↔ ∃ p ∈ l, key p = k := by
  induction l using List.reverseRecOn with
  | nil => simp
  | append_singleton l a ih =>
      rw [latestMap_concat, recordLatest, AList.mem_insert, ih]
      grind

omit [DecidableEq κ] in
theorem IsLatest.concat_left {l : List ε} {a p : ε}
    (h : IsLatest key stamp l p) (ha : key a = key p → stamp a ≤ stamp p) :
    IsLatest key stamp (l ++ [a]) p := by
  intro q hq hqp
  rcases List.mem_append.mp hq with hq | hq
  · exact h q hq hqp
  · rw [List.mem_singleton.mp hq] at hqp ⊢
    exact ha hqp

theorem lookup_latestMap {l : List ε} {k : κ} {t : τ} {v : ν}
    (h : (latestMap key stamp val l).lookup k = some (t, v)) :
    ∃ p ∈ l, key p = k ∧ stamp p = t ∧ val p = v ∧
      IsLatest key stamp l p := by
  induction l using List.reverseRecOn generalizing t v with
  | nil => simp at h
  | append_singleton l a ih =>
      rw [latestMap_concat, recordLatest] at h
      by_cases hk : k = key a
      · subst hk
        rw [AList.lookup_insert, Option.some.injEq] at h
        cases hold : (latestMap key stamp val l).lookup (key a) with
        | none =>
            have hvacant : ∀ q ∈ l, key q ≠ key a := fun q hq hqa =>
              AList.lookup_eq_none.mp hold (mem_latestMap.mpr ⟨q, hq, hqa⟩)
            rw [hold] at h
            simp only [Option.getD_none, le_refl, if_true,
              Prod.mk.injEq] at h
            refine ⟨a, by simp, rfl, h.1, h.2, ?_⟩
            intro q hq hqa
            rcases List.mem_append.mp hq with hq | hq
            · exact absurd hqa (hvacant q hq)
            · rw [List.mem_singleton.mp hq]
        | some e =>
            obtain ⟨p, hp, hpk, hpt, hpv, hlatest⟩ := ih hold
            rw [hold] at h
            simp only [Option.getD_some] at h
            split at h
            · rename_i hle
              simp only [Prod.mk.injEq] at h
              refine ⟨a, by simp, rfl, h.1, h.2, ?_⟩
              intro q hq hqa
              rcases List.mem_append.mp hq with hq | hq
              · exact ((hlatest q hq (hqa.trans hpk.symm)).trans_eq hpt).trans
                  hle
              · rw [List.mem_singleton.mp hq]
            · rename_i hlt
              subst h
              refine ⟨p, by simp [hp], hpk, hpt, hpv,
                hlatest.concat_left fun _ => ?_⟩
              exact (not_le.mp hlt).le.trans_eq hpt.symm
      · rw [AList.lookup_insert_ne hk] at h
        obtain ⟨p, hp, hpk, hpt, hpv, hlatest⟩ := ih h
        refine ⟨p, by simp [hp], hpk, hpt, hpv, hlatest.concat_left ?_⟩
        intro ha
        exact absurd (hpk.symm.trans ha.symm) hk

theorem latestVals_eq_nil_iff {l : List ε} :
    latestVals key stamp val l = [] ↔ l = [] := by
  constructor
  · intro h
    have hentries : (latestMap key stamp val l).entries = [] := by
      simpa [latestVals] using h
    cases l with
    | nil => rfl
    | cons a l =>
        have hmem : key a ∈ latestMap key stamp val (a :: l) :=
          mem_latestMap.mpr ⟨a, by simp, rfl⟩
        rw [AList.mem_keys, AList.keys, hentries] at hmem
        simp at hmem
  · rintro rfl
    rfl

theorem mem_latestVals {l : List ε} {v : ν}
    (h : v ∈ latestVals key stamp val l) :
    ∃ p ∈ l, val p = v ∧ IsLatest key stamp l p := by
  obtain ⟨⟨k, t, v'⟩, he, rfl⟩ := List.mem_map.mp h
  obtain ⟨p, hp, -, -, hpv, hlatest⟩ :=
    lookup_latestMap (AList.mem_lookup_iff.mpr he)
  exact ⟨p, hp, hpv, hlatest⟩

theorem length_latestVals (l : List ε) :
    (latestVals key stamp val l).length = (l.map key).toFinset.card := by
  have hkeys : (latestMap key stamp val l).keys.toFinset =
      (l.map key).toFinset := by
    ext k
    rw [List.mem_toFinset, ← AList.mem_keys, mem_latestMap]
    simp
  rw [← hkeys, List.toFinset_card_of_nodup (AList.keys_nodup _)]
  simp [latestVals, AList.keys, List.keys]

theorem DistinctStamps.nodup_latest {l : List ε}
    (hl : DistinctStamps key stamp l) :
    ((latestReports key stamp l).map key).Nodup := by
  rw [List.nodup_iff_pairwise_ne, List.pairwise_map]
  have hsub : (latestReports key stamp l).Pairwise fun p q =>
      key p = key q → stamp p ≠ stamp q :=
    List.Pairwise.sublist List.filter_sublist hl
  refine hsub.imp_of_mem ?_
  intro p q hp hq hne hk
  rw [mem_latestReports] at hp hq
  exact hne hk (le_antisymm (hq.2 p hp.1 hk) (hp.2 q hq.1 hk.symm))

theorem latestVals_perm {l : List ε}
    (hl : ((latestReports key stamp l).map key).Nodup) :
    latestVals key stamp val l ~ (latestReports key stamp l).map val := by
  classical
  have hpairs : (latestMap key stamp val l).entries.map
        (fun e => (e.1, e.2.2)) ~
      (latestReports key stamp l).map fun p => (key p, val p) := by
    apply (List.perm_ext_iff_of_nodup ?_ ?_).mpr
    · rintro ⟨k, v⟩
      simp only [List.mem_map, Prod.mk.injEq]
      constructor
      · rintro ⟨⟨k', t, v'⟩, he, rfl, rfl⟩
        obtain ⟨p, hp, hpk, -, hpv, hlatest⟩ :=
          lookup_latestMap (AList.mem_lookup_iff.mpr he)
        exact ⟨p, mem_latestReports.mpr ⟨hp, hlatest⟩, hpk, hpv⟩
      · rintro ⟨p, hp, rfl, rfl⟩
        have hmem : key p ∈ latestMap key stamp val l :=
          mem_latestMap.mpr ⟨p, (mem_latestReports.mp hp).1, rfl⟩
        obtain ⟨⟨t, v⟩, hlookup⟩ :=
          Option.isSome_iff_exists.mp (AList.lookup_isSome.mpr hmem)
        obtain ⟨q, hq, hqk, -, hqv, hqlatest⟩ := lookup_latestMap hlookup
        obtain rfl : q = p := List.inj_on_of_nodup_map hl
          (mem_latestReports.mpr ⟨hq, hqlatest⟩) hp hqk
        exact ⟨_, AList.mem_lookup_iff.mp hlookup, rfl, hqv.symm⟩
    · apply List.Nodup.of_map Prod.fst
      simpa [AList.keys, List.keys, Function.comp_def] using
        AList.keys_nodup (latestMap key stamp val l)
    · apply List.Nodup.of_map Prod.fst
      simpa [Function.comp_def] using hl
  simpa [latestVals, Function.comp_def] using hpairs.map Prod.snd

theorem exists_isLatest {l : List ε} {q : ε} (hq : q ∈ l) :
    ∃ p ∈ l, key p = key q ∧ stamp q ≤ stamp p ∧ IsLatest key stamp l p := by
  have hmem : q ∈ l.filter fun p => key p = key q := by simpa using hq
  cases hmax : (l.filter fun p => key p = key q).argmax stamp with
  | none =>
      rw [List.argmax_eq_none.mp hmax] at hmem
      cases hmem
  | some p =>
      have hp := List.mem_filter.mp (List.argmax_mem hmax)
      have hkey : key p = key q := by simpa using hp.2
      refine ⟨p, hp.1, hkey, List.le_of_mem_argmax hmem hmax, ?_⟩
      intro q' hq' hq'p
      exact List.le_of_mem_argmax
        (List.mem_filter.mpr ⟨hq', by simpa using hq'p.trans hkey⟩) hmax

theorem latestReports_perm {l l' stale : List ε} (h : l ~ l' ++ stale)
    (hstale : ∀ e ∈ stale, ¬ IsLatest key stamp l e) :
    latestReports key stamp l ~ latestReports key stamp l' := by
  have hiff : ∀ p ∈ l', IsLatest key stamp l p ↔ IsLatest key stamp l' p := by
    intro p hp
    constructor
    · intro hlatest q hq
      exact hlatest q (h.mem_iff.mpr (List.mem_append_left _ hq))
    · intro hlatest q hq hqp
      obtain ⟨q', hq', hkey, hle, hq'latest⟩ :
          ∃ q' ∈ l, key q' = key q ∧ stamp q ≤ stamp q' ∧
            IsLatest key stamp l q' := exists_isLatest hq
      have hmem : q' ∈ l' := by
        rcases List.mem_append.mp (h.mem_iff.mp hq') with hmem | hmem
        · exact hmem
        · exact absurd hq'latest (hstale q' hmem)
      exact hle.trans (hlatest q' hmem (hkey.trans hqp))
  calc
    latestReports key stamp l
        ~ (l' ++ stale).filter fun p => IsLatest key stamp l p := h.filter _
    _ = l'.filter fun p => IsLatest key stamp l p := by
      rw [List.filter_append, List.append_right_eq_self,
        List.filter_eq_nil_iff]
      simpa using hstale
    _ = latestReports key stamp l' := by
      apply List.filter_congr
      intro p hp
      simp only [hiff p hp]

end Prequal.Foundation
