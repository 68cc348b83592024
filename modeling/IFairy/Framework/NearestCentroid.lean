import Mathlib.Algebra.Order.Field.Basic
import Mathlib.Data.List.GetD
import Mathlib.Tactic.Linarith

/-!
# Nearest centroids by thresholds

A scalar quantiser compares its input with a list of thresholds and takes the first one above it.
It finds a nearest centroid when the thresholds are the midpoints of neighbouring centroids.  For
other thresholds it does so unless the input lies between a threshold and the midpoint that belongs
there (`isNearest_firstAbove_iff`).
-/

namespace NearestCentroid

variable {K : Type*} [LinearOrder K]

/-- The chain `if (v < t₀) return 0; if (v < t₁) return 1; …`. -/
def firstAbove (thresholds : List K) (v : K) : ℕ := thresholds.findIdx fun t => decide (v < t)

lemma firstAbove_le (thresholds : List K) (v : K) : firstAbove thresholds v ≤ thresholds.length :=
  List.findIdx_le_length

variable [Field K]

/-- No centroid is nearer to `v` than `c`. -/
def IsNearest (centroids : List K) (v c : K) : Prop :=
  c ∈ centroids ∧ ∀ c' ∈ centroids, |v - c| ≤ |v - c'|

instance (centroids : List K) (v c : K) : Decidable (IsNearest centroids v c) :=
  inferInstanceAs (Decidable (_ ∧ _))

/-- `v` does not lie between a threshold and the midpoint of the centroids that it separates. -/
def Clear (centroids thresholds : List K) (v : K) : Prop :=
  ∀ k < thresholds.length,
    (thresholds.getD k 0 ≤ v → (centroids.getD k 0 + centroids.getD (k + 1) 0) / (2 : ℕ) ≤ v) ∧
    (v < thresholds.getD k 0 → v ≤ (centroids.getD k 0 + centroids.getD (k + 1) 0) / (2 : ℕ))

instance (centroids thresholds : List K) (v : K) : Decidable (Clear centroids thresholds v) :=
  inferInstanceAs (Decidable (∀ _ < _, _))

/-- Increasing centroids, and increasing thresholds, one for every two neighbours. -/
structure Codebook (centroids thresholds : List K) : Prop where
  length : centroids.length = thresholds.length + 1
  centroids : centroids.Pairwise (· < ·)
  thresholds : thresholds.Pairwise (· < ·)

lemma le_of_lt_firstAbove {thresholds : List K} {v : K} {k : ℕ} (hk : k < firstAbove thresholds v) :
    thresholds.getD k 0 ≤ v := by
  have hlen : k < thresholds.length := hk.trans_le (firstAbove_le thresholds v)
  have hnot := List.not_of_lt_findIdx hk
  rw [List.getD_eq_getElem _ _ hlen]
  simpa using hnot

lemma lt_of_firstAbove (thresholds : List K) (v : K)
    (h : firstAbove thresholds v < thresholds.length) :
    v < thresholds.getD (firstAbove thresholds v) 0 := by
  rw [List.getD_eq_getElem _ _ h]
  exact of_decide_eq_true (List.findIdx_getElem (w := h))

lemma getD_lt_getD {l : List K} (hl : l.Pairwise (· < ·)) {a b : ℕ} (hab : a < b)
    (hb : b < l.length) : l.getD a 0 < l.getD b 0 := by
  rw [List.getD_eq_getElem _ _ (hab.trans hb), List.getD_eq_getElem _ _ hb]
  exact List.pairwise_iff_getElem.mp hl a b _ _ hab

lemma getD_le_getD {l : List K} (hl : l.Pairwise (· < ·)) {a b : ℕ} (hab : a ≤ b)
    (hb : b < l.length) : l.getD a 0 ≤ l.getD b 0 := by
  rcases hab.lt_or_eq with hlt | rfl
  · exact (getD_lt_getD hl hlt hb).le
  · exact le_refl _

variable [IsStrictOrderedRing K]

lemma abs_sub_le_iff_midpoint_le {a b v : K} (hab : a < b) :
    |v - b| ≤ |v - a| ↔ (a + b) / (2 : ℕ) ≤ v := by
  rw [← sq_le_sq, Nat.cast_ofNat, div_le_iff₀ two_pos]
  constructor
  · intro h
    nlinarith
  · intro h
    nlinarith

lemma abs_sub_le_iff_le_midpoint {a b v : K} (hab : a < b) :
    |v - a| ≤ |v - b| ↔ v ≤ (a + b) / (2 : ℕ) := by
  rw [← sq_le_sq, Nat.cast_ofNat, le_div_iff₀ two_pos]
  constructor
  · intro h
    nlinarith
  · intro h
    nlinarith

/-- The quantiser finds a nearest centroid exactly when the input lies between no threshold and its
midpoint. -/
theorem isNearest_firstAbove_iff {centroids thresholds : List K} (h : Codebook centroids thresholds)
    (v : K) : IsNearest centroids v (centroids.getD (firstAbove thresholds v) 0) ↔
      Clear centroids thresholds v := by
  have hlen := h.length
  have hle := firstAbove_le thresholds v
  generalize hidx : firstAbove thresholds v = idx at hle
  have hin : idx < centroids.length := by omega
  have hmono : ∀ {a b}, a ≤ b → b < centroids.length → centroids.getD a 0 ≤ centroids.getD b 0 :=
    fun hab hb => getD_le_getD h.centroids hab hb
  have hnear : IsNearest centroids v (centroids.getD idx 0) ↔
      ∀ j < centroids.length, |v - centroids.getD idx 0| ≤ |v - centroids.getD j 0| := by
    constructor
    · intro hn j hj
      rw [List.getD_eq_getElem _ _ hj]
      exact hn.2 _ (List.getElem_mem hj)
    · intro hn
      refine ⟨by rw [List.getD_eq_getElem _ _ hin]; exact List.getElem_mem hin, fun c hc => ?_⟩
      obtain ⟨j, hj, rfl⟩ := List.getElem_of_mem hc
      have := hn j hj
      rwa [List.getD_eq_getElem _ _ hj] at this
  rw [hnear]
  constructor
  · intro hn k hk
    refine ⟨fun htv => ?_, fun hvt => ?_⟩
    · -- the index is past `k`
      have hki : k < idx := by
        by_contra hge
        have hlt := lt_of_firstAbove thresholds v (by omega)
        rw [hidx] at hlt
        exact absurd htv (not_le.mpr
          (hlt.trans_le (getD_le_getD h.thresholds (not_lt.mp hge) hk)))
      have hprev := (abs_sub_le_iff_midpoint_le (getD_lt_getD h.centroids
        (Nat.sub_one_lt_of_lt hki) hin)).mp (hn (idx - 1) (by omega))
      have hk1 := hmono (show k ≤ idx - 1 by omega) (by omega)
      have hk2 := hmono (show k + 1 ≤ idx by omega) hin
      linarith
    · have hki : idx ≤ k := by
        by_contra hlt
        exact absurd (le_of_lt_firstAbove (hidx ▸ not_le.mp hlt)) (not_le.mpr hvt)
      have hnext := (abs_sub_le_iff_le_midpoint (getD_lt_getD h.centroids
        (Nat.lt_succ_self idx) (by omega))).mp (hn (idx + 1) (by omega))
      have hk1 := hmono hki (by omega)
      have hk2 := hmono (show idx + 1 ≤ k + 1 by omega) (by omega)
      linarith
  · intro hclear j hj
    rcases lt_trichotomy j idx with hlt | rfl | hgt
    · apply (abs_sub_le_iff_midpoint_le (getD_lt_getD h.centroids hlt hin)).mpr
      have hmid := (hclear (idx - 1) (by omega)).1 (le_of_lt_firstAbove (by omega))
      rw [Nat.sub_add_cancel (Nat.one_le_of_lt hlt)] at hmid
      have hj1 := hmono (show j ≤ idx - 1 by omega) (by omega)
      linarith
    · exact le_refl _
    · apply (abs_sub_le_iff_le_midpoint (getD_lt_getD h.centroids hgt hj)).mpr
      have hlt := lt_of_firstAbove thresholds v (by omega)
      rw [hidx] at hlt
      have hmid := (hclear idx (by omega)).2 hlt
      have hj1 := hmono (show idx + 1 ≤ j by omega) hj
      linarith

end NearestCentroid
