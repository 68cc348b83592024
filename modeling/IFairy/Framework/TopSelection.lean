import Mathlib.Data.Finset.Card
import Mathlib.Data.Finset.Union

/-!
# Selecting the largest scores

The loop that picks the `n` largest of `count` scores by scanning all of them `n` times.  A scan
keeps the first of the largest scores that is not selected yet.

`Before` orders the indices by score, equal scores by index; a scan finds the least unselected
index of this order.  So what is selected is always a beginning of the order
(`Selected.select`), and after `n` scans it is the indices of rank below `n`
(`selectTop_spec`).
-/

namespace TopSelection

variable {β : Type*} [LinearOrder β]

/-! ## The loops -/

/-- One scan: the best unselected index so far, none at first, and the score to beat. -/
def scan (score : ℕ → β) (floor : β) (selected : ℕ → Bool) (count : ℕ) : Option ℕ × β :=
  (List.range count).foldl (fun best i =>
    if !selected i && decide (best.2 < score i) then (some i, score i) else best) (none, floor)

/-- One round: mark the index that the scan found and store it as number `rank`.  A scan that finds
nothing fails an assertion; here it stores nothing. -/
def select (score : ℕ → β) (floor : β) (count : ℕ) (s : (ℕ → Bool) × (ℕ → ℕ)) (rank : ℕ) :
    (ℕ → Bool) × (ℕ → ℕ) :=
  (scan score floor s.1 count).1.elim s fun best =>
    (Function.update s.1 best true, Function.update s.2 rank best)

/-- The positions of the `n` largest of `count` scores, in the order of their selection. -/
def selectTop (score : ℕ → β) (floor : β) (count n : ℕ) : ℕ → ℕ :=
  ((List.range n).foldl (select score floor count) (fun _ => false, fun _ => 0)).2

/-! ## The order of selection -/

variable (score : ℕ → β)

/-- Index `i` is selected before index `j`. -/
def Before (i j : ℕ) : Prop := score j < score i ∨ score i = score j ∧ i < j

instance (i j : ℕ) : Decidable (Before score i j) := inferInstanceAs (Decidable (_ ∨ _))

/-- The number of indices that are selected before `i`. -/
def rankOf (count i : ℕ) : ℕ := ((Finset.range count).filter fun j => Before score j i).card

variable {score}

lemma Before.asymm {i j : ℕ} (h : Before score i j) : ¬ Before score j i := by
  rintro (hji | ⟨heq, hlt⟩)
  · rcases h with hij | ⟨heq, -⟩
    · exact lt_asymm hij hji
    · exact absurd hji (by rw [heq]; exact lt_irrefl _)
  · rcases h with hij | ⟨-, hlt'⟩
    · exact absurd hij (by rw [heq]; exact lt_irrefl _)
    · exact lt_asymm hlt hlt'

lemma Before.irrefl (i : ℕ) : ¬ Before score i i := fun h => h.asymm h

lemma Before.le {i j : ℕ} (h : Before score i j) : score j ≤ score i := by
  rcases h with hlt | ⟨heq, -⟩
  · exact hlt.le
  · exact heq.ge

/-! ## A scan -/

/-- What a scan over the first `m` indices has found. -/
structure Found (score : ℕ → β) (selected : ℕ → Bool) (m best : ℕ) : Prop where
  lt : best < m
  unselected : selected best = false
  before : ∀ j < m, selected j = false → j ≠ best → Before score best j

lemma scan_spec {floor : β} (selected : ℕ → Bool) (count : ℕ) (hfloor : ∀ i, floor < score i) :
    ((scan score floor selected count).1 = none ∧ (scan score floor selected count).2 = floor ∧
      ∀ j < count, selected j = true) ∨
    ∃ best, (scan score floor selected count).1 = some best ∧
      (scan score floor selected count).2 = score best ∧ Found score selected count best := by
  induction count with
  | zero => exact Or.inl ⟨rfl, rfl, fun j hj => absurd hj (Nat.not_lt_zero j)⟩
  | succ m ih =>
    have hstep : scan score floor selected (m + 1) =
        if !selected m && decide ((scan score floor selected m).2 < score m) then
          (some m, score m) else scan score floor selected m := by
      rw [scan, List.range_succ, List.foldl_append]
      rfl
    rw [hstep]
    rcases ih with ⟨hnone, hscore, hall⟩ | ⟨best, hbest, hscore, hfound⟩
    · cases hm : selected m
      · right
        rw [if_pos (by simp [hscore, hfloor])]
        refine ⟨m, rfl, rfl, Nat.lt_succ_self m, hm, fun j hj hsel hjm => ?_⟩
        rw [hall j (by omega)] at hsel
        exact absurd hsel Bool.true_eq_false_eq_False
      · left
        rw [if_neg (by simp)]
        refine ⟨hnone, hscore, fun j hj => ?_⟩
        rcases Nat.lt_succ_iff_lt_or_eq.mp hj with hj | rfl
        · exact hall j hj
        · exact hm
    · right
      by_cases hnew : selected m = false ∧ score best < score m
      · rw [if_pos (by simp [hscore, hnew])]
        refine ⟨m, rfl, rfl, Nat.lt_succ_self m, hnew.1, fun j hj hsel hjm => Or.inl ?_⟩
        by_cases hjb : j = best
        · rw [hjb]
          exact hnew.2
        · exact (hfound.before j (by omega) hsel hjb).le.trans_lt hnew.2
      · rw [if_neg (by simpa [hscore] using hnew)]
        refine ⟨best, hbest, hscore, Nat.lt_succ_of_lt hfound.lt, hfound.unselected,
          fun j hj hsel hjb => ?_⟩
        rcases Nat.lt_succ_iff_lt_or_eq.mp hj with hj | rfl
        · exact hfound.before j hj hsel hjb
        · have hle : score j ≤ score best := not_lt.mp fun h => hnew ⟨hsel, h⟩
          rcases hle.lt_or_eq with hlt | heq
          · exact Or.inl hlt
          · exact Or.inr ⟨heq.symm, hfound.lt⟩

/-! ## The rounds -/

/-- What `r` rounds have selected: `r` different indices, which come before all others. -/
structure Selected (score : ℕ → β) (count r : ℕ) (s : (ℕ → Bool) × (ℕ → ℕ)) : Prop where
  lt : ∀ b < r, s.2 b < count
  inj : ∀ b < r, ∀ c < r, s.2 b = s.2 c → b = c
  marked : ∀ i, s.1 i = true ↔ ∃ b < r, s.2 b = i
  before : ∀ b < r, ∀ j < count, s.1 j = false → Before score (s.2 b) j

lemma Selected.start (score : ℕ → β) (count : ℕ) :
    Selected score count 0 (fun _ => false, fun _ => 0) :=
  ⟨fun b hb => absurd hb (Nat.not_lt_zero b), fun b hb => absurd hb (Nat.not_lt_zero b),
    fun i => by simp, fun b hb => absurd hb (Nat.not_lt_zero b)⟩

lemma Selected.exists_unmarked {count r : ℕ} {s : (ℕ → Bool) × (ℕ → ℕ)}
    (h : Selected score count r s) (hr : r < count) : ∃ j < count, s.1 j = false := by
  by_contra hnot
  push Not at hnot
  have hsub : Finset.range count ⊆ (Finset.range r).image s.2 := by
    intro j hj
    obtain ⟨b, hb, hbj⟩ := (h.marked j).mp (by simpa using hnot j (Finset.mem_range.mp hj))
    exact Finset.mem_image.mpr ⟨b, Finset.mem_range.mpr hb, hbj⟩
  have hcard := (Finset.card_le_card hsub).trans Finset.card_image_le
  rw [Finset.card_range, Finset.card_range] at hcard
  omega

lemma Selected.select {floor : β} {count r : ℕ} {s : (ℕ → Bool) × (ℕ → ℕ)}
    (h : Selected score count r s) (hfloor : ∀ i, floor < score i) (hr : r < count) :
    Selected score count (r + 1) (select score floor count s r) := by
  rcases scan_spec s.1 count hfloor with ⟨-, -, hall⟩ | ⟨best, hbest, -, hfound⟩
  · obtain ⟨j, hj, hsel⟩ := h.exists_unmarked hr
    rw [hall j hj] at hsel
    exact absurd hsel Bool.true_eq_false_eq_False
  · rw [TopSelection.select, hbest, Option.elim_some]
    have hold : ∀ b < r, Function.update s.2 r best b = s.2 b := fun b hb =>
      Function.update_of_ne (Nat.ne_of_lt hb) _ _
    have hnew : Function.update s.2 r best r = best := Function.update_self _ _ _
    have hfresh : ∀ b < r, s.2 b ≠ best := by
      intro b hb heq
      have hmark := (h.marked best).mpr ⟨b, hb, heq⟩
      rw [hfound.unselected] at hmark
      exact absurd hmark Bool.false_eq_true_eq_False
    refine ⟨fun b hb => ?_, fun b hb c hc heq => ?_, fun i => ?_, fun b hb j hj hsel => ?_⟩
    · dsimp only
      rcases Nat.lt_succ_iff_lt_or_eq.mp hb with hb | rfl
      · rw [hold b hb]
        exact h.lt b hb
      · rw [hnew]
        exact hfound.lt
    · dsimp only at heq
      rcases Nat.lt_succ_iff_lt_or_eq.mp hb with hb | rfl <;>
        rcases Nat.lt_succ_iff_lt_or_eq.mp hc with hc | rfl
      · exact h.inj b hb c hc (by rwa [hold b hb, hold c hc] at heq)
      · exact absurd (by rwa [hold b hb, hnew] at heq) (hfresh b hb)
      · exact absurd (by rw [hold c hc, hnew] at heq; exact heq.symm) (hfresh c hc)
      · rfl
    · by_cases hi : i = best
      · subst hi
        exact iff_of_true (Function.update_self _ _ _) ⟨r, Nat.lt_succ_self r, hnew⟩
      · simp only [Function.update_of_ne hi, h.marked]
        constructor
        · rintro ⟨b, hb, rfl⟩
          exact ⟨b, Nat.lt_succ_of_lt hb, hold b hb⟩
        · rintro ⟨b, hb, rfl⟩
          rcases Nat.lt_succ_iff_lt_or_eq.mp hb with hb | rfl
          · exact ⟨b, hb, (hold b hb).symm⟩
          · exact absurd hnew hi
    · have hjb : j ≠ best := by
        rintro rfl
        simp at hsel
      simp only [Function.update_of_ne hjb] at hsel
      rcases Nat.lt_succ_iff_lt_or_eq.mp hb with hb | rfl
      · simp only [hold b hb]
        exact h.before b hb j hj hsel
      · simp only [hnew]
        exact hfound.before j hj hsel hjb

lemma Selected.iff_rankOf {count r : ℕ} {s : (ℕ → Bool) × (ℕ → ℕ)} (h : Selected score count r s)
    {i : ℕ} (hi : i < count) : (∃ b < r, s.2 b = i) ↔ rankOf score count i < r := by
  have hcard : ((Finset.range r).image s.2).card = r := by
    rw [Finset.card_image_of_injOn, Finset.card_range]
    intro b hb c hc heq
    exact h.inj b (Finset.mem_range.mp hb) c (Finset.mem_range.mp hc) heq
  constructor
  · rintro ⟨b, hb, rfl⟩
    have hsub : (Finset.range count).filter (fun j => Before score j (s.2 b)) ⊂
        (Finset.range r).image s.2 := by
      refine Finset.ssubset_iff_subset_ne.mpr ⟨fun j hj => ?_, fun heq => ?_⟩
      · obtain ⟨hj, hbefore⟩ := Finset.mem_filter.mp hj
        cases hsel : s.1 j
        · exact absurd hbefore (h.before b hb j (Finset.mem_range.mp hj) hsel).asymm
        · obtain ⟨c, hc, rfl⟩ := (h.marked j).mp hsel
          exact Finset.mem_image_of_mem _ (Finset.mem_range.mpr hc)
      · have hmem := Finset.mem_image_of_mem s.2 (Finset.mem_range.mpr hb)
        rw [← heq] at hmem
        exact Before.irrefl _ (Finset.mem_filter.mp hmem).2
    exact (Finset.card_lt_card hsub).trans_eq hcard
  · intro hrank
    by_contra hnot
    have hsel : s.1 i = false := by
      cases hs : s.1 i
      · rfl
      · exact absurd ((h.marked i).mp hs) hnot
    have hsub : (Finset.range r).image s.2 ⊆
        (Finset.range count).filter fun j => Before score j i := by
      intro j hj
      obtain ⟨b, hb, rfl⟩ := Finset.mem_image.mp hj
      have hb' := Finset.mem_range.mp hb
      exact Finset.mem_filter.mpr ⟨Finset.mem_range.mpr (h.lt b hb'), h.before b hb' i hi hsel⟩
    have := Finset.card_le_card hsub
    rw [hcard] at this
    exact absurd hrank (not_lt.mpr this)

/-- The selected positions are different, and they are the indices of rank below `n`. -/
theorem selectTop_spec {floor : β} {count n : ℕ} (hfloor : ∀ i, floor < score i) (hn : n ≤ count) :
    (∀ b < n, selectTop score floor count n b < count) ∧
    (∀ b < n, ∀ c < n, selectTop score floor count n b = selectTop score floor count n c → b = c) ∧
    ∀ i < count, (∃ b < n, selectTop score floor count n b = i) ↔ rankOf score count i < n := by
  have hrun : ∀ r ≤ n, Selected score count r
      ((List.range r).foldl (select score floor count) (fun _ => false, fun _ => 0)) := by
    intro r
    induction r with
    | zero => exact fun _ => Selected.start score count
    | succ r ih =>
      intro hr
      rw [List.range_succ, List.foldl_append]
      exact (ih (by omega)).select hfloor (by omega)
  have h := hrun n (le_refl n)
  exact ⟨h.lt, h.inj, fun i hi => h.iff_rankOf hi⟩

theorem score_le_of_rankOf {count n i j : ℕ}
    (hsel : rankOf score count i < n) (hnot : ¬ rankOf score count j < n) :
    score j ≤ score i := by
  by_contra hlt
  have hbefore : Before score j i := Or.inl (not_le.mp hlt)
  have hsub : (Finset.range count).filter (fun k => Before score k j) ⊆
      (Finset.range count).filter fun k => Before score k i := by
    intro k hk
    obtain ⟨hk, hkj⟩ := Finset.mem_filter.mp hk
    exact Finset.mem_filter.mpr ⟨hk, Or.inl ((not_le.mp hlt).trans_le hkj.le)⟩
  have := Finset.card_le_card hsub
  rw [rankOf] at hsel hnot
  omega

end TopSelection
