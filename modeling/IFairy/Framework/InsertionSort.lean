import Mathlib.Data.Finset.Card

/-!
# Insertion sort in an array

The loop that sorts the first `n` entries of an array in place: each entry in turn is taken out,
the larger ones before it move up by one place, and it is stored in the gap.

An insertion is a cyclic shift of a part of the array (`insertStep_apply`).  So it keeps the set of
entries, and when the entries are different a sorted beginning grows by one (`SortedBelow.insertStep`).
-/

namespace InsertionSort

variable {α : Type*} [LinearOrder α]

/-! ## The loops -/

/-- The inner loop: while the entry below the gap `j` is larger than `value`, move it up.  The
results are the final gap and the array. -/
def shiftUp (value : α) : ℕ → (ℕ → α) → ℕ × (ℕ → α)
  | 0, a => (0, a)
  | j + 1, a =>
    if value < a j then shiftUp value j (Function.update a (j + 1) (a j)) else (j + 1, a)

/-- Take out the entry at `i` and insert it into the entries before it. -/
def insertStep (a : ℕ → α) (i : ℕ) : ℕ → α :=
  let value := a i
  let r := shiftUp value i a
  Function.update r.2 r.1 value

/-- Sort the first `n` entries. -/
def insertionSort (n : ℕ) (a : ℕ → α) : ℕ → α :=
  ((List.range (n - 1)).map (1 + ·)).foldl insertStep a

/-! ## One insertion -/

/-- The place where `value` goes: everything from there up to the old gap is larger, and what lies
below it is not. -/
structure GapAt (value : α) (a : ℕ → α) (i gap : ℕ) : Prop where
  le : gap ≤ i
  above : ∀ b, gap ≤ b → b < i → value < a b
  below : 0 < gap → a (gap - 1) ≤ value

lemma shiftUp_spec (value : α) (i : ℕ) (a : ℕ → α) :
    GapAt value a i (shiftUp value i a).1 ∧
      ∀ b, (shiftUp value i a).2 b = if (shiftUp value i a).1 < b ∧ b ≤ i then a (b - 1) else a b := by
  induction i generalizing a with
  | zero =>
    refine ⟨⟨le_refl _, fun b _ hb => absurd hb (Nat.not_lt_zero b),
      fun h => absurd h (lt_irrefl 0)⟩, fun b => ?_⟩
    exact (if_neg (fun h => absurd (h.1.trans_le h.2) (lt_irrefl 0))).symm
  | succ i ih =>
    rw [shiftUp]
    split_ifs with hlt
    · obtain ⟨hgap, hshift⟩ := ih (Function.update a (i + 1) (a i))
      generalize hr : shiftUp value i (Function.update a (i + 1) (a i)) = r at hgap hshift
      have hle := hgap.le
      have hkeep : ∀ b, b ≠ i + 1 → Function.update a (i + 1) (a i) b = a b := fun b hb =>
        Function.update_of_ne hb _ _
      refine ⟨⟨Nat.le_succ_of_le hle, fun b hb hbi => ?_, fun hpos => ?_⟩, fun b => ?_⟩
      · by_cases hb' : b = i
        · rwa [hb']
        · have habove := hgap.above b hb (by omega)
          rwa [hkeep b (by omega)] at habove
      · have hbelow := hgap.below hpos
        rwa [hkeep _ (by omega)] at hbelow
      · rw [hshift b]
        by_cases hb : b = i + 1
        · subst hb
          rw [if_neg (by omega), if_pos ⟨by omega, le_refl _⟩, Function.update_self,
            Nat.add_sub_cancel]
        · rw [hkeep b hb]
          by_cases hin : r.1 < b ∧ b ≤ i
          · rw [if_pos hin, if_pos ⟨hin.1, by omega⟩, hkeep (b - 1) (by omega)]
          · rw [if_neg hin, if_neg (by omega)]
    · refine ⟨⟨le_refl _, fun b hb hbi => absurd hb (by omega), fun _ => not_lt.mp hlt⟩,
        fun b => ?_⟩
      exact (if_neg (by omega)).symm

lemma insertStep_apply (a : ℕ → α) (i : ℕ) : ∃ gap, GapAt (a i) a i gap ∧ ∀ b,
    insertStep a i b = if b = gap then a i else if gap < b ∧ b ≤ i then a (b - 1) else a b := by
  obtain ⟨hgap, hshift⟩ := shiftUp_spec (a i) i a
  refine ⟨_, hgap, fun b => ?_⟩
  by_cases hb : b = (shiftUp (a i) i a).1
  · rw [if_pos hb, insertStep, hb]
    exact Function.update_self _ _ _
  · rw [if_neg hb, ← hshift b, insertStep]
    exact Function.update_of_ne hb _ _

/-- An insertion among the first `n` entries keeps the set of these entries. -/
lemma image_insertStep (a : ℕ → α) {i n : ℕ} (hi : i < n) :
    (Finset.range n).image (insertStep a i) = (Finset.range n).image a := by
  obtain ⟨gap, hgap, happly⟩ := insertStep_apply a i
  have hle := hgap.le
  ext v
  simp only [Finset.mem_image, Finset.mem_range]
  constructor
  · rintro ⟨b, hb, rfl⟩
    rw [happly]
    split_ifs
    · exact ⟨i, hi, rfl⟩
    · exact ⟨b - 1, by omega, rfl⟩
    · exact ⟨b, hb, rfl⟩
  · rintro ⟨b, hb, rfl⟩
    by_cases hbi : b = i
    · exact ⟨gap, by omega, by rw [happly, if_pos rfl, hbi]⟩
    · by_cases hin : gap ≤ b ∧ b < i
      · refine ⟨b + 1, by omega, ?_⟩
        rw [happly, if_neg (by omega), if_pos ⟨by omega, by omega⟩, Nat.add_sub_cancel]
      · refine ⟨b, hb, ?_⟩
        rw [happly, if_neg (by omega), if_neg (by omega)]

lemma insertStep_of_lt (a : ℕ → α) {i b : ℕ} (hb : i < b) : insertStep a i b = a b := by
  obtain ⟨gap, hgap, happly⟩ := insertStep_apply a i
  have hle := hgap.le
  rw [happly, if_neg (by omega), if_neg (by omega)]

/-! ## The sort -/

/-- The first `m` entries increase strictly. -/
def SortedBelow (m : ℕ) (a : ℕ → α) : Prop := ∀ b c, b < c → c < m → a b < a c

lemma SortedBelow.insertStep {i : ℕ} {a : ℕ → α} (h : SortedBelow i a) (hnew : ∀ b < i, a b ≠ a i) :
    SortedBelow (i + 1) (insertStep a i) := by
  obtain ⟨gap, hgap, happly⟩ := insertStep_apply a i
  have hle := hgap.le
  have hbelow : ∀ b < gap, a b < a i := by
    intro b hb
    have hpred : a (gap - 1) < a i :=
      lt_of_le_of_ne (hgap.below (Nat.zero_lt_of_lt hb)) (hnew _ (by omega))
    by_cases hbg : b = gap - 1
    · rwa [hbg]
    · exact (h b (gap - 1) (by omega) (by omega)).trans hpred
  intro b c hbc hc
  rw [happly b, happly c]
  split_ifs with hb hcg hcin hcg hbin hcin hcg hcin
  · omega
  · exact hgap.above _ (by omega) (by omega)
  · omega
  · omega
  · exact h _ _ (by omega) (by omega)
  · omega
  · exact hbelow b (by omega)
  · by_cases hbc' : b = c - 1
    · omega
    · exact h _ _ (by omega) (by omega)
  · exact h _ _ hbc (by omega)

/-- Sorting different entries makes them increase and keeps their set; what lies behind stays. -/
theorem insertionSort_spec {n : ℕ} {a : ℕ → α} (hinj : Set.InjOn a (Finset.range n)) :
    SortedBelow n (insertionSort n a) ∧
      (Finset.range n).image (insertionSort n a) = (Finset.range n).image a ∧
      ∀ b, n ≤ b → insertionSort n a b = a b := by
  have hrun : ∀ m, m < n →
      SortedBelow (m + 1) (((List.range m).map (1 + ·)).foldl InsertionSort.insertStep a) ∧
      (Finset.range n).image (((List.range m).map (1 + ·)).foldl InsertionSort.insertStep a) =
        (Finset.range n).image a ∧
      ∀ b, n ≤ b → ((List.range m).map (1 + ·)).foldl InsertionSort.insertStep a b = a b := by
    intro m
    induction m with
    | zero => exact fun _ => ⟨fun b c hbc hc => absurd hbc (by omega), rfl, fun _ _ => rfl⟩
    | succ m ih =>
      intro hm
      obtain ⟨hsorted, himage, hbehind⟩ := ih (by omega)
      rw [List.range_succ, List.map_append, List.foldl_append, List.map_singleton, List.foldl_cons,
        List.foldl_nil, Nat.add_comm 1 m]
      generalize ((List.range m).map (1 + ·)).foldl InsertionSort.insertStep a = r at *
      have hinj' : Set.InjOn r (Finset.range n) := by
        apply Finset.card_image_iff.mp
        rw [himage]
        exact Finset.card_image_iff.mpr hinj
      refine ⟨hsorted.insertStep fun b hb heq => ?_, (image_insertStep r hm).trans himage,
        fun b hb => (insertStep_of_lt r (show m + 1 < b by omega)).trans (hbehind b hb)⟩
      have := hinj' (Finset.mem_coe.mpr (Finset.mem_range.mpr (by omega)))
        (Finset.mem_coe.mpr (Finset.mem_range.mpr hm)) heq
      omega
  cases n with
  | zero => exact ⟨fun b c _ hc => absurd hc (Nat.not_lt_zero c), rfl, fun _ _ => rfl⟩
  | succ n => exact hrun n (Nat.lt_succ_self n)

end InsertionSort
