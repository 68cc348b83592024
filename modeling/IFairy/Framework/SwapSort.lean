import Mathlib.Algebra.BigOperators.Group.List.Defs
import Mathlib.Algebra.Group.End
import Mathlib.Data.Finset.Card

/-!
# Selection sort that records its swaps

A program that cannot move its rows yet sorts their keys, records every swap of two keys, and
performs the recorded swaps on the rows later.  `applySwaps` performs a list of swaps on a family
indexed by natural numbers.  The recorded swaps turn the old keys into the sorted ones
(`swapSort_eq_applySwaps`), and what they do to a family does not depend on what is stored in it
(`applySwaps_comp`); so rows that were stored in the order of the old keys end in the order of the
sorted ones (`SwapsBelow.applySwaps_of_keys`).
-/

namespace IFairy

variable {α β : Type*}

/-! ## Lists of swaps -/

/-- Perform the swaps of a list, in order. -/
def applySwaps (swaps : List (ℕ × ℕ)) (rows : ℕ → α) : ℕ → α :=
  swaps.foldl (fun rows s => rows ∘ Equiv.swap s.1 s.2) rows

/-- The swaps of a list as one permutation. -/
def swapsPerm (swaps : List (ℕ × ℕ)) : Equiv.Perm ℕ :=
  (swaps.map fun s => Equiv.swap s.1 s.2).prod

/-- All swaps are among the first `n` rows. -/
def SwapsBelow (n : ℕ) (swaps : List (ℕ × ℕ)) : Prop :=
  ∀ s ∈ swaps, s.1 < n ∧ s.2 < n

variable {n : ℕ} {swaps : List (ℕ × ℕ)}

@[simp] lemma applySwaps_nil (rows : ℕ → α) : applySwaps [] rows = rows := rfl

lemma applySwaps_concat (swaps : List (ℕ × ℕ)) (i j : ℕ) (rows : ℕ → α) :
    applySwaps (swaps ++ [(i, j)]) rows = applySwaps swaps rows ∘ Equiv.swap i j := by
  rw [applySwaps, List.foldl_append]
  rfl

lemma applySwaps_eq (swaps : List (ℕ × ℕ)) (rows : ℕ → α) :
    applySwaps swaps rows = rows ∘ swapsPerm swaps := by
  induction swaps generalizing rows with
  | nil => rfl
  | cons s swaps ih =>
    rw [swapsPerm, List.map_cons, List.prod_cons, Equiv.Perm.coe_mul, ← Function.comp_assoc]
    exact ih (rows ∘ Equiv.swap s.1 s.2)

lemma applySwaps_comp (f : α → β) (swaps : List (ℕ × ℕ)) (rows : ℕ → α) :
    applySwaps swaps (f ∘ rows) = f ∘ applySwaps swaps rows := by
  rw [applySwaps_eq, applySwaps_eq, Function.comp_assoc]

lemma SwapsBelow.mono {m : ℕ} (h : SwapsBelow n swaps) (hnm : n ≤ m) : SwapsBelow m swaps :=
  fun s hs => ⟨(h s hs).1.trans_le hnm, (h s hs).2.trans_le hnm⟩

lemma swap_lt {i j r : ℕ} (hi : i < n) (hj : j < n) (hr : r < n) : Equiv.swap i j r < n := by
  rw [Equiv.swap_apply_def]
  split_ifs
  · exact hj
  · exact hi
  · exact hr

lemma SwapsBelow.perm_lt (h : SwapsBelow n swaps) {r : ℕ} (hr : r < n) :
    swapsPerm swaps r < n := by
  induction swaps with
  | nil => exact hr
  | cons s swaps ih =>
    obtain ⟨hs, hrest⟩ := List.forall_mem_cons.1 h
    rw [swapsPerm, List.map_cons, List.prod_cons, Equiv.Perm.mul_apply]
    exact swap_lt hs.1 hs.2 (ih hrest)

/-- The first `n` rows after the swaps only depend on the first `n` rows before them. -/
lemma SwapsBelow.applySwaps_congr (h : SwapsBelow n swaps) {rows rows' : ℕ → α}
    (hrows : ∀ r < n, rows r = rows' r) {r : ℕ} (hr : r < n) :
    applySwaps swaps rows r = applySwaps swaps rows' r := by
  rw [applySwaps_eq, applySwaps_eq]
  exact hrows _ (h.perm_lt hr)

lemma SwapsBelow.applySwaps_of_keys (h : SwapsBelow n swaps) {keys : ℕ → β} {rows : ℕ → α}
    {f : β → α} (hrows : ∀ r < n, rows r = f (keys r)) {r : ℕ} (hr : r < n) :
    applySwaps swaps rows r = f (applySwaps swaps keys r) := by
  rw [h.applySwaps_congr hrows hr]
  exact congrFun (applySwaps_comp f swaps keys) r

lemma SwapsBelow.exists_applySwaps_eq (h : SwapsBelow n swaps) (rows : ℕ → α) {a : ℕ}
    (ha : a < n) : ∃ r < n, applySwaps swaps rows r = rows a := by
  -- a permutation that maps the first `n` numbers into themselves also maps onto them
  have hsurj : Finset.image (swapsPerm swaps) (Finset.range n) = Finset.range n := by
    refine Finset.eq_of_subset_of_card_le ?_ ?_
    · intro b hb
      obtain ⟨c, hc, rfl⟩ := Finset.mem_image.1 hb
      exact Finset.mem_range.2 (h.perm_lt (Finset.mem_range.1 hc))
    · rw [Finset.card_image_of_injective _ (swapsPerm swaps).injective]
  obtain ⟨r, hr, hra⟩ := Finset.mem_image.1 (hsurj.symm ▸ Finset.mem_range.2 ha)
  refine ⟨r, Finset.mem_range.1 hr, ?_⟩
  rw [applySwaps_eq, Function.comp_apply, hra]

/-! ## The sort -/

variable [LinearOrder β]

/-- The index of a least key among those from `i` on. -/
def minFrom (keys : ℕ → β) (n i : ℕ) : ℕ :=
  (List.range' (i + 1) (n - (i + 1))).foldl
    (fun jMin j => if keys j < keys jMin then j else jMin) i

/-- One round: bring a least key to place `i` and record the swap, unless it is there already. -/
def sortStep (n : ℕ) (r : (ℕ → β) × List (ℕ × ℕ)) (i : ℕ) : (ℕ → β) × List (ℕ × ℕ) :=
  let jMin := minFrom r.1 n i
  if jMin = i then r else (r.1 ∘ Equiv.swap i jMin, r.2 ++ [(i, jMin)])

/-- Selection sort of the first `n` keys, with the swaps it performed. -/
def swapSort (n : ℕ) (keys : ℕ → β) : (ℕ → β) × List (ℕ × ℕ) :=
  (List.range (n - 1)).foldl (sortStep n) (keys, [])

lemma minFrom_spec (keys : ℕ → β) {n i : ℕ} (hi : i < n) :
    i ≤ minFrom keys n i ∧ minFrom keys n i < n ∧
      ∀ j, i ≤ j → j < n → keys (minFrom keys n i) ≤ keys j := by
  -- after `m` comparisons the least key among the first `m + 1` has been found
  have hloop : ∀ m, i + m < n →
      let jMin := (List.range' (i + 1) m).foldl
        (fun jMin j => if keys j < keys jMin then j else jMin) i
      i ≤ jMin ∧ jMin < n ∧ ∀ j, i ≤ j → j ≤ i + m → keys jMin ≤ keys j := by
    intro m
    induction m with
    | zero =>
      intro _
      refine ⟨le_rfl, hi, fun j hij hj => ?_⟩
      rw [show j = i by omega]
      rfl
    | succ m ih =>
      intro hm
      obtain ⟨hle, hlt, hmin⟩ := ih (by omega)
      rw [List.range'_concat, List.foldl_append, List.foldl_cons, List.foldl_nil]
      dsimp only
      split
      · rename_i hkey
        refine ⟨by omega, by omega, fun j hij hj => ?_⟩
        rcases Nat.lt_or_ge (i + m) j with h | h
        · rw [show j = i + 1 + 1 * m by omega]
        · exact hkey.le.trans (hmin j hij h)
      · rename_i hkey
        refine ⟨hle, hlt, fun j hij hj => ?_⟩
        rcases Nat.lt_or_ge (i + m) j with h | h
        · rw [show j = i + 1 + 1 * m by omega]
          exact not_lt.1 hkey
        · exact hmin j hij h
  obtain ⟨hle, hlt, hmin⟩ := hloop (n - (i + 1)) (by omega)
  exact ⟨hle, hlt, fun j hij hj => hmin j hij (by omega)⟩

/-- What the first `i` rounds establish. -/
structure SortedTo (n : ℕ) (keys : ℕ → β) (i : ℕ) (r : (ℕ → β) × List (ℕ × ℕ)) : Prop where
  eq_applySwaps : r.1 = applySwaps r.2 keys
  below : SwapsBelow n r.2
  least : ∀ a b, a < i → a ≤ b → b < n → r.1 a ≤ r.1 b

lemma SortedTo.step {keys : ℕ → β} {i : ℕ} {r : (ℕ → β) × List (ℕ × ℕ)} (hi : i < n)
    (h : SortedTo n keys i r) : SortedTo n keys (i + 1) (sortStep n r i) := by
  obtain ⟨hle, hlt, hmin⟩ := minFrom_spec r.1 hi
  unfold sortStep
  by_cases heq : minFrom r.1 n i = i
  · rw [if_pos heq]
    refine ⟨h.eq_applySwaps, h.below, fun a b ha hab hb => ?_⟩
    rcases Nat.lt_succ_iff_lt_or_eq.1 ha with ha | rfl
    · exact h.least a b ha hab hb
    · have hb' := hmin b hab hb
      rwa [heq] at hb'
  · rw [if_neg heq]
    set m := minFrom r.1 n i
    refine ⟨?_, ?_, fun a b ha hab hb => ?_⟩
    · rw [applySwaps_concat, ← h.eq_applySwaps]
    · intro s hs
      rcases List.mem_append.1 hs with hs | hs
      · exact h.below s hs
      · obtain rfl := List.mem_singleton.1 hs
        exact ⟨hi, hlt⟩
    · -- the swap permutes the keys from `i` on
      have hfrom : ∀ c, i ≤ c → c < n →
          i ≤ Equiv.swap i m c ∧ Equiv.swap i m c < n := by
        intro c hic hc
        rw [Equiv.swap_apply_def]
        split_ifs <;> omega
      rcases Nat.lt_succ_iff_lt_or_eq.1 ha with ha | rfl
      · have hfix : Equiv.swap i m a = a := Equiv.swap_apply_of_ne_of_ne (by omega) (by omega)
        change r.1 (Equiv.swap i m a) ≤ r.1 (Equiv.swap i m b)
        rw [hfix]
        rcases Nat.lt_or_ge b i with hbi | hbi
        · rw [Equiv.swap_apply_of_ne_of_ne (by omega) (by omega)]
          exact h.least a b ha hab hb
        · have hb' := hfrom b hbi hb
          exact h.least a _ ha (by omega) hb'.2
      · change r.1 (Equiv.swap a m a) ≤ r.1 (Equiv.swap a m b)
        rw [Equiv.swap_apply_left]
        have hb' := hfrom b hab hb
        exact hmin _ hb'.1 hb'.2

lemma swapSort_sortedTo (n : ℕ) (keys : ℕ → β) :
    SortedTo n keys (n - 1) (swapSort n keys) := by
  have hloop : ∀ m ≤ n - 1, SortedTo n keys m ((List.range m).foldl (sortStep n) (keys, [])) := by
    intro m
    induction m with
    | zero =>
      intro _
      exact ⟨rfl, List.forall_mem_nil _, fun a b ha => absurd ha (Nat.not_lt_zero a)⟩
    | succ m ih =>
      intro hm
      rw [List.range_succ, List.foldl_append, List.foldl_cons, List.foldl_nil]
      exact (ih (by omega)).step (by omega)
  exact hloop _ le_rfl

theorem swapSort_eq_applySwaps (n : ℕ) (keys : ℕ → β) :
    (swapSort n keys).1 = applySwaps (swapSort n keys).2 keys :=
  (swapSort_sortedTo n keys).eq_applySwaps

theorem swapSort_below (n : ℕ) (keys : ℕ → β) : SwapsBelow n (swapSort n keys).2 :=
  (swapSort_sortedTo n keys).below

theorem swapSort_le (n : ℕ) (keys : ℕ → β) {a b : ℕ} (hab : a < b) (hb : b < n) :
    (swapSort n keys).1 a ≤ (swapSort n keys).1 b :=
  (swapSort_sortedTo n keys).least a b (by omega) hab.le hb

theorem swapSort_lt {keys : ℕ → β} (hinj : ∀ a < n, ∀ b < n, keys a = keys b → a = b) {a b : ℕ}
    (hab : a < b) (hb : b < n) : (swapSort n keys).1 a < (swapSort n keys).1 b := by
  refine lt_of_le_of_ne (swapSort_le n keys hab hb) fun heq => ?_
  have hbelow := swapSort_below n keys
  rw [swapSort_eq_applySwaps, applySwaps_eq] at heq
  have hperm := hinj _ (hbelow.perm_lt (hab.trans hb)) _ (hbelow.perm_lt hb) heq
  exact hab.ne ((swapsPerm _).injective hperm)

end IFairy
