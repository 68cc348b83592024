import Mathlib.Data.Finset.Max
import Mathlib.Data.Finset.Option
import Mathlib.Data.Fintype.Card

/-!
# Ordered maps of occurrence counts

A `CountMap κ` is a map from keys to numbers of occurrences that stores no zero: a key is present
exactly when its count is not `0`.  Two updates exist, `inc` and `dec`; `dec` erases a key whose
count drops to `0`.  The smallest and the largest key are read with a default for the empty map.

`tally I f` counts the values of a family `f` over the indices `I` (`none` is no value).  A family
that changes in one place is counted by at most one `dec` and one `inc` (`tally_update_none`,
`tally_update_some`), which is how a map that is kept incrementally stays a tally.
-/

namespace IFairy

/-- A map of positive counts; a key is present exactly when its count is not `0`. -/
structure CountMap (κ : Type*) where
  keys : Finset κ
  count : κ → ℕ
  mem_keys : ∀ k, k ∈ keys ↔ count k ≠ 0

namespace CountMap

@[ext] lemma ext {κ : Type*} {m m' : CountMap κ} (h : ∀ k, m.count k = m'.count k) : m = m' := by
  have hkeys : m.keys = m'.keys := by
    ext k
    rw [m.mem_keys, m'.mem_keys, h k]
  obtain ⟨keys, count, hm⟩ := m
  obtain ⟨keys', count', hm'⟩ := m'
  obtain rfl : keys = keys' := hkeys
  obtain rfl : count = count' := funext h
  rfl

def empty {κ : Type*} : CountMap κ := ⟨∅, fun _ => 0, by simp⟩

@[simp] lemma count_empty {κ : Type*} (k : κ) : (empty : CountMap κ).count k = 0 := rfl

section Updates

variable {κ : Type*} [DecidableEq κ]

/-- `map[k]++`: a missing key starts at `0`. -/
def inc (m : CountMap κ) (k : κ) : CountMap κ where
  keys := insert k m.keys
  count := Function.update m.count k (m.count k + 1)
  mem_keys j := by
    by_cases hj : j = k
    · simp [hj]
    · simp [hj, m.mem_keys]

lemma count_inc (m : CountMap κ) (k j : κ) :
    (m.inc k).count j = if j = k then m.count k + 1 else m.count j :=
  Function.update_apply _ _ _ _

/-- `if (--map[k] == 0) map.erase(k)`. -/
def dec (m : CountMap κ) (k : κ) : CountMap κ where
  keys := if m.count k - 1 = 0 then m.keys.erase k else m.keys
  count := Function.update m.count k (m.count k - 1)
  mem_keys j := by
    by_cases hj : j = k
    · by_cases h0 : m.count k - 1 = 0
      · simp [hj, h0]
      · have : m.count k ≠ 0 := by omega
        simp [hj, h0, m.mem_keys, this]
    · split <;> simp [hj, m.mem_keys]

lemma count_dec (m : CountMap κ) (k j : κ) :
    (m.dec k).count j = if j = k then m.count k - 1 else m.count j :=
  Function.update_apply _ _ _ _

@[simp] lemma dec_inc (m : CountMap κ) (k : κ) : (m.inc k).dec k = m := by
  ext j
  rw [count_dec, count_inc, count_inc, if_pos rfl]
  by_cases hj : j = k
  · simp [hj]
  · simp [hj]

end Updates

/-! ## The smallest and the largest key -/

section Bounds

variable {κ : Type*} [LinearOrder κ]

/-- The smallest key, or the default of an empty map. -/
def minKey (m : CountMap κ) (default : κ) : κ :=
  if h : m.keys.Nonempty then m.keys.min' h else default

/-- The largest key, or the default of an empty map. -/
def maxKey (m : CountMap κ) (default : κ) : κ :=
  if h : m.keys.Nonempty then m.keys.max' h else default

lemma minKey_le {m : CountMap κ} {k : κ} (hk : m.count k ≠ 0) (d : κ) : m.minKey d ≤ k := by
  have hmem := (m.mem_keys k).2 hk
  rw [minKey, dif_pos ⟨k, hmem⟩]
  exact Finset.min'_le _ _ hmem

lemma le_maxKey {m : CountMap κ} {k : κ} (hk : m.count k ≠ 0) (d : κ) : k ≤ m.maxKey d := by
  have hmem := (m.mem_keys k).2 hk
  rw [maxKey, dif_pos ⟨k, hmem⟩]
  exact Finset.le_max' _ _ hmem

lemma count_minKey {m : CountMap κ} {k : κ} (hk : m.count k ≠ 0) (d : κ) :
    m.count (m.minKey d) ≠ 0 := by
  have hne : m.keys.Nonempty := ⟨k, (m.mem_keys k).2 hk⟩
  rw [minKey, dif_pos hne]
  exact (m.mem_keys _).1 (Finset.min'_mem _ _)

lemma count_maxKey {m : CountMap κ} {k : κ} (hk : m.count k ≠ 0) (d : κ) :
    m.count (m.maxKey d) ≠ 0 := by
  have hne : m.keys.Nonempty := ⟨k, (m.mem_keys k).2 hk⟩
  rw [maxKey, dif_pos hne]
  exact (m.mem_keys _).1 (Finset.max'_mem _ _)

private lemma keys_empty {κ : Type*} {m : CountMap κ} (h : ∀ k, m.count k = 0) : ¬ m.keys.Nonempty := by
  rintro ⟨k, hk⟩
  exact (m.mem_keys k).1 hk (h k)

lemma minKey_of_empty {m : CountMap κ} (h : ∀ k, m.count k = 0) (d : κ) : m.minKey d = d :=
  dif_neg (keys_empty h)

lemma maxKey_of_empty {m : CountMap κ} (h : ∀ k, m.count k = 0) (d : κ) : m.maxKey d = d :=
  dif_neg (keys_empty h)

end Bounds

/-! ## Tallies of a family -/

section Tally

variable {ι κ : Type*} [DecidableEq κ]

/-- How often `f` takes each value on `I`. -/
def tally (I : Finset ι) (f : ι → Option κ) : CountMap κ where
  keys := (I.image f).eraseNone
  count k := (I.filter fun i => f i = some k).card
  mem_keys k := by
    rw [Finset.mem_eraseNone, Finset.mem_image, Finset.card_ne_zero, Finset.filter_nonempty_iff]

lemma count_tally (I : Finset ι) (f : ι → Option κ) (k : κ) :
    (tally I f).count k = (I.filter fun i => f i = some k).card := rfl

lemma tally_eq_empty {I : Finset ι} {f : ι → Option κ} (h : ∀ i ∈ I, f i = none) :
    tally I f = empty := by
  ext k
  rw [count_tally, count_empty, Finset.card_eq_zero, Finset.filter_eq_empty_iff]
  intro i hi
  simp [h i hi]

/-- Clearing the value at `i` uncounts it. -/
lemma tally_update_none [DecidableEq ι] {I : Finset ι} {f : ι → Option κ} {i : ι} (hi : i ∈ I) {k : κ}
    (hf : f i = some k) : tally I (Function.update f i none) = (tally I f).dec k := by
  ext j
  rw [count_dec, count_tally, count_tally, count_tally]
  have hfilter : (I.filter fun x => Function.update f i none x = some j)
      = (I.filter fun x => f x = some j).erase i := by
    ext x
    by_cases hx : x = i
    · simp [hx]
    · simp [hx]
  rw [hfilter]
  by_cases hj : j = k
  · rw [if_pos hj, hj, Finset.card_erase_of_mem (Finset.mem_filter.2 ⟨hi, hf⟩)]
  · rw [if_neg hj, Finset.erase_eq_of_notMem]
    rw [Finset.mem_filter, hf]
    exact fun h => hj (Option.some.inj h.2).symm

/-- Setting a missing value at `i` counts it. -/
lemma tally_update_some [DecidableEq ι] {I : Finset ι} {f : ι → Option κ} {i : ι} (hi : i ∈ I) (k : κ)
    (hf : f i = none) : tally I (Function.update f i (some k)) = (tally I f).inc k := by
  have hback : f = Function.update (Function.update f i (some k)) i none := by
    rw [Function.update_idem, ← hf, Function.update_eq_self]
  have hdec := tally_update_none hi (f := Function.update f i (some k)) (k := k)
    (Function.update_self ..)
  ext j
  rw [count_inc]
  have hcount := congrArg (fun m => m.count j) hdec
  simp only [← hback] at hcount
  rw [count_dec] at hcount
  by_cases hj : j = k
  · subst hj
    have hpos : (tally I (Function.update f i (some j))).count j ≠ 0 :=
      Finset.card_ne_zero.2 ⟨i, Finset.mem_filter.2 ⟨hi, Function.update_self ..⟩⟩
    rw [if_pos rfl] at hcount ⊢
    omega
  · rw [if_neg hj] at hcount ⊢
    exact hcount.symm

end Tally

end CountMap

end IFairy
