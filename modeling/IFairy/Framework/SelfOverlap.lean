import IFairy.Framework.Loops
import Mathlib.Data.List.DropRight

/-!
# Where a sequence agrees with itself

`Longest t len k n` says that `n` is the number of elements in which the first `len` elements of a
sequence agree with themselves moved by `k`.  A box, a shift `lt` with its longest overlap, tells
about the shifts in it: they overlap as the shift by `lt` less, up to the end of the box
(`Longest.overlaps_shift`), so what is known there can be taken over (`Longest.longest_shift`).
-/

namespace IFairy

variable {α : Type*} {t : ℕ → α} {len k n m : ℕ}

/-- The first elements agree with those moved by `k`. -/
def Overlaps (t : ℕ → α) (len k n : ℕ) : Prop := n + k ≤ len ∧ ∀ j < n, t j = t (j + k)

/-- No more elements agree. -/
structure Longest (t : ℕ → α) (len k n : ℕ) : Prop where
  overlaps : Overlaps t len k n
  ends : ¬(n + k < len ∧ t n = t (n + k))

lemma Overlaps.mono (h : Overlaps t len k n) (hm : m ≤ n) : Overlaps t len k m :=
  ⟨(Nat.add_le_add_right hm k).trans h.1, fun j hj => h.2 j (hj.trans_le hm)⟩

lemma Longest.le (h : Longest t len k n) (hm : Overlaps t len k m) : m ≤ n := by
  by_contra hlt
  rw [not_le] at hlt
  exact h.ends ⟨(Nat.add_lt_add_right hlt k).trans_le hm.1, hm.2 n hlt⟩

lemma Longest.unique (h : Longest t len k n) (h' : Longest t len k m) : n = m :=
  le_antisymm (h'.le h.overlaps) (h.le h'.overlaps)

lemma Overlaps.succ (h : Overlaps t len k n) (hlt : n + k < len) (heq : t n = t (n + k)) :
    Overlaps t len k (n + 1) := by
  refine ⟨by omega, fun j hj => ?_⟩
  rcases (Nat.lt_succ_iff_lt_or_eq.1 hj) with hj | rfl
  · exact h.2 j hj
  · exact heq

lemma exists_longest_loop {cond : ℕ → Bool} {start : ℕ}
    (hcond : ∀ n, cond n = true ↔ n + k < len ∧ t n = t (n + k))
    (hstart : Overlaps t len k start) :
    ∃ n, whileLoop cond (· + 1) len start = some n ∧ Longest t len k n ∧ start ≤ n := by
  have hround : ∀ n, Overlaps t len k n ∧ start ≤ n → cond n = true →
      (Overlaps t len k (n + 1) ∧ start ≤ n + 1) ∧ len - (n + 1) < len - n := by
    intro n hn hc
    obtain ⟨hlt, heq⟩ := (hcond n).1 hc
    exact ⟨⟨hn.1.succ hlt heq, hn.2.trans n.le_succ⟩, by omega⟩
  obtain ⟨n, hloop, ⟨hinv, hle⟩, hend⟩ := exists_whileLoop
    (fun n => Overlaps t len k n ∧ start ≤ n) (fun n => len - n) hround ⟨hstart, le_rfl⟩
    (show len - start ≤ len from Nat.sub_le _ _)
  refine ⟨n, hloop, ⟨hinv, fun h => ?_⟩, hle⟩
  rw [(hcond n).2 h] at hend
  cases hend

lemma overlaps_zero (h : k ≤ len) : Overlaps t len k 0 :=
  ⟨by omega, fun _ hj => absurd hj (Nat.not_lt_zero _)⟩

lemma exists_longest [DecidableEq α] (t : ℕ → α) (h : k ≤ len) : ∃ n, Longest t len k n := by
  obtain ⟨n, -, hn, -⟩ := exists_longest_loop
    (fun n => decide_eq_true_iff (p := n + k < len ∧ t n = t (n + k))) (overlaps_zero h)
  exact ⟨n, hn⟩

/-- In a list read from its end, the overlaps are the common ends of the list and of what is left
when its last elements are dropped. -/
lemma overlaps_iff_suffix {l : List α} (ht : ∀ i < l.length, l.reverse[i]? = some (t i))
    (hk : k ≤ l.length) :
    Overlaps t l.length k n ↔ ∃ w : List α, w.length = n ∧ w <:+ l ∧ w <:+ l.rdrop k := by
  constructor
  · rintro ⟨hle, heq⟩
    refine ⟨l.rtake n, by rw [List.rtake, List.length_drop]; omega, List.drop_suffix _ _, ?_⟩
    rw [← List.reverse_prefix, List.rtake_eq_reverse_take_reverse, List.reverse_reverse,
      List.rdrop_eq_reverse_drop_reverse, List.reverse_reverse, List.prefix_iff_eq_take]
    refine List.ext_getElem? fun j => ?_
    have hlength : (l.reverse.take n).length = n := by
      rw [List.length_take, List.length_reverse]
      omega
    rw [hlength, List.getElem?_take, List.getElem?_take]
    split
    · next hj =>
      rw [List.getElem?_drop, ht j (by omega), Nat.add_comm k, ht (j + k) (by omega), heq j hj]
    · rfl
  · rintro ⟨w, rfl, ⟨a, rfl⟩, hw⟩
    have hlength := hw.length_le
    rw [List.rdrop, List.length_take] at hlength
    refine ⟨by omega, fun j hj => ?_⟩
    have hfirst := ht j (by rw [List.length_append]; omega)
    have hsecond := ht (j + k) (by omega)
    obtain ⟨b, hb⟩ := hw
    have hdrop : (a ++ w).reverse.drop k = (b ++ w).reverse := by
      rw [hb, List.rdrop_eq_reverse_drop_reverse, List.reverse_reverse]
    rw [Nat.add_comm j k, ← List.getElem?_drop, hdrop, List.reverse_append,
      List.getElem?_append_left (by rwa [List.length_reverse])] at hsecond
    rw [List.reverse_append, List.getElem?_append_left (by rwa [List.length_reverse]),
      hsecond] at hfirst
    exact (Option.some.inj hfirst).symm.trans (by rw [Nat.add_comm])

section Boxes

variable {lt p box z : ℕ}

lemma Longest.overlaps_shift (hbox : Longest t len lt box) (hm : Overlaps t len p m)
    (hin : m + p ≤ box) : Overlaps t len (p + lt) m := by
  refine ⟨by have := hbox.overlaps.1; omega, fun j hj => ?_⟩
  rw [hm.2 j hj, hbox.overlaps.2 (j + p) (by omega), Nat.add_assoc]

lemma Longest.longest_shift (hbox : Longest t len lt box) (hz : Longest t len p z)
    (hin : z + p < box) : Longest t len (p + lt) z := by
  refine ⟨hbox.overlaps_shift hz.overlaps hin.le, fun ⟨_, heq⟩ => hz.ends ⟨?_, ?_⟩⟩
  · exact hin.trans_le ((Nat.le_add_right _ _).trans hbox.overlaps.1)
  · rw [heq, hbox.overlaps.2 (z + p) hin, Nat.add_assoc]

lemma Longest.min_shift (hbox : Longest t len lt box) (hz : Longest t len p z) {limit n : ℕ}
    (hn : Longest t len (p + lt) n) (hin : min limit z + p < box) : min limit n = min limit z := by
  rcases Nat.le_total z limit with hle | hle
  · rw [min_eq_right hle] at hin
    rw [hn.unique (hbox.longest_shift hz hin)]
  · rw [min_eq_left hle] at hin ⊢
    exact min_eq_left (hn.le (hbox.overlaps_shift (hz.overlaps.mono hle) hin.le))

end Boxes

end IFairy
