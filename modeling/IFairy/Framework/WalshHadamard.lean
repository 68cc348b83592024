import Mathlib.Algebra.BigOperators.Intervals
import Mathlib.Algebra.BigOperators.Ring.Finset
import Mathlib.Data.Nat.Bitwise
import Mathlib.Tactic.Ring

/-!
# The Walsh-Hadamard transform

`walsh k` is the transform of length `2 ^ k` over a commutative ring: the entry of its matrix in
row `j` and column `i` is `-1` to the number of binary digits that `j` and `i` share.  The matrix is
symmetric and its rows are orthogonal, so the transform is its own inverse up to the factor `2 ^ k`
and preserves inner products up to that factor.

`walsh_succ` is the step of the fast algorithm: a transform of twice the length is a sum or a
difference of the transforms of the two halves.
-/

namespace WalshHadamard

open Finset

/-! ## The matrix -/

/-- The sign that digit `b` contributes. -/
def digitSign (j i b : ℕ) : ℤ := if j.testBit b ∧ i.testBit b then -1 else 1

/-- The entry in row `j` and column `i` of the matrix of size `2 ^ k`. -/
def walshSign (k j i : ℕ) : ℤ := ∏ b ∈ range k, digitSign j i b

lemma digitSign_comm (j i b : ℕ) : digitSign j i b = digitSign i j b := by
  simp only [digitSign, and_comm]

lemma walshSign_comm (k j i : ℕ) : walshSign k j i = walshSign k i j :=
  prod_congr rfl fun b _ => digitSign_comm j i b

lemma walshSign_zero (j i : ℕ) : walshSign 0 j i = 1 := prod_range_zero _

lemma walshSign_succ (k j i : ℕ) : walshSign (k + 1) j i = walshSign k j i * digitSign j i k :=
  prod_range_succ _ _

/-- Only the `k` lowest digits of the column matter. -/
lemma walshSign_mod (k j i : ℕ) : walshSign k j (i % 2 ^ k) = walshSign k j i := by
  refine prod_congr rfl fun b hb => ?_
  simp only [digitSign, Nat.testBit_mod_two_pow, mem_range.mp hb, decide_true, Bool.true_and]

lemma walshSign_congr {k i i' : ℕ} (j : ℕ) (h : i % 2 ^ k = i' % 2 ^ k) :
    walshSign k j i = walshSign k j i' := by
  rw [← walshSign_mod, h, walshSign_mod]

lemma walshSign_succ_of_lt {k i : ℕ} (j : ℕ) (hi : i < 2 ^ k) :
    walshSign (k + 1) j i = walshSign k j i := by
  rw [walshSign_succ, digitSign, Nat.testBit_lt_two_pow hi, if_neg (by simp), mul_one]

lemma walshSign_succ_add {k i : ℕ} (j : ℕ) (hi : i < 2 ^ k) :
    walshSign (k + 1) j (2 ^ k + i) = walshSign k j i * if j.testBit k then -1 else 1 := by
  have hdigit : (2 ^ k + i).testBit k = true := by
    rw [Nat.testBit_two_pow_add_eq, Nat.testBit_lt_two_pow hi, Bool.not_false]
  rw [walshSign_succ, walshSign_congr j (Nat.add_mod_left (2 ^ k) i), digitSign, hdigit]
  simp only [and_true]

lemma sum_range_two_pow_succ {M : Type*} [AddCommMonoid M] (k : ℕ) (f : ℕ → M) :
    ∑ i ∈ range (2 ^ (k + 1)), f i =
      ∑ i ∈ range (2 ^ k), f i + ∑ i ∈ range (2 ^ k), f (2 ^ k + i) := by
  rw [Nat.pow_succ, Nat.mul_two, sum_range_add]

/-- Numbers below `2 ^ (k + 1)` are equal when their digit `k` and their lower digits are. -/
lemma eq_iff_testBit_and_mod {k j l : ℕ} (hj : j < 2 ^ (k + 1)) (hl : l < 2 ^ (k + 1)) :
    j = l ↔ j.testBit k = l.testBit k ∧ j % 2 ^ k = l % 2 ^ k := by
  refine ⟨fun h => by rw [h]; exact ⟨rfl, rfl⟩, fun ⟨hbit, hlow⟩ => ?_⟩
  apply Nat.eq_of_testBit_eq
  intro b
  rcases lt_trichotomy b k with hb | rfl | hb
  · have hdigit := congrArg (fun n => n.testBit b) hlow
    simpa only [Nat.testBit_mod_two_pow, hb, decide_true, Bool.true_and] using hdigit
  · exact hbit
  · have hpow : 2 ^ (k + 1) ≤ 2 ^ b := Nat.pow_le_pow_right Nat.two_pos hb
    rw [Nat.testBit_lt_two_pow (hj.trans_le hpow), Nat.testBit_lt_two_pow (hl.trans_le hpow)]

theorem sum_walshSign_mul (k : ℕ) : ∀ j l, j < 2 ^ k → l < 2 ^ k →
    ∑ i ∈ range (2 ^ k), walshSign k j i * walshSign k i l = if j = l then 2 ^ k else 0 := by
  induction k with
  | zero =>
    intro j l hj hl
    obtain rfl : j = 0 := by omega
    obtain rfl : l = 0 := by omega
    simp [walshSign_zero]
  | succ k ih =>
    intro j l hj hl
    have hhalf := ih (j % 2 ^ k) (l % 2 ^ k) (Nat.mod_lt _ (Nat.two_pow_pos k))
      (Nat.mod_lt _ (Nat.two_pow_pos k))
    have hlow : ∀ i ∈ range (2 ^ k), walshSign (k + 1) j i * walshSign (k + 1) i l =
        walshSign k (j % 2 ^ k) i * walshSign k i (l % 2 ^ k) := by
      intro i hi
      have hi' := mem_range.mp hi
      rw [walshSign_succ_of_lt j hi', walshSign_comm (k + 1), walshSign_succ_of_lt l hi',
        walshSign_mod, walshSign_comm k (j % 2 ^ k), walshSign_mod, walshSign_comm k i j,
        walshSign_comm k l i]
    have hhigh : ∀ i ∈ range (2 ^ k),
        walshSign (k + 1) j (2 ^ k + i) * walshSign (k + 1) (2 ^ k + i) l =
        walshSign k (j % 2 ^ k) i * walshSign k i (l % 2 ^ k) *
          ((if j.testBit k then -1 else 1) * if l.testBit k then -1 else 1) := by
      intro i hi
      have hi' := mem_range.mp hi
      rw [walshSign_succ_add j hi', walshSign_comm (k + 1), walshSign_succ_add l hi',
        walshSign_mod, walshSign_comm k (j % 2 ^ k), walshSign_mod, walshSign_comm k i j,
        walshSign_comm k l i]
      ring
    rw [sum_range_two_pow_succ, sum_congr rfl hlow, sum_congr rfl hhigh, ← sum_mul, hhalf,
      if_congr (eq_iff_testBit_and_mod hj hl) rfl rfl, pow_succ]
    by_cases hmod : j % 2 ^ k = l % 2 ^ k
    · cases hjbit : j.testBit k <;> cases hlbit : l.testBit k <;> simp [hmod] <;> ring
    · simp [hmod]

/-! ## The transform -/

variable {R : Type*} [CommRing R]

/-- The transform of length `2 ^ k`. -/
def walsh (k : ℕ) (x : ℕ → R) (j : ℕ) : R := ∑ i ∈ range (2 ^ k), (walshSign k j i : R) * x i

lemma walsh_zero (x : ℕ → R) (j : ℕ) : walsh 0 x j = x 0 := by
  simp [walsh, walshSign_zero]

theorem walsh_succ (k : ℕ) (x : ℕ → R) (j : ℕ) :
    walsh (k + 1) x j =
      walsh k x j + (if j.testBit k then -1 else 1) * walsh k (fun i => x (2 ^ k + i)) j := by
  rw [walsh, sum_range_two_pow_succ, walsh, walsh, mul_sum]
  congr 1
  · refine sum_congr rfl fun i hi => ?_
    rw [walshSign_succ_of_lt j (mem_range.mp hi)]
  · refine sum_congr rfl fun i hi => ?_
    rw [walshSign_succ_add j (mem_range.mp hi)]
    push_cast
    ring

lemma walsh_congr_row {k j j' : ℕ} (x : ℕ → R) (h : j % 2 ^ k = j' % 2 ^ k) :
    walsh k x j = walsh k x j' := by
  refine sum_congr rfl fun i _ => ?_
  rw [walshSign_comm k j, walshSign_comm k j', walshSign_congr i h]

lemma walsh_congr {k : ℕ} {x y : ℕ → R} (h : ∀ i < 2 ^ k, x i = y i) (j : ℕ) :
    walsh k x j = walsh k y j :=
  sum_congr rfl fun i hi => by rw [h i (mem_range.mp hi)]

lemma walsh_const_mul (k : ℕ) (c : R) (x : ℕ → R) (j : ℕ) :
    walsh k (fun i => c * x i) j = c * walsh k x j := by
  rw [walsh, walsh, mul_sum]
  exact sum_congr rfl fun i _ => by ring

theorem walsh_walsh {k j : ℕ} (x : ℕ → R) (hj : j < 2 ^ k) :
    walsh k (walsh k x) j = 2 ^ k * x j := by
  calc walsh k (walsh k x) j
      = ∑ i ∈ range (2 ^ k), ∑ l ∈ range (2 ^ k),
          (walshSign k j i : R) * ((walshSign k i l : R) * x l) :=
        sum_congr rfl fun i _ => by rw [walsh, mul_sum]
    _ = ∑ l ∈ range (2 ^ k), ∑ i ∈ range (2 ^ k),
          (walshSign k j i : R) * ((walshSign k i l : R) * x l) := sum_comm
    _ = ∑ l ∈ range (2 ^ k), if j = l then 2 ^ k * x l else 0 := by
        refine sum_congr rfl fun l hl => ?_
        have horth := congrArg (Int.cast : ℤ → R)
          (sum_walshSign_mul k j l hj (mem_range.mp hl))
        push_cast at horth
        simp only [← mul_assoc]
        rw [← sum_mul, horth, ite_mul, zero_mul]
    _ = 2 ^ k * x j := by
        rw [sum_ite_eq, if_pos (mem_range.mpr hj)]

lemma sum_walsh_mul (k : ℕ) (x y : ℕ → R) :
    ∑ j ∈ range (2 ^ k), walsh k x j * y j = ∑ i ∈ range (2 ^ k), x i * walsh k y i := by
  simp only [walsh, sum_mul, mul_sum]
  rw [sum_comm]
  refine sum_congr rfl fun i _ => sum_congr rfl fun j _ => ?_
  rw [walshSign_comm k j i]
  ring

theorem sum_walsh_mul_walsh (k : ℕ) (x y : ℕ → R) :
    ∑ j ∈ range (2 ^ k), walsh k x j * walsh k y j = 2 ^ k * ∑ i ∈ range (2 ^ k), x i * y i := by
  rw [sum_walsh_mul, mul_sum]
  refine sum_congr rfl fun i hi => ?_
  rw [walsh_walsh y (mem_range.mp hi)]
  ring

end WalshHadamard
