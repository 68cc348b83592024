import Mathlib.Data.Nat.Bitwise
import Mathlib.Tactic.Linarith
import Mathlib.Tactic.Positivity

/-!
# Bit fields and widths

Several formats store two 4-bit codes or four 2-bit codes in one byte.  This file has the
bit arithmetic they share, on `UInt8` with the shifts and masks a decoder applies:

* `packNibbles lo hi` and its two readers `lowNibble`, `highNibble`;
* `packPairs c₀ c₁ c₂ c₃` and its reader `pairAt`.

A reader recovers a field as soon as every field packed below it fits its width; the top field
is the only one that a shift could lose, so its bound is needed too.

Of IEEE 754 it has the rational values of halves and of `bfloat16` numbers, and the order of
single-precision patterns.  Patterns of the top exponent have no rational value; the formula is
total and gives them one, so a statement about values is meant for finite patterns.  Of vectors it
has the instances for four and eight lanes, and the bounds of lanes in the halves of wider ones.
-/

namespace IFairy

def lowNibble (b : UInt8) : UInt8 := b &&& 0x0f

def highNibble (b : UInt8) : UInt8 := b >>> 4

/-- Two 4-bit codes in one byte, the first in the low half. -/
def packNibbles (lo hi : UInt8) : UInt8 := lo ||| (hi <<< 4)

/-- Four 2-bit codes in one byte, the first in the lowest bits. -/
def packPairs (c₀ c₁ c₂ c₃ : UInt8) : UInt8 :=
  c₀ ||| (c₁ <<< 2) ||| (c₂ <<< 4) ||| (c₃ <<< 6)

/-- The 2-bit code number `part` of a byte. -/
def pairAt (b : UInt8) (part : ℕ) : UInt8 := (b >>> UInt8.ofNat (2 * part)) &&& 0x3

/-! ## Values -/

lemma lowNibble_toNat (b : UInt8) : (lowNibble b).toNat = b.toNat % 16 := by
  simp only [lowNibble, UInt8.toNat_and]
  exact Nat.and_two_pow_sub_one_eq_mod b.toNat 4

lemma highNibble_toNat (b : UInt8) : (highNibble b).toNat = b.toNat / 16 := by
  simp [highNibble, UInt8.toNat_shiftRight, Nat.shiftRight_eq_div_pow]

lemma packNibbles_toNat {lo hi : UInt8} (hlo : lo.toNat < 16) (hhi : hi.toNat < 16) :
    (packNibbles lo hi).toNat = lo.toNat + 16 * hi.toNat := by
  have hshift : (hi <<< 4).toNat = 2 ^ 4 * hi.toNat := by
    simp only [UInt8.toNat_shiftLeft, Nat.shiftLeft_eq]
    have : hi.toNat * 2 ^ 4 < 2 ^ 8 := by omega
    simpa [Nat.mul_comm] using Nat.mod_eq_of_lt this
  rw [packNibbles, UInt8.toNat_or, hshift, Nat.or_comm,
    ← Nat.two_pow_add_eq_or_of_lt (by omega : lo.toNat < 2 ^ 4)]
  omega

lemma pairAt_toNat (b : UInt8) {part : ℕ} (hpart : part < 4) :
    (pairAt b part).toNat = b.toNat / 4 ^ part % 4 := by
  have hmask := Nat.and_two_pow_sub_one_eq_mod (b.toNat / 2 ^ (2 * part)) 2
  have hmod : 2 * part % 256 % 8 = 2 * part := by omega
  simp only [pairAt, UInt8.toNat_and, UInt8.toNat_shiftRight, UInt8.toNat_ofNat',
    Nat.shiftRight_eq_div_pow, Nat.reducePow, hmod]
  rw [show (4 : ℕ) ^ part = 2 ^ (2 * part) by rw [Nat.pow_mul]]
  exact hmask

lemma lowNibble_lt (b : UInt8) : (lowNibble b).toNat < 16 := by
  rw [lowNibble_toNat]
  exact Nat.mod_lt _ (by decide)

lemma highNibble_lt (b : UInt8) : (highNibble b).toNat < 16 := by
  have h := highNibble_toNat b
  have hb := b.toNat_lt
  omega

lemma pairAt_lt (b : UInt8) {part : ℕ} (hpart : part < 4) : (pairAt b part).toNat < 4 := by
  rw [pairAt_toNat b hpart]
  exact Nat.mod_lt _ (by decide)

lemma packPairs_toNat {c₀ c₁ c₂ c₃ : UInt8} (h₀ : c₀.toNat < 4) (h₁ : c₁.toNat < 4)
    (h₂ : c₂.toNat < 4) (h₃ : c₃.toNat < 4) :
    (packPairs c₀ c₁ c₂ c₃).toNat =
      c₀.toNat + 4 * c₁.toNat + 16 * c₂.toNat + 64 * c₃.toNat := by
  have hshift : ∀ {c : UInt8} (k : ℕ) {s : UInt8}, c.toNat < 4 → s.toNat = k → k ≤ 6 →
      (c <<< s).toNat = 2 ^ k * c.toNat := by
    intro c k s hc hs hk
    have hbound : c.toNat * 2 ^ k < 2 ^ 8 := by
      calc c.toNat * 2 ^ k ≤ 3 * 2 ^ 6 :=
            Nat.mul_le_mul (by omega) (Nat.pow_le_pow_right (by decide) hk)
        _ < 2 ^ 8 := by decide
    rw [UInt8.toNat_shiftLeft, hs, Nat.mod_eq_of_lt (by omega : k < 8), Nat.shiftLeft_eq,
      Nat.mod_eq_of_lt hbound, Nat.mul_comm]
  have hor : ∀ k a b : ℕ, b < 2 ^ k → b ||| 2 ^ k * a = b + 2 ^ k * a := by
    intro k a b hb
    rw [Nat.or_comm, ← Nat.two_pow_add_eq_or_of_lt hb, Nat.add_comm]
  rw [packPairs, UInt8.toNat_or, UInt8.toNat_or, UInt8.toNat_or, hshift 2 h₁ rfl (by decide),
    hshift 4 h₂ rfl (by decide), hshift 6 h₃ rfl (by decide), hor 2 _ _ (by omega),
    hor 4 _ _ (by omega), hor 6 _ _ (by omega)]
  norm_num

/-! ## A field is read back -/

@[simp] lemma lowNibble_packNibbles {lo hi : UInt8} (hlo : lo.toNat < 16) (hhi : hi.toNat < 16) :
    lowNibble (packNibbles lo hi) = lo := by
  apply UInt8.toNat_inj.mp
  rw [lowNibble_toNat, packNibbles_toNat hlo hhi]
  omega

@[simp] lemma highNibble_packNibbles {lo hi : UInt8} (hlo : lo.toNat < 16) (hhi : hi.toNat < 16) :
    highNibble (packNibbles lo hi) = hi := by
  apply UInt8.toNat_inj.mp
  rw [highNibble_toNat, packNibbles_toNat hlo hhi]
  omega

lemma pairAt_packPairs (c : ℕ → UInt8) (hc : ∀ i < 4, (c i).toNat < 4) {part : ℕ} (hpart : part < 4) :
    pairAt (packPairs (c 0) (c 1) (c 2) (c 3)) part = c part := by
  have h₀ := hc 0 (by decide)
  have h₁ := hc 1 (by decide)
  have h₂ := hc 2 (by decide)
  have h₃ := hc 3 (by decide)
  apply UInt8.toNat_inj.mp
  rw [pairAt_toNat _ hpart, packPairs_toNat h₀ h₁ h₂ h₃]
  obtain rfl | rfl | rfl | rfl : part = 0 ∨ part = 1 ∨ part = 2 ∨ part = 3 := by omega
  all_goals
    simp only [pow_zero, pow_one, Nat.reducePow]
    omega

/-! ## Halves -/

/-- The rational value of a half-precision pattern. -/
def halfToRat (h : UInt16) : ℚ :=
  let sign : ℚ := if h.toNat / 2 ^ 15 = 1 then -1 else 1
  let e : ℕ := h.toNat / 2 ^ 10 % 32
  let m : ℕ := h.toNat % 2 ^ 10
  if e = 0 then sign * (m * (1 / 2 ^ 24)) else sign * ((1024 + m) * (2 ^ e / 2 ^ 25))

@[simp] lemma halfToRat_zero : halfToRat 0 = 0 := by simp [halfToRat]

@[simp] lemma halfToRat_one : halfToRat 0x3c00 = 1 := by
  have h : (0x3c00 : UInt16).toNat = 15360 := rfl
  simp only [halfToRat, h]
  norm_num

lemma halfToRat_pos {h : UInt16} (h0 : 0 < h.toNat) (hsign : h.toNat < 2 ^ 15) :
    0 < halfToRat h := by
  have hs : ¬ h.toNat / 2 ^ 15 = 1 := by omega
  simp only [halfToRat, if_neg hs]
  split_ifs with he
  · have hm : 0 < h.toNat % 2 ^ 10 := by omega
    have : (0 : ℚ) < ((h.toNat % 2 ^ 10 : ℕ) : ℚ) := by exact_mod_cast hm
    positivity
  · positivity

/-- The rational value of a `bfloat16` pattern. -/
def bf16ToRat (b : UInt16) : ℚ :=
  let sign : ℚ := if b.toNat / 2 ^ 15 = 1 then -1 else 1
  let e : ℕ := b.toNat / 2 ^ 7 % 256
  let m : ℕ := b.toNat % 2 ^ 7
  if e = 0 then sign * (m * (1 / 2 ^ 133)) else sign * ((128 + m) * (2 ^ e / 2 ^ 134))

/-! ## Singles -/

/-- The magnitude bits of a single-precision pattern. -/
def singleAbs (b : UInt32) : UInt32 := b &&& 0x7fffffff

/-- The pattern with its sign bit set. -/
def singleNeg (b : UInt32) : UInt32 := b ||| 0x80000000

def singleIsNaN (b : UInt32) : Bool := 0x7f800000 < singleAbs b

/-- Sign and magnitude as an integer: the order of these is the order of the values. -/
def singleKey (b : UInt32) : ℤ :=
  if b.toNat < 2 ^ 31 then (singleAbs b).toNat else -(singleAbs b).toNat

/-- `a < b` on singles; false when one is not a number. -/
def singleLt (a b : UInt32) : Bool :=
  !singleIsNaN a && !singleIsNaN b && decide (singleKey a < singleKey b)

/-- `a <= b` on singles; false when one is not a number. -/
def singleLe (a b : UInt32) : Bool :=
  !singleIsNaN a && !singleIsNaN b && decide (singleKey a ≤ singleKey b)

/-- The pattern with its last bit cleared. -/
def clearLast (b : UInt32) : UInt32 := b &&& 0xfffffffe

lemma singleAbs_toNat (b : UInt32) : (singleAbs b).toNat = b.toNat % 2 ^ 31 := by
  rw [singleAbs, UInt32.toNat_and]
  exact Nat.and_two_pow_sub_one_eq_mod b.toNat 31

lemma singleNeg_toNat {b : UInt32} (hb : b.toNat < 2 ^ 31) :
    (singleNeg b).toNat = b.toNat + 2 ^ 31 := by
  have h := Nat.two_pow_add_eq_or_of_lt hb 1
  rw [singleNeg, UInt32.toNat_or, Nat.or_comm]
  exact (h.symm.trans (by omega))

lemma clearLast_toNat (b : UInt32) : (clearLast b).toNat = b.toNat / 2 * 2 := by
  have hlt := b.toNat_lt
  have hhalf : (b.toNat &&& 0xfffffffe) / 2 = b.toNat / 2 := by
    rw [Nat.and_div_two]
    exact (Nat.and_two_pow_sub_one_eq_mod (b.toNat / 2) 31).trans (Nat.mod_eq_of_lt (by omega))
  have hlast : ¬ (b.toNat &&& 0xfffffffe) % 2 = 1 := by
    rw [Nat.and_mod_two_eq_one]
    exact fun h => absurd h.2 (by decide)
  have hand : (clearLast b).toNat = b.toNat &&& 0xfffffffe := UInt32.toNat_and _ _
  omega

lemma clearLast_or_one_toNat (b : UInt32) : (clearLast b ||| 1).toNat = b.toNat / 2 * 2 + 1 := by
  have h := Nat.two_pow_add_eq_or_of_lt (show 1 < 2 ^ 1 by decide) (b.toNat / 2)
  rw [UInt32.toNat_or, clearLast_toNat, Nat.mul_comm]
  exact h.symm

instance neZero_four : NeZero 4 := ⟨by decide⟩

instance neZero_eight : NeZero 8 := ⟨by decide⟩

/-! ## Lanes in the halves of a vector -/

lemma low_lt_sixteen (l : Fin 8) : (l : ℕ) < 16 := by omega

lemma high_lt_sixteen (l : Fin 8) : 8 + (l : ℕ) < 16 := by omega

lemma low_lt_thirtyTwo (l : Fin 16) : (l : ℕ) < 32 := by omega

lemma high_lt_thirtyTwo (l : Fin 16) : 16 + (l : ℕ) < 32 := by omega

lemma even_lt_thirtyTwo (l : Fin 16) : 2 * (l : ℕ) < 32 := by omega

lemma odd_lt_thirtyTwo (l : Fin 16) : 2 * (l : ℕ) + 1 < 32 := by omega

lemma half_lt_sixteen {h i : ℕ} (hh : h < 2) (hi : i < 8) : 8 * h + i < 16 := by omega

end IFairy
