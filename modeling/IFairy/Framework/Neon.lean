import IFairy.Framework.Bits
import Mathlib.Algebra.BigOperators.Fin
import Mathlib.Data.BitVec
import Mathlib.Tactic.Ring

/-!
# NEON vectors

The vector operations of a 128-bit NEON unit that integer dot-product kernels use.  A vector is a
function on its lanes; an `int32` lane is a `BitVec 32`, so that accumulation wraps as on the
machine and sums may be reordered freely.

The two dot-product instructions have one rule each: `vaddvq_vdotq` adds sixteen products to a
row sum, and `vmmlaq_lane` adds eight products to one entry of a 2 × 2 tile.
-/

namespace IFairy

/-- An `int8` widened to `int32`. -/
def widen (v : Int8) : BitVec 32 := v.toBitVec.signExtend 32

/-- A signed value clamped to eight bits. -/
def satS8 (v : ℤ) : Int8 := Int8.ofInt (max (-128) (min 127 v))

lemma satS8_toInt {v : ℤ} (hlow : -128 ≤ v) (hhigh : v ≤ 127) : (satS8 v).toInt = v := by
  rw [satS8, min_eq_right hhigh, max_eq_right hlow]
  exact Int8.toInt_ofInt_of_le (by omega) (by omega)

namespace Neon

variable {α : Type*}

/-- `vld1q`: sixteen consecutive bytes. -/
def vld1q (mem : ℕ → α) (p : ℕ) : Fin 16 → α := fun l => mem (p + l)

/-- `vld1`: eight consecutive bytes. -/
def vld1 (mem : ℕ → α) (p : ℕ) : Fin 8 → α := fun l => mem (p + l)

/-- `vst1q`: sixteen bytes stored. -/
def vst1q (mem : ℕ → α) (p : ℕ) (v : Fin 16 → α) : ℕ → α := fun a =>
  if h : p ≤ a ∧ a < p + 16 then v ⟨a - p, by omega⟩ else mem a

/-- `vcombine`: two halves. -/
def vcombine (lo hi : Fin 8 → α) : Fin 16 → α := fun l =>
  if h : (l : ℕ) < 8 then lo ⟨l, h⟩ else hi ⟨l - 8, by omega⟩

/-- `vget_low`. -/
def vgetLow (v : Fin 16 → α) : Fin 8 → α := fun l => v ⟨l, low_lt_sixteen l⟩

/-- `vget_high`. -/
def vgetHigh (v : Fin 16 → α) : Fin 8 → α := fun l => v ⟨8 + l, high_lt_sixteen l⟩

/-- The same on vectors of eight lanes. -/
def vgetLowS16 (v : Fin 8 → α) : Fin 4 → α := fun l => v ⟨l, by omega⟩

def vgetHighS16 (v : Fin 8 → α) : Fin 4 → α := fun l => v ⟨4 + l, by omega⟩

/-- `vqtbl1q_s8`: an index past the table reads zero. -/
def vqtbl1q (table : Fin 16 → Int8) (indexes : Fin 16 → UInt8) : Fin 16 → Int8 := fun l =>
  if h : (indexes l).toNat < 16 then table ⟨_, h⟩ else 0

/-- `vdupq_n`. -/
def vdupq (v : α) : Fin 16 → α := fun _ => v

/-- `vmulq_s8`: products modulo 256. -/
def vmulq (a b : Fin 16 → Int8) : Fin 16 → Int8 := fun l => a l * b l

/-- `vqaddq_s8`: saturating addition. -/
def vqaddq (a b : Fin 16 → Int8) : Fin 16 → Int8 := fun l => satS8 ((a l).toInt + (b l).toInt)

/-- `vandq_u8`. -/
def vandq (a b : Fin 16 → UInt8) : Fin 16 → UInt8 := fun l => a l &&& b l

/-- `vshrq_n_u8`. -/
def vshrq (v : Fin 16 → UInt8) (s : UInt8) : Fin 16 → UInt8 := fun l => v l >>> s

/-- `vaddw_s8`: eight `int8` added to eight `int16`. -/
def vaddw (acc : Fin 8 → BitVec 16) (v : Fin 8 → Int8) : Fin 8 → BitVec 16 := fun l =>
  acc l + BitVec.ofInt 16 (v l).toInt

/-- `vdotq_s32`: lane `l` gains the products of bytes `4 * l, …, 4 * l + 3`. -/
def vdotq (acc : Fin 4 → BitVec 32) (a b : Fin 16 → Int8) : Fin 4 → BitVec 32 := fun l =>
  acc l + ∑ j : Fin 4, widen (a ⟨4 * l + j, by omega⟩) * widen (b ⟨4 * l + j, by omega⟩)

/-- `vaddvq_s32`: the sum of the four lanes. -/
def vaddvq (v : Fin 4 → BitVec 32) : BitVec 32 := v 0 + v 1 + v 2 + v 3

/-- `vmmlaq_s32`: lane `2 * i + j` gains row `i` of `a` times row `j` of `b`, rows of eight. -/
def vmmlaq (acc : Fin 4 → BitVec 32) (a b : Fin 16 → Int8) : Fin 4 → BitVec 32 := fun l =>
  acc l + ∑ j : Fin 8, widen (a ⟨8 * (l / 2) + j, by omega⟩) * widen (b ⟨8 * (l % 2) + j, by omega⟩)

/-! ## Reading lanes -/

/-- Both halves at once: lane `l` is lane `l % 8` of half `l / 8`. -/
lemma vcombine_apply (lo hi : Fin 8 → α) (f : ℕ → ℕ → α) (hlo : ∀ l, lo l = f 0 l)
    (hhi : ∀ l, hi l = f 1 l) (l : Fin 16) : vcombine lo hi l = f (l / 8) (l % 8) := by
  by_cases h : (l : ℕ) < 8
  · rw [vcombine, dif_pos h, hlo, Nat.div_eq_of_lt h, Nat.mod_eq_of_lt h]
  · have hdiv : (l : ℕ) / 8 = 1 := by omega
    have hmod : (l : ℕ) % 8 = l - 8 := by omega
    rw [vcombine, dif_neg h, hhi, hdiv, hmod]

lemma vst1q_of_mem (mem : ℕ → α) {p a : ℕ} (v : Fin 16 → α) (h : p ≤ a ∧ a < p + 16) :
    vst1q mem p v a = v ⟨a - p, by omega⟩ := dif_pos h

lemma vst1q_of_not_mem (mem : ℕ → α) {p a : ℕ} (v : Fin 16 → α) (h : ¬ (p ≤ a ∧ a < p + 16)) :
    vst1q mem p v a = mem a := dif_neg h

/-! ## Dot products -/

lemma vaddvq_vdotq (acc : Fin 4 → BitVec 32) {a b : Fin 16 → Int8} {w x : ℕ → Int8}
    (ha : ∀ l, a l = w l) (hb : ∀ l, b l = x l) :
    vaddvq (vdotq acc a b) = vaddvq acc + ∑ i ∈ Finset.range 16, widen (w i) * widen (x i) := by
  simp only [vaddvq, vdotq, ha, hb, Fin.sum_univ_four, Finset.sum_range_succ,
    Finset.sum_range_zero]
  simp
  ring

/-- Lane `2 * i + j` gains eight products of row `i` and row `j`. -/
lemma vmmlaq_lane (acc : Fin 4 → BitVec 32) {a b : Fin 16 → Int8} {x w : ℕ → ℕ → Int8}
    (ha : ∀ l, a l = x (l / 8) (l % 8)) (hb : ∀ l, b l = w (l / 8) (l % 8)) (lane : Fin 4) :
    vmmlaq acc a b lane =
      acc lane + ∑ l ∈ Finset.range 8, widen (x (lane / 2) l) * widen (w (lane % 2) l) := by
  rw [Finset.sum_range]
  refine congrArg (acc lane + ·) (Finset.sum_congr rfl fun l _ => ?_)
  have hdiv : ∀ i, (8 * i + (l : ℕ)) / 8 = i := fun i => by omega
  have hmod : ∀ i, (8 * i + (l : ℕ)) % 8 = l := fun i => by omega
  rw [ha, hb, hdiv, hdiv, hmod, hmod]

end Neon

end IFairy
