import IFairy.Quant.Activations

/-!
# Quantised activations read back

The quantisers clamp to signed codes and store them in bytes; `dequantize_row_ifairy_q16` and its
sibling for blocks of 64 multiply the scale by the byte without a cast, so that a negative code `c`
is read as `256 + c`.  In exact arithmetic, with the scale stored exactly and the output rounded to
a `bfloat16`, an element comes back within one step of itself exactly when its code is not
negative: when its parts are at least minus half a step (`RefQuantizer.backWithinStep_iff`).
-/

namespace IFairy

/-! ## Rounding -/

/-- `GGML_FP32_TO_BF16` on a value in the range of normal numbers: eight significant bits, ties to
even. -/
def bf16Round (q : ℚ) : ℚ :=
  let ulp : ℚ := 2 ^ (Int.log 2 |q| - 7)
  roundEven (q / ulp) * ulp

lemma bf16Round_error (q : ℚ) : |bf16Round q - q| ≤ |q| / 256 := by
  rcases eq_or_ne q 0 with rfl | hq
  · have hzero : roundEven 0 = 0 := by norm_num [roundEven]
    simp [bf16Round, hzero]
  set ulp : ℚ := 2 ^ (Int.log 2 |q| - 7) with hulp
  have hpos : 0 < ulp := zpow_pos (by norm_num) _
  have hlog : (2 : ℚ) ^ Int.log 2 |q| ≤ |q| := by
    exact_mod_cast Int.zpow_log_le_self (by norm_num) (abs_pos.mpr hq)
  have hscale : ulp * 128 = (2 : ℚ) ^ Int.log 2 |q| := by
    rw [hulp, zpow_sub₀ (by norm_num)]
    norm_num
  have herror := abs_roundEven_sub_le (q / ulp)
  have hsub : bf16Round q - q = (roundEven (q / ulp) - q / ulp) * ulp := by
    show roundEven (q / ulp) * ulp - q = _
    field_simp
  rw [hsub, abs_mul, abs_of_pos hpos]
  calc |(roundEven (q / ulp) : ℚ) - q / ulp| * ulp ≤ 1 / 2 * ulp := by gcongr
    _ ≤ |q| / 256 := by linarith

/-! ## The dequantisers -/

/-- `dequantize_row_ifairy_q16` in blocks of `n`, with the values of the stored scales. -/
def dequantizeQ16 (half : UInt16 → ℚ) (n : ℕ) (x : ℕ → BlockIfairyQ16) (e : ℕ) : Cplx :=
  let block := x (e / n)
  let j := e % n
  let dReal := half block.dReal
  let dImag := half block.dImag
  ⟨bf16Round (dReal * (block.xReal j).toNat), bf16Round (dImag * (block.xImag j).toNat)⟩

def dequantizeRowIfairyQ16 (half : UInt16 → ℚ) := dequantizeQ16 half 256

def dequantizeRowIfairy64Q16 (half : UInt16 → ℚ) := dequantizeQ16 half 64

/-! ## The reference quantisers -/

/-- `quantize_row_ifairy_q16_ref`, `quantize_row_ifairy64_q16_ref` and
`quantize_row_ifairy_q16_tensor_ref`. -/
inductive RefQuantizer
  | q16
  | ifairy64
  | tensor
deriving DecidableEq

namespace RefQuantizer

/-- `QK_IFAIRY` and `QK_IFAIRY64`. -/
def blockSize : RefQuantizer → ℕ
  | q16 => 256
  | ifairy64 => 64
  | tensor => 256

/-- What the largest magnitude is scaled to. -/
def scale : RefQuantizer → ℚ
  | q16 => 127
  | ifairy64 => 127
  | tensor => 426 / 10

def qmax : RefQuantizer → ℤ
  | q16 => 127
  | ifairy64 => 127
  | tensor => 42

/-- The first element of the window of element `e`, over which the largest magnitude is taken. -/
def windowStart (z : RefQuantizer) (e : ℕ) : ℕ :=
  match z with
  | q16 => e / 256 * 256
  | ifairy64 => e / 64 * 64
  | tensor => 0

/-- The length of the windows in a row of `k` elements. -/
def windowSize (z : RefQuantizer) (k : ℕ) : ℕ :=
  match z with
  | q16 => 256
  | ifairy64 => 64
  | tensor => k

section Quantise

variable {F : Type} (ops : FloatOps F)

/-- The blocks of a row of `k` elements. -/
def quantize (z : RefQuantizer) (k : ℕ) (words : ℕ → UInt32) : ℕ → BlockIfairyQ16 :=
  match z with
  | q16 => quantizeRowIfairyQ16 ops .scalar words
  | ifairy64 => quantizeRowIfairy64Q16 ops words
  | tensor => quantizeRowIfairyQ16Tensor ops .scalar k words

end Quantise

/-- The row as `dequantize_row_ifairy_q16` and `dequantize_row_ifairy64_q16` read it back. -/
def dequantize (z : RefQuantizer) (half : UInt16 → ℚ) : (ℕ → BlockIfairyQ16) → ℕ → Cplx :=
  match z with
  | q16 => dequantizeRowIfairyQ16 half
  | ifairy64 => dequantizeRowIfairy64Q16 half
  | tensor => dequantizeRowIfairyQ16 half

/-- The largest magnitudes of the parts in the window of element `e`, in exact arithmetic. -/
def windowReal (z : RefQuantizer) (toHalf : ℚ → UInt16) (k : ℕ) (words : ℕ → UInt32) (e : ℕ) : ℚ :=
  realMax (ratOps toHalf) .scalar (z.windowSize k) fun j => words (z.windowStart e + j)

def windowImag (z : RefQuantizer) (toHalf : ℚ → UInt16) (k : ℕ) (words : ℕ → UInt32) (e : ℕ) : ℚ :=
  imagMax (ratOps toHalf) .scalar (z.windowSize k) fun j => words (z.windowStart e + j)

/-- The step of the codes when a largest magnitude of `m` becomes `z.scale`. -/
def step (z : RefQuantizer) (m : ℚ) : ℚ := 1 / (z.scale / m)

/-- The scales of a row of `k` elements are stored exactly. -/
def StoresExactly (z : RefQuantizer) (toHalf : ℚ → UInt16) (half : UInt16 → ℚ) (k : ℕ)
    (words : ℕ → UInt32) : Prop :=
  ∀ e < k,
    half (toHalf (z.step (z.windowReal toHalf k words e))) =
        z.step (z.windowReal toHalf k words e) ∧
      half (toHalf (z.step (z.windowImag toHalf k words e))) =
        z.step (z.windowImag toHalf k words e)

/-- Every element of a row of `k` comes back within the stored scales of its block. -/
def BackWithinStep (z : RefQuantizer) (toHalf : ℚ → UInt16) (half : UInt16 → ℚ) (k : ℕ)
    (words : ℕ → UInt32) : Prop :=
  let blocks := z.quantize (ratOps toHalf) k words
  ∀ e < k,
    |(z.dequantize half blocks e).re - (ratOps toHalf).real (words e)| ≤
        half (blocks (e / z.blockSize)).dReal ∧
      |(z.dequantize half blocks e).im - (ratOps toHalf).imag (words e)| ≤
        half (blocks (e / z.blockSize)).dImag

/-- `x` is at least minus half a step, the step being `max (1e-5, |v 0|, …, |v (n - 1)|)` over
`scale`. -/
def AtLeastMinusHalf (scale : ℚ) (n : ℕ) (v : ℕ → ℚ) (x : ℚ) : Prop :=
  -(2 * scale) * x ≤ 1 / 100000 ∨ ∃ i < n, -(2 * scale) * x ≤ |v i|

/-- No part of the row is negative by more than half a step of its window. -/
def NoneNegative (z : RefQuantizer) (k : ℕ) (words : ℕ → UInt32) : Prop :=
  ∀ e < k,
    AtLeastMinusHalf z.scale (z.windowSize k)
        (fun j => bf16ToRat (words (z.windowStart e + j)).toUInt16)
        (bf16ToRat (words e).toUInt16) ∧
      AtLeastMinusHalf z.scale (z.windowSize k)
        (fun j => bf16ToRat (words (z.windowStart e + j) >>> 16).toUInt16)
        (bf16ToRat (words e >>> 16).toUInt16)

/-! ## The largest magnitude -/

lemma le_absMax_iff (toHalf : ℚ → UInt16) (n : ℕ) (v : ℕ → ℚ) (x : ℚ) :
    x ≤ absMax (ratOps toHalf) .scalar n v ↔ x ≤ 1 / 100000 ∨ ∃ i < n, x ≤ |v i| := by
  refine (le_foldl_max_iff (fun i => |v (i * 1 + 0)|) (1 / 100000) x (n / 1)).trans ?_
  simp only [Nat.mul_one, Nat.add_zero, Nat.div_one]

lemma absMax_pos (toHalf : ℚ → UInt16) (n : ℕ) (v : ℕ → ℚ) :
    0 < absMax (ratOps toHalf) .scalar n v :=
  lt_of_lt_of_le (by norm_num) ((le_absMax_iff toHalf n v (1 / 100000)).mpr (.inl le_rfl))

/-! ## One part -/

lemma clampByte_toNat {qmax : ℤ} (h0 : 0 ≤ qmax) (h127 : qmax ≤ 127) (v : ℤ) :
    ((clampByte qmax v).toNat : ℤ) = Max.max (-qmax) (Min.min qmax v) % 256 := by
  rw [clampByte, Int8.toUInt8, Int8.ofInt]
  show ((BitVec.ofInt 8 _).toNat : ℤ) = _
  rw [BitVec.toNat_ofInt]
  omega

lemma back_within_step_iff {scale m x : ℚ} {qmax : ℤ} (hm : 0 < m) (hx : |x| ≤ m)
    (hlow : (qmax : ℚ) ≤ scale) (hhigh : scale - qmax + qmax / 256 ≤ 1) (h0 : 0 < qmax)
    (h127 : qmax ≤ 127) :
    |bf16Round (1 / (scale / m) * (clampByte qmax (roundEven (x * (scale / m)))).toNat) - x| ≤
        1 / (scale / m) ↔ -(2 * scale) * x ≤ m := by
  have hq0 : (0 : ℚ) < qmax := by exact_mod_cast h0
  have hq127 : (qmax : ℚ) ≤ 127 := by exact_mod_cast h127
  have hscale : 0 < scale := by linarith
  set d : ℚ := 1 / (scale / m) with hd
  set t : ℚ := x * (scale / m) with ht
  have hdpos : 0 < d := by positivity
  have hxt : x = d * t := by
    rw [hd, ht]
    field_simp
  have htscale : |t| ≤ scale := by
    rw [ht, abs_mul, abs_of_pos (show 0 < scale / m by positivity)]
    calc |x| * (scale / m) ≤ m * (scale / m) := by gcongr
      _ = scale := by field_simp
  have hcond : -(2 * scale) * x ≤ m ↔ -(1 / 2) ≤ t := by
    rw [ht]
    have hrewrite : x * (scale / m) = x * scale / m := by ring
    rw [hrewrite, le_div_iff₀ hm]
    constructor <;> intro h <;> linarith
  rw [hcond]
  set v : ℤ := roundEven t with hv
  have hround := abs_le.mp (abs_roundEven_sub_le t)
  obtain ⟨htlow, hthigh⟩ := abs_le.mp htscale
  have hbyte := clampByte_toNat h0.le h127 v
  set b : ℕ := (clampByte qmax v).toNat with hb
  have hbf := abs_le.mp (bf16Round_error (d * b))
  rw [abs_of_nonneg (show (0 : ℚ) ≤ d * b by positivity)] at hbf
  rw [← roundEven_nonneg_iff, ← hv]
  constructor
  · intro h
    by_contra hneg
    -- a negative code is read as at least 129
    have hb129 : 129 ≤ b := by omega
    have hb129' : (129 : ℚ) ≤ b := by exact_mod_cast hb129
    have hvneg : (v : ℚ) ≤ -1 := by exact_mod_cast (show v ≤ -1 by omega)
    have htneg : t ≤ -(1 / 2) := by linarith [hround.1]
    have hxneg : x ≤ 0 := by
      rw [hxt]
      exact mul_nonpos_of_nonneg_of_nonpos hdpos.le (by linarith)
    have hlarge : d * 129 ≤ d * b := by gcongr
    linarith [(abs_le.mp h).2, hbf.1]
  · intro hnonneg
    have herror : |(b : ℚ) - t| ≤ 1 - qmax / 256 := by
      rcases le_or_gt v qmax with hle | hgt
      · have hbv : (b : ℤ) = v := by omega
        have hbv' : (b : ℚ) = v := by exact_mod_cast hbv
        rw [hbv', abs_le]
        constructor <;> linarith [hround.1, hround.2]
      · have hbq : (b : ℤ) = qmax := by omega
        have hbq' : (b : ℚ) = qmax := by exact_mod_cast hbq
        have hvq : (qmax : ℚ) + 1 ≤ v := by exact_mod_cast hgt
        rw [hbq', abs_le]
        constructor <;> linarith [hround.1, hround.2]
    have hbq : (b : ℚ) ≤ qmax := by exact_mod_cast (show (b : ℤ) ≤ qmax by omega)
    have hsmall : d * b / 256 ≤ d * (qmax / 256) := by
      rw [mul_div_assoc]
      gcongr
    have hdist : |d * b - x| ≤ d * (1 - qmax / 256) := by
      rw [hxt, ← mul_sub, abs_mul, abs_of_pos hdpos]
      gcongr
    have hdist' := abs_le.mp hdist
    rw [abs_le]
    constructor <;> linarith [hbf.1, hbf.2, hdist'.1, hdist'.2]

/-! ## Rows -/

lemma quantize_block (z : RefQuantizer) (toHalf : ℚ → UInt16) (k : ℕ) (words : ℕ → UInt32)
    (e : ℕ) :
    z.quantize (ratOps toHalf) k words (e / z.blockSize) =
      quantizeByMax (ratOps toHalf) roundEven z.scale z.qmax (z.windowReal toHalf k words e)
        (z.windowImag toHalf k words e) fun j => words (e / z.blockSize * z.blockSize + j) := by
  cases z with
  | q16 => rfl
  | ifairy64 => rfl
  | tensor => simp only [quantize, quantizeRowIfairyQ16Tensor, windowReal, windowImag, windowStart,
      windowSize, scale, qmax, blockSize, Nat.zero_add, ratOps]

lemma dequantize_eq (z : RefQuantizer) (half : UInt16 → ℚ) :
    z.dequantize half = dequantizeQ16 half z.blockSize := by
  cases z <;> rfl

lemma exists_window (z : RefQuantizer) {k e : ℕ} (he : e < k) :
    ∃ j < z.windowSize k, z.windowStart e + j = e := by
  cases z with
  | q16 => exact ⟨e % 256, Nat.mod_lt _ (by decide), Nat.div_add_mod' e 256⟩
  | ifairy64 => exact ⟨e % 64, Nat.mod_lt _ (by decide), Nat.div_add_mod' e 64⟩
  | tensor => exact ⟨e, he, Nat.zero_add e⟩

lemma abs_le_window (z : RefQuantizer) (toHalf : ℚ → UInt16) {k e : ℕ} (he : e < k) (v : ℕ → ℚ) :
    |v e| ≤ absMax (ratOps toHalf) .scalar (z.windowSize k) fun j => v (z.windowStart e + j) := by
  obtain ⟨j, hj, hje⟩ := z.exists_window he
  exact (le_absMax_iff toHalf _ _ _).mpr (.inr ⟨j, hj, by rw [hje]⟩)

lemma part_back_iff (z : RefQuantizer) (toHalf : ℚ → UInt16) {k e : ℕ} (he : e < k) (v : ℕ → ℚ) :
    let m := absMax (ratOps toHalf) .scalar (z.windowSize k) fun j => v (z.windowStart e + j)
    |bf16Round (z.step m * (clampByte z.qmax (roundEven (v e * (z.scale / m)))).toNat) - v e| ≤
        z.step m ↔
      AtLeastMinusHalf z.scale (z.windowSize k) (fun j => v (z.windowStart e + j)) (v e) := by
  intro m
  have hx : |v e| ≤ m := z.abs_le_window toHalf he v
  refine (back_within_step_iff (absMax_pos toHalf _ _) hx ?_ ?_ ?_ ?_).trans
    (le_absMax_iff toHalf _ _ _)
  all_goals cases z <;> norm_num [scale, qmax]

/-- One element: it comes back within the stored scales exactly when its parts are not too
negative. -/
lemma element_back_iff (z : RefQuantizer) (toHalf : ℚ → UInt16) (half : UInt16 → ℚ) {k e : ℕ}
    (he : e < k) (words : ℕ → UInt32)
    (hreal : half (toHalf (z.step (z.windowReal toHalf k words e))) =
      z.step (z.windowReal toHalf k words e))
    (himag : half (toHalf (z.step (z.windowImag toHalf k words e))) =
      z.step (z.windowImag toHalf k words e)) :
    (|(z.dequantize half (z.quantize (ratOps toHalf) k words) e).re -
          (ratOps toHalf).real (words e)| ≤
          half (z.quantize (ratOps toHalf) k words (e / z.blockSize)).dReal ∧
        |(z.dequantize half (z.quantize (ratOps toHalf) k words) e).im -
          (ratOps toHalf).imag (words e)| ≤
          half (z.quantize (ratOps toHalf) k words (e / z.blockSize)).dImag) ↔
      AtLeastMinusHalf z.scale (z.windowSize k)
          (fun j => bf16ToRat (words (z.windowStart e + j)).toUInt16)
          (bf16ToRat (words e).toUInt16) ∧
        AtLeastMinusHalf z.scale (z.windowSize k)
          (fun j => bf16ToRat (words (z.windowStart e + j) >>> 16).toUInt16)
          (bf16ToRat (words e >>> 16).toUInt16) := by
  have hposition : e / z.blockSize * z.blockSize + e % z.blockSize = e := Nat.div_add_mod' e _
  have hblock := z.quantize_block toHalf k words e
  have hdReal : half (z.quantize (ratOps toHalf) k words (e / z.blockSize)).dReal =
      z.step (z.windowReal toHalf k words e) := by
    rw [hblock]
    exact hreal
  have hdImag : half (z.quantize (ratOps toHalf) k words (e / z.blockSize)).dImag =
      z.step (z.windowImag toHalf k words e) := by
    rw [hblock]
    exact himag
  have hxReal : (z.quantize (ratOps toHalf) k words (e / z.blockSize)).xReal (e % z.blockSize) =
      clampByte z.qmax (roundEven ((ratOps toHalf).real (words e) *
        (z.scale / z.windowReal toHalf k words e))) := by
    rw [hblock]
    simp only [quantizeByMax, quantizeBlockQ16, hposition]
    rfl
  have hxImag : (z.quantize (ratOps toHalf) k words (e / z.blockSize)).xImag (e % z.blockSize) =
      clampByte z.qmax (roundEven ((ratOps toHalf).imag (words e) *
        (z.scale / z.windowImag toHalf k words e))) := by
    rw [hblock]
    simp only [quantizeByMax, quantizeBlockQ16, hposition]
    rfl
  rw [dequantize_eq]
  simp only [dequantizeQ16, hdReal, hdImag, hxReal, hxImag]
  exact and_congr (z.part_back_iff toHalf he fun j => bf16ToRat (words j).toUInt16)
    (z.part_back_iff toHalf he fun j => bf16ToRat (words j >>> 16).toUInt16)

/-- A row comes back within a step everywhere exactly when no part is negative by more than half a
step. -/
theorem backWithinStep_iff (z : RefQuantizer) (toHalf : ℚ → UInt16) (half : UInt16 → ℚ) (nb : ℕ)
    (words : ℕ → UInt32) (hexact : z.StoresExactly toHalf half (nb * z.blockSize) words) :
    z.BackWithinStep toHalf half (nb * z.blockSize) words ↔
      z.NoneNegative (nb * z.blockSize) words := by
  refine forall_congr' fun e => forall_congr' fun he => ?_
  obtain ⟨hreal, himag⟩ := hexact e he
  exact z.element_back_iff toHalf half he words hreal himag

lemma absMax_const (toHalf : ℚ → UInt16) {n : ℕ} (hn : 0 < n) {v : ℕ → ℚ} (hv : ∀ i, |v i| = 1) :
    absMax (ratOps toHalf) .scalar n v = 1 := by
  refine eq_of_forall_le_iff fun x => ?_
  rw [le_absMax_iff]
  constructor
  · rintro (h | ⟨i, -, h⟩)
    · exact h.trans (by norm_num)
    · exact h.trans (hv i).le
  · exact fun h => .inr ⟨0, hn, h.trans (hv 0).ge⟩

/-- Rows of `±1 ± i` have the step `1 / 127`. -/
lemma storesExactly_units (words : ℕ → UInt32)
    (hreal : ∀ i, |bf16ToRat (words i).toUInt16| = 1)
    (himag : ∀ i, |bf16ToRat (words i >>> 16).toUInt16| = 1) :
    q16.StoresExactly (fun _ => 0) (fun _ => 1 / 127) (1 * q16.blockSize) words := by
  intro e _
  have hpos : 0 < q16.windowSize (1 * q16.blockSize) := Nat.zero_lt_succ 255
  have hwindowReal : q16.windowReal (fun _ => 0) (1 * q16.blockSize) words e = 1 := by
    rw [windowReal, realMax]
    exact absMax_const _ hpos fun i => hreal (q16.windowStart e + i)
  have hwindowImag : q16.windowImag (fun _ => 0) (1 * q16.blockSize) words e = 1 := by
    rw [windowImag, imagMax]
    exact absMax_const _ hpos fun i => himag (q16.windowStart e + i)
  have hstep : q16.step 1 = 1 / 127 := by norm_num [step, scale]
  rw [hwindowReal, hwindowImag, hstep]
  exact ⟨rfl, rfl⟩

/-- A block of `1 + i` comes back. -/
theorem backWithinStep_ones :
    q16.BackWithinStep (fun _ => 0) (fun _ => 1 / 127) (1 * q16.blockSize)
      fun _ => 0x3f803f80 := by
  have hbits : (0x3f80 : UInt16).toNat = 16256 := rfl
  have hone : bf16ToRat 0x3f80 = 1 := by norm_num [bf16ToRat, hbits]
  have hreal : bf16ToRat (0x3f803f80 : UInt32).toUInt16 = 1 := hone
  have himag : bf16ToRat ((0x3f803f80 : UInt32) >>> 16).toUInt16 = 1 := hone
  have hexact := storesExactly_units (fun _ => 0x3f803f80)
    (fun _ => by rw [hreal, abs_one]) fun _ => by rw [himag, abs_one]
  refine (backWithinStep_iff q16 _ _ 1 _ hexact).mpr fun e _ => ⟨.inl ?_, .inl ?_⟩
  · rw [hreal]
    norm_num [scale]
  · rw [himag]
    norm_num [scale]

/-- A block of `-1 - i` does not: the code `-127` is read as `129`. -/
theorem not_backWithinStep_minus_ones :
    q16.StoresExactly (fun _ => 0) (fun _ => 1 / 127) (1 * q16.blockSize) (fun _ => 0xbf80bf80) ∧
      ¬q16.BackWithinStep (fun _ => 0) (fun _ => 1 / 127) (1 * q16.blockSize)
        fun _ => 0xbf80bf80 := by
  have hbits : (0xbf80 : UInt16).toNat = 49024 := rfl
  have hone : bf16ToRat 0xbf80 = -1 := by norm_num [bf16ToRat, hbits]
  have hreal : bf16ToRat (0xbf80bf80 : UInt32).toUInt16 = -1 := hone
  have himag : bf16ToRat ((0xbf80bf80 : UInt32) >>> 16).toUInt16 = -1 := hone
  have hexact := storesExactly_units (fun _ => 0xbf80bf80)
    (fun _ => by rw [hreal, abs_neg, abs_one]) fun _ => by rw [himag, abs_neg, abs_one]
  refine ⟨hexact, fun h => ?_⟩
  have h0 : 0 < 1 * q16.blockSize := by decide
  have hback := (q16.element_back_iff _ _ h0 _ (hexact 0 h0).1 (hexact 0 h0).2).mp (h 0 h0)
  rcases hback.1 with h | ⟨i, _, h⟩
  · rw [hreal] at h
    norm_num [scale] at h
  · rw [hreal] at h
    norm_num [scale] at h

end RefQuantizer

end IFairy
