import IFairy.Framework.Rounding
import IFairy.Quant.Ifairy

/-!
# Requantising dequantised weights

The reference quantisers of weights give every element one of four phases and keep one scale for
each axis.  `quantize_row_ifairy_ref` looks at the sign of the real part, unless it is zero, and
takes the largest magnitudes of the row; `quantize_row_ifairy64_ref` looks at the larger part and
takes the means over the elements of the block on each axis.  Neither is the phase of the element:
`1 + 2i` is a positive real for the first.

What the two have in common is that a second pass changes nothing
(`PhaseFormat.requantize_dequantize`): a dequantised element lies on its axis, at the distance of
the scale.  The arithmetic is exact but for the scales, which are rounded to halves.
-/

namespace IFairy

/-- `GGML_FP32_TO_FP16` and back: none for an infinity. -/
def fp32ToFp16 (q : ℚ) : Option ℚ :=
  let r := floatRound 11 (-24) q
  if |r| < 65536 then some r else none

/-- A block of phase codes, with the values of its scales. -/
structure PhaseBlock where
  qs : ℕ → UInt8
  dReal : ℚ
  dImag : ℚ

/-- `packed`: the codes of a block, four to a byte. -/
def packCodes (code : ℕ → UInt8) (b : ℕ) : UInt8 :=
  let chunk := b / 16
  let lane := b % 16
  packPairs (code (chunk * 64 + 0 * 16 + lane)) (code (chunk * 64 + 1 * 16 + lane))
    (code (chunk * 64 + 2 * 16 + lane)) (code (chunk * 64 + 3 * 16 + lane))

/-! ## Quantisers -/

/-- The code that `quantize_row_ifairy_ref` gives an element. -/
def ifairyCode (x : Cplx) : UInt8 :=
  if x.re = 0 then (if 0 < x.im then 3 else 2) else (if 0 < x.re then 1 else 0)

/-- `quantize_row_ifairy_ref`, block `i` of a row of `k` elements. -/
def quantizeRowIfairyRef (k : ℕ) (x : ℕ → Cplx) (i : ℕ) : Option PhaseBlock := do
  let dReal := (List.range k).foldl (fun d j => max d |(x j).re|) 0
  let dImag := (List.range k).foldl (fun d j => max d |(x j).im|) 0
  let storedReal ← fp32ToFp16 dReal
  let storedImag ← fp32ToFp16 dImag
  some ⟨packCodes fun j => ifairyCode (x (i * 256 + j)), storedReal, storedImag⟩

/-- The code that `quantize_row_ifairy64_ref` gives an element. -/
def ifairy64Code (x : Cplx) : UInt8 :=
  if |x.im| < |x.re| then (if 0 ≤ x.re then 1 else 0) else (if 0 ≤ x.im then 3 else 2)

/-- The sums and the counts of `quantize_row_ifairy64_ref`. -/
structure MeanAcc where
  sumReal : ℚ
  sumImag : ℚ
  cntReal : ℕ
  cntImag : ℕ

/-- The loop that sums up the magnitudes on each axis. -/
def meanAcc (x : ℕ → Cplx) : MeanAcc :=
  (List.range 64).foldl (fun acc j =>
    let ar := |(x j).re|
    let ai := |(x j).im|
    if ai < ar then { acc with sumReal := acc.sumReal + ar, cntReal := acc.cntReal + 1 }
    else { acc with sumImag := acc.sumImag + ai, cntImag := acc.cntImag + 1 }) ⟨0, 0, 0, 0⟩

/-- `quantize_row_ifairy64_ref`, block `i`. -/
def quantizeRowIfairy64Ref (x : ℕ → Cplx) (i : ℕ) : Option PhaseBlock := do
  let block := fun j => x (i * 64 + j)
  let acc := meanAcc block
  let dReal := if 0 < acc.cntReal then acc.sumReal / acc.cntReal else 0
  let dImag := if 0 < acc.cntImag then acc.sumImag / acc.cntImag else 0
  let storedReal ← fp32ToFp16 dReal
  let storedImag ← fp32ToFp16 dImag
  some ⟨packCodes fun j => ifairy64Code (block j), storedReal, storedImag⟩

/-- The loop of `dequantize_row_ifairy` and `dequantize_row_ifairy64`, in blocks of `n`. -/
def dequantizePhases (n : ℕ) (y : ℕ → PhaseBlock) (e : ℕ) : Cplx :=
  let block := y (e / n)
  let q := codeAt block.qs (e % n)
  ⟨phaseRe q * block.dReal, phaseIm q * block.dImag⟩

def dequantizeRowIfairy := dequantizePhases 256

def dequantizeRowIfairy64 := dequantizePhases 64

/-! ## The four phases -/

/-- Where an element is put. -/
inductive Axis
  | negReal
  | posReal
  | negImag
  | posImag
deriving DecidableEq

namespace Axis

def code : Axis → UInt8
  | negReal => 0
  | posReal => 1
  | negImag => 2
  | posImag => 3

def isReal : Axis → Bool
  | negReal => true
  | posReal => true
  | negImag => false
  | posImag => false

/-- `+d_real`, `-d_real`, `+i * d_imag` and `-i * d_imag`. -/
def value (b : PhaseBlock) : Axis → Cplx
  | negReal => ⟨-b.dReal, 0⟩
  | posReal => ⟨b.dReal, 0⟩
  | negImag => ⟨0, -b.dImag⟩
  | posImag => ⟨0, b.dImag⟩

end Axis

/-- The scale of the real or of the imaginary axis. -/
def PhaseBlock.scale (b : PhaseBlock) (real : Bool) : ℚ := if real then b.dReal else b.dImag

namespace Axis

def scale (b : PhaseBlock) (a : Axis) : ℚ := b.scale a.isReal

lemma code_lt (a : Axis) : a.code.toNat < 4 := by
  cases a <;> decide

lemma value_eq (a : Axis) (b : PhaseBlock) :
    (⟨phaseRe a.code * b.dReal, phaseIm a.code * b.dImag⟩ : Cplx) = a.value b := by
  cases a <;> simp [code, value, phaseRe, phaseIm]

end Axis

/-- The two formats of weights. -/
inductive PhaseFormat
  | ifairy
  | ifairy64
deriving DecidableEq

namespace PhaseFormat

/-- `QK_IFAIRY` and `QK_IFAIRY64`. -/
def blockSize : PhaseFormat → ℕ
  | ifairy => 256
  | ifairy64 => 64

def quantize : PhaseFormat → ℕ → (ℕ → Cplx) → ℕ → Option PhaseBlock
  | ifairy, k, x => quantizeRowIfairyRef k x
  | ifairy64, _, x => quantizeRowIfairy64Ref x

def dequantize : PhaseFormat → (ℕ → PhaseBlock) → ℕ → Cplx
  | ifairy => dequantizeRowIfairy
  | ifairy64 => dequantizeRowIfairy64

/-- The first element of the window of element `e` that shares its scales, and the length of the
window: the row, or the block. -/
def windowStart (f : PhaseFormat) (i : ℕ) : ℕ :=
  match f with
  | ifairy => 0
  | ifairy64 => i * 64

def windowSize (f : PhaseFormat) (k : ℕ) : ℕ :=
  match f with
  | ifairy => k
  | ifairy64 => 64

/-- The phase that each format gives an element: the sign of the real part decides, unless it is
zero; or the larger part decides, the imaginary one in a tie. -/
def sector (f : PhaseFormat) (x : Cplx) : Axis :=
  match f with
  | ifairy =>
    if 0 < x.re then .posReal else if x.re < 0 then .negReal
    else if 0 < x.im then .posImag else .negImag
  | ifairy64 =>
    if |x.im| < |x.re| then (if 0 < x.re then .posReal else .negReal)
    else if 0 ≤ x.im then .posImag else .negImag

/-- An element of the window of block `i` lies on the real axis, or on the imaginary one. -/
def Present (f : PhaseFormat) (k : ℕ) (x : ℕ → Cplx) (i : ℕ) (real : Bool) : Prop :=
  ∃ j < f.windowSize k, (f.sector (x (f.windowStart i + j))).isReal = real

end PhaseFormat

/-! ## Stored scales -/

lemma fp32ToFp16_eq_some {q r : ℚ} :
    fp32ToFp16 q = some r ↔ |r| < 65536 ∧ floatRound 11 (-24) q = r := by
  rw [fp32ToFp16]
  constructor
  · intro h
    split_ifs at h with hlt
    · cases h
      exact ⟨hlt, rfl⟩
  · rintro ⟨hlt, rfl⟩
    exact if_pos hlt

lemma fp32ToFp16_stored {q r : ℚ} (h : fp32ToFp16 q = some r) : fp32ToFp16 r = some r := by
  obtain ⟨hlt, rfl⟩ := fp32ToFp16_eq_some.mp h
  exact fp32ToFp16_eq_some.mpr ⟨hlt, floatRound_floatRound (by norm_num)⟩

lemma fp32ToFp16_nonneg {q r : ℚ} (h : fp32ToFp16 q = some r) (hq : 0 ≤ q) : 0 ≤ r := by
  obtain ⟨-, rfl⟩ := fp32ToFp16_eq_some.mp h
  exact floatRound_nonneg hq

lemma exists_fp32ToFp16 {q r s : ℚ} (h : fp32ToFp16 q = some r) (hs : |s| ≤ r) :
    ∃ t, fp32ToFp16 s = some t := by
  obtain ⟨hlt, rfl⟩ := fp32ToFp16_eq_some.mp h
  have hle := abs_floatRound_le (isFloat_floatRound (show 0 < 11 by norm_num)) hs
  exact ⟨_, fp32ToFp16_eq_some.mpr ⟨hle.trans_lt ((le_abs_self _).trans_lt hlt), rfl⟩⟩

/-! ## Scales before they are stored -/

/-- The real or the imaginary part. -/
def Cplx.part (x : Cplx) (real : Bool) : ℚ := if real then x.re else x.im

/-- The mean of the magnitudes that satisfy `p`. -/
def selectedMean (p : ℕ → Bool) (v : ℕ → ℚ) : ℚ :=
  let cnt : ℕ := ∑ j ∈ Finset.range 64, if p j then 1 else 0
  let sum := ∑ j ∈ Finset.range 64, if p j then v j else 0
  if 0 < cnt then sum / cnt else 0

section Mean

variable {p : ℕ → Bool} {v : ℕ → ℚ} {a : ℚ}

lemma selectedMean_nonneg (hv : ∀ j, 0 ≤ v j) : 0 ≤ selectedMean p v := by
  rw [selectedMean]
  split_ifs with hcnt
  · refine div_nonneg (Finset.sum_nonneg fun j _ => ?_) (Nat.cast_nonneg _)
    split_ifs
    · exact hv j
    · exact le_rfl
  · exact le_rfl

lemma selectedMean_le (ha : 0 ≤ a) (hle : ∀ j < 64, p j = true → v j ≤ a) :
    selectedMean p v ≤ a := by
  rw [selectedMean]
  split_ifs with hcnt
  · rw [div_le_iff₀ (Nat.cast_pos.mpr hcnt), Nat.cast_sum, Finset.mul_sum]
    refine Finset.sum_le_sum fun j hj => ?_
    split_ifs with h
    · rw [Nat.cast_one, mul_one]
      exact hle j (Finset.mem_range.mp hj) h
    · rw [Nat.cast_zero, mul_zero]
  · exact ha

lemma le_selectedMean (hge : ∀ j < 64, p j = true → a ≤ v j) (hp : ∃ j < 64, p j = true) :
    a ≤ selectedMean p v := by
  obtain ⟨i, hi, hpi⟩ := hp
  have hcnt : (0 : ℕ) < ∑ j ∈ Finset.range 64, if p j then 1 else 0 :=
    Finset.sum_pos' (fun _ _ => Nat.zero_le _)
      ⟨i, Finset.mem_range.mpr hi, by rw [if_pos hpi]; exact Nat.one_pos⟩
  rw [selectedMean, if_pos hcnt, le_div_iff₀ (Nat.cast_pos.mpr hcnt), Nat.cast_sum, Finset.mul_sum]
  refine Finset.sum_le_sum fun j hj => ?_
  split_ifs with h
  · rw [Nat.cast_one, mul_one]
    exact hge j (Finset.mem_range.mp hj) h
  · rw [Nat.cast_zero, mul_zero]

end Mean

namespace PhaseFormat

/-- The scale of an axis, before it is stored. -/
def scaleOf (f : PhaseFormat) (k : ℕ) (x : ℕ → Cplx) (i : ℕ) (real : Bool) : ℚ :=
  match f with
  | ifairy => (List.range k).foldl (fun d j => max d |(x j).part real|) 0
  | ifairy64 => selectedMean (fun j => (ifairy64.sector (x (i * 64 + j))).isReal == real)
      fun j => |(x (i * 64 + j)).part real|

/-- The code that each format gives an element. -/
def codeOf : PhaseFormat → Cplx → UInt8
  | ifairy => ifairyCode
  | ifairy64 => ifairy64Code

lemma codeOf_eq (f : PhaseFormat) (x : Cplx) : f.codeOf x = (f.sector x).code := by
  cases f with
  | ifairy =>
    show ifairyCode x = (ifairy.sector x).code
    rw [ifairyCode, sector]
    rcases lt_trichotomy x.re 0 with h | h | h
    · rw [if_neg h.ne, if_neg h.le.not_gt, if_neg h.le.not_gt, if_pos h]
      rfl
    · rw [if_pos h, if_neg h.not_gt, if_neg h.not_lt]
      split_ifs <;> rfl
    · rw [if_neg h.ne', if_pos h, if_pos h]
      rfl
  | ifairy64 =>
    show ifairy64Code x = (ifairy64.sector x).code
    rw [ifairy64Code, sector]
    split_ifs with hlarge hnonneg hpos hpos
    all_goals first | rfl | skip
    · have hzero : x.re = 0 := le_antisymm (not_lt.mp hpos) hnonneg
      rw [hzero, abs_zero] at hlarge
      exact absurd hlarge (abs_nonneg _).not_gt
    · exact absurd hpos.le hnonneg

lemma sector_isReal_ifairy64 (x : Cplx) :
    (ifairy64.sector x).isReal = decide (|x.im| < |x.re|) := by
  rw [sector]
  by_cases h : |x.im| < |x.re|
  · rw [if_pos h, decide_eq_true h]
    split_ifs <;> rfl
  · rw [if_neg h, decide_eq_false h]
    split_ifs <;> rfl

lemma meanAcc_eq (x : ℕ → Cplx) :
    let real := fun j => decide (|(x j).im| < |(x j).re|)
    (meanAcc x).sumReal = ∑ j ∈ Finset.range 64, (if real j == true then |(x j).re| else 0) ∧
    (meanAcc x).sumImag = ∑ j ∈ Finset.range 64, (if real j == false then |(x j).im| else 0) ∧
    (meanAcc x).cntReal = ∑ j ∈ Finset.range 64, (if real j == true then 1 else 0) ∧
    (meanAcc x).cntImag = ∑ j ∈ Finset.range 64, (if real j == false then 1 else 0) := by
  refine ⟨?_, ?_, ?_, ?_⟩
  · refine (foldl_accumulate _ MeanAcc.sumReal _ 64 (fun acc j _ => ?_) _).trans (zero_add _)
    by_cases h : |(x j).im| < |(x j).re| <;> simp [h]
  · refine (foldl_accumulate _ MeanAcc.sumImag _ 64 (fun acc j _ => ?_) _).trans (zero_add _)
    by_cases h : |(x j).im| < |(x j).re| <;> simp [h]
  · refine (foldl_accumulate _ MeanAcc.cntReal _ 64 (fun acc j _ => ?_) _).trans (zero_add _)
    by_cases h : |(x j).im| < |(x j).re| <;> simp [h]
  · refine (foldl_accumulate _ MeanAcc.cntImag _ 64 (fun acc j _ => ?_) _).trans (zero_add _)
    by_cases h : |(x j).im| < |(x j).re| <;> simp [h]

lemma quantize_eq (f : PhaseFormat) (k : ℕ) (x : ℕ → Cplx) (i : ℕ) :
    f.quantize k x i = (fp32ToFp16 (f.scaleOf k x i true)).bind fun storedReal =>
      (fp32ToFp16 (f.scaleOf k x i false)).bind fun storedImag =>
        some ⟨packCodes fun j => f.codeOf (x (i * f.blockSize + j)), storedReal, storedImag⟩ := by
  cases f with
  | ifairy => rfl
  | ifairy64 =>
    obtain ⟨hsumReal, hsumImag, hcntReal, hcntImag⟩ := meanAcc_eq fun j => x (i * 64 + j)
    simp only [quantize, quantizeRowIfairy64Ref, scaleOf, selectedMean, sector_isReal_ifairy64,
      hsumReal, hsumImag, hcntReal, hcntImag]
    rfl

lemma scaleOf_ifairy (k : ℕ) (x : ℕ → Cplx) (i : ℕ) (real : Bool) :
    ifairy.scaleOf k x i real = (List.range k).foldl (fun d j => max d |(x j).part real|) 0 := rfl

lemma scaleOf_ifairy64 (k : ℕ) (x : ℕ → Cplx) (i : ℕ) (real : Bool) :
    ifairy64.scaleOf k x i real =
      selectedMean (fun j => (ifairy64.sector (x (i * 64 + j))).isReal == real)
        fun j => |(x (i * 64 + j)).part real| := rfl

lemma scaleOf_nonneg (f : PhaseFormat) (k : ℕ) (x : ℕ → Cplx) (i : ℕ) (real : Bool) :
    0 ≤ f.scaleOf k x i real := by
  cases f with
  | ifairy =>
    rw [scaleOf_ifairy]
    exact (le_foldl_max_iff (fun j => |(x j).part real|) 0 0 k).mpr (.inl le_rfl)
  | ifairy64 =>
    rw [scaleOf_ifairy64]
    exact selectedMean_nonneg fun j => abs_nonneg _

lemma scaleOf_le (f : PhaseFormat) {k : ℕ} {x : ℕ → Cplx} {i : ℕ} {real : Bool} {a : ℚ}
    (ha : 0 ≤ a) (hle : ∀ j < f.windowSize k, |(x (f.windowStart i + j)).part real| ≤ a) :
    f.scaleOf k x i real ≤ a := by
  cases f with
  | ifairy =>
    simp only [windowStart, windowSize, Nat.zero_add] at hle
    rw [scaleOf_ifairy]
    refine le_of_not_gt fun hlt => ?_
    rcases (le_foldl_max_iff (fun j => |(x j).part real|) 0 _ k).mp le_rfl with h | ⟨j, hj, h⟩
    · exact absurd (hlt.trans_le h) ha.not_gt
    · exact absurd (hlt.trans_le (h.trans (hle j hj))) (lt_irrefl a)
  | ifairy64 =>
    simp only [windowStart, windowSize] at hle
    rw [scaleOf_ifairy64]
    exact selectedMean_le ha fun j hj _ => hle j hj

lemma le_scaleOf_ifairy {k : ℕ} {x : ℕ → Cplx} {real : Bool} {a : ℚ} (i : ℕ) {j : ℕ} (hj : j < k)
    (h : a ≤ |(x j).part real|) : a ≤ ifairy.scaleOf k x i real := by
  rw [scaleOf_ifairy]
  exact (le_foldl_max_iff (fun j => |(x j).part real|) 0 a k).mpr (.inr ⟨j, hj, h⟩)

lemma le_scaleOf_ifairy64 {k : ℕ} {x : ℕ → Cplx} {i : ℕ} {real : Bool} {a : ℚ}
    (hge : ∀ j < 64, (ifairy64.sector (x (i * 64 + j))).isReal = real →
      a ≤ |(x (i * 64 + j)).part real|)
    (h : ∃ j < 64, (ifairy64.sector (x (i * 64 + j))).isReal = real) :
    a ≤ ifairy64.scaleOf k x i real := by
  obtain ⟨j, hj, hreal⟩ := h
  rw [scaleOf_ifairy64]
  exact le_selectedMean (fun j hj h => hge j hj (beq_iff_eq.mp h)) ⟨j, hj, beq_iff_eq.mpr hreal⟩

/-! ## The second pass -/

lemma sector_value (f : PhaseFormat) {b : PhaseBlock} (hb : ∀ real, 0 ≤ b.scale real) {a : Axis}
    (ha : a.scale b ≠ 0) : f.sector (a.value b) = a := by
  have hpos : 0 < a.scale b := lt_of_le_of_ne (hb _) ha.symm
  cases f with
  | ifairy =>
    cases a <;> simp_all [sector, Axis.value, Axis.scale, Axis.isReal, PhaseBlock.scale]
  | ifairy64 =>
    have himag : ∀ d : ℚ, ¬|d| < |0| := fun d => by
      rw [abs_zero]
      exact (abs_nonneg d).not_gt
    rw [Axis.scale] at hpos
    cases a with
    | negReal =>
      have hpos' : 0 < b.dReal := hpos
      simp [sector, Axis.value, hpos'.ne', hpos'.not_gt]
    | posReal =>
      have hpos' : 0 < b.dReal := hpos
      simp [sector, Axis.value, hpos'.ne', hpos']
    | negImag =>
      have hpos' : 0 < b.dImag := hpos
      rw [Axis.value, sector, if_neg (himag _), if_neg (by linarith)]
    | posImag =>
      have hpos' : 0 < b.dImag := hpos
      rw [Axis.value, sector, if_neg (himag _), if_pos hpos'.le]

lemma isReal_sector_value_of_imag (b : PhaseBlock) {a : Axis} (ha : a.isReal = false) :
    (ifairy64.sector (a.value b)).isReal = false := by
  rw [sector_isReal_ifairy64]
  cases a <;> simp_all [Axis.isReal, Axis.value]

lemma abs_part_value {b : PhaseBlock} (hb : ∀ real, 0 ≤ b.scale real) (a : Axis) (real : Bool) :
    |(a.value b).part real| = if a.isReal = real then b.scale real else 0 := by
  have hreal := hb true
  have himag := hb false
  cases a <;> cases real <;>
    simp_all [Axis.value, Axis.isReal, Cplx.part, PhaseBlock.scale, abs_of_nonneg]

lemma abs_part_value_le {b : PhaseBlock} (hb : ∀ real, 0 ≤ b.scale real) (a : Axis) (real : Bool) :
    |(a.value b).part real| ≤ b.scale real := by
  rw [abs_part_value hb]
  split_ifs
  · exact le_rfl
  · exact hb real

lemma codeAt_packCodes {code : ℕ → UInt8} (hcode : ∀ j, (code j).toNat < 4) (j : ℕ) :
    codeAt (packCodes code) j = code j := by
  have hpart : j / 16 % 4 < 4 := Nat.mod_lt _ (by decide)
  have hchunk : (j / 64 * 16 + j % 16) / 16 = j / 64 := by omega
  have hlane : (j / 64 * 16 + j % 16) % 16 = j % 16 := by omega
  have hj : j / 64 * 64 + j / 16 % 4 * 16 + j % 16 = j := by omega
  have hpairs := pairAt_packPairs (fun part => code (j / 64 * 64 + part * 16 + j % 16))
    (fun part _ => hcode _) hpart
  rw [hj] at hpairs
  simp only [codeAt, packCodes, hchunk, hlane]
  exact hpairs

lemma of_quantize_eq_some (f : PhaseFormat) {k : ℕ} {x : ℕ → Cplx} {i : ℕ} {b : PhaseBlock}
    (h : f.quantize k x i = some b) :
    (∀ real, fp32ToFp16 (f.scaleOf k x i real) = some (b.scale real)) ∧
      ∀ j, codeAt b.qs j = (f.sector (x (i * f.blockSize + j))).code := by
  rw [quantize_eq] at h
  obtain ⟨storedReal, hreal, h⟩ := Option.bind_eq_some_iff.mp h
  obtain ⟨storedImag, himag, h⟩ := Option.bind_eq_some_iff.mp h
  cases h
  refine ⟨fun real => ?_, fun j => ?_⟩
  · cases real with
    | true => exact hreal
    | false => exact himag
  · rw [codeAt_packCodes fun j => by rw [codeOf_eq]; exact Axis.code_lt _]
    exact f.codeOf_eq _

lemma scale_nonneg (f : PhaseFormat) {k : ℕ} {x : ℕ → Cplx} {i : ℕ} {b : PhaseBlock}
    (h : f.quantize k x i = some b) (real : Bool) : 0 ≤ b.scale real :=
  fp32ToFp16_nonneg ((f.of_quantize_eq_some h).1 real) (f.scaleOf_nonneg k x i real)

lemma dequantize_eq (f : PhaseFormat) (y : ℕ → PhaseBlock) :
    f.dequantize y = dequantizePhases f.blockSize y := by
  cases f <;> rfl

section Row

variable {f : PhaseFormat} {nb : ℕ} {x : ℕ → Cplx} {y : ℕ → PhaseBlock}

def Quantized (f : PhaseFormat) (nb : ℕ) (x : ℕ → Cplx) (y : ℕ → PhaseBlock) : Prop :=
  ∀ i < nb, f.quantize (nb * f.blockSize) x i = some (y i)

lemma block_lt {e : ℕ} (he : e < nb * f.blockSize) : e / f.blockSize < nb :=
  Nat.div_lt_of_lt_mul (by rwa [Nat.mul_comm])

lemma dequantize_value (h : f.Quantized nb x y) {e : ℕ} (he : e < nb * f.blockSize) :
    f.dequantize y e = (f.sector (x e)).value (y (e / f.blockSize)) := by
  have hcode := (f.of_quantize_eq_some (h _ (block_lt he))).2 (e % f.blockSize)
  rw [Nat.div_add_mod'] at hcode
  rw [dequantize_eq]
  simp only [dequantizePhases, hcode]
  exact Axis.value_eq _ _

lemma window_value (h : f.Quantized nb x y) {i : ℕ} (hi : i < nb) {j : ℕ}
    (hj : j < f.windowSize (nb * f.blockSize)) :
    f.dequantize y (f.windowStart i + j) = (f.sector (x (f.windowStart i + j))).value (y i) := by
  cases f with
  | ifairy =>
    have hj' : ifairy.windowStart i + j < nb * ifairy.blockSize := by
      rw [windowStart, Nat.zero_add]
      exact hj
    rw [dequantize_value h hj']
    have hscale : ∀ real, (y ((ifairy.windowStart i + j) / ifairy.blockSize)).scale real =
        (y i).scale real := fun real => by
      have hother := (ifairy.of_quantize_eq_some (h _ (block_lt hj'))).1 real
      have hown := (ifairy.of_quantize_eq_some (h i hi)).1 real
      rw [scaleOf_ifairy] at hother hown
      exact Option.some.inj (hother.symm.trans hown)
    have hreal := hscale true
    have himag := hscale false
    simp only [PhaseBlock.scale, if_true] at hreal himag
    cases ifairy.sector (x (ifairy.windowStart i + j)) <;> simp_all [Axis.value]
  | ifairy64 =>
    have hj64 : j < 64 := hj
    have hblock : (i * 64 + j) / 64 = i := (mul_add_div_mod hj64).1
    have hj' : i * 64 + j < nb * 64 := by omega
    have hvalue := dequantize_value h hj'
    simp only [windowStart, blockSize, hblock] at hvalue ⊢
    exact hvalue

lemma scaleOf_dequantize_le (h : f.Quantized nb x y) {i : ℕ} (hi : i < nb) (real : Bool) :
    f.scaleOf (nb * f.blockSize) (f.dequantize y) i real ≤ (y i).scale real := by
  refine f.scaleOf_le (f.scale_nonneg (h i hi) real) fun j hj => ?_
  rw [window_value h hi hj]
  exact abs_part_value_le (f.scale_nonneg (h i hi)) _ _

lemma exists_requantized (h : f.Quantized nb x y) :
    ∃ y', f.Quantized nb (f.dequantize y) y' := by
  have hblock : ∀ i, ∃ b, i < nb → f.quantize (nb * f.blockSize) (f.dequantize y) i = some b := by
    intro i
    by_cases hi : i < nb
    · have hstored : ∀ real, ∃ t,
          fp32ToFp16 (f.scaleOf (nb * f.blockSize) (f.dequantize y) i real) = some t := fun real => by
        refine exists_fp32ToFp16 ((f.of_quantize_eq_some (h i hi)).1 real) ?_
        rw [abs_of_nonneg (f.scaleOf_nonneg _ _ _ _)]
        exact scaleOf_dequantize_le h hi real
      obtain ⟨storedReal, hreal⟩ := hstored true
      obtain ⟨storedImag, himag⟩ := hstored false
      exact ⟨_, fun _ => by rw [quantize_eq, hreal, himag, Option.bind_some, Option.bind_some]⟩
    · exact ⟨y i, fun h => absurd h hi⟩
  choose y' hy' using hblock
  exact ⟨y', hy'⟩

lemma requantized_code {y' : ℕ → PhaseBlock} (h : f.Quantized nb x y)
    (h' : f.Quantized nb (f.dequantize y) y') {e : ℕ} (he : e < nb * f.blockSize)
    (hscale : (f.sector (x e)).scale (y (e / f.blockSize)) ≠ 0) :
    codeAt (y' (e / f.blockSize)).qs (e % f.blockSize) =
      codeAt (y (e / f.blockSize)).qs (e % f.blockSize) := by
  have hfirst := (f.of_quantize_eq_some (h _ (block_lt he))).2 (e % f.blockSize)
  have hsecond := (f.of_quantize_eq_some (h' _ (block_lt he))).2 (e % f.blockSize)
  rw [Nat.div_add_mod'] at hfirst hsecond
  rw [hfirst, hsecond, dequantize_value h he,
    f.sector_value (f.scale_nonneg (h _ (block_lt he))) hscale]

lemma le_scaleOf_dequantize (h : f.Quantized nb x y) {i : ℕ} (hi : i < nb) (real : Bool)
    (hpresent : f.Present (nb * f.blockSize) x i real)
    (hreal : f = ifairy64 → (y i).dReal ≠ 0) :
    (y i).scale real ≤ f.scaleOf (nb * f.blockSize) (f.dequantize y) i real := by
  have hnonneg := f.scale_nonneg (h i hi)
  obtain ⟨j, hj, hsector⟩ := hpresent
  have hpart : ∀ j < f.windowSize (nb * f.blockSize),
      (f.sector (x (f.windowStart i + j))).isReal = real →
      |(f.dequantize y (f.windowStart i + j)).part real| = (y i).scale real := fun j hj hs => by
    rw [window_value h hi hj, abs_part_value hnonneg, if_pos hs]
  cases f with
  | ifairy =>
    have hj' := (hpart j hj hsector).ge
    rw [windowStart, Nat.zero_add] at hj'
    exact le_scaleOf_ifairy i hj hj'
  | ifairy64 =>
    -- no element changes its axis
    have haxis : ∀ j < 64, (ifairy64.sector (ifairy64.dequantize y (i * 64 + j))).isReal =
        (ifairy64.sector (x (i * 64 + j))).isReal := fun j hj => by
      have hvalue := window_value h hi hj
      rw [windowStart] at hvalue
      rw [hvalue]
      cases hs : (ifairy64.sector (x (i * 64 + j))).isReal with
      | true =>
        rw [ifairy64.sector_value hnonneg, hs]
        rw [Axis.scale, hs]
        exact hreal rfl
      | false => exact isReal_sector_value_of_imag _ hs
    refine le_scaleOf_ifairy64 (fun j hj hs => ?_) ⟨j, hj, ?_⟩
    · exact (hpart j hj ((haxis j hj).symm.trans hs)).ge
    · exact (haxis j hj).trans hsector

lemma requantized_scale {y' : ℕ → PhaseBlock} (h : f.Quantized nb x y)
    (h' : f.Quantized nb (f.dequantize y) y') {i : ℕ} (hi : i < nb) (real : Bool)
    (hpresent : f.Present (nb * f.blockSize) x i real)
    (hreal : f = ifairy64 → (y i).dReal ≠ 0) : (y' i).scale real = (y i).scale real := by
  have hscale : f.scaleOf (nb * f.blockSize) (f.dequantize y) i real = (y i).scale real :=
    (scaleOf_dequantize_le h hi real).antisymm (le_scaleOf_dequantize h hi real hpresent hreal)
  have hstored := (f.of_quantize_eq_some (h' i hi)).1 real
  rw [hscale, fp32ToFp16_stored ((f.of_quantize_eq_some (h i hi)).1 real)] at hstored
  exact (Option.some.inj hstored).symm

/-- Dequantising gives the four values of a block, as the format's sectors choose them, and
quantising again gives the same codes where the scale is not zero, and the same scales where both
axes are present.  In the format of 64 the real scale must not have become zero when it was stored,
since its elements then count as imaginary. -/
theorem requantize_dequantize (f : PhaseFormat) (nb : ℕ) (x : ℕ → Cplx) (y : ℕ → PhaseBlock)
    (h : f.Quantized nb x y) :
    (∀ e < nb * f.blockSize,
      f.dequantize y e = (f.sector (x e)).value (y (e / f.blockSize))) ∧
    ∃ y', f.Quantized nb (f.dequantize y) y' ∧
      (∀ e < nb * f.blockSize, (f.sector (x e)).scale (y (e / f.blockSize)) ≠ 0 →
        codeAt (y' (e / f.blockSize)).qs (e % f.blockSize) =
          codeAt (y (e / f.blockSize)).qs (e % f.blockSize)) ∧
      ∀ i < nb, f.Present (nb * f.blockSize) x i true → f.Present (nb * f.blockSize) x i false →
        (f = ifairy64 → (y i).dReal ≠ 0) →
        (y' i).dReal = (y i).dReal ∧ (y' i).dImag = (y i).dImag := by
  obtain ⟨y', h'⟩ := exists_requantized h
  refine ⟨fun e he => dequantize_value h he, y', h', fun e he => requantized_code h h' he, ?_⟩
  intro i hi hpresentReal hpresentImag hreal
  exact ⟨requantized_scale h h' hi true hpresentReal hreal,
    requantized_scale h h' hi false hpresentImag hreal⟩

end Row

/-! ## Phases of elements -/

/-- The quarter of the plane around an axis. -/
def InPhaseSector (x : Cplx) : Axis → Prop
  | .negReal => |x.im| ≤ -x.re
  | .posReal => |x.im| ≤ x.re
  | .negImag => |x.re| ≤ -x.im
  | .posImag => |x.re| ≤ x.im

lemma fp32ToFp16_of_isFloat {q : ℚ} (h : IsFloat 11 (-24) q) (hq : |q| < 65536) :
    fp32ToFp16 q = some q :=
  fp32ToFp16_eq_some.mpr ⟨hq, floatRound_of_isFloat h⟩

lemma quantize_of_scales {f : PhaseFormat} {k : ℕ} {x : ℕ → Cplx} {i : ℕ} {a b c d : ℚ}
    (hreal : f.scaleOf k x i true = a) (himag : f.scaleOf k x i false = b)
    (ha : fp32ToFp16 a = some c) (hb : fp32ToFp16 b = some d) :
    f.quantize k x i =
      some ⟨packCodes fun j => f.codeOf (x (i * f.blockSize + j)), c, d⟩ := by
  rw [quantize_eq, hreal, himag, ha, hb, Option.bind_some, Option.bind_some]

/-- The block of a row of `1 + 2i`. -/
lemma quantized_one_two :
    ifairy.Quantized 1 (fun _ => ⟨1, 2⟩) fun _ =>
      ⟨packCodes fun _ => ifairyCode ⟨1, 2⟩, 1, 2⟩ := by
  have hscale : ∀ i real (a : ℚ), 0 ≤ a → |(⟨1, 2⟩ : Cplx).part real| = a →
      ifairy.scaleOf (1 * ifairy.blockSize) (fun _ => ⟨1, 2⟩) i real = a := by
    intro i real a ha h
    refine le_antisymm (ifairy.scaleOf_le ha fun j _ => h.le) ?_
    exact le_scaleOf_ifairy i (show 0 < 1 * ifairy.blockSize by decide) h.ge
  intro i _
  exact quantize_of_scales (hscale i true 1 (by norm_num) (by norm_num [Cplx.part]))
    (hscale i false 2 (by norm_num) (by norm_num [Cplx.part]))
    (fp32ToFp16_of_isFloat ⟨1, 0, by norm_num, by norm_num, by norm_num⟩ (by norm_num))
    (fp32ToFp16_of_isFloat ⟨2, 0, by norm_num, by norm_num, by norm_num⟩ (by norm_num))

lemma scaleOf_after_underflow {y : ℕ → PhaseBlock} (hreal : (y 0).dReal = 0)
    (himag : (y 0).dImag = 1)
    (hvalue : ∀ j < 64, ifairy64.dequantize y j =
      (if j = 0 then Axis.posReal else Axis.posImag).value (y 0)) :
    ifairy64.scaleOf 64 (ifairy64.dequantize y) 0 false = 63 / 64 := by
  have hpart : ∀ j ∈ Finset.range 64, (ifairy64.sector (ifairy64.dequantize y (0 * 64 + j))).isReal =
      false ∧ |(ifairy64.dequantize y (0 * 64 + j)).part false| = if j = 0 then 0 else 1 := by
    intro j hj
    rw [Nat.zero_mul, Nat.zero_add, hvalue j (Finset.mem_range.mp hj)]
    split_ifs
    · simp [Axis.value, hreal, sector_isReal_ifairy64, Cplx.part]
    · simp [Axis.value, himag, sector_isReal_ifairy64, Cplx.part]
  have hcnt : (∑ j ∈ Finset.range 64,
      if (ifairy64.sector (ifairy64.dequantize y (0 * 64 + j))).isReal == false then 1 else 0) = 64 := by
    rw [Finset.sum_congr rfl fun j hj => if_pos (beq_iff_eq.mpr (hpart j hj).1)]
    simp
  have hsum : (∑ j ∈ Finset.range 64,
      if (ifairy64.sector (ifairy64.dequantize y (0 * 64 + j))).isReal == false then
        |(ifairy64.dequantize y (0 * 64 + j)).part false| else 0) = 63 := by
    rw [Finset.sum_congr rfl fun j hj => (if_pos (beq_iff_eq.mpr (hpart j hj).1)).trans
      (hpart j hj).2, Finset.sum_range_succ']
    simp
  rw [scaleOf_ifairy64, selectedMean]
  simp only [hcnt, hsum]
  norm_num

/-- A block with one tiny real element and ones on the imaginary axis. -/
def tinyReal (e : ℕ) : Cplx := if e = 0 then ⟨1 / 2 ^ 30, 0⟩ else ⟨0, 1⟩

lemma sector_tinyReal (e : ℕ) :
    ifairy64.sector (tinyReal e) = if e = 0 then .posReal else .posImag := by
  rw [tinyReal]
  split_ifs
  · norm_num [sector]
  · norm_num [sector]

lemma quantized_tinyReal :
    ifairy64.Quantized 1 tinyReal fun _ =>
      ⟨packCodes fun j => ifairy64Code (tinyReal (0 * 64 + j)), 0, 1⟩ := by
  intro i hi
  obtain rfl : i = 0 := Nat.lt_one_iff.mp hi
  have hreal : ifairy64.scaleOf (1 * ifairy64.blockSize) tinyReal 0 true = 1 / 2 ^ 30 := by
    refine le_antisymm (ifairy64.scaleOf_le (by norm_num) fun j _ => ?_)
      (le_scaleOf_ifairy64 (fun j _ h => ?_) ⟨0, by decide, by rw [sector_tinyReal]; rfl⟩)
    · rw [tinyReal]
      split_ifs <;> norm_num [Cplx.part]
    · rw [sector_tinyReal] at h
      rw [tinyReal]
      split_ifs at h ⊢
      · norm_num [Cplx.part]
      · exact absurd h (by decide)
  have himag : ifairy64.scaleOf (1 * ifairy64.blockSize) tinyReal 0 false = 1 := by
    refine le_antisymm (ifairy64.scaleOf_le (by norm_num) fun j _ => ?_)
      (le_scaleOf_ifairy64 (fun j _ h => ?_) ⟨1, by decide, by rw [sector_tinyReal]; rfl⟩)
    · rw [tinyReal]
      split_ifs <;> norm_num [Cplx.part]
    · rw [sector_tinyReal] at h
      rw [tinyReal]
      split_ifs at h ⊢
      · exact absurd h (by decide)
      · norm_num [Cplx.part]
  have hlog : Int.log 2 |(1 / 2 ^ 30 : ℚ)| = -30 := by
    have hpow : |(1 / 2 ^ 30 : ℚ)| = ((2 : ℕ) : ℚ) ^ (-30 : ℤ) := by norm_num
    rw [hpow, Int.log_zpow (by norm_num)]
  have hunit : ulp 11 (-24) (1 / 2 ^ 30) = 1 / 2 ^ 24 := by
    rw [ulp, hlog]
    norm_num
  have hround : floatRound 11 (-24) (1 / 2 ^ 30) = 0 := by
    rw [floatRound, hunit]
    norm_num [roundEven]
  exact quantize_of_scales hreal himag (fp32ToFp16_eq_some.mpr ⟨by norm_num, hround⟩)
    (fp32ToFp16_of_isFloat ⟨1, 0, by norm_num, by norm_num, by norm_num⟩ (by norm_num))

/-- A dequantised element of the first format is not in the quarter of the original, and a second
pass over the other can store another scale. -/
theorem not_phase_sector_nor_same_scales :
    (∃ y, ifairy.Quantized 1 (fun _ => ⟨1, 2⟩) y ∧
      ¬∃ a, InPhaseSector ⟨1, 2⟩ a ∧ ifairy.dequantize y 0 = a.value (y 0)) ∧
    ∃ y, ifairy64.Quantized 1 tinyReal y ∧
      ifairy64.Present (1 * ifairy64.blockSize) tinyReal 0 true ∧
      ifairy64.Present (1 * ifairy64.blockSize) tinyReal 0 false ∧
      ∀ y', ifairy64.Quantized 1 (ifairy64.dequantize y) y' → (y' 0).dImag ≠ (y 0).dImag := by
  refine ⟨⟨_, quantized_one_two, ?_⟩, _, quantized_tinyReal, ?_, ?_, ?_⟩
  · rintro ⟨a, hsector, hvalue⟩
    rw [dequantize_value quantized_one_two (by decide)] at hvalue
    cases a with
    | negReal => norm_num [InPhaseSector] at hsector
    | posReal => norm_num [InPhaseSector] at hsector
    | negImag => norm_num [InPhaseSector] at hsector
    | posImag => norm_num [sector, Axis.value] at hvalue
  · exact ⟨0, by decide, by rw [show ifairy64.windowStart 0 + 0 = 0 from rfl, sector_tinyReal]; rfl⟩
  · exact ⟨1, by decide, by rw [show ifairy64.windowStart 0 + 1 = 1 from rfl, sector_tinyReal]; rfl⟩
  · intro y' h'
    have hscale := scaleOf_after_underflow (y := fun _ =>
      ⟨packCodes fun j => ifairy64Code (tinyReal (0 * 64 + j)), 0, 1⟩) rfl rfl fun j hj => by
        rw [dequantize_value quantized_tinyReal hj, sector_tinyReal]
    have hstored := (ifairy64.of_quantize_eq_some (h' 0 Nat.one_pos)).1 false
    have hfloat : fp32ToFp16 (63 / 64) = some (63 / 64) :=
      fp32ToFp16_of_isFloat ⟨63, -6, by norm_num, by norm_num, by norm_num⟩ (by norm_num [abs_of_pos])
    have hblock : 1 * ifairy64.blockSize = 64 := rfl
    rw [hblock, hscale, hfloat] at hstored
    have hdImag : 63 / 64 = (y' 0).dImag := Option.some.inj hstored
    rw [← hdImag]
    norm_num

/-- A row of `1 + 2i` keeps its codes. -/
theorem requantize_dequantize_one_two :
    ∃ y', ifairy.Quantized 1
        (ifairy.dequantize fun _ => ⟨packCodes fun _ => ifairyCode ⟨1, 2⟩, 1, 2⟩) y' ∧
      codeAt (y' 0).qs 0 = codeAt (packCodes fun _ => ifairyCode ⟨1, 2⟩) 0 := by
  obtain ⟨-, y', h', hcode, -⟩ := requantize_dequantize ifairy 1 _ _ quantized_one_two
  refine ⟨y', h', hcode 0 (by decide) ?_⟩
  norm_num [sector, Axis.scale, Axis.isReal, PhaseBlock.scale]

end PhaseFormat

end IFairy
