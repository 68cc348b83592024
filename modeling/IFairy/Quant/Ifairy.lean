import IFairy.Framework.Bits
import IFairy.Framework.Loops
import Mathlib.Algebra.BigOperators.Ring.Finset

/-!
# iFairy blocks and their dot product

A row of complex weights is a sequence of `block_ifairy`: 256 two-bit phase codes and two scales,
one for real weights and one for imaginary ones.  A row of activations is a sequence of
`block_ifairy_q16`: 256 complex `int8` values and two scales.

`vecDotIfairyQ16K` is the reference kernel (`ggml_vec_dot_ifairy_q16_K_generic`), with the
floating-point accumulation in exact rational arithmetic and without the final rounding to
`bfloat16`.  `dequantRow` is `dequantize_row_ifairy`.  The kernel conjugates the activations:
its meaning is `dotConj`, but with the scales of the row's first block throughout
(`vecDotIfairyQ16K_eq`).
-/

namespace IFairy

/-- `block_ifairy`: two bits per weight, in 64 bytes, and two half-precision scales. -/
structure BlockIfairy where
  qs : ℕ → UInt8
  dReal : UInt16
  dImag : UInt16

/-- `block_ifairy_q16`: 256 complex `int8` values, stored as bytes, and two scales. -/
structure BlockIfairyQ16 where
  xReal : ℕ → UInt8
  xImag : ℕ → UInt8
  dReal : UInt16
  dImag : UInt16

/-- A complex rational. -/
@[ext] structure Cplx where
  re : ℚ
  im : ℚ
deriving DecidableEq

/-! ## Phase codes -/

/-- Code of element `j` of a block: chunks of 64, sixteen lanes, four parts per byte. -/
def codeAt (qs : ℕ → UInt8) (j : ℕ) : UInt8 :=
  let chunk := j / 64
  let lane := j % 16
  let part := j / 16 % 4
  pairAt (qs (chunk * 16 + lane)) part

/-- Real part of a phase: `00` is `-1` and `01` is `+1`. -/
def phaseRe (code : UInt8) : ℤ := if code = 0 then -1 else if code = 1 then 1 else 0

/-- Imaginary part of a phase: `10` is `-i` and `11` is `+i`. -/
def phaseIm (code : UInt8) : ℤ := if code = 2 then -1 else if code = 3 then 1 else 0

/-- The activation byte as `int8`. -/
def q16Re (x : BlockIfairyQ16) (j : ℕ) : ℤ := (x.xReal j).toInt8.toInt

def q16Im (x : BlockIfairyQ16) (j : ℕ) : ℤ := (x.xImag j).toInt8.toInt

/-- The activations of a block as signed bytes. -/
def realBytes (x : BlockIfairyQ16) (j : ℕ) : Int8 := (x.xReal j).toInt8

def imagBytes (x : BlockIfairyQ16) (j : ℕ) : Int8 := (x.xImag j).toInt8

/-! ## The reference kernel -/

/-- The four integer sums of a block. -/
structure BlockSums where
  ac : ℤ
  ad : ℤ
  bc : ℤ
  bd : ℤ

/-- The loop over the elements of a block. -/
def blockSums (w : BlockIfairy) (x : BlockIfairyQ16) : BlockSums :=
  (List.range 256).foldl (fun sum j =>
    let code := codeAt w.qs j
    let wr := phaseRe code
    let wi := phaseIm code
    let xr := q16Re x j
    let xi := q16Im x j
    ⟨sum.ac + xr * wr, sum.ad + xi * wr, sum.bc + xr * wi, sum.bd + xi * wi⟩) ⟨0, 0, 0, 0⟩

/-- The four accumulators over the blocks of a row. -/
structure RowAcc where
  acXr : ℚ
  bdXi : ℚ
  bcXr : ℚ
  adXi : ℚ

/-- The loop over the blocks of a row. -/
def rowAcc (nb : ℕ) (w : ℕ → BlockIfairy) (x : ℕ → BlockIfairyQ16) : RowAcc :=
  (List.range nb).foldl (fun acc i =>
    let sum := blockSums (w i) (x i)
    let xReal := halfToRat (x i).dReal
    let xImag := halfToRat (x i).dImag
    ⟨acc.acXr + xReal * sum.ac, acc.bdXi + xImag * sum.bd, acc.bcXr + xReal * sum.bc,
      acc.adXi + xImag * sum.ad⟩) ⟨0, 0, 0, 0⟩

/-- `ggml_vec_dot_ifairy_q16_K_generic`. -/
def vecDotIfairyQ16K (n : ℕ) (w : ℕ → BlockIfairy) (x : ℕ → BlockIfairyQ16) : Cplx :=
  let nb := n / 256
  let coeffWReal := halfToRat (w 0).dReal
  let coeffWImag := halfToRat (w 0).dImag
  let acc := rowAcc nb w x
  ⟨coeffWReal * acc.acXr + coeffWImag * acc.bdXi, coeffWImag * acc.bcXr - coeffWReal * acc.adXi⟩

/-! ## Dequantised rows -/

/-- Element `k` of `dequantize_row_ifairy`. -/
def dequantRow (w : ℕ → BlockIfairy) (k : ℕ) : Cplx :=
  let block := w (k / 256)
  let q := codeAt block.qs (k % 256)
  ⟨phaseRe q * halfToRat block.dReal, phaseIm q * halfToRat block.dImag⟩

/-- Element `k` of a row of quantised activations. -/
def dequantQ16 (x : ℕ → BlockIfairyQ16) (k : ℕ) : Cplx :=
  let block := x (k / 256)
  ⟨q16Re block (k % 256) * halfToRat block.dReal, q16Im block (k % 256) * halfToRat block.dImag⟩

/-- `Σ w k * conj (x k)` over `k < n`. -/
def dotConj (n : ℕ) (w x : ℕ → Cplx) : Cplx :=
  ⟨∑ k ∈ Finset.range n, ((w k).re * (x k).re + (w k).im * (x k).im),
    ∑ k ∈ Finset.range n, ((w k).im * (x k).re - (w k).re * (x k).im)⟩

/-! ## The kernel as a sum -/

lemma blockSums_eq (w : BlockIfairy) (x : BlockIfairyQ16) :
    (blockSums w x).ac = ∑ j ∈ Finset.range 256, q16Re x j * phaseRe (codeAt w.qs j) ∧
    (blockSums w x).ad = ∑ j ∈ Finset.range 256, q16Im x j * phaseRe (codeAt w.qs j) ∧
    (blockSums w x).bc = ∑ j ∈ Finset.range 256, q16Re x j * phaseIm (codeAt w.qs j) ∧
    (blockSums w x).bd = ∑ j ∈ Finset.range 256, q16Im x j * phaseIm (codeAt w.qs j) := by
  refine ⟨?_, ?_, ?_, ?_⟩
  · exact (foldl_accumulate _ BlockSums.ac (fun j => q16Re x j * phaseRe (codeAt w.qs j)) 256
      (fun _ _ _ => rfl) _).trans (zero_add _)
  · exact (foldl_accumulate _ BlockSums.ad (fun j => q16Im x j * phaseRe (codeAt w.qs j)) 256
      (fun _ _ _ => rfl) _).trans (zero_add _)
  · exact (foldl_accumulate _ BlockSums.bc (fun j => q16Re x j * phaseIm (codeAt w.qs j)) 256
      (fun _ _ _ => rfl) _).trans (zero_add _)
  · exact (foldl_accumulate _ BlockSums.bd (fun j => q16Im x j * phaseIm (codeAt w.qs j)) 256
      (fun _ _ _ => rfl) _).trans (zero_add _)

lemma rowAcc_eq (nb : ℕ) (w : ℕ → BlockIfairy) (x : ℕ → BlockIfairyQ16) :
    (rowAcc nb w x).acXr = ∑ i ∈ Finset.range nb, halfToRat (x i).dReal * (blockSums (w i) (x i)).ac ∧
    (rowAcc nb w x).bdXi = ∑ i ∈ Finset.range nb, halfToRat (x i).dImag * (blockSums (w i) (x i)).bd ∧
    (rowAcc nb w x).bcXr = ∑ i ∈ Finset.range nb, halfToRat (x i).dReal * (blockSums (w i) (x i)).bc ∧
    (rowAcc nb w x).adXi =
      ∑ i ∈ Finset.range nb, halfToRat (x i).dImag * (blockSums (w i) (x i)).ad := by
  refine ⟨?_, ?_, ?_, ?_⟩
  · exact (foldl_accumulate _ RowAcc.acXr
      (fun i => halfToRat (x i).dReal * ((blockSums (w i) (x i)).ac : ℚ)) nb
      (fun _ _ _ => rfl) _).trans (zero_add _)
  · exact (foldl_accumulate _ RowAcc.bdXi
      (fun i => halfToRat (x i).dImag * ((blockSums (w i) (x i)).bd : ℚ)) nb
      (fun _ _ _ => rfl) _).trans (zero_add _)
  · exact (foldl_accumulate _ RowAcc.bcXr
      (fun i => halfToRat (x i).dReal * ((blockSums (w i) (x i)).bc : ℚ)) nb
      (fun _ _ _ => rfl) _).trans (zero_add _)
  · exact (foldl_accumulate _ RowAcc.adXi
      (fun i => halfToRat (x i).dImag * ((blockSums (w i) (x i)).ad : ℚ)) nb
      (fun _ _ _ => rfl) _).trans (zero_add _)

lemma dotConj_congr {n : ℕ} {w w' : ℕ → Cplx} (h : ∀ k < n, w k = w' k) (x : ℕ → Cplx) :
    dotConj n w x = dotConj n w' x := by
  unfold dotConj
  congr 1 <;>
  · refine Finset.sum_congr rfl fun k hk => ?_
    rw [h k (Finset.mem_range.mp hk)]

lemma dotConj_blocks (nb : ℕ) (w x : ℕ → Cplx) :
    dotConj (nb * 256) w x =
      ⟨∑ i ∈ Finset.range nb, ∑ j ∈ Finset.range 256, ((w (256 * i + j)).re * (x (256 * i + j)).re +
          (w (256 * i + j)).im * (x (256 * i + j)).im),
        ∑ i ∈ Finset.range nb, ∑ j ∈ Finset.range 256, ((w (256 * i + j)).im * (x (256 * i + j)).re -
          (w (256 * i + j)).re * (x (256 * i + j)).im)⟩ := by
  rw [dotConj, sum_range_mul, sum_range_mul]

/-- The weights as the kernel sees them: every block with the scales of the first. -/
def firstScales (w : ℕ → BlockIfairy) (i : ℕ) : BlockIfairy := ⟨(w i).qs, (w 0).dReal, (w 0).dImag⟩

/-- The kernel is the dot product of the row with the scales of its first block. -/
theorem vecDotIfairyQ16K_eq (nb : ℕ) (w : ℕ → BlockIfairy) (x : ℕ → BlockIfairyQ16) :
    vecDotIfairyQ16K (nb * 256) w x =
      dotConj (nb * 256) (dequantRow (firstScales w)) (dequantQ16 x) := by
  have hdiv : ∀ i j, j ∈ Finset.range 256 → (256 * i + j) / 256 = i := fun i j hj => by
    have := Finset.mem_range.mp hj
    omega
  have hmod : ∀ i j, j ∈ Finset.range 256 → (256 * i + j) % 256 = j := fun i j hj => by
    have := Finset.mem_range.mp hj
    omega
  obtain ⟨hacXr, hbdXi, hbcXr, hadXi⟩ := rowAcc_eq nb w x
  rw [dotConj_blocks, vecDotIfairyQ16K]
  simp only [Nat.mul_div_cancel _ (show 0 < 256 by decide), hacXr, hbdXi, hbcXr, hadXi]
  congr 1
  · rw [Finset.mul_sum, Finset.mul_sum, ← Finset.sum_add_distrib]
    refine Finset.sum_congr rfl fun i _ => ?_
    obtain ⟨hac, -, -, hbd⟩ := blockSums_eq (w i) (x i)
    rw [hac, hbd, Int.cast_sum, Int.cast_sum, Finset.mul_sum, Finset.mul_sum, Finset.mul_sum,
      Finset.mul_sum, ← Finset.sum_add_distrib]
    refine Finset.sum_congr rfl fun j hj => ?_
    simp only [dequantRow, dequantQ16, firstScales, hdiv i j hj, hmod i j hj]
    push_cast
    ring
  · rw [Finset.mul_sum, Finset.mul_sum, ← Finset.sum_sub_distrib]
    refine Finset.sum_congr rfl fun i _ => ?_
    obtain ⟨-, had, hbc, -⟩ := blockSums_eq (w i) (x i)
    rw [had, hbc, Int.cast_sum, Int.cast_sum, Finset.mul_sum, Finset.mul_sum, Finset.mul_sum,
      Finset.mul_sum, ← Finset.sum_sub_distrib]
    refine Finset.sum_congr rfl fun j hj => ?_
    simp only [dequantRow, dequantQ16, firstScales, hdiv i j hj, hmod i j hj]
    push_cast
    ring

end IFairy
