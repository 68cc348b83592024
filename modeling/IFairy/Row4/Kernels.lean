import IFairy.Framework.Loops
import IFairy.Framework.Neon
import IFairy.Row4.Layout

/-!
# The Row4 CPU kernels

`ggml-cpu/row4/row4-cpu.cpp` computes `ROW4_LINEAR` and `W8A8_LINEAR` by four kernels.  Each is a
loop over numbered jobs; a job is modelled as the list of `store_result` calls it makes, in order,
with the `int32` accumulator that the call passes.

* `scalarJob`: one output, one weight at a time;
* `dotprodJob`: sixteen outputs of one token, sixteen columns at a time;
* `i8mmDirectJob`: a 2 × 4 tile of tokens and outputs;
* `i8mmPanelJob`: sixteen outputs of all tokens, through an expanded panel of eight rows.

What every job stores is stated against `rowDot`, the plain dot product of a weight row and an
activation row.
-/

namespace IFairy

open Neon

/-- The operands of a row-quantised linear operation. -/
structure LinearOp where
  row4 : Bool
  codes : GgmlTensor
  tokens : ℕ
  o : ℕ
  k : ℕ

namespace LinearOp

variable (op : LinearOp)

/-- The weight that the scalar kernel reads. -/
def weightAt (row ik : ℕ) : Int8 :=
  if op.row4 then row4WeightAt op.codes row ik else w8WeightAt op.codes row ik

/-- The dot product of weight row `row` and activation row `x token`. -/
def rowDot (x : ℕ → ℕ → Int8) (token row : ℕ) : BitVec 32 :=
  ∑ ik ∈ Finset.range op.k, widen (op.weightAt row ik) * widen (x token ik)

end LinearOp

/-- A call of `store_result`. -/
structure StoreResult where
  token : ℕ
  o : ℕ
  accumulator : BitVec 32
deriving DecidableEq

/-! ## Activation buffers -/

/-- `quantize_activation_row`, after the choice of the int8 values `q`. -/
def quantizeActivationRow (q : ℕ → Int8) (dst k : ℕ) (buffer : ℕ → Int8) : ℕ → Int8 :=
  (List.range k).foldl (fun buffer i => Function.update buffer (dst + i) (q i)) buffer

/-- The row-major activations: every token's row is quantised before the kernels start. -/
def activationRows (x : ℕ → ℕ → Int8) (tokens k : ℕ) (buffer : ℕ → Int8) : ℕ → Int8 :=
  (List.range tokens).foldl (fun buffer token =>
    quantizeActivationRow (x token) (token * k) k buffer) buffer

/-- `quantize_activation_panel_row`, and with `q = 0` also `zero_activation_panel_row`: a row of a
token pair is stored in pieces of eight, the two rows alternating. -/
def quantizeActivationPanelRow (q : ℕ → Int8) (token k : ℕ) (buffer : ℕ → Int8) : ℕ → Int8 :=
  let pair := token / 2 * (2 * k)
  let tokenOff := token % 2 * 8
  (stepRange k 8).foldl (fun buffer ik =>
    (List.range 8).foldl (fun buffer lane =>
      Function.update buffer (pair + ik / 8 * 16 + tokenOff + lane) (q (ik + lane))) buffer) buffer

/-- `align_panel_tokens`. -/
def alignPanelTokens (tokens : ℕ) : ℕ := (tokens + 7) / 8 * 8

/-- The paired activations: quantised rows for the tokens, zero rows up to a multiple of eight. -/
def activationPanel (x : ℕ → ℕ → Int8) (tokens k : ℕ) (buffer : ℕ → Int8) : ℕ → Int8 :=
  (List.range (alignPanelTokens tokens)).foldl (fun buffer token =>
    quantizeActivationPanelRow (if token < tokens then x token else fun _ => 0) token k buffer)
    buffer

/-! ## Kernels -/

section Kernels

variable (op : LinearOp) (activations : ℕ → Int8)

/-- The accumulator loop of `compute_scalar`. -/
def scalarAccumulator (token row : ℕ) : BitVec 32 :=
  (List.range op.k).foldl (fun accumulator ik =>
    accumulator + widen (op.weightAt row ik) * widen (activations (token * op.k + ik))) 0

/-- One iteration of `compute_scalar`. -/
def scalarJob (index : ℕ) : List StoreResult :=
  let token := index / op.o
  let row := index % op.o
  [⟨token, row, scalarAccumulator op activations token row⟩]

/-- Sixteen weights of one row from a split-8 group: `vqtbl1q` on the table of `channel`. -/
def decodeSplit8 (codes : GgmlTensor) (ot kt group split channel : ℕ) : Fin 16 → Int8 :=
  let packed := ot * codes.nb 3 + kt * codes.nb 2 + group * codes.nb 1 + split * 8
  let bytes := vld1 codes.data packed
  let indexes := vcombine (fun l => lowNibble (bytes l)) (fun l => highNibble (bytes l))
  vqtbl1q (vld1q (fun l => (row4Codebook.getD channel []).getD l 0) 0) indexes

/-- The accumulators of `compute_row4_dotprod`.  The loops over `group` and `channel` touch each
`sums[group * 4 + channel]` once. -/
def row4DotprodSums (token ot : ℕ) : ℕ → Fin 4 → BitVec 32 :=
  (List.range (op.k / 128)).foldl (fun sums kt =>
    (List.range 8).foldl (fun sums split =>
      let q := vld1q activations (token * op.k + kt * 128 + split * 16)
      fun row => vdotq (sums row) (decodeSplit8 op.codes ot kt (row / 4) split (row % 4)) q)
      sums) (fun _ _ => 0)

/-- The accumulators of `compute_w8_dotprod`. -/
def w8DotprodSums (token ot : ℕ) : ℕ → Fin 4 → BitVec 32 :=
  (List.range (op.k / 128)).foldl (fun sums kt =>
    (stepRange 128 16).foldl (fun sums ik =>
      let q := vld1q activations (token * op.k + kt * 128 + ik)
      fun row =>
        let weight := ot * op.codes.nb 3 + kt * op.codes.nb 2 + row * op.codes.nb 1 + ik
        vdotq (sums row) (vld1q (fun n => (op.codes.data n).toInt8) weight) q)
      sums) (fun _ _ => 0)

/-- One job of `compute_dotprod`: `compute_row4_dotprod` or `compute_w8_dotprod`. -/
def dotprodJob (job : ℕ) : List StoreResult :=
  let oTiles := op.o / 16
  let token := job / oTiles
  let ot := job % oTiles
  let sums := if op.row4 then row4DotprodSums op activations token ot
    else w8DotprodSums op activations token ot
  (List.range 16).map fun row => ⟨token, ot * 16 + row, vaddvq (sums row)⟩

/-- `decode_row4_group_16`. -/
def decodeRow4Group16 (codes : GgmlTensor) (row0 k0 channel : ℕ) : Fin 16 → Int8 :=
  decodeSplit8 codes (row0 / 16) (k0 / 128) (row0 % 16 / 4) (k0 % 128 / 16) channel

/-- `load_w8_row_16`. -/
def loadW8Row16 (codes : GgmlTensor) (row k0 : ℕ) : Fin 16 → Int8 :=
  let ot := row / 16
  let innerRow := row % 16
  let kt := k0 / 128
  let inner := k0 % 128
  vld1q (fun n => (codes.data n).toInt8)
    (ot * codes.nb 3 + kt * codes.nb 2 + innerRow * codes.nb 1 + inner)

/-- The vectors `weights[0], …, weights[3]` at rows `row0, …, row0 + 3`. -/
def weights16 (row0 ik row : ℕ) : Fin 16 → Int8 :=
  if op.row4 then decodeRow4Group16 op.codes row0 ik row
  else loadW8Row16 op.codes (row0 + row) ik

/-- The accumulators of `compute_i8mm_direct`. -/
def i8mmDirectSums (token0 row0 : ℕ) : ℕ → Fin 4 → BitVec 32 :=
  (stepRange op.k 16).foldl (fun sums ik =>
    let input0 := vld1q activations (token0 * op.k + ik)
    let input1 := if token0 + 1 < op.tokens then vld1q activations ((token0 + 1) * op.k + ik)
      else fun _ => 0
    let weights := weights16 op row0 ik
    let inputLo := vcombine (vgetLow input0) (vgetLow input1)
    let inputHi := vcombine (vgetHigh input0) (vgetHigh input1)
    fun rowPair =>
      let row := 2 * rowPair
      vmmlaq
        (vmmlaq (sums rowPair) inputLo
          (vcombine (vgetLow (weights row)) (vgetLow (weights (row + 1)))))
        inputHi (vcombine (vgetHigh (weights row)) (vgetHigh (weights (row + 1)))))
    (fun _ _ => 0)

/-- The four stores of a 2 × 2 tile; the second token's are left out past the last token. -/
def tileStores (token row : ℕ) (tile : Fin 4 → BitVec 32) : List StoreResult :=
  [⟨token, row, tile 0⟩, ⟨token, row + 1, tile 1⟩] ++
    if token + 1 < op.tokens then [⟨token + 1, row, tile 2⟩, ⟨token + 1, row + 1, tile 3⟩] else []

/-- One job of `compute_i8mm_direct`. -/
def i8mmDirectJob (job : ℕ) : List StoreResult :=
  let rowGroups := op.o / 4
  let token0 := 2 * (job / rowGroups)
  let row0 := 4 * (job % rowGroups)
  let sums := i8mmDirectSums op activations token0 row0
  (List.range 2).flatMap fun rowPair => tileStores op token0 (row0 + 2 * rowPair) (sums rowPair)

/-- `expand_four_rows` into the panel that starts at `p`. -/
def expandFourRows (row0 p : ℕ) (panel : ℕ → Int8) : ℕ → Int8 :=
  (stepRange op.k 16).foldl (fun panel ik =>
    let weights := weights16 op row0 ik
    (List.range 2).foldl (fun panel half =>
      let panelOffset := (ik / 8 + half) * 32
      let weight := fun r => if half = 0 then vgetLow (weights r) else vgetHigh (weights r)
      vst1q (vst1q panel (p + panelOffset) (vcombine (weight 0) (weight 1)))
        (p + panelOffset + 16) (vcombine (weight 2) (weight 3))) panel) panel

/-- The accumulators of `compute_i8mm_panel` for eight tokens from `token0` on and the eight rows
of the panel. -/
def panelSums (panel : ℕ → Int8) (token0 : ℕ) : ℕ → ℕ → Fin 4 → BitVec 32 :=
  (stepRange op.k 8).foldl (fun sums ik =>
    let weights := fun rowPair =>
      vld1q panel (rowPair / 2 * (4 * op.k) + ik / 8 * 32 + rowPair % 2 * 16)
    let input := fun pair =>
      vld1q activations (token0 / 2 * (2 * op.k) + ik / 8 * 16 + pair * (2 * op.k))
    fun pair rowPair => vmmlaq (sums pair rowPair) (input pair) (weights rowPair))
    (fun _ _ _ => 0)

/-- The stores of `compute_i8mm_panel` for one expanded panel. -/
def panelStores (panel : ℕ → Int8) (row0 : ℕ) : List StoreResult :=
  (stepRange op.tokens 8).flatMap fun token0 =>
    let sums := panelSums op activations panel token0
    -- the loop over pairs breaks at the first token past the end
    ((List.range 4).takeWhile fun pair => token0 + 2 * pair < op.tokens).flatMap fun pair =>
      (List.range 4).flatMap fun rowPair =>
        tileStores op (token0 + 2 * pair) (row0 + 2 * rowPair) (sums pair rowPair)

/-- One job of `compute_i8mm_panel`; `scratch` is what the worker's panel held before. -/
def i8mmPanelJob (scratch : ℕ → Int8) (ot : ℕ) : List StoreResult :=
  ((stepRange 4 2).foldl (fun state group =>
    let row0 := ot * 16 + group * 4
    let panel := expandFourRows op (row0 + 4) (4 * op.k) (expandFourRows op row0 0 state.1)
    (panel, state.2 ++ panelStores op activations panel row0)) (scratch, [])).2

end Kernels

end IFairy
