import IFairy.Quant.Ifairy

/-!
# The iFairy converter

`gguf-py/convert_ifairy.py` quantises a complex matrix by phase (`forward`), folds the two parts
into one float whose last bit says which part it is (`merge_complex_tensor`), packs it in blocks
of 256 with one real and one imaginary scale per block (`IFAIRY.quantize_blocks`) and reorders the
codes of each block (`repack_ifairy_blocks`).

Floats are bit patterns, since the converter works on their bits.  The library functions it calls
are the fields of `Torch`; `TorchLaws` is what it relies on.

A block without a weight of one phase gets scale zero for that phase, while the dot-product
kernel takes both scales from a row's first block.  The main result says what follows:
the kernel is the dot product of the dequantised row exactly when the first block of the row has
every phase that the row has.
-/

namespace IFairy

/-! ## The conversion -/

/-- The library functions that the converter calls, on single-precision patterns. -/
structure Torch where
  /-- `torch.angle(w_real + 1j * w_imag)`. -/
  angle : UInt32 → UInt32 → UInt32
  /-- `1.0 / torch.clamp(t.abs().mean(), min=1e-5)`. -/
  scale : List UInt32 → UInt32
  div : UInt32 → UInt32 → UInt32
  add : UInt32 → UInt32 → UInt32
  /-- `astype(np.float16)`. -/
  toHalf : UInt32 → UInt16

/-- A matrix of complex weights. -/
structure ComplexMatrix where
  rows : ℕ
  cols : ℕ
  re : ℕ → ℕ → UInt32
  im : ℕ → ℕ → UInt32

/-- The singles `1.0` and `-1.0`. -/
def singleOne : UInt32 := 0x3f800000

def singleNegOne : UInt32 := 0xbf800000

/-- `π / 4` and `3 * π / 4` as singles, and their negatives. -/
def quarterPi : UInt32 := 0x3f490fdb

def threeQuarterPi : UInt32 := 0x4016cbe4

def negQuarterPi : UInt32 := 0xbf490fdb

def negThreeQuarterPi : UInt32 := 0xc016cbe4

section Convert

variable (t : Torch) (W : ComplexMatrix)

def phase (r c : ℕ) : UInt32 := t.angle (W.re r c) (W.im r c)

def realPos (r c : ℕ) : Bool :=
  singleLe negQuarterPi (phase t W r c) && singleLt (phase t W r c) quarterPi

def realNeg (r c : ℕ) : Bool :=
  singleLe threeQuarterPi (phase t W r c) || singleLt (phase t W r c) negThreeQuarterPi

def imagPos (r c : ℕ) : Bool :=
  singleLe quarterPi (phase t W r c) && singleLt (phase t W r c) threeQuarterPi

def imagNeg (r c : ℕ) : Bool :=
  singleLe negThreeQuarterPi (phase t W r c) && singleLt (phase t W r c) negQuarterPi

def isReal (r c : ℕ) : Bool := realPos t W r c || realNeg t W r c

def isImag (r c : ℕ) : Bool := imagPos t W r c || imagNeg t W r c

/-- The entries of a tensor that a mask selects, in row-major order. -/
def select (mask : ℕ → ℕ → Bool) (entry : ℕ → ℕ → UInt32) : List UInt32 :=
  (List.range W.rows).flatMap fun r =>
    ((List.range W.cols).filter (mask r)).map (entry r)

def realScale : UInt32 := t.scale (select W (isReal t W) W.re)

def imagScale : UInt32 := t.scale (select W (isImag t W) W.im)

/-- `qw_real` of `forward`: ones, then minus ones, then divided by the scale. -/
def qwReal (r c : ℕ) : UInt32 :=
  let q := if realNeg t W r c then singleNegOne else if realPos t W r c then singleOne else 0
  t.div q (realScale t W)

/-- `qw_imag` of `forward`. -/
def qwImag (r c : ℕ) : UInt32 :=
  let q := if imagNeg t W r c then singleNegOne else if imagPos t W r c then singleOne else 0
  t.div q (imagScale t W)

/-- `merge_complex_tensor`: the last bit is set on the imaginary entries and cleared elsewhere. -/
def merged (r c : ℕ) : UInt32 :=
  let cleared := clearLast (t.add (qwReal t W r c) (qwImag t W r c))
  let imagMask := singleAbs (qwImag t W r c) ≠ 0
  if imagMask then cleared ||| 1 else cleared

end Convert

/-! ## Blocks -/

/-- `real_mask` of `quantize_blocks`. -/
def realMask (e : UInt32) : Bool := e &&& 1 = 0

/-- The two-bit code that `quantize_blocks` assigns; a later assignment overrides. -/
def blockCode (e : UInt32) : UInt8 :=
  let realValue := if realMask e then e else 0
  let imagValue := if realMask e then 0 else e
  if singleLe 0 imagValue && !realMask e then 3
  else if singleLt imagValue 0 && !realMask e then 2
  else if singleLe 0 realValue && realMask e then 1
  else 0

/-- The largest magnitude of a block; magnitudes are ordered as their patterns. -/
def maxAbs (value : ℕ → UInt32) : UInt32 :=
  (List.range 256).foldl (fun m j => max m (singleAbs (value j))) 0

/-- `IFAIRY.quantize_blocks` on one block: four sequential codes per byte. -/
def quantizeBlock (toHalf : UInt32 → UInt16) (blk : ℕ → UInt32) : BlockIfairy where
  qs n := packPairs (blockCode (blk (4 * n))) (blockCode (blk (4 * n + 1)))
    (blockCode (blk (4 * n + 2))) (blockCode (blk (4 * n + 3)))
  dReal := toHalf (maxAbs fun j => if realMask (blk j) then blk j else 0)
  dImag := toHalf (maxAbs fun j => if realMask (blk j) then 0 else blk j)

/-- `repack_ifairy_blocks` on one block. -/
def repackBlock (b : BlockIfairy) : BlockIfairy :=
  let codes := fun i => pairAt (b.qs (i / 4)) (i % 4)
  { b with
    qs := fun n =>
      let base := n / 16 * 64
      let lane := n % 16
      packPairs (codes (base + lane)) (codes (base + lane + 16)) (codes (base + lane + 32))
        (codes (base + lane + 48)) }

/-- Row `r` of the emitted matrix. -/
def emittedRow (t : Torch) (W : ComplexMatrix) (r : ℕ) : ℕ → BlockIfairy := fun b =>
  repackBlock (quantizeBlock t.toHalf fun j => merged t W r (256 * b + j))

/-! ## What the converter relies on -/

def PosFinite (s : UInt32) : Prop := 0 < s.toNat ∧ s.toNat < 0x7f800000

/-- IEEE arithmetic where the converter uses it.  `0x37000000` is `2 ^ -17`, a bound below the
clamp `1e-5`, well inside the range of halves. -/
structure TorchLaws (t : Torch) : Prop where
  div_negOne : ∀ s, PosFinite s → t.div singleNegOne s = singleNeg (t.div singleOne s)
  div_zero : ∀ s, PosFinite s → t.div 0 s = 0
  add_zero : ∀ a, ¬ singleIsNaN a → singleAbs a ≠ 0 → t.add a 0 = a
  zero_add : ∀ a, ¬ singleIsNaN a → singleAbs a ≠ 0 → t.add 0 a = a
  scale_ge : ∀ l, l ≠ [] → PosFinite (t.scale l) →
    0x37000000 ≤ (t.div singleOne (t.scale l)).toNat
  toHalf_zero : t.toHalf 0 = 0
  toHalf_pos : ∀ v : UInt32, 0x37000000 ≤ v.toNat → v.toNat < 0x7f800000 →
    0 < (t.toHalf v).toNat ∧ (t.toHalf v).toNat < 2 ^ 15

/-- A matrix that the converter can quantise: whole blocks, phases that are numbers, at least one
entry of each kind, and mean magnitudes that are finite singles. -/
structure Quantizable (t : Torch) (W : ComplexMatrix) : Prop where
  cols : 256 ∣ W.cols
  phase : ∀ r < W.rows, ∀ c < W.cols, ¬ singleIsNaN (phase t W r c)
  exists_real : ∃ r < W.rows, ∃ c < W.cols, isReal t W r c
  exists_imag : ∃ r < W.rows, ∃ c < W.cols, isImag t W r c
  real_finite : PosFinite (realScale t W) ∧ (t.div singleOne (realScale t W)).toNat < 0x7f800000
  imag_finite : PosFinite (imagScale t W) ∧ (t.div singleOne (imagScale t W)).toNat < 0x7f800000

/-- The first block of the row has an entry of every phase that the row has. -/
def FirstBlockHasPhases (t : Torch) (W : ComplexMatrix) (r : ℕ) : Prop :=
  ((∃ c < W.cols, isReal t W r c) → ∃ c < 256, isReal t W r c) ∧
  ((∃ c < W.cols, isImag t W r c) → ∃ c < 256, isImag t W r c)

end IFairy
