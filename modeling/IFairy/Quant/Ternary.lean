import IFairy.Quant.ConvertedBytes
import Mathlib.Data.Rat.Floor
import Mathlib.Data.Sign.Basic

/-!
# Ternary blocks in base 3

A `block_tq1_0` holds 256 values of -1, 0 or 1 times a half-precision scale.  Five base-3 digits
share a byte `q`, stored as the ceiling of `256 q / 243`: the wrapping product with `3 ^ n` moves
digit `n` to the front, where a multiplication by 3 reads it.  The digits of a byte are 32 values
apart in the first section, 16 in the second; the last four bytes hold four digits, 4 values apart.

`quantizeRowTq1` and `dequantizeRowTq1` are `quantize_row_tq1_0_ref` and `dequantize_row_tq1_0`
(`ggml/src/ggml-quants.c`); the definitions in `namespace Tq1Py` are those of the class `TQ1_0`
(`gguf-py/gguf/quants.py`).  Single-precision arithmetic rounds exact results with a small relative
error (`SingleRounding`), which leaves out overflow and underflow.
-/

namespace IFairy

/-! ## Arithmetic -/

/-- Rounding to single precision inside the range of the format. -/
structure SingleRounding where
  round : ℚ → ℚ
  close : ∀ x, |round x - x| ≤ |x| / 8

/-- `np_roundf`. -/
def npRoundf (x : ℚ) : ℤ := SignType.sign x * (⌊|x|⌋ + ⌊2 * (|x| - ⌊|x|⌋)⌋)

section

variable (A : SingleRounding) (x : ℕ → ℚ)

/-- The largest magnitude of a block. -/
def blockAmax : ℚ := (List.range 256).foldl (fun amax j => max amax |x j|) 0

/-- `d ? 1.0f/d : 0.0f`. -/
def blockInverse : ℚ := if blockAmax x = 0 then 0 else A.round (1 / blockAmax x)

end

/-! ## The C code -/

/-- `block_tq1_0`. -/
structure BlockTq1 where
  qs : List UInt8
  qh : List UInt8
  d : UInt16

/-- The bytes of a block in memory. -/
def BlockTq1.bytes (b : BlockTq1) : List UInt8 :=
  b.qs ++ b.qh ++ [UInt8.ofNat b.d.toNat, UInt8.ofNat (b.d.toNat / 256)]

namespace Tq1Py

/-- `(qs.astype(np.int8) + np.int8(1)).astype(np.uint8)` of the rounded quotients. -/
def digits (A : SingleRounding) (x : ℕ → ℚ) (j : ℕ) : UInt8 :=
  (Int8.ofInt (npRoundf (A.round (x j * blockInverse A x))) + 1).toUInt8

/-- `np.sum(qs.reshape((-1, count, width)) * weights, axis=-2)`: products of bytes, summed in a
wider type. -/
def weightedSums (qs : ℕ → UInt8) (start width : ℕ) (weights : List UInt8) : List ℕ :=
  (List.range width).map fun m =>
    ((List.range weights.length).map fun n =>
      (qs (start + (n * width + m)) * weights.getD n 0).toNat).sum

/-- `(qs.astype(np.uint16) * 256 + (243 - 1)) // 243`, and `.astype(np.uint8)`. -/
def ceilBytes (v : ℕ) : UInt8 := ((UInt16.ofNat v * 256 + (243 - 1)) / 243).toUInt8

/-- A row of `quantize_blocks`. -/
def quantizeBlock (A : SingleRounding) (toHalf : ℚ → UInt16) (x : ℕ → ℚ) : List UInt8 :=
  let qs := digits A x
  let qs0 := weightedSums qs 0 32 [81, 27, 9, 3, 1]
  let qs1 := weightedSums qs (32 * 5) 16 [81, 27, 9, 3, 1]
  let qh := weightedSums qs (48 * 5) 4 [81, 27, 9, 3]
  let d := toHalf (blockAmax x)
  (qs0 ++ qs1 ++ qh).map ceilBytes ++ [UInt8.ofNat d.toNat, UInt8.ofNat (d.toNat / 256)]

end Tq1Py

/-! ## Rounding -/

namespace SingleRounding

variable (A : SingleRounding)

end SingleRounding

section

variable {A : SingleRounding} {x : ℕ → ℚ}

end

/-! ## Digits in a byte -/

section

variable {β : Type*}

end

section

variable {xi : ℕ → ℤ}

end

section

variable (A : SingleRounding) (toHalf : ℚ → UInt16) (x : ℕ → ℚ)

end

/-! ## The Python codec -/

namespace Tq1Py

section

variable (A : SingleRounding) (toHalf : ℚ → UInt16) (x : ℕ → ℚ)

end

/-! ### Decoding -/

end Tq1Py

/-! ## The round trip -/

end IFairy
