import IFairy.Framework.ByteFields
import IFairy.Framework.InsertionSort
import IFairy.Framework.Loops
import IFairy.Framework.NearestCentroid
import IFairy.Framework.TopSelection

/-!
# The mixed two- and four-bit cache format

`ggml/src/ggml-turbo-quant.c` stores a rotated block of 128 values with two bits each and spends
four bits on the `n` values of largest magnitude, or on the `n / 4` groups of four with the largest
maximum.  A block holds a half-precision norm, the 128 two-bit codes, the sorted positions of the
selected values or groups, and their four-bit codes in the order of the positions.

The format is modelled from the rotated values on.  Values are rationals and the `float` constants
are the rationals that they stand for.  The half-precision norm is a function of `recon_sq` that
stays a parameter, and so is what a half means.
-/

namespace IFairy

open ByteFields InsertionSort NearestCentroid TopSelection

/-! ## Constants -/

/-- `CENTROIDS_2BIT`: `±0.133462f`, `±0.039994f`. -/
def centroids2bit : List ℚ :=
  [-8956483 / 2 ^ 26, -167747 / 2 ^ 22, 167747 / 2 ^ 22, 8956483 / 2 ^ 26]

/-- `CENTROIDS_4BIT`: `±0.241529f`, `±0.182877f`, `±0.143016f`, `±0.111036f`, `±0.083292f`,
`±0.058050f`, `±0.034299f`, `±0.011349f`. -/
def centroids4bit : List ℚ :=
  [-16208737 / 2 ^ 26, -3068167 / 2 ^ 24, -9597641 / 2 ^ 26, -1862875 / 2 ^ 24,
   -11179263 / 2 ^ 27, -7791339 / 2 ^ 27, -2301767 / 2 ^ 26, -1523237 / 2 ^ 27,
   1523237 / 2 ^ 27, 2301767 / 2 ^ 26, 7791339 / 2 ^ 27, 11179263 / 2 ^ 27,
   1862875 / 2 ^ 24, 9597641 / 2 ^ 26, 3068167 / 2 ^ 24, 16208737 / 2 ^ 26]

/-- The constants of `nearest_centroid_2bit`: `±0.086728f`, `0`. -/
def thresholds2bit : List ℚ := [-11640435 / 2 ^ 27, 0, 11640435 / 2 ^ 27]

/-- The constants of `nearest_centroid_4bit`: `±0.212203f`, `±0.162947f`, `±0.127026f`,
`±0.097164f`, `±0.070671f`, `±0.046174f`, `±0.022824f`, `0`. -/
def thresholds4bit : List ℚ :=
  [-7120351 / 2 ^ 25, -2733797 / 2 ^ 24, -8524571 / 2 ^ 26, -13041131 / 2 ^ 27,
   -9485301 / 2 ^ 27, -12394739 / 2 ^ 28, -6126771 / 2 ^ 28, 0,
   6126771 / 2 ^ 28, 12394739 / 2 ^ 28, 9485301 / 2 ^ 27, 13041131 / 2 ^ 27,
   8524571 / 2 ^ 26, 2733797 / 2 ^ 24, 7120351 / 2 ^ 25]

/-- `nearest_centroid_2bit`. -/
def nearestCentroid2bit (val : ℚ) : ℕ := firstAbove thresholds2bit val

/-- `nearest_centroid_4bit`. -/
def nearestCentroid4bit (val : ℚ) : ℕ := firstAbove thresholds4bit val

/-- `CENTROIDS_2BIT[q]`. -/
def centroid2bitAt (q : ℕ) : ℚ := centroids2bit.getD q 0

/-- `CENTROIDS_4BIT[q]`. -/
def centroid4bitAt (q : ℕ) : ℚ := centroids4bit.getD q 0

/-! ## Selection -/

/-- `turbo2m4_sort_positions`.  Positions are below 128, so they are the same numbers as bytes. -/
def turbo2m4SortPositions (positions : ℕ → ℕ) (n : ℕ) : ℕ → ℕ := insertionSort n positions

/-- `turbo2m4_select_scalar`. -/
def turbo2m4SelectScalar (x : ℕ → ℚ) (n : ℕ) : ℕ → ℕ :=
  turbo2m4SortPositions (selectTop (fun i => |x i|) (-1) 128 n) n

/-- The score of a group: the largest magnitude in it. -/
def groupScore (x : ℕ → ℚ) (group : ℕ) : ℚ :=
  (List.range 4).foldl (fun score lane => max score |x (4 * group + lane)|) 0

/-- `turbo2m4_select_group`. -/
def turbo2m4SelectGroup (x : ℕ → ℚ) (nGroups : ℕ) : ℕ → ℕ :=
  turbo2m4SortPositions (selectTop (groupScore x) (-1) (128 / 4) nGroups) nGroups

/-! ## Blocks -/

/-- A member of the format family: `n` four-bit values, selected one by one or in groups. -/
structure Turbo2m4Format where
  n : ℕ
  group : Bool

/-- `n_positions`. -/
def Turbo2m4Format.nPositions (fmt : Turbo2m4Format) : ℕ := if fmt.group then fmt.n / 4 else fmt.n

/-- A block: the norm, and the bytes from `qs` on. -/
structure Turbo2m4Block where
  d : UInt16
  bytes : ℕ → UInt8

/-- `memset(base, 0, len)`. -/
def clearBytes (base len : ℕ) (bytes : ℕ → UInt8) : ℕ → UInt8 := fun a =>
  if base ≤ a ∧ a < base + len then 0 else bytes a

section Block

variable (fmt : Turbo2m4Format) (x : ℕ → ℚ)

/-- The loop that stores the two-bit codes, on the bytes and `recon_sq`. -/
def storeTwoBit (s : (ℕ → UInt8) × ℚ) : (ℕ → UInt8) × ℚ :=
  (List.range 128).foldl (fun s i =>
    let q := nearestCentroid2bit (x i)
    (orField 2 4 0 s.1 i q, s.2 + centroid2bitAt q * centroid2bitAt q)) s

/-- Give value `i` its four-bit code, in half `part` of byte `byte` of `qh`. -/
def refine4bit (s : (ℕ → UInt8) × ℚ) (i byte part : ℕ) : (ℕ → UInt8) × ℚ :=
  let qh := 32 + fmt.nPositions
  let q2 := readPart 2 (s.1 (i / 4)) (i % 4)
  let q4 := nearestCentroid4bit (x i)
  (Function.update s.1 (qh + byte) (orPart 4 (s.1 (qh + byte)) part q4),
    s.2 + (centroid4bitAt q4 * centroid4bitAt q4 - centroid2bitAt q2 * centroid2bitAt q2))

/-- The loops that store the four-bit codes of the selected values. -/
def storeFourBit (s : (ℕ → UInt8) × ℚ) : (ℕ → UInt8) × ℚ :=
  if fmt.group then
    (List.range fmt.nPositions).foldl (fun s slot =>
      let base := 4 * (s.1 (32 + slot)).toNat
      (List.range 4).foldl (fun s lane =>
        refine4bit fmt x s (base + lane) (2 * slot + lane / 2) (lane % 2)) s) s
  else
    (List.range fmt.n).foldl (fun s slot =>
      refine4bit fmt x s (s.1 (32 + slot)).toNat (slot / 2) (slot % 2)) s

def selectedPositions : ℕ → ℕ :=
  if fmt.group then turbo2m4SelectGroup x fmt.nPositions else turbo2m4SelectScalar x fmt.n

/-- Store the positions behind the two-bit codes. -/
def storePositions (bytes : ℕ → UInt8) : ℕ → UInt8 :=
  (List.range fmt.nPositions).foldl (fun bytes slot =>
    Function.update bytes (32 + slot) (UInt8.ofNat (selectedPositions fmt x slot))) bytes

/-- A block of `quantize_row_turbo2m4_ref_impl` from the rotated values on, with `recon_sq`;
`encodeNorm` is the half that is stored for a value of `recon_sq`. -/
def quantizeTurbo2m4Block (encodeNorm : ℚ → UInt16) (bytes : ℕ → UInt8) : Turbo2m4Block × ℚ :=
  let bytes := clearBytes 0 32 bytes
  let bytes := clearBytes (32 + fmt.nPositions) (fmt.n / 2) bytes
  let s := storeTwoBit x (bytes, 0)
  let s := storeFourBit fmt x (storePositions fmt x s.1, s.2)
  (⟨encodeNorm s.2, s.1⟩, s.2)

/-- A block of `dequantize_row_turbo2m4_impl`; `half` is what a half means. -/
def dequantizeTurbo2m4Block (half : UInt16 → ℚ) (b : Turbo2m4Block) (y : ℕ → ℚ) : ℕ → ℚ :=
  let norm := half b.d
  let qh := 32 + fmt.nPositions
  let y := (List.range 128).foldl (fun y i =>
    Function.update y i (norm * centroid2bitAt (readPart 2 (b.bytes (i / 4)) (i % 4)))) y
  if fmt.group then
    (List.range fmt.nPositions).foldl (fun y slot =>
      let base := 4 * (b.bytes (32 + slot)).toNat
      (List.range 4).foldl (fun y lane =>
        Function.update y (base + lane)
          (norm * centroid4bitAt (readPart 4 (b.bytes (qh + (2 * slot + lane / 2))) (lane % 2)))) y) y
  else
    (List.range fmt.n).foldl (fun y slot =>
      Function.update y (b.bytes (32 + slot)).toNat
        (norm * centroid4bitAt (readPart 4 (b.bytes (qh + slot / 2)) (slot % 2)))) y

end Block

end IFairy
