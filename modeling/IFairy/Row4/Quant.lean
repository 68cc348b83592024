import IFairy.Framework.Bits
import IFairy.Framework.NdArray

/-!
# The Row4 and W8 packers

`gguf-py/row4/quant.py`: a four-row group of weights becomes one 4-bit code per column, two
axis codes `u | v << 2`; the codes are then packed two to a byte into panels.

* `quantizeRow4Codes` chooses the codes from floating-point weights.  The arithmetic is a
  parameter `F32Ops`: what the packers need of a code is only that it is one of the sixteen.
* `decodeRow4Codes` turns a code back into four signed rows.
* `packRow4M16K128`, `packRow4M32K256Pair2` and `packW8M16K128` are the three physical layouts.

A rejected argument is an `Except.error` that carries the text of the `ValueError`.
-/

namespace IFairy

open NdArray

/-- The Python text of a shape tuple. -/
def pyShape : List ℕ → String
  | [n] => s!"({n},)"
  | dims => "(" ++ ", ".intercalate (dims.map toString) ++ ")"

/-- The `float32` operations of numpy that the quantiser calls. -/
structure F32Ops (F : Type*) where
  add : F → F → F
  sub : F → F → F
  mul : F → F → F
  half : F
  zero : F
  abs : F → F
  lt : F → F → Bool
  isFinite : F → Bool

/-! ## Codes -/

section Quantize

variable {F : Type*} (ops : F32Ops F)

/-- `_axis_code`: ties select the imaginary axis. -/
def axisCode (real imag : F) : UInt8 :=
  let realCode : UInt8 := if ops.lt real ops.zero then 1 else 0
  let imagCode : UInt8 := if ops.lt imag ops.zero then 3 else 2
  if ops.lt (ops.abs imag) (ops.abs real) then realCode else imagCode

/-- One U/V axis code from the four rows of a group. -/
def row4Code (a b c d : F) : UInt8 :=
  let uRe := ops.mul ops.half (ops.add a d)
  let uIm := ops.mul ops.half (ops.sub c b)
  let vRe := ops.mul ops.half (ops.sub a d)
  let vIm := ops.mul ops.half (ops.add b c)
  axisCode ops uRe uIm ||| (axisCode ops vRe vIm <<< 2)

/-- `quantize_row4_codes`. -/
def quantizeRow4Codes (weight : NdArray F) : Except String (NdArray UInt8) :=
  match weight.shape with
  | [outFeatures, inFeatures] =>
    if outFeatures % 4 ≠ 0 then
      .error s!"Row4 output dimension must be divisible by 4, got {outFeatures}"
    else if weight.any (fun w => !ops.isFinite w) then
      .error "Row4 weight contains a non-finite value"
    else if outFeatures = 0 then
      -- `reshape(0, 4, -1)` cannot infer the last dimension
      .error "cannot reshape array of size 0 into shape (0,4,newaxis)"
    else
      let grouped := weight.reshape [outFeatures / 4, 4, inFeatures]
      .ok (ofFn [outFeatures / 4, inFeatures] fun idx =>
        let row := fun index => grouped.get [idx.getD 0 0, index, idx.getD 1 0]
        row4Code ops (row 0) (row 1) (row 2) (row 3))
  | shape => .error s!"Row4 weight must be 2D, got shape {pyShape shape}"

end Quantize

/-- The four signed axes a 2-bit code selects from. -/
def row4Axes : List (Int8 × Int8) := [(1, 0), (-1, 0), (0, 1), (0, -1)]

/-- The weight of row `channel` of a group whose code is `code`. -/
def decodeRow4Code (code : UInt8) (channel : ℕ) : Int8 :=
  let u := row4Axes.getD (code &&& 3).toNat (0, 0)
  let v := row4Axes.getD ((code >>> 2) &&& 3).toNat (0, 0)
  [u.1 + v.1, -u.2 + v.2, u.2 + v.2, u.1 - v.1].getD channel 0

/-- `decode_row4_codes`: the four rows of a group are stacked on the axis before the last. -/
def decodeRow4Codes (codes : NdArray UInt8) : Except String (NdArray Int8) :=
  if codes.any (fun code => decide (15 < code)) then .error "Row4 codes must be in [0, 15]"
  else
    .ok (ofFn (codes.shape.dropLast ++ [4, codes.shape.getLastD 1]) fun idx =>
      let axis := codes.shape.length - 1
      decodeRow4Code (codes.get (idx.eraseIdx axis)) (idx.getD axis 0))

/-! ## Physical layouts -/

/-- The byte array of a split-8 pair: lanes 0-7 low, lanes 8-15 high. -/
def packSplit8 (split : NdArray UInt8) : NdArray UInt8 :=
  zipWith packNibbles (split.lastSlice 0 8) (split.lastSlice 8 8)

/-- `pack_row4_m16k128`: logical `[O/4, K]` codes to physical `[O/16, K/128, 4, 64]`. -/
def packRow4M16K128 (codes : NdArray UInt8) : Except String (NdArray UInt8) :=
  match codes.shape with
  | [groups, inFeatures] =>
    if groups % 4 ≠ 0 ∨ inFeatures % 128 ≠ 0 then
      .error s!"Row4 codes require O16/K128 alignment, got O={groups * 4}, K={inFeatures}"
    else if codes.any (fun code => decide (15 < code)) then
      .error "Row4 codes must be in [0, 15]"
    else
      let mTiles := groups / 4
      let kTiles := inFeatures / 128
      let packed := packSplit8 (codes.reshape [mTiles, 4, kTiles, 8, 16])
      .ok ((packed.transpose [0, 2, 1, 3, 4]).reshape [mTiles, kTiles, 4, 64])
  | shape => .error s!"Row4 codes must be 2D, got shape {pyShape shape}"

/-- `pack_row4_m32k256_pair2`: logical `[O/4, K]` codes to physical `[O/32, K/256, 8, 128]`. -/
def packRow4M32K256Pair2 (codes : NdArray UInt8) : Except String (NdArray UInt8) :=
  match codes.shape with
  | [groups, inFeatures] =>
    if groups % 8 ≠ 0 ∨ inFeatures % 256 ≠ 0 then
      .error s!"Row4 pair2 codes require O32/K256 alignment, got O={groups * 4}, K={inFeatures}"
    else if codes.any (fun code => decide (15 < code)) then
      .error "Row4 codes must be in [0, 15]"
    else
      let mTiles := groups / 8
      let kTiles := inFeatures / 256
      let packed := packSplit8 (codes.reshape [mTiles, 8, kTiles, 2, 8, 16])
      let paired := packed.reshape [mTiles, 8, kTiles, 2, 8, 4, 2]
      .ok ((paired.transpose [0, 2, 1, 4, 5, 3, 6]).reshape [mTiles, kTiles, 8, 128])
  | shape => .error s!"Row4 codes must be 2D, got shape {pyShape shape}"

/-- `pack_w8_m16k128`: logical `[O, K]` int8 weights to physical `[O/16, K/128, 16, 128]`. -/
def packW8M16K128 (codes : NdArray Int8) : Except String (NdArray Int8) :=
  match codes.shape with
  | [outFeatures, inFeatures] =>
    if outFeatures % 16 ≠ 0 ∨ inFeatures % 128 ≠ 0 then
      .error s!"W8 codes require O16/K128 alignment, got O={outFeatures}, K={inFeatures}"
    else
      let tiled := codes.reshape [outFeatures / 16, 16, inFeatures / 128, 128]
      .ok (tiled.transpose [0, 2, 1, 3])
  | shape => .error s!"W8 codes must be 2D, got shape {pyShape shape}"

/-! ## What the quantiser produces -/

section Quantize

variable {F : Type*} (ops : F32Ops F)

lemma axisCode_toNat_lt (real imag : F) : (axisCode ops real imag).toNat < 4 := by
  unfold axisCode
  split_ifs <;> decide

lemma row4Code_toNat_lt (a b c d : F) : (row4Code ops a b c d).toNat < 16 := by
  have key : ∀ u v : UInt8, u.toNat < 4 → v.toNat < 4 → (u ||| (v <<< 2)).toNat < 16 := by
    intro u v hu hv
    have hshift : (v <<< 2).toNat < 2 ^ 4 := by
      simp only [UInt8.toNat_shiftLeft, Nat.shiftLeft_eq]
      have : v.toNat * 2 ^ 2 < 2 ^ 4 := by omega
      simpa using lt_of_le_of_lt (Nat.mod_le _ _) this
    rw [UInt8.toNat_or]
    exact Nat.or_lt_two_pow (by omega) hshift
  exact key _ _ (axisCode_toNat_lt ops _ _) (axisCode_toNat_lt ops _ _)

variable {ops}

/-- The codes of a `[O, K]` weight form an `[O/4, K]` array of values below sixteen. -/
lemma quantizeRow4Codes_spec {weight : NdArray F} {codes : NdArray UInt8}
    (h : quantizeRow4Codes ops weight = .ok codes) :
    ∃ outFeatures inFeatures, weight.shape = [outFeatures, inFeatures] ∧ outFeatures % 4 = 0 ∧
      codes.shape = [outFeatures / 4, inFeatures] ∧ ∀ n, (codes.flat n).toNat < 16 := by
  unfold quantizeRow4Codes at h
  split at h
  · rename_i outFeatures inFeatures hshape
    split_ifs at h with hmod hfin hzero
    obtain rfl := Except.ok.inj h
    exact ⟨outFeatures, inFeatures, hshape, by omega, rfl, fun n => row4Code_toNat_lt ops _ _ _ _⟩
  · cases h

end Quantize

end IFairy
