import IFairy.Framework.Rounding
import IFairy.Lut.Tables

/-!
# Quantisers of activations

A float of an activation row is a pair of `bfloat16` numbers, the real and the imaginary part of
one element.  The quantisers take the largest magnitude of each part, over a block or over the
row, scale the parts so that it becomes the largest code, convert to integers and clamp.  The
float operations are parameters, so that what does not depend on them (the clamp:
`clampByte_bounds`) holds for all inputs, infinities and NaNs among them.
-/

namespace IFairy

/-! ## Floats -/

/-- The float operations of the quantisers: `nearest` converts with ties to even
(`nearest_int`, `lrintf`, `_mm256_cvtps_epi32`, `fcvtns`), `round` with ties away from zero. -/
structure FloatOps (F : Type) where
  ofBf16 : UInt16 → F
  literal : ℚ → F
  abs : F → F
  max : F → F → F
  mul : F → F → F
  div : F → F → F
  toHalf : F → UInt16
  nearest : F → ℤ
  round : F → ℤ

/-- The nearest integer, ties away from zero. -/
def roundAway (q : ℚ) : ℤ := if 0 ≤ q then ⌊q + 1 / 2⌋ else ⌈q - 1 / 2⌉

/-- Exact arithmetic, with the rounding to a half as given. -/
def ratOps (toHalf : ℚ → UInt16) : FloatOps ℚ where
  ofBf16 := bf16ToRat
  literal := id
  abs := fun q => |q|
  max := Max.max
  mul := (· * ·)
  div := (· / ·)
  toHalf := toHalf
  nearest := roundEven
  round := roundAway

section Quantise

variable {F : Type} (ops : FloatOps F)

def FloatOps.real (word : UInt32) : F := ops.ofBf16 word.toUInt16

/-- The imaginary part of an element. -/
def FloatOps.imag (word : UInt32) : F := ops.ofBf16 (word >>> 16).toUInt16

/-! ## The largest magnitude -/

/-- The maximum that one of `lanes` lanes sees of `n` values. -/
def laneMax (lanes n : ℕ) (v : ℕ → F) (lane : ℕ) : F :=
  (List.range (n / lanes)).foldl (fun m i => ops.max m (ops.abs (v (i * lanes + lane))))
    (ops.literal (1 / 100000))

/-- `ggml_hmax_ps_8`. -/
def hmaxPs8 (m : ℕ → F) : F :=
  let low := fun i => ops.max (m i) (m (i + 4))
  ops.max (ops.max (low 0) (low 2)) (ops.max (low 1) (low 3))

/-- `vmaxvq_f32`. -/
def vmaxvqF32 (m : ℕ → F) : F := ops.max (ops.max (m 0) (m 1)) (ops.max (m 2) (m 3))

/-- The largest magnitude of `n` values, as the quantisers of each instruction set find it. -/
def absMax (isa : LutIsa) (n : ℕ) (v : ℕ → F) : F :=
  match isa with
  | .scalar => laneMax ops 1 n v 0
  | .neon => vmaxvqF32 ops (laneMax ops 4 n v)
  | .avx2 => hmaxPs8 ops (laneMax ops 8 n v)

/-! ## Codes -/

/-- The byte of an integer clamped to `[-qmax, qmax]`. -/
def clampByte (qmax v : ℤ) : UInt8 := (Int8.ofInt (Max.max (-qmax) (Min.min qmax v))).toUInt8

def quantizeBlockQ16 (convert : F → ℤ) (qmax : ℤ) (iscaleReal iscaleImag : F)
    (dReal dImag : UInt16) (words : ℕ → UInt32) : BlockIfairyQ16 where
  xReal j := clampByte qmax (convert (ops.mul (ops.real (words j)) iscaleReal))
  xImag j := clampByte qmax (convert (ops.mul (ops.imag (words j)) iscaleImag))
  dReal := dReal
  dImag := dImag

/-- A block of codes by the largest magnitude of each part: it becomes `scale`. -/
def quantizeByMax (convert : F → ℤ) (scale : ℚ) (qmax : ℤ) (maxReal maxImag : F)
    (words : ℕ → UInt32) : BlockIfairyQ16 :=
  let iscaleReal := ops.div (ops.literal scale) maxReal
  let iscaleImag := ops.div (ops.literal scale) maxImag
  quantizeBlockQ16 ops convert qmax iscaleReal iscaleImag
    (ops.toHalf (ops.div (ops.literal 1) iscaleReal))
    (ops.toHalf (ops.div (ops.literal 1) iscaleImag)) words

/-! ## Rows -/

/-- The largest magnitudes of the parts of `n` elements. -/
def realMax (isa : LutIsa) (n : ℕ) (words : ℕ → UInt32) : F :=
  absMax ops isa n fun j => ops.real (words j)

def imagMax (isa : LutIsa) (n : ℕ) (words : ℕ → UInt32) : F :=
  absMax ops isa n fun j => ops.imag (words j)

/-- `quantize_row_ifairy_q16`. -/
def quantizeRowIfairyQ16 (isa : LutIsa) (words : ℕ → UInt32) (ib : ℕ) : BlockIfairyQ16 :=
  let block := fun j => words (ib * 256 + j)
  quantizeByMax ops ops.nearest 127 127 (realMax ops isa 256 block) (imagMax ops isa 256 block)
    block

/-- `quantize_row_ifairy_q16_tensor`: one pair of scales for the row. -/
def quantizeRowIfairyQ16Tensor (isa : LutIsa) (k : ℕ) (words : ℕ → UInt32) (ib : ℕ) :
    BlockIfairyQ16 :=
  quantizeByMax ops ops.nearest (426 / 10) 42 (realMax ops isa k words) (imagMax ops isa k words)
    fun j => words (ib * 256 + j)

/-- `quantize_row_ifairy_q16_lut_c`: the scalar code divides the other way round. -/
def quantizeRowIfairyQ16LutC (isa : LutIsa) (words : ℕ → UInt32) (ib : ℕ) : BlockIfairyQ16 :=
  let block := fun j => words (ib * 256 + j)
  let maxReal := realMax ops isa 256 block
  let maxImag := imagMax ops isa 256 block
  match isa with
  | .scalar =>
    let scaleReal := ops.div maxReal (ops.literal (426 / 10))
    let scaleImag := ops.div maxImag (ops.literal (426 / 10))
    quantizeBlockQ16 ops ops.nearest 42 (ops.div (ops.literal 1) scaleReal)
      (ops.div (ops.literal 1) scaleImag) (ops.toHalf scaleReal) (ops.toHalf scaleImag) block
  | _ => quantizeByMax ops ops.nearest (426 / 10) 42 maxReal maxImag block

/-- `quantize_row_ifairy64_q16`, the reference on every instruction set. -/
def quantizeRowIfairy64Q16 (words : ℕ → UInt32) (ib : ℕ) : BlockIfairyQ16 :=
  let block := fun j => words (ib * 64 + j)
  quantizeByMax ops ops.nearest 127 127 (realMax ops .scalar 64 block)
    (imagMax ops .scalar 64 block) block

/-! ## The clamp -/

lemma clampByte_bounds {qmax : ℤ} (h0 : 0 ≤ qmax) (h127 : qmax ≤ 127) (v : ℤ) :
    -qmax ≤ (clampByte qmax v).toInt8.toInt ∧ (clampByte qmax v).toInt8.toInt ≤ qmax := by
  have hvalue : (clampByte qmax v).toInt8.toInt = Max.max (-qmax) (Min.min qmax v) := by
    rw [clampByte, Int8.toInt8_toUInt8]
    exact Int8.toInt_ofInt_of_le (by omega) (by omega)
  rw [hvalue]
  omega

variable {ops}

lemma quantizeBlockQ16_inLutRange (convert : F → ℤ) {qmax : ℤ} (h0 : 0 ≤ qmax) (h63 : qmax ≤ 63)
    (iscaleReal iscaleImag : F) (dReal dImag : UInt16) (words : ℕ → UInt32) (j : ℕ) :
    let x := quantizeBlockQ16 ops convert qmax iscaleReal iscaleImag dReal dImag words
    InLutRange (q16Re x j) ∧ InLutRange (q16Im x j) := by
  have hbyte : ∀ v, InLutRange (clampByte qmax v).toInt8.toInt := fun v => by
    obtain ⟨hlow, hhigh⟩ := clampByte_bounds h0 (h63.trans (by decide)) v
    exact ⟨by omega, by omega⟩
  exact ⟨hbyte _, hbyte _⟩

lemma quantizeRowIfairyQ16Tensor_inLutRange (isa : LutIsa) (k : ℕ) (words : ℕ → UInt32)
    (ib j : ℕ) :
    InLutRange (q16Re (quantizeRowIfairyQ16Tensor ops isa k words ib) j) ∧
      InLutRange (q16Im (quantizeRowIfairyQ16Tensor ops isa k words ib) j) :=
  quantizeBlockQ16_inLutRange _ (by decide) (by decide) _ _ _ _ _ _

end Quantise

end IFairy
