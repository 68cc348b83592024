import IFairy.Row4.Quant
import Mathlib.Data.Fin.VecNotation

/-!
# Reading the packed panels back

The CPU backend (`ggml-cpu/row4/row4-cpu.cpp`) reads one weight with byte arithmetic over the
strides of the codes tensor: `row4WeightAt` and `w8WeightAt`.  The packers of `Row4.Quant` are
written with reshapes and transposes.  This file connects the two.

For each packer one `_get` lemma says which codes a physical entry holds; the accessor's address
is then the row-major offset of that entry.  `pair2CodeAt` is the reader that the packer's own
test suite gives for the layout whose kernel is outside the CPU backend.
-/

namespace IFairy

open NdArray

/-- The part of a `ggml_tensor` that the accessors read: bytes, extents and byte strides. -/
structure GgmlTensor where
  data : ℕ → UInt8
  ne : Fin 4 → ℕ
  nb : Fin 4 → ℕ

/-- The tensor of one-byte elements that holds a 4-dimensional numpy array: the extents are the
reversed shape and the strides are those of `ggml_new_tensor`. -/
def GgmlTensor.ofNdArray (a : NdArray UInt8) : GgmlTensor :=
  let ne0 := a.shape.getD 3 1
  let ne1 := a.shape.getD 2 1
  let ne2 := a.shape.getD 1 1
  let ne3 := a.shape.getD 0 1
  ⟨a.flat, ![ne0, ne1, ne2, ne3], ![1, ne0, ne0 * ne1, ne0 * ne1 * ne2]⟩

/-- `row4_codebook`: one row of sixteen weights for each channel of a group. -/
def row4Codebook : List (List Int8) :=
  [[2, 0,  1,  1,  0, -2, -1, -1, 1, -1, 0, 0, 1,  -1, 0,  0],
   [0, 0,  -1, 1,  0, 0,  -1, 1,  1, 1,  0, 2, -1, -1, -2, 0],
   [0, 0,  1,  -1, 0, 0,  1,  -1, 1, 1,  2, 0, -1, -1, 0,  -2],
   [0, -2, -1, -1, 2, 0,  1,  1,  1, -1, 0, 0, 1,  -1, 0,  0]]

/-- `row4_codebook[channel][code]`. -/
def row4CodebookAt (channel : ℕ) (code : UInt8) : Int8 :=
  (row4Codebook.getD channel []).getD code.toNat 0

/-- `row4_weight_at`. -/
def row4WeightAt (codes : GgmlTensor) (o k : ℕ) : Int8 :=
  let ot := o / 16
  let row := o % 16
  let group := row / 4
  let channel := row % 4
  let kt := k / 128
  let inner := k % 128
  let split := inner / 16
  let lane := inner % 16
  let byte := split * 8 + lane % 8
  let packed := codes.data (ot * codes.nb 3 + kt * codes.nb 2 + group * codes.nb 1 + byte)
  let code := if lane < 8 then lowNibble packed else highNibble packed
  row4CodebookAt channel code

/-- `w8_weight_at`. -/
def w8WeightAt (codes : GgmlTensor) (o k : ℕ) : Int8 :=
  let ot := o / 16
  let row := o % 16
  let kt := k / 128
  let inner := k % 128
  (codes.data (ot * codes.nb 3 + kt * codes.nb 2 + row * codes.nb 1 + inner)).toInt8

/-- `_pair2_code_at` of the packer's tests. -/
def pair2CodeAt (packed : NdArray UInt8) (group k : ℕ) : UInt8 :=
  let kHalf := k % 256 / 128
  let r := k % 128
  let lane := r / 16 * 4 + r % 8 / 2
  let byteIndex := lane * 4 + 2 * kHalf + r % 2
  let byte := packed.get [group / 8, k / 256, group % 8, byteIndex]
  if r / 8 % 2 = 1 then highNibble byte else lowNibble byte

/-! ## The codebook is the decoder -/

lemma row4CodebookAt_eq_decodeRow4Code {code : UInt8} (hcode : code.toNat < 16) {channel : ℕ}
    (hchannel : channel < 4) : row4CodebookAt channel code = decodeRow4Code code channel := by
  have key : ∀ c : Fin 16, ∀ ch : Fin 4,
      row4CodebookAt ch (UInt8.ofNat c) = decodeRow4Code (UInt8.ofNat c) ch := by decide
  have h := key ⟨code.toNat, hcode⟩ ⟨channel, hchannel⟩
  simpa using h

lemma any_code_gt_eq_false {codes : NdArray UInt8} (hcodes : ∀ n, (codes.flat n).toNat < 16) :
    codes.any (fun code => decide (15 < code)) = false := by
  simp only [any, List.any_eq_false, decide_eq_true_eq, UInt8.lt_iff_toNat_lt, not_lt]
  intro n _
  have := hcodes n
  simp only [UInt8.reduceToNat]
  omega

lemma decodeRow4Codes_get {codes : NdArray UInt8} {groups inFeatures : ℕ}
    (hshape : codes.shape = [groups, inFeatures]) (hcodes : ∀ n, (codes.flat n).toNat < 16) :
    ∃ decoded, decodeRow4Codes codes = .ok decoded ∧ decoded.shape = [groups, 4, inFeatures] ∧
      ∀ g < groups, ∀ ch < 4, ∀ k < inFeatures,
        decoded.get [g, ch, k] = decodeRow4Code (codes.get [g, k]) ch := by
  refine ⟨_, by simp only [decodeRow4Codes, any_code_gt_eq_false hcodes]; rfl, by simp [hshape], ?_⟩
  intro g hg ch hch k hk
  rw [get_ofFn _ (by simp [hshape, hg, hch, hk])]
  simp [hshape]

/-! ## Which codes a physical entry holds -/

/-- Entries of the split-8 byte array: lane `j` low and lane `8 + j` high. -/
lemma packSplit8_get {s : NdArray UInt8} (dims idx : List ℕ) (j : ℕ)
    (hshape : s.shape = dims ++ [16]) (hidx : InShape (dims ++ [8]) (idx ++ [j])) :
    (packSplit8 s).get (idx ++ [j]) =
      packNibbles (s.get (idx ++ [j])) (s.get (idx ++ [8 + j])) := by
  have hdrop : s.shape.dropLast ++ [8] = dims ++ [8] := by simp [hshape]
  rw [packSplit8, get_zipWith _ _ _ _ (by simp), get_lastSlice _ (by rw [hdrop]; exact hidx),
    get_lastSlice _ (by rw [hdrop]; exact hidx)]
  simp

lemma packSplit8_shape {split : NdArray UInt8} (dims : List ℕ)
    (hshape : split.shape = dims ++ [16]) :
    (packSplit8 split).shape = dims ++ [8] := by
  simp [packSplit8, hshape]

/-- The v1 layout: group `g = 4·ot + gi`, column `k = 128·kt + 16·s + j` in the low nibble of byte
`8·s + j` of record `[ot, kt, gi]` and column `k + 8` in its high nibble. -/
lemma packRow4M16K128_get {codes packed : NdArray UInt8} {groups inFeatures : ℕ}
    (hshape : codes.shape = [groups, inFeatures]) (h : packRow4M16K128 codes = .ok packed)
    (ot gi kt s j : ℕ) (hgi : gi < 4) (hot : 4 * ot + gi < groups) (hs : s < 8) (hj : j < 8)
    (hkt : 128 * kt + 16 * s + j < inFeatures) :
    packed.get [ot, kt, gi, 8 * s + j] =
      packNibbles (codes.get [4 * ot + gi, 128 * kt + 16 * s + j])
        (codes.get [4 * ot + gi, 128 * kt + 16 * s + 8 + j]) := by
  simp only [packRow4M16K128, hshape] at h
  split_ifs at h with halign hany
  obtain rfl := Except.ok.inj h
  obtain ⟨m, rfl⟩ : 4 ∣ groups := by omega
  obtain ⟨kts, rfl⟩ : 128 ∣ inFeatures := by omega
  rw [Nat.mul_div_cancel_left _ (by omega), Nat.mul_div_cancel_left _ (by omega)]
  have hot' : ot < m := by omega
  have hkt' : kt < kts := by omega
  have hpacked : (packSplit8 (codes.reshape [m, 4, kts, 8, 16])).shape = [m, 4, kts, 8, 8] :=
    packSplit8_shape [m, 4, kts, 8] rfl
  rw [get_reshape _ [ot, kt, gi, s, j] (by simp [hpacked]; ring),
    get_transpose _ (by simp only [hpacked]; simp [hot', hkt', hgi, hs, hj]), hpacked]
  have hread := packSplit8_get (s := codes.reshape [m, 4, kts, 8, 16]) [m, 4, kts, 8]
    [ot, gi, kt, s] j rfl (by simp [hot', hkt', hgi, hs, hj])
  refine hread.trans (congrArg₂ packNibbles ?_ ?_)
  · apply get_reshape
    simp [hshape]; ring
  · apply get_reshape
    simp [hshape]; ring

lemma packRow4M16K128_shape {codes packed : NdArray UInt8} {groups inFeatures : ℕ}
    (hshape : codes.shape = [groups, inFeatures]) (h : packRow4M16K128 codes = .ok packed) :
    groups % 4 = 0 ∧ inFeatures % 128 = 0 ∧
      packed.shape = [groups / 4, inFeatures / 128, 4, 64] := by
  simp only [packRow4M16K128, hshape] at h
  split_ifs at h with halign hany
  obtain rfl := Except.ok.inj h
  exact ⟨by omega, by omega, rfl⟩

lemma packRow4M32K256Pair2_shape {codes packed : NdArray UInt8} {groups inFeatures : ℕ}
    (hshape : codes.shape = [groups, inFeatures]) (h : packRow4M32K256Pair2 codes = .ok packed) :
    groups % 8 = 0 ∧ inFeatures % 256 = 0 ∧
      packed.shape = [groups / 8, inFeatures / 256, 8, 128] ∧
      ∀ g < groups, ∀ k < inFeatures, (codes.get [g, k]).toNat < 16 := by
  simp only [packRow4M32K256Pair2, hshape] at h
  split_ifs at h with halign hany
  obtain rfl := Except.ok.inj h
  refine ⟨by omega, by omega, rfl, fun g hg k hk => ?_⟩
  have hbound := not_of_any_eq_false (Bool.eq_false_iff.mpr hany) [g, k]
    (by simp [hshape, hg, hk])
  simp only [decide_eq_false_iff_not, UInt8.lt_iff_toNat_lt, UInt8.reduceToNat] at hbound
  omega

/-- The pair2 layout: group `8·ot + gi`, column `256·kt + 128·half + 16·s + 2·q + b` in the low
nibble of byte `16·s + 4·q + 2·half + b` of record `[ot, kt, gi]`, column `+ 8` in the high one. -/
lemma packRow4M32K256Pair2_get {codes packed : NdArray UInt8} {groups inFeatures : ℕ}
    (hshape : codes.shape = [groups, inFeatures]) (h : packRow4M32K256Pair2 codes = .ok packed)
    (ot gi kt half s q b : ℕ) (hgi : gi < 8) (hot : 8 * ot + gi < groups) (hhalf : half < 2)
    (hs : s < 8) (hq : q < 4) (hb : b < 2) (hkt : 256 * kt < inFeatures) :
    packed.get [ot, kt, gi, 16 * s + 4 * q + 2 * half + b] =
      packNibbles (codes.get [8 * ot + gi, 256 * kt + 128 * half + 16 * s + 2 * q + b])
        (codes.get [8 * ot + gi, 256 * kt + 128 * half + 16 * s + 8 + 2 * q + b]) := by
  simp only [packRow4M32K256Pair2, hshape] at h
  split_ifs at h with halign hany
  obtain rfl := Except.ok.inj h
  obtain ⟨m, rfl⟩ : 8 ∣ groups := by omega
  obtain ⟨kts, rfl⟩ : 256 ∣ inFeatures := by omega
  rw [Nat.mul_div_cancel_left _ (by omega), Nat.mul_div_cancel_left _ (by omega)]
  have hot' : ot < m := by omega
  have hkt' : kt < kts := by omega
  have hj : 2 * q + b < 8 := by omega
  have hpacked : (packSplit8 (codes.reshape [m, 8, kts, 2, 8, 16])).shape = [m, 8, kts, 2, 8, 8] :=
    packSplit8_shape [m, 8, kts, 2, 8] rfl
  rw [get_reshape _ [ot, kt, gi, s, q, half, b] (by simp; ring),
    get_transpose _ (by simp [hot', hkt', hgi, hs, hq, hhalf, hb])]
  have hread := packSplit8_get (s := codes.reshape [m, 8, kts, 2, 8, 16]) [m, 8, kts, 2, 8]
    [ot, gi, kt, half, s] (2 * q + b) rfl (by simp [hot', hkt', hgi, hhalf, hs, hj])
  change NdArray.get _ [ot, gi, kt, half, s, q, b] = _
  refine (get_reshape _ ([ot, gi, kt, half, s] ++ [2 * q + b]) ?_).trans
    (hread.trans (congrArg₂ packNibbles ?_ ?_))
  · simp [hpacked]; ring
  · apply get_reshape
    simp [hshape]; ring
  · apply get_reshape
    simp [hshape]; ring

lemma exists_packRow4M16K128 {codes : NdArray UInt8} {groups inFeatures : ℕ}
    (hshape : codes.shape = [groups, inFeatures]) (hg : groups % 4 = 0) (hk : inFeatures % 128 = 0)
    (hcodes : ∀ n, (codes.flat n).toNat < 16) : ∃ packed, packRow4M16K128 codes = .ok packed := by
  simp [packRow4M16K128, hshape, hg, hk, any_code_gt_eq_false hcodes]

lemma exists_packRow4M32K256Pair2 {codes : NdArray UInt8} {groups inFeatures : ℕ}
    (hshape : codes.shape = [groups, inFeatures]) (hg : groups % 8 = 0) (hk : inFeatures % 256 = 0)
    (hcodes : ∀ n, (codes.flat n).toNat < 16) :
    ∃ packed, packRow4M32K256Pair2 codes = .ok packed := by
  simp [packRow4M32K256Pair2, hshape, hg, hk, any_code_gt_eq_false hcodes]

lemma packW8M16K128_shape {codes packed : NdArray Int8} {outFeatures inFeatures : ℕ}
    (hshape : codes.shape = [outFeatures, inFeatures]) (h : packW8M16K128 codes = .ok packed) :
    outFeatures % 16 = 0 ∧ inFeatures % 128 = 0 ∧
      packed.shape = [outFeatures / 16, inFeatures / 128, 16, 128] := by
  simp only [packW8M16K128, hshape] at h
  split_ifs at h with halign
  obtain rfl := Except.ok.inj h
  exact ⟨by omega, by omega, rfl⟩

lemma packW8M16K128_get {codes packed : NdArray Int8} {outFeatures inFeatures : ℕ}
    (hshape : codes.shape = [outFeatures, inFeatures]) (h : packW8M16K128 codes = .ok packed)
    (ot row kt inner : ℕ) (hrow : row < 16) (hot : 16 * ot + row < outFeatures)
    (hinner : inner < 128) (hkt : 128 * kt < inFeatures) :
    packed.get [ot, kt, row, inner] = codes.get [16 * ot + row, 128 * kt + inner] := by
  simp only [packW8M16K128, hshape] at h
  split_ifs at h with halign
  obtain rfl := Except.ok.inj h
  obtain ⟨m, rfl⟩ : 16 ∣ outFeatures := by omega
  obtain ⟨kts, rfl⟩ : 128 ∣ inFeatures := by omega
  rw [Nat.mul_div_cancel_left _ (by omega), Nat.mul_div_cancel_left _ (by omega)]
  have hot' : ot < m := by omega
  have hkt' : kt < kts := by omega
  rw [get_transpose _ (by simp [hot', hkt', hrow, hinner])]
  change NdArray.get _ [ot, row, kt, inner] = _
  apply get_reshape
  simp [hshape]; ring

end IFairy
