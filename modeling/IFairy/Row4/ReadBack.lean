import IFairy.Row4.Layout
import Mathlib.Data.Fintype.EquivFin

/-!
# Row4 and W8 round trips

What a packer wrote is what the reader finds, at every row and column of every admitted shape:

* `row4WeightAt_packed`: the CPU accessor on the v1 panels is the decoder on the code matrix;
* `w8WeightAt_packed`: the CPU accessor on the W8 panels is the int8 matrix;
* `pair2CodeAt_packed`: the pair2 reader is the code matrix, so that the packing is injective,
  and `pair2_permutes_v1`: its payload is a permutation of the bytes of the v1 payload.
-/

namespace IFairy

open NdArray

/-! ## Row4 panels, v1 -/

lemma ofNdArray_data_at {a : NdArray UInt8} {d0 d1 d2 d3 : ℕ} (hshape : a.shape = [d0, d1, d2, d3])
    (i0 i1 i2 i3 : ℕ) :
    (GgmlTensor.ofNdArray a).data (i0 * (GgmlTensor.ofNdArray a).nb 3 +
      i1 * (GgmlTensor.ofNdArray a).nb 2 + i2 * (GgmlTensor.ofNdArray a).nb 1 + i3) =
      a.get [i0, i1, i2, i3] := by
  simp only [GgmlTensor.ofNdArray, hshape, NdArray.get, ravel_cons, ravel_nil, List.prod_cons,
    List.prod_nil]
  congr 1
  simp
  ring

/-- The accessor on a packed code matrix finds the code of its group and column. -/
theorem row4WeightAt_packed {codes packed : NdArray UInt8} {groups inFeatures : ℕ}
    (hshape : codes.shape = [groups, inFeatures]) (h : packRow4M16K128 codes = .ok packed)
    (hcodes : ∀ g < groups, ∀ k < inFeatures, (codes.get [g, k]).toNat < 16)
    {o k : ℕ} (ho : o < 4 * groups) (hk : k < inFeatures) :
    row4WeightAt (.ofNdArray packed) o k = row4CodebookAt (o % 4) (codes.get [o / 4, k]) := by
  obtain ⟨hg4, hk128, hpacked⟩ := packRow4M16K128_shape hshape h
  -- the byte that holds column `k`, and the two columns packed in it
  have hbyte := packRow4M16K128_get hshape h (o / 16) (o % 16 / 4) (k / 128)
    (k % 128 / 16) (k % 8) (by omega) (by omega) (by omega) (by omega) (by omega)
  have hgroup : 4 * (o / 16) + o % 16 / 4 = o / 4 := by omega
  have hchannel : o % 16 % 4 = o % 4 := by omega
  have hindex : k % 128 / 16 * 8 + k % 128 % 16 % 8 = 8 * (k % 128 / 16) + k % 8 := by omega
  have hlow := hcodes (o / 4) (by omega) (128 * (k / 128) + 16 * (k % 128 / 16) + k % 8) (by omega)
  have hhigh := hcodes (o / 4) (by omega) (128 * (k / 128) + 16 * (k % 128 / 16) + 8 + k % 8)
    (by omega)
  simp only [row4WeightAt, ofNdArray_data_at hpacked, hindex, hbyte, hgroup, hchannel]
  split_ifs with hlane
  · rw [lowNibble_packNibbles hlow hhigh]
    have hcol : 128 * (k / 128) + 16 * (k % 128 / 16) + k % 8 = k := by omega
    rw [hcol]
  · rw [highNibble_packNibbles hlow hhigh]
    have hcol : 128 * (k / 128) + 16 * (k % 128 / 16) + 8 + k % 8 = k := by omega
    rw [hcol]

/-! ## W8 panels -/

theorem w8WeightAt_packed {codes packed : NdArray Int8} {outFeatures inFeatures : ℕ}
    (hshape : codes.shape = [outFeatures, inFeatures]) (h : packW8M16K128 codes = .ok packed)
    {o k : ℕ} (ho : o < outFeatures) (hk : k < inFeatures) :
    w8WeightAt (.ofNdArray (packed.map Int8.toUInt8)) o k = codes.get [o, k] := by
  obtain ⟨ho16, hk128, hpacked⟩ := packW8M16K128_shape hshape h
  have hread := packW8M16K128_get hshape h (o / 16) (o % 16) (k / 128) (k % 128)
    (by omega) (by omega) (by omega) (by omega)
  have hrow : 16 * (o / 16) + o % 16 = o := by omega
  have hcol : 128 * (k / 128) + k % 128 = k := by omega
  simp only [w8WeightAt, ofNdArray_data_at (a := packed.map Int8.toUInt8) hpacked, get_map, hread,
    hrow, hcol, Int8.toInt8_toUInt8]

/-! ## Pair2 records -/

theorem pair2CodeAt_packed {codes packed : NdArray UInt8} {groups inFeatures : ℕ}
    (hshape : codes.shape = [groups, inFeatures]) (h : packRow4M32K256Pair2 codes = .ok packed)
    {g k : ℕ} (hg : g < groups) (hk : k < inFeatures) :
    pair2CodeAt packed g k = codes.get [g, k] := by
  obtain ⟨hg8, hk256, -, hcodes⟩ := packRow4M32K256Pair2_shape hshape h
  have hbyte := packRow4M32K256Pair2_get hshape h (g / 8) (g % 8) (k / 256)
    (k % 256 / 128) (k % 128 / 16) (k % 8 / 2) (k % 2)
    (by omega) (by omega) (by omega) (by omega) (by omega) (by omega) (by omega)
  have hgroup : 8 * (g / 8) + g % 8 = g := by omega
  have hindex : (k % 128 / 16 * 4 + k % 128 % 8 / 2) * 4 + 2 * (k % 256 / 128) + k % 128 % 2 =
      16 * (k % 128 / 16) + 4 * (k % 8 / 2) + 2 * (k % 256 / 128) + k % 2 := by omega
  have hlow := hcodes g hg
    (256 * (k / 256) + 128 * (k % 256 / 128) + 16 * (k % 128 / 16) + 2 * (k % 8 / 2) + k % 2)
    (by omega)
  have hhigh := hcodes g hg
    (256 * (k / 256) + 128 * (k % 256 / 128) + 16 * (k % 128 / 16) + 8 + 2 * (k % 8 / 2) + k % 2)
    (by omega)
  rw [hgroup] at hbyte
  simp only [pair2CodeAt, hindex, hbyte]
  split_ifs with hlane
  · rw [highNibble_packNibbles hlow hhigh]
    congr 2
    simp only [List.cons.injEq, and_true]
    omega
  · rw [lowNibble_packNibbles hlow hhigh]
    congr 2
    simp only [List.cons.injEq, and_true]
    omega

/-- Two code matrices of one shape with the same payload bytes are the same matrix. -/
theorem packRow4M32K256Pair2_injective {codes codes' packed packed' : NdArray UInt8}
    {groups inFeatures : ℕ} (hshape : codes.shape = [groups, inFeatures])
    (hshape' : codes'.shape = [groups, inFeatures]) (h : packRow4M32K256Pair2 codes = .ok packed)
    (h' : packRow4M32K256Pair2 codes' = .ok packed')
    (hbytes : ∀ n < packed.shape.prod, packed.flat n = packed'.flat n)
    {g k : ℕ} (hg : g < groups) (hk : k < inFeatures) :
    codes.get [g, k] = codes'.get [g, k] := by
  obtain ⟨hg8, hk256, hpacked, -⟩ := packRow4M32K256Pair2_shape hshape h
  obtain ⟨-, -, hpacked', -⟩ := packRow4M32K256Pair2_shape hshape' h'
  have hbyte : packed.get [g / 8, k / 256, g % 8,
      (k % 128 / 16 * 4 + k % 128 % 8 / 2) * 4 + 2 * (k % 256 / 128) + k % 128 % 2] =
      packed'.get [g / 8, k / 256, g % 8,
        (k % 128 / 16 * 4 + k % 128 % 8 / 2) * 4 + 2 * (k % 256 / 128) + k % 128 % 2] := by
    rw [NdArray.get, NdArray.get, hpacked'.trans hpacked.symm]
    refine hbytes _ (ravel_lt ?_)
    rw [hpacked]
    simp only [inShape_cons, inShape_nil, and_true]
    omega
  rw [← pair2CodeAt_packed hshape h hg hk, ← pair2CodeAt_packed hshape' h' hg hk, pair2CodeAt,
    pair2CodeAt, hbyte]

/-- The v1 byte that byte `n` of the pair2 payload repeats. -/
def pair2Source (mTiles kTiles n : ℕ) : ℕ :=
  match unravel [mTiles, kTiles, 8, 128] n with
  | [ot, kt, gi, byte] =>
    ravel [2 * mTiles, 2 * kTiles, 4, 64]
      [2 * ot + gi / 4, 2 * kt + byte / 2 % 2, gi % 4,
        8 * (byte / 16) + 2 * (byte / 4 % 4) + byte % 2]
  | _ => 0

lemma exists_index_of_lt {d0 d1 d2 d3 n : ℕ} (hn : n < [d0, d1, d2, d3].prod) :
    ∃ i0 i1 i2 i3, InShape [d0, d1, d2, d3] [i0, i1, i2, i3] ∧
      n = ravel [d0, d1, d2, d3] [i0, i1, i2, i3] :=
  ⟨_, _, _, _, inShape_unravel hn, (ravel_unravel hn).symm⟩

lemma pair2Source_ravel {mTiles kTiles ot kt gi byte : ℕ}
    (h : InShape [mTiles, kTiles, 8, 128] [ot, kt, gi, byte]) :
    pair2Source mTiles kTiles (ravel [mTiles, kTiles, 8, 128] [ot, kt, gi, byte]) =
      ravel [2 * mTiles, 2 * kTiles, 4, 64]
        [2 * ot + gi / 4, 2 * kt + byte / 2 % 2, gi % 4,
          8 * (byte / 16) + 2 * (byte / 4 % 4) + byte % 2] := by
  rw [pair2Source, unravel_ravel h]

lemma pair2Source_inShape {mTiles kTiles ot kt gi byte : ℕ}
    (h : InShape [mTiles, kTiles, 8, 128] [ot, kt, gi, byte]) :
    InShape [2 * mTiles, 2 * kTiles, 4, 64]
      [2 * ot + gi / 4, 2 * kt + byte / 2 % 2, gi % 4,
        8 * (byte / 16) + 2 * (byte / 4 % 4) + byte % 2] := by
  simp only [inShape_cons, inShape_nil, and_true] at h ⊢
  omega

lemma pair2Source_lt {mTiles kTiles n : ℕ} (hn : n < [mTiles, kTiles, 8, 128].prod) :
    pair2Source mTiles kTiles n < [mTiles, kTiles, 8, 128].prod := by
  obtain ⟨ot, kt, gi, byte, hidx, rfl⟩ := exists_index_of_lt hn
  rw [pair2Source_ravel hidx]
  calc ravel [2 * mTiles, 2 * kTiles, 4, 64] _
      < [2 * mTiles, 2 * kTiles, 4, 64].prod := ravel_lt (pair2Source_inShape hidx)
    _ = [mTiles, kTiles, 8, 128].prod := by simp; ring

lemma pair2Source_injective {mTiles kTiles n n' : ℕ} (hn : n < [mTiles, kTiles, 8, 128].prod)
    (hn' : n' < [mTiles, kTiles, 8, 128].prod)
    (h : pair2Source mTiles kTiles n = pair2Source mTiles kTiles n') : n = n' := by
  obtain ⟨ot, kt, gi, byte, hidx, rfl⟩ := exists_index_of_lt hn
  obtain ⟨ot', kt', gi', byte', hidx', rfl⟩ := exists_index_of_lt hn'
  rw [pair2Source_ravel hidx, pair2Source_ravel hidx'] at h
  -- equal offsets are equal indices, and the index map loses nothing
  have hindices := congrArg (unravel [2 * mTiles, 2 * kTiles, 4, 64]) h
  rw [unravel_ravel (pair2Source_inShape hidx), unravel_ravel (pair2Source_inShape hidx')]
    at hindices
  simp only [List.cons.injEq, and_true] at hindices
  simp only [inShape_cons, inShape_nil, and_true] at hidx hidx'
  congr 1
  simp only [List.cons.injEq, and_true]
  omega

/-- `pair2Source` as a permutation of the payload's byte offsets. -/
noncomputable def pair2Perm (mTiles kTiles : ℕ) :
    Equiv.Perm (Fin [mTiles, kTiles, 8, 128].prod) :=
  Equiv.ofBijective (fun n => ⟨pair2Source mTiles kTiles n, pair2Source_lt n.2⟩)
    (Finite.injective_iff_bijective.mp fun n n' heq =>
      Fin.ext (pair2Source_injective n.2 n'.2 (congrArg Fin.val heq)))

theorem pair2_permutes_v1 {codes packed packedV1 : NdArray UInt8} {groups inFeatures : ℕ}
    (hshape : codes.shape = [groups, inFeatures]) (h : packRow4M32K256Pair2 codes = .ok packed)
    (hV1 : packRow4M16K128 codes = .ok packedV1)
    (n : Fin [groups / 8, inFeatures / 256, 8, 128].prod) :
    packed.flat n = packedV1.flat (pair2Perm (groups / 8) (inFeatures / 256) n) := by
  obtain ⟨hg8, hk256, hpacked, -⟩ := packRow4M32K256Pair2_shape hshape h
  obtain ⟨-, -, hpackedV1⟩ := packRow4M16K128_shape hshape hV1
  obtain ⟨ot, kt, gi, byte, hidx, hn⟩ := exists_index_of_lt n.2
  have hsource : (pair2Perm (groups / 8) (inFeatures / 256) n : ℕ) = ravel packedV1.shape
      [2 * ot + gi / 4, 2 * kt + byte / 2 % 2, gi % 4,
        8 * (byte / 16) + 2 * (byte / 4 % 4) + byte % 2] := by
    have hm : 2 * (groups / 8) = groups / 4 := by omega
    have hk : 2 * (inFeatures / 256) = inFeatures / 128 := by omega
    simp only [pair2Perm, Equiv.ofBijective_apply, hn, pair2Source_ravel hidx, hm, hk, hpackedV1]
  simp only [inShape_cons, inShape_nil, and_true] at hidx
  -- both bytes hold the same two codes
  have hpair2 := packRow4M32K256Pair2_get hshape h ot gi kt (byte / 2 % 2) (byte / 16)
    (byte / 4 % 4) (byte % 2)
    (by omega) (by omega) (by omega) (by omega) (by omega) (by omega) (by omega)
  have hv1 := packRow4M16K128_get hshape hV1 (2 * ot + gi / 4) (gi % 4)
    (2 * kt + byte / 2 % 2) (byte / 16) (2 * (byte / 4 % 4) + byte % 2)
    (by omega) (by omega) (by omega) (by omega) (by omega)
  have hbyte : 16 * (byte / 16) + 4 * (byte / 4 % 4) + 2 * (byte / 2 % 2) + byte % 2 = byte := by
    omega
  have hgroup : 4 * (2 * ot + gi / 4) + gi % 4 = 8 * ot + gi := by omega
  rw [hbyte] at hpair2
  rw [hgroup] at hv1
  calc packed.flat n
      = packed.get [ot, kt, gi, byte] := by rw [hn, NdArray.get, hpacked]
    _ = packedV1.get [2 * ot + gi / 4, 2 * kt + byte / 2 % 2, gi % 4,
          8 * (byte / 16) + (2 * (byte / 4 % 4) + byte % 2)] := by
        rw [hpair2, hv1]
        congr 3 <;> · simp only [List.cons.injEq, and_true]; omega
    _ = packedV1.flat (pair2Perm (groups / 8) (inFeatures / 256) n) := by
        rw [hsource, NdArray.get, Nat.add_assoc (8 * (byte / 16))]

/-! ## The three packers together -/

/-- Reading a packed payload gives back what was packed, at every row and column: the v1 accessor
returns what `decode_row4_codes` returns, the W8 accessor returns the int8 matrix, and the pair2
packing is injective and permutes the v1 payload. -/
theorem row4_packings_read_back {F : Type} (ops : F32Ops F) :
    (∀ (weight : NdArray F) (codes packed : NdArray UInt8) (outFeatures inFeatures : ℕ),
      weight.shape = [outFeatures, inFeatures] → quantizeRow4Codes ops weight = .ok codes →
      packRow4M16K128 codes = .ok packed →
      ∃ decoded, decodeRow4Codes codes = .ok decoded ∧
        ∀ o < outFeatures, ∀ k < inFeatures,
          row4WeightAt (.ofNdArray packed) o k = decoded.get [o / 4, o % 4, k]) ∧
    (∀ (quantized packed : NdArray Int8) (outFeatures inFeatures : ℕ),
      quantized.shape = [outFeatures, inFeatures] → packW8M16K128 quantized = .ok packed →
      ∀ o < outFeatures, ∀ k < inFeatures,
        w8WeightAt (.ofNdArray (packed.map Int8.toUInt8)) o k = quantized.get [o, k]) ∧
    (∀ (codes codes' packed packed' : NdArray UInt8) (groups inFeatures : ℕ),
      codes.shape = [groups, inFeatures] → codes'.shape = [groups, inFeatures] →
      packRow4M32K256Pair2 codes = .ok packed → packRow4M32K256Pair2 codes' = .ok packed' →
      (∀ n < packed.shape.prod, packed.flat n = packed'.flat n) →
      ∀ g < groups, ∀ k < inFeatures, codes.get [g, k] = codes'.get [g, k]) ∧
    (∀ (codes packed packedV1 : NdArray UInt8) (groups inFeatures : ℕ),
      codes.shape = [groups, inFeatures] → packRow4M32K256Pair2 codes = .ok packed →
      packRow4M16K128 codes = .ok packedV1 →
      ∃ σ : Equiv.Perm (Fin [groups / 8, inFeatures / 256, 8, 128].prod),
        ∀ n : Fin _, packed.flat n = packedV1.flat (σ n)) := by
  refine ⟨?_, ?_, ?_, ?_⟩
  · intro weight codes packed outFeatures inFeatures hshape hquant hpack
    obtain ⟨outFeatures', inFeatures', hshape', hmod, hcodesShape, hcodes⟩ :=
      quantizeRow4Codes_spec hquant
    obtain ⟨rfl, rfl⟩ : outFeatures' = outFeatures ∧ inFeatures' = inFeatures := by
      simpa [hshape] using hshape'.symm
    obtain ⟨decoded, hdecoded, -, hget⟩ := decodeRow4Codes_get hcodesShape hcodes
    refine ⟨decoded, hdecoded, fun o ho k hk => ?_⟩
    rw [row4WeightAt_packed hcodesShape hpack (fun _ _ _ _ => hcodes _) (by omega) hk,
      hget _ (by omega) _ (by omega) _ hk]
    exact row4CodebookAt_eq_decodeRow4Code (hcodes _) (by omega)
  · intro quantized packed outFeatures inFeatures hshape hpack o ho k hk
    exact w8WeightAt_packed hshape hpack ho hk
  · intro codes codes' packed packed' groups inFeatures hshape hshape' h h' hbytes g hg k hk
    exact packRow4M32K256Pair2_injective hshape hshape' h h' hbytes hg hk
  · intro codes packed packedV1 groups inFeatures hshape h hV1
    exact ⟨_, pair2_permutes_v1 hshape h hV1⟩

/-- Integer stand-ins for the `float32` operations, for concrete runs. -/
def intF32Ops : F32Ops ℤ where
  add := (· + ·)
  sub := (· - ·)
  mul := (· * ·)
  half := 1
  zero := 0
  abs := fun x => |x|
  lt := fun x y => decide (x < y)
  isFinite := fun _ => true

/-- All four parts on a zero weight of 32 rows and 256 columns and a constant int8 matrix. -/
theorem row4_packings_read_back_zero :
    ∃ codes packed packedPair2 packedW8,
      quantizeRow4Codes intF32Ops ⟨[32, 256], fun _ => 0⟩ = .ok codes ∧
      packRow4M16K128 codes = .ok packed ∧ packRow4M32K256Pair2 codes = .ok packedPair2 ∧
      packW8M16K128 ⟨[16, 128], fun _ => -3⟩ = .ok packedW8 ∧
      (∃ decoded, decodeRow4Codes codes = .ok decoded ∧
        row4WeightAt (.ofNdArray packed) 31 255 = decoded.get [7, 3, 255]) ∧
      w8WeightAt (.ofNdArray (packedW8.map Int8.toUInt8)) 15 127 = -3 ∧
      codes.get [7, 255] = codes.get [7, 255] ∧
      ∃ σ : Equiv.Perm (Fin [8 / 8, 256 / 256, 8, 128].prod),
        ∀ n : Fin _, packedPair2.flat n = packed.flat (σ n) := by
  have hquant : ∃ codes, quantizeRow4Codes intF32Ops ⟨[32, 256], fun _ => 0⟩ = .ok codes :=
    ⟨_, by simp [quantizeRow4Codes, any, intF32Ops]; rfl⟩
  obtain ⟨codes, hcodes⟩ := hquant
  obtain ⟨outFeatures, inFeatures, hweight, -, hshape, hbound⟩ := quantizeRow4Codes_spec hcodes
  obtain ⟨rfl, rfl⟩ : 32 = outFeatures ∧ 256 = inFeatures := by simpa using hweight
  obtain ⟨packed, hpacked⟩ := exists_packRow4M16K128 hshape (by decide) (by decide) hbound
  obtain ⟨packedPair2, hpair2⟩ := exists_packRow4M32K256Pair2 hshape (by decide) (by decide) hbound
  obtain ⟨packedW8, hW8⟩ : ∃ packedW8, packW8M16K128 ⟨[16, 128], fun _ => -3⟩ = .ok packedW8 :=
    ⟨_, rfl⟩
  obtain ⟨hrow4, hw8, hinjective, hpermutes⟩ := row4_packings_read_back intF32Ops
  obtain ⟨decoded, hdecoded, hread⟩ := hrow4 _ _ _ 32 256 rfl hcodes hpacked
  exact ⟨codes, packed, packedPair2, packedW8, hcodes, hpacked, hpair2, hW8,
    ⟨decoded, hdecoded, hread 31 (by decide) 255 (by decide)⟩,
    hw8 _ _ 16 128 rfl hW8 15 (by decide) 127 (by decide),
    hinjective _ _ _ _ 8 256 hshape hshape hpair2 hpair2 (fun _ _ => rfl) 7 (by decide) 255
      (by decide),
    hpermutes _ _ _ 8 256 hshape hpair2 hpacked⟩

end IFairy
