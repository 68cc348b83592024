import IFairy.Lut.Pack
import IFairy.Quant.EmittedRow

/-!
# The bytes of a converted matrix

`IFAIRY.quantize_blocks` returns the bytes of the blocks, and `repack_ifairy_blocks` works on bytes.
The C code reads them back as `block_ifairy`.  The repacking moves the codes of a block and loses
none of them: it is a bijection of byte arrays (`repackIfairyBlocks_bijective`).  What the reader
finds in a converted matrix are the blocks of `emittedRow` (`convertedBlocks_same`).
-/

namespace IFairy

namespace BlockIfairy

/-- Byte `o` of a block in memory. -/
def byteAt (b : BlockIfairy) (o : ℕ) : UInt8 :=
  if o < 64 then b.qs o
  else if o = 64 then UInt8.ofNat b.dReal.toNat
  else if o = 65 then UInt8.ofNat (b.dReal.toNat / 256)
  else if o = 66 then UInt8.ofNat b.dImag.toNat
  else UInt8.ofNat (b.dImag.toNat / 256)

/-- The half whose bytes are `lo` and `hi`. -/
def halfOf (lo hi : UInt8) : UInt16 := UInt16.ofNat (lo.toNat + 256 * hi.toNat)

/-- Block `g` of an array of blocks. -/
def read (data : ℕ → UInt8) (g : ℕ) : BlockIfairy where
  qs n := data (68 * g + n)
  dReal := halfOf (data (68 * g + 64)) (data (68 * g + 65))
  dImag := halfOf (data (68 * g + 66)) (data (68 * g + 67))

/-- Two blocks that are the same in memory. -/
structure Same (b b' : BlockIfairy) : Prop where
  qs : ∀ n < 64, b.qs n = b'.qs n
  dReal : b.dReal = b'.dReal
  dImag : b.dImag = b'.dImag

lemma Same.symm {b b' : BlockIfairy} (h : b.Same b') : b'.Same b :=
  ⟨fun n hn => (h.qs n hn).symm, h.dReal.symm, h.dImag.symm⟩

lemma Same.trans {b b' b'' : BlockIfairy} (h : b.Same b') (h' : b'.Same b'') : b.Same b'' :=
  ⟨fun n hn => (h.qs n hn).trans (h'.qs n hn), h.dReal.trans h'.dReal, h.dImag.trans h'.dImag⟩

lemma Same.byteAt {b b' : BlockIfairy} (h : b.Same b') (o : ℕ) : b.byteAt o = b'.byteAt o := by
  unfold BlockIfairy.byteAt
  rw [h.dReal, h.dImag]
  by_cases ho : o < 64
  · rw [if_pos ho, if_pos ho, h.qs o ho]
  · rw [if_neg ho, if_neg ho]

/-! ## Bytes and blocks -/

lemma halfOf_bytes (h : UInt16) : halfOf (UInt8.ofNat h.toNat) (UInt8.ofNat (h.toNat / 256)) = h := by
  have hlt := h.toNat_lt
  rw [← UInt16.toNat_inj, halfOf, UInt16.toNat_ofNat', UInt8.toNat_ofNat', UInt8.toNat_ofNat']
  omega

lemma halfOf_lo (lo hi : UInt8) : UInt8.ofNat (halfOf lo hi).toNat = lo := by
  have hlo := lo.toNat_lt
  have hhi := hi.toNat_lt
  rw [← UInt8.toNat_inj, halfOf, UInt8.toNat_ofNat', UInt16.toNat_ofNat']
  omega

lemma halfOf_hi (lo hi : UInt8) : UInt8.ofNat ((halfOf lo hi).toNat / 256) = hi := by
  have hlo := lo.toNat_lt
  have hhi := hi.toNat_lt
  rw [← UInt8.toNat_inj, halfOf, UInt8.toNat_ofNat', UInt16.toNat_ofNat']
  omega

lemma read_same {data : ℕ → UInt8} {g : ℕ} {b : BlockIfairy}
    (h : ∀ o < 68, data (68 * g + o) = b.byteAt o) : (read data g).Same b where
  qs n hn := (h n (by omega)).trans (if_pos hn)
  dReal := by
    change halfOf (data (68 * g + 64)) (data (68 * g + 65)) = b.dReal
    rw [h 64 (by decide), h 65 (by decide)]
    exact halfOf_bytes b.dReal
  dImag := by
    change halfOf (data (68 * g + 66)) (data (68 * g + 67)) = b.dImag
    rw [h 66 (by decide), h 67 (by decide)]
    exact halfOf_bytes b.dImag

lemma byteAt_read (data : ℕ → UInt8) (g : ℕ) {o : ℕ} (ho : o < 68) :
    (read data g).byteAt o = data (68 * g + o) := by
  unfold byteAt
  by_cases hcodes : o < 64
  · exact if_pos hcodes
  · rw [if_neg hcodes]
    obtain rfl | rfl | rfl | rfl : o = 64 ∨ o = 65 ∨ o = 66 ∨ o = 67 := by omega
    · exact halfOf_lo _ _
    · exact halfOf_hi _ _
    · exact halfOf_lo _ _
    · exact halfOf_hi _ _

end BlockIfairy

/-! ## The repacking -/

/-- The bytes of an array, with zeros behind it. -/
def bytesOf {m : ℕ} (data : Fin m → UInt8) (x : ℕ) : UInt8 := if h : x < m then data ⟨x, h⟩ else 0

/-- `repack_ifairy_blocks` on an array of bytes, which keeps its shape: arrays that are not made of
blocks are returned as they are. -/
def repackIfairyBlocks {m : ℕ} (data : Fin m → UInt8) (x : Fin m) : UInt8 :=
  if m % 68 = 0 then (repackBlock (.read (bytesOf data) (x / 68))).byteAt (x % 68) else data x

lemma bytesOf_lt {m x : ℕ} (data : Fin m → UInt8) (h : x < m) : bytesOf data x = data ⟨x, h⟩ :=
  dif_pos h

lemma eq_of_pairAt_eq {b b' : UInt8} (h : ∀ p < 4, pairAt b p = pairAt b' p) : b = b' := by
  have hp : ∀ p < 4, b.toNat / 4 ^ p % 4 = b'.toNat / 4 ^ p % 4 := fun p hp => by
    rw [← pairAt_toNat b hp, ← pairAt_toNat b' hp, h p hp]
  have h0 := hp 0 (by decide)
  have h1 := hp 1 (by decide)
  have h2 := hp 2 (by decide)
  have h3 := hp 3 (by decide)
  have hlt := b.toNat_lt
  have hlt' := b'.toNat_lt
  norm_num at h0 h1 h2 h3
  rw [← UInt8.toNat_inj]
  omega

lemma BlockIfairy.Same.codeAt {b b' : BlockIfairy} (h : b.Same b') {j : ℕ} (hj : j < 256) :
    IFairy.codeAt b.qs j = IFairy.codeAt b'.qs j := by
  unfold IFairy.codeAt
  simp only
  rw [h.qs _ (by omega)]

lemma BlockIfairy.Same.repackBlock {b b' : BlockIfairy} (h : b.Same b') :
    (IFairy.repackBlock b).Same (IFairy.repackBlock b') where
  qs n hn := by
    unfold IFairy.repackBlock
    simp only
    rw [h.qs _ (by omega), h.qs _ (by omega), h.qs _ (by omega), h.qs _ (by omega)]
  dReal := h.dReal
  dImag := h.dImag

lemma same_of_repackBlock {b b' : BlockIfairy} (h : (repackBlock b).Same (repackBlock b')) :
    b.Same b' where
  qs n hn := by
    refine eq_of_pairAt_eq fun p hp => ?_
    have hdiv : (4 * n + p) / 4 = n := by omega
    have hmod : (4 * n + p) % 4 = p := by omega
    have hcode := h.codeAt (show 4 * n + p < 256 by omega)
    rw [codeAt_repack, codeAt_repack, hdiv, hmod] at hcode
    exact hcode
  dReal := h.dReal
  dImag := h.dImag

/-- Block `g` of a repacked array. -/
lemma read_repack {m g : ℕ} (data : Fin m → UInt8) (hm : m % 68 = 0) (hg : 68 * g + 68 ≤ m) :
    (BlockIfairy.read (bytesOf (repackIfairyBlocks data)) g).Same
      (repackBlock (.read (bytesOf data) g)) := by
  refine BlockIfairy.read_same fun o ho => ?_
  have hdiv : (68 * g + o) / 68 = g := by omega
  have hmod : (68 * g + o) % 68 = o := by omega
  rw [bytesOf_lt _ (show 68 * g + o < m by omega), repackIfairyBlocks, if_pos hm]
  simp only [hdiv, hmod]

theorem repackIfairyBlocks_bijective (m : ℕ) :
    Function.Bijective (repackIfairyBlocks : (Fin m → UInt8) → Fin m → UInt8) := by
  have hfinite : Finite UInt8 := Finite.of_injective UInt8.toFin fun _ _ => UInt8.toFin_inj.1
  refine Finite.injective_iff_bijective.1 fun data data' heq => ?_
  by_cases hm : m % 68 = 0
  · funext x
    have hx := x.isLt
    have hg : 68 * (x / 68) + 68 ≤ m := by omega
    have hsame := (read_repack data hm hg).symm.trans (heq ▸ read_repack data' hm hg)
    have hbyte := (same_of_repackBlock hsame).byteAt (x % 68)
    have hlt : (x : ℕ) % 68 < 68 := Nat.mod_lt _ (by decide)
    rw [BlockIfairy.byteAt_read _ _ hlt, BlockIfairy.byteAt_read _ _ hlt, Nat.div_add_mod,
      bytesOf_lt data hx, bytesOf_lt data' hx] at hbyte
    exact hbyte
  · unfold repackIfairyBlocks at heq
    simpa only [if_neg hm] using heq

/-! ## A converted matrix -/

section Convert

variable (t : Torch) (W : ComplexMatrix)

/-- The bytes of a row: `__shape_to_bytes`. -/
def byteCols : ℕ := W.cols / 256 * 68

/-- `gguf.quants.quantize` of the merged matrix: row after row, block after block. -/
def quantizedBytes (x : Fin (W.rows * byteCols W)) : UInt8 :=
  let g : ℕ := x / 68
  (quantizeBlock t.toHalf fun j =>
    merged t W (g / (W.cols / 256)) (256 * (g % (W.cols / 256)) + j)).byteAt (x % 68)

/-- The bytes that the converter writes. -/
def convertedBytes : Fin (W.rows * byteCols W) → UInt8 := repackIfairyBlocks (quantizedBytes t W)

/-- The blocks that the C code finds in these bytes. -/
def convertedBlocks : ℕ → BlockIfairy := .read (bytesOf (convertedBytes t W))

end Convert

variable {t : Torch} {W : ComplexMatrix} {r b : ℕ}

lemma block_within (hr : r < W.rows) (hb : b < W.cols / 256) :
    68 * (r * (W.cols / 256) + b) + 68 ≤ W.rows * byteCols W := by
  have hrow : r * (W.cols / 256) + b + 1 ≤ W.rows * (W.cols / 256) := by
    calc r * (W.cols / 256) + b + 1 ≤ r * (W.cols / 256) + W.cols / 256 := by omega
      _ = (r + 1) * (W.cols / 256) := (Nat.succ_mul _ _).symm
      _ ≤ W.rows * (W.cols / 256) := Nat.mul_le_mul_right _ hr
  calc 68 * (r * (W.cols / 256) + b) + 68 = (r * (W.cols / 256) + b + 1) * 68 := by ring
    _ ≤ W.rows * (W.cols / 256) * 68 := Nat.mul_le_mul_right _ hrow
    _ = W.rows * byteCols W := Nat.mul_assoc _ _ _

/-- The blocks of a converted row are those of `emittedRow`. -/
theorem convertedBlocks_same (t : Torch) (hr : r < W.rows) (hb : b < W.cols / 256) :
    (convertedBlocks t W (r * (W.cols / 256) + b)).Same (emittedRow t W r b) := by
  have hwithin := block_within hr hb
  have hsize : W.rows * byteCols W % 68 = 0 := by
    rw [byteCols, ← Nat.mul_assoc]
    exact Nat.mul_mod_left _ _
  refine (read_repack (quantizedBytes t W) hsize hwithin).trans
    (BlockIfairy.Same.repackBlock (BlockIfairy.read_same fun o ho => ?_))
  have hlt : 68 * (r * (W.cols / 256) + b) + o < W.rows * byteCols W := by omega
  have hdiv : (68 * (r * (W.cols / 256) + b) + o) / 68 = r * (W.cols / 256) + b := by omega
  have hmod : (68 * (r * (W.cols / 256) + b) + o) % 68 = o := by omega
  obtain ⟨hrow, hblock⟩ := mul_add_div_mod (a := r) hb
  rw [bytesOf_lt _ hlt]
  simp only [quantizedBytes, hdiv, hmod, hrow, hblock]

lemma readCode_converted (hcols : 256 ∣ W.cols) (hr : r < W.rows) {c : ℕ} (hc : c < W.cols) :
    readCode (rowBlocks (convertedBlocks t W) (W.cols / 256) r) c = blockCode (merged t W r c) := by
  have hb : c / 256 < W.cols / 256 := by omega
  have hlt : c % 256 < 256 := Nat.mod_lt _ (by decide)
  have hin : c - c / 256 * 256 = c % 256 := by omega
  calc readCode (rowBlocks (convertedBlocks t W) (W.cols / 256) r) c
      = codeAt (convertedBlocks t W (r * (W.cols / 256) + c / 256)).qs (c % 256) := by
        unfold readCode rowBlocks
        simp only [hin]
    _ = codeAt (emittedRow t W r (c / 256)).qs (c % 256) :=
        (convertedBlocks_same t hr hb).codeAt hlt
    _ = blockCode (merged t W r (256 * (c / 256) + c % 256)) := codeAt_repackBlock _ _ _
    _ = blockCode (merged t W r c) := by rw [Nat.div_add_mod]

end IFairy
