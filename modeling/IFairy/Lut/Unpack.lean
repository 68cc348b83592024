import IFairy.Lut.Pack

/-!
# Packed tiles read back

A packed tensor holds the same matrix as its blocks.  `unpackCode` finds the code of weight `k` of
a row in the tiles: two bits of one byte of one lane of one tile, `packedPlace`.  The main result
says of both block sizes that these are the code that the reader of the blocks returns, that the
scales of a lane are those of its block, that no two weights share bits, and that the lanes past
the last row are zero (`transformTensor_packs`).
-/

namespace IFairy

/-- `ggml_ifairy64_read_code`. -/
def readCode64 (rowBlocks : ℕ → BlockIfairy) (idx : ℕ) : UInt8 :=
  let blockIdx := idx / 64
  let idxInBlock := idx - blockIdx * 64
  let lane := idxInBlock % 16
  let part := idxInBlock / 16
  pairAt ((rowBlocks blockIdx).qs lane) part

/-! ## Places -/

/-- Two bits of a packed tensor: a pair of bits of a byte of a lane of a tile. -/
structure PackedPlace where
  tile : ℕ
  byte : ℕ
  lane : ℕ
  pair : ℕ

section Places

variable (gpb nb : ℕ)

/-- Where weight `k` of a row is packed. -/
def packedPlace (row k : ℕ) : PackedPlace where
  tile := row / 16 * nb + k / (2 * gpb)
  byte := k % (2 * gpb) / 4
  lane := row % 16
  pair := k % (2 * gpb) % 4

/-- The code of weight `k` of a row, decoded from the tiles. -/
def unpackCode (packed : ℕ → LutWtile16) (row k : ℕ) : UInt8 :=
  let place := packedPlace gpb nb row k
  pairAt ((packed place.tile).qs place.byte place.lane) place.pair

lemma packedPlace_inj {row k row' k' : ℕ} (hk : k < nb * (2 * gpb)) (hk' : k' < nb * (2 * gpb))
    (h : packedPlace gpb nb row k = packedPlace gpb nb row' k') : row = row' ∧ k = k' := by
  simp only [packedPlace, PackedPlace.mk.injEq] at h
  obtain ⟨htile, hbyte, hlane, hpair⟩ := h
  have hblk : ∀ {k}, k < nb * (2 * gpb) → k / (2 * gpb) < nb := fun hk =>
    Nat.div_lt_of_lt_mul (by rwa [Nat.mul_comm])
  obtain ⟨hrow, hblock⟩ := mul_add_inj (hblk hk) (hblk hk') htile
  have hmod : k % (2 * gpb) = k' % (2 * gpb) := by omega
  refine ⟨by omega, ?_⟩
  rw [← Nat.div_add_mod k (2 * gpb), hblock, hmod, Nat.div_add_mod]

end Places

/-! ## The bits of a byte -/

lemma pairAt_patternByte (rowBlocks : ℕ → BlockIfairy) {gpb nb blk byte part : ℕ}
    (hblk : blk < nb) (hbyte : 2 * byte + 1 < gpb) (hpart : part < 4) :
    pairAt (patternByte gpb rowBlocks (nb * (2 * gpb)) blk byte) part =
      codeAt (rowBlocks blk).qs (4 * byte + part) := by
  have hvalue : ∀ g < gpb,
      (lowNibble (encodeGroupOf gpb rowBlocks (nb * (2 * gpb)) (blk * gpb + g))).toNat =
        (codeAt (rowBlocks blk).qs (2 * g)).toNat +
          4 * (codeAt (rowBlocks blk).qs (2 * g + 1)).toNat := fun g hg => by
    rw [lowNibble_toNat, Nat.mod_eq_of_lt (encodeGroupOf_lt rowBlocks hblk hg),
      encodeGroupOf_toNat rowBlocks hblk hg]
  have hlow := hvalue (2 * byte) (by omega)
  have hhigh := hvalue (2 * byte + 1) hbyte
  have h0 := codeAt_lt (rowBlocks blk).qs (2 * (2 * byte))
  have h1 := codeAt_lt (rowBlocks blk).qs (2 * (2 * byte) + 1)
  have h2 := codeAt_lt (rowBlocks blk).qs (2 * (2 * byte + 1))
  have h3 := codeAt_lt (rowBlocks blk).qs (2 * (2 * byte + 1) + 1)
  apply UInt8.toNat_inj.mp
  rw [pairAt_toNat _ hpart, patternByte, packNibbles_toNat (by omega) (by omega), hlow, hhigh]
  obtain rfl | rfl | rfl | rfl : part = 0 ∨ part = 1 ∨ part = 2 ∨ part = 3 := by omega
  · rw [show 4 * byte + 0 = 2 * (2 * byte) by ring]
    omega
  · rw [show 4 * byte + 1 = 2 * (2 * byte) + 1 by ring]
    omega
  · rw [show 4 * byte + 2 = 2 * (2 * byte + 1) by ring]
    omega
  · rw [show 4 * byte + 3 = 2 * (2 * byte + 1) + 1 by ring]
    omega

lemma readCode64_eq_readCodeOf (rowBlocks : ℕ → BlockIfairy) (idx : ℕ) :
    readCode64 rowBlocks idx = readCodeOf 32 rowBlocks idx := by
  have hlt : idx - idx / 64 * 64 < 64 := by omega
  have hchunk : (idx - idx / 64 * 64) / 64 = 0 := Nat.div_eq_of_lt hlt
  have hpart : (idx - idx / 64 * 64) / 16 % 4 = (idx - idx / 64 * 64) / 16 := by omega
  simp only [readCode64, readCodeOf, codeAt, Nat.reduceMul, hchunk, hpart, Nat.zero_mul,
    Nat.zero_add]

/-! ## The lanes past the last row -/

/-- A lane that no row is packed in stays as `memset` left it. -/
lemma transformTensorOf_unused (weights : ℕ → BlockIfairy) {gpb nb rows : ℕ} (hgpb : 0 < gpb)
    {packed : ℕ → LutWtile16} (hpacked : transformTensorOf gpb weights (nb * (2 * gpb)) rows =
      some packed) {tile blk lane : ℕ} (hblk : blk < nb)
    (hunused : rows ≤ tile * 16 + lane) :
    (packed (tile * nb + blk)).laneDataOf gpb lane = (0, 0, fun _ => 0) := by
  have hblocks : nb * (2 * gpb) / (2 * gpb) = nb := Nat.mul_div_cancel nb (by omega)
  unfold transformTensorOf at hpacked
  split_ifs at hpacked
  obtain rfl := Option.some.inj hpacked
  rw [hblocks]
  refine foldl_read_of_not_cover _
    (fun packed : ℕ → LutWtile16 => (packed (tile * nb + blk)).laneDataOf gpb lane) ?_ _
  intro row hrow packed
  refine foldl_read_of_not_cover _
    (fun packed : ℕ → LutWtile16 => (packed (tile * nb + blk)).laneDataOf gpb lane) ?_ packed
  intro blk' hblk' packed
  refine packBlockOf_other weights _ packed fun heq hlane => ?_
  obtain ⟨htile, -⟩ := mul_add_inj hblk (List.mem_range.mp hblk') heq
  have hrow := List.mem_range.mp hrow
  omega

/-! ## The matrix read back -/

/-- What a packed tensor has of the matrix of `nb * (2 * gpb)` columns that it was packed from,
where `read` is the reader of the blocks. -/
structure Packs (gpb : ℕ) (read : (ℕ → BlockIfairy) → ℕ → UInt8) (weights : ℕ → BlockIfairy)
    (nb rows : ℕ) (packed : ℕ → LutWtile16) : Prop where
  code : ∀ row < rows, ∀ k < nb * (2 * gpb),
    unpackCode gpb nb packed row k = read (rowBlocks weights nb row) k
  scales : ∀ row < rows, ∀ k < nb * (2 * gpb),
    let t := packed (packedPlace gpb nb row k).tile
    t.dReal (row % 16) = halfToRat (rowBlocks weights nb row (k / (2 * gpb))).dReal ∧
      t.dImag (row % 16) = halfToRat (rowBlocks weights nb row (k / (2 * gpb))).dImag
  apart : ∀ row < rows, ∀ k < nb * (2 * gpb), ∀ row' < rows, ∀ k' < nb * (2 * gpb),
    packedPlace gpb nb row k = packedPlace gpb nb row' k' → row = row' ∧ k = k'
  unused : ∀ tile blk lane, blk < nb → lane < 16 → rows ≤ tile * 16 + lane →
    let t := packed (tile * nb + blk)
    (∀ byte < gpb / 2, t.qs byte lane = 0) ∧ t.dReal lane = 0 ∧ t.dImag lane = 0

lemma transformTensorOf_packs (weights : ℕ → BlockIfairy) {gpb nb rows : ℕ} (hgpb : 0 < gpb)
    (heven : 2 ∣ gpb) (hnb : 0 < nb) (hrows : 0 < rows) :
    ∃ packed, transformTensorOf gpb weights (nb * (2 * gpb)) rows = some packed ∧
      Packs gpb (readCodeOf gpb) weights nb rows packed := by
  obtain ⟨packed, hpacked, hlane⟩ := transformTensorOf_lane weights hgpb hnb hrows
  have hblk : ∀ {k}, k < nb * (2 * gpb) → k / (2 * gpb) < nb := fun hk =>
    Nat.div_lt_of_lt_mul (by rwa [Nat.mul_comm])
  refine ⟨packed, hpacked, ?_, ?_, ?_, ?_⟩
  · intro row hrow k hk
    have hmod : k % (2 * gpb) < 2 * gpb := Nat.mod_lt _ (by omega)
    have hbyte : k % (2 * gpb) / 4 < gpb / 2 := by omega
    have hdata := congrArg (fun data => data.2.2 ⟨k % (2 * gpb) / 4, hbyte⟩)
      (hlane row hrow (k / (2 * gpb)) (hblk hk))
    have hqs : (packed (row / 16 * nb + k / (2 * gpb))).qs (k % (2 * gpb) / 4) (row % 16) =
        patternByte gpb (rowBlocks weights nb row) (nb * (2 * gpb)) (k / (2 * gpb))
          (k % (2 * gpb) / 4) := hdata
    simp only [unpackCode, packedPlace]
    rw [hqs, pairAt_patternByte _ (hblk hk) (by omega) (Nat.mod_lt _ (by decide)),
      Nat.div_add_mod (k % (2 * gpb)) 4, ← readCodeOf_apply _ _ hmod, Nat.div_add_mod']
  · intro row hrow k hk
    have hdata := hlane row hrow (k / (2 * gpb)) (hblk hk)
    exact ⟨congrArg Prod.fst hdata, congrArg (fun data => data.2.1) hdata⟩
  · intro row _ k hk row' _ k' hk' h
    exact packedPlace_inj gpb nb hk hk' h
  · intro tile blk lane hblk _ hunused
    have hdata := transformTensorOf_unused weights hgpb hpacked hblk hunused
    exact ⟨fun byte hbyte => congrArg (fun data => data.2.2 ⟨byte, hbyte⟩) hdata,
      congrArg Prod.fst hdata, congrArg (fun data => data.2.1) hdata⟩

/-- Both block types: a matrix of any number of rows and blocks is packed and read back. -/
theorem transformTensor_packs (weights : ℕ → BlockIfairy) {nb rows : ℕ} (hnb : 0 < nb)
    (hrows : 0 < rows) :
    (∃ packed, transformTensor weights (nb * 256) rows = some packed ∧
      Packs 128 readCode weights nb rows packed) ∧
    (∃ packed, transformTensorOf 32 weights (nb * 64) rows = some packed ∧
      Packs 32 readCode64 weights nb rows packed) := by
  have hread : readCode64 = readCodeOf 32 :=
    funext fun rb => funext fun idx => readCode64_eq_readCodeOf rb idx
  constructor
  · exact transformTensorOf_packs weights (show 0 < 128 by decide) (by decide) hnb hrows
  · rw [hread]
    exact transformTensorOf_packs weights (show 0 < 32 by decide) (by decide) hnb hrows

/-- A matrix of seventeen rows of one block. -/
theorem transformTensor_packs_seventeen :
    (0 < 1 ∧ 0 < 17) ∧ ∃ packed, transformTensor (fun _ => ⟨fun _ => 0x1b, 0x3c00, 0⟩) 256 17 =
      some packed ∧ Packs 128 readCode (fun _ => ⟨fun _ => 0x1b, 0x3c00, 0⟩) 1 17 packed :=
  ⟨⟨by decide, by decide⟩,
    (transformTensor_packs (fun _ => ⟨fun _ => 0x1b, 0x3c00, 0⟩) (show 0 < 1 by decide)
      (show 0 < 17 by decide)).1⟩

end IFairy
