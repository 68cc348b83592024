import IFairy.Quant.Ifairy

/-!
# Packed weight tiles of the LUT path

Two neighbouring weights of a row form a group, whose pattern `c0 | (c1 << 2)` is the index of a
table entry (`ggml_ifairy_2w_encode`).  `ggml_ifairy_lut_transform_tensor` lays the patterns out in
tiles of sixteen rows: a byte of a tile holds the patterns of two neighbouring groups of one row,
and a tile keeps the two scales of each of its rows.

`transformTensorOf_lane` says what lane `row % 16` of tile `row / 16` holds, for blocks of any number
of groups: the source has one template for blocks of 128 groups and of 32.  The cache of packed
tensors is left out: this is the first transformation of a tensor.
-/

namespace IFairy

/-- `ggml_ifairy_read_code`: the code of element `idx` of a row. -/
def readCode (rowBlocks : ℕ → BlockIfairy) (idx : ℕ) : UInt8 :=
  let blockIdx := idx / 256
  let idxInBlock := idx - blockIdx * 256
  codeAt (rowBlocks blockIdx).qs idxInBlock

/-- `ggml_ifairy_pack_pair_direct`. -/
def packPairDirect (c0 c1 : UInt8) : UInt8 := c0 ||| (c1 <<< 2)

/-- The pattern of group `g` of a row of `k` weights. -/
def encodeGroup (rowBlocks : ℕ → BlockIfairy) (k g : ℕ) : UInt8 :=
  let blk := g / 128
  let intra := g - blk * 128
  let base := blk * 256 + intra * 2
  let c0 := if base < k then readCode rowBlocks base else 0
  let c1 := if base + 1 < k then readCode rowBlocks (base + 1) else 0
  packPairDirect c0 c1

/-- The blocks of one row of a matrix. -/
def rowBlocks (weights : ℕ → BlockIfairy) (blocksPerRow row : ℕ) : ℕ → BlockIfairy := fun blk =>
  weights (row * blocksPerRow + blk)

/-- `ggml_ifairy_2w_encode`: one pattern per group, row after row. -/
def encode2w (weights : ℕ → BlockIfairy) (k rows : ℕ) (dst : ℕ → UInt8) : ℕ → UInt8 :=
  let blocksPerRow := k / 256
  let groupsPerRow := blocksPerRow * 128
  (List.range rows).foldl (fun dst row =>
    (List.range groupsPerRow).foldl (fun dst g =>
      Function.update dst (row * groupsPerRow + g)
        (encodeGroup (rowBlocks weights blocksPerRow row) k g)) dst) dst

/-- `ifairy_lut_wtile_16`: sixteen rows of one block. -/
structure LutWtile16 where
  qs : ℕ → ℕ → UInt8
  dReal : ℕ → ℚ
  dImag : ℕ → ℚ

/-- A tile after `memset`. -/
def LutWtile16.zero : LutWtile16 := ⟨fun _ _ => 0, fun _ => 0, fun _ => 0⟩

/-- A pair of patterns stored in one byte of a lane. -/
def LutWtile16.setByte (t : LutWtile16) (byte lane : ℕ) (v : UInt8) : LutWtile16 :=
  { t with qs := fun b l => if b = byte ∧ l = lane then v else t.qs b l }

def LutWtile16.setScales (t : LutWtile16) (lane : ℕ) (wb : BlockIfairy) : LutWtile16 :=
  { t with
    dReal := Function.update t.dReal lane (halfToRat wb.dReal)
    dImag := Function.update t.dImag lane (halfToRat wb.dImag) }

/-- The patterns of a block, two per byte. -/
def LutWtile16.setBytes (t : LutWtile16) (indexes : ℕ → UInt8) (blkIdx lane : ℕ) : LutWtile16 :=
  (stepRange 128 2).foldl (fun t gi =>
    let lo := lowNibble (indexes (blkIdx + gi))
    let hi := lowNibble (indexes (blkIdx + (gi + 1)))
    t.setByte (gi / 2) lane (packNibbles lo hi)) t

/-- One iteration of the packing loop: block `blk` of a row goes to its lane. -/
def packBlock (weights : ℕ → BlockIfairy) (indexes : ℕ → UInt8) (blocksPerRow row : ℕ)
    (packed : ℕ → LutWtile16) (blk : ℕ) : ℕ → LutWtile16 :=
  let tile := row / 16
  let lane := row % 16
  let t := (packed (tile * blocksPerRow + blk)).setScales lane
    (rowBlocks weights blocksPerRow row blk)
  let blkIdx := row * (blocksPerRow * 128) + blk * 128
  Function.update packed (tile * blocksPerRow + blk) (t.setBytes indexes blkIdx lane)

/-- `ggml_ifairy_lut_transform_tensor_impl`. -/
def transformTensor (weights : ℕ → BlockIfairy) (k rows : ℕ) : Option (ℕ → LutWtile16) :=
  if k % 256 ≠ 0 ∨ rows = 0 ∨ k = 0 then none
  else
    let blocksPerRow := k / 256
    let indexes := encode2w weights k rows fun _ => 0
    some ((List.range rows).foldl (fun packed row =>
      (List.range blocksPerRow).foldl (packBlock weights indexes blocksPerRow row) packed)
      fun _ => .zero)

/-! ## Any number of groups

The template takes the size of a block as a parameter; here it is twice the number of groups.  The
halves that the tiles of `ifairy64` keep as scales are kept as their values. -/

section Groups

variable (gpb : ℕ)

/-- `readCode` in blocks of `gpb` groups. -/
def readCodeOf (rowBlocks : ℕ → BlockIfairy) (idx : ℕ) : UInt8 :=
  let blockIdx := idx / (2 * gpb)
  let idxInBlock := idx - blockIdx * (2 * gpb)
  codeAt (rowBlocks blockIdx).qs idxInBlock

/-- `encodeGroup` in blocks of `gpb` groups. -/
def encodeGroupOf (rowBlocks : ℕ → BlockIfairy) (k g : ℕ) : UInt8 :=
  let blk := g / gpb
  let intra := g - blk * gpb
  let base := blk * (2 * gpb) + intra * 2
  let c0 := if base < k then readCodeOf gpb rowBlocks base else 0
  let c1 := if base + 1 < k then readCodeOf gpb rowBlocks (base + 1) else 0
  packPairDirect c0 c1

/-- `encode2w` in blocks of `gpb` groups. -/
def encode2wOf (weights : ℕ → BlockIfairy) (k rows : ℕ) (dst : ℕ → UInt8) : ℕ → UInt8 :=
  let blocksPerRow := k / (2 * gpb)
  let groupsPerRow := blocksPerRow * gpb
  (List.range rows).foldl (fun dst row =>
    (List.range groupsPerRow).foldl (fun dst g =>
      Function.update dst (row * groupsPerRow + g)
        (encodeGroupOf gpb (rowBlocks weights blocksPerRow row) k g)) dst) dst

/-- The patterns of a block of `gpb` groups, two per byte. -/
def LutWtile16.setBytesOf (t : LutWtile16) (indexes : ℕ → UInt8) (blkIdx lane : ℕ) : LutWtile16 :=
  (stepRange gpb 2).foldl (fun t gi =>
    let lo := lowNibble (indexes (blkIdx + gi))
    let hi := lowNibble (indexes (blkIdx + (gi + 1)))
    t.setByte (gi / 2) lane (packNibbles lo hi)) t

/-- `packBlock` in blocks of `gpb` groups. -/
def packBlockOf (weights : ℕ → BlockIfairy) (indexes : ℕ → UInt8) (blocksPerRow row : ℕ)
    (packed : ℕ → LutWtile16) (blk : ℕ) : ℕ → LutWtile16 :=
  let tile := row / 16
  let lane := row % 16
  let t := (packed (tile * blocksPerRow + blk)).setScales lane
    (rowBlocks weights blocksPerRow row blk)
  let blkIdx := row * (blocksPerRow * gpb) + blk * gpb
  Function.update packed (tile * blocksPerRow + blk) (t.setBytesOf gpb indexes blkIdx lane)

/-- The template `ggml_ifairy_lut_transform_tensor_impl`, in blocks of `gpb` groups. -/
def transformTensorOf (weights : ℕ → BlockIfairy) (k rows : ℕ) : Option (ℕ → LutWtile16) :=
  if k % (2 * gpb) ≠ 0 ∨ rows = 0 ∨ k = 0 then none
  else
    let blocksPerRow := k / (2 * gpb)
    let indexes := encode2wOf gpb weights k rows fun _ => 0
    some ((List.range rows).foldl (fun packed row =>
      (List.range blocksPerRow).foldl (packBlockOf gpb weights indexes blocksPerRow row) packed)
      fun _ => .zero)

/-- What the kernels read of a lane: its scales and the bytes of its groups. -/
def LutWtile16.laneDataOf (t : LutWtile16) (lane : ℕ) : ℚ × ℚ × (Fin (gpb / 2) → UInt8) :=
  (t.dReal lane, t.dImag lane, fun byte => t.qs byte lane)

end Groups

/-! ## What a lane holds -/

/-- What the kernels read of a lane: its scales and its 64 bytes. -/
def LutWtile16.laneData (t : LutWtile16) (lane : ℕ) : ℚ × ℚ × (Fin 64 → UInt8) :=
  (t.dReal lane, t.dImag lane, fun byte => t.qs byte lane)

section Lanes

variable {gpb : ℕ}

lemma laneDataOf_setByte_of_ne (t : LutWtile16) {byte lane lane' : ℕ} (v : UInt8)
    (h : lane' ≠ lane) : (t.setByte byte lane v).laneDataOf gpb lane' = t.laneDataOf gpb lane' := by
  simp [LutWtile16.laneDataOf, LutWtile16.setByte, h]

lemma laneDataOf_setScales_of_ne (t : LutWtile16) {lane lane' : ℕ} (wb : BlockIfairy)
    (h : lane' ≠ lane) : (t.setScales lane wb).laneDataOf gpb lane' = t.laneDataOf gpb lane' := by
  simp [LutWtile16.laneDataOf, LutWtile16.setScales, h]

lemma encode2wOf_apply (weights : ℕ → BlockIfairy) (dst : ℕ → UInt8) {k rows row g : ℕ}
    (hrow : row < rows) (hg : g < k / (2 * gpb) * gpb) :
    encode2wOf gpb weights k rows dst (row * (k / (2 * gpb) * gpb) + g) =
      encodeGroupOf gpb (rowBlocks weights (k / (2 * gpb)) row) k g := by
  set groups := k / (2 * gpb) * gpb with hgroups
  refine foldl_read_of_cover _ (fun mem => mem (row * groups + g)) (fun row' => row' = row) _ ?_ ?_
    ⟨row, List.mem_range.mpr hrow, rfl⟩ dst
  · rintro row' - rfl mem
    refine foldl_read_of_cover _ (fun mem => mem (row' * groups + g)) (fun g' => g' = g) _ ?_ ?_
      ⟨g, List.mem_range.mpr hg, rfl⟩ mem
    · rintro g' - rfl mem
      exact Function.update_self _ _ _
    · intro g' hg' hne mem
      refine Function.update_of_ne (fun heq => hne ?_) _ _
      exact (mul_add_inj hg (List.mem_range.mp hg') heq).2.symm
  · intro row' _ hne mem
    refine foldl_read_of_not_cover _ (fun mem => mem (row * groups + g)) (fun g' hg' mem => ?_) mem
    refine Function.update_of_ne (fun heq => hne ?_) _ _
    exact (mul_add_inj hg (List.mem_range.mp hg') heq).1.symm

lemma laneDataOf_setBytesOf_of_ne (t : LutWtile16) (indexes : ℕ → UInt8) (blkIdx : ℕ)
    {lane lane' : ℕ} (h : lane' ≠ lane) :
    (t.setBytesOf gpb indexes blkIdx lane).laneDataOf gpb lane' = t.laneDataOf gpb lane' :=
  foldl_read_of_not_cover _ (fun t : LutWtile16 => t.laneDataOf gpb lane')
    (fun _ _ t => laneDataOf_setByte_of_ne t _ h) t

lemma laneDataOf_setBytesOf (t : LutWtile16) (indexes : ℕ → UInt8) (blkIdx lane : ℕ) :
    (t.setBytesOf gpb indexes blkIdx lane).laneDataOf gpb lane =
      (t.dReal lane, t.dImag lane, fun byte : Fin (gpb / 2) =>
        packNibbles (lowNibble (indexes (blkIdx + 2 * byte)))
          (lowNibble (indexes (blkIdx + (2 * byte + 1))))) := by
  have hreal : (t.setBytesOf gpb indexes blkIdx lane).dReal lane = t.dReal lane := by
    refine foldl_read_of_not_cover _ (fun t : LutWtile16 => t.dReal lane) ?_ t
    exact fun _ _ _ => rfl
  have himag : (t.setBytesOf gpb indexes blkIdx lane).dImag lane = t.dImag lane := by
    refine foldl_read_of_not_cover _ (fun t : LutWtile16 => t.dImag lane) ?_ t
    exact fun _ _ _ => rfl
  have hbytes : ∀ byte : Fin (gpb / 2), (t.setBytesOf gpb indexes blkIdx lane).qs byte lane =
      packNibbles (lowNibble (indexes (blkIdx + 2 * byte)))
        (lowNibble (indexes (blkIdx + (2 * byte + 1)))) := by
    intro byte
    have hbyte : 2 * (byte : ℕ) < gpb := by omega
    refine foldl_read_of_cover _ (fun t : LutWtile16 => t.qs byte lane)
      (fun gi => gi = 2 * (byte : ℕ)) _ ?_ ?_
      ⟨2 * byte, (mem_stepRange Nat.two_pos).mpr ⟨hbyte, Dvd.intro _ rfl⟩, rfl⟩ t
    · rintro gi - rfl t
      exact if_pos ⟨by omega, rfl⟩
    · intro gi hgi hne t
      obtain ⟨-, c, rfl⟩ := (mem_stepRange Nat.two_pos).mp hgi
      have hother : ¬ ((byte : ℕ) = 2 * c / 2 ∧ lane = lane) := by omega
      exact if_neg hother
  exact Prod.ext hreal (Prod.ext himag (funext hbytes))

section PackBlock

variable (weights : ℕ → BlockIfairy) (indexes : ℕ → UInt8) {nb row blk : ℕ}
  (packed : ℕ → LutWtile16)

lemma packBlockOf_own :
    (packBlockOf gpb weights indexes nb row packed blk (row / 16 * nb + blk)).laneDataOf gpb
        (row % 16) =
      (halfToRat (rowBlocks weights nb row blk).dReal,
        halfToRat (rowBlocks weights nb row blk).dImag, fun byte : Fin (gpb / 2) =>
          packNibbles (lowNibble (indexes (row * (nb * gpb) + (blk * gpb + 2 * byte))))
            (lowNibble (indexes (row * (nb * gpb) + (blk * gpb + (2 * byte + 1)))))) := by
  rw [packBlockOf, Function.update_self, laneDataOf_setBytesOf]
  simp only [LutWtile16.setScales, Function.update_self, Nat.add_assoc]

lemma packBlockOf_other {index lane : ℕ} (h : index = row / 16 * nb + blk → lane ≠ row % 16) :
    (packBlockOf gpb weights indexes nb row packed blk index).laneDataOf gpb lane =
      (packed index).laneDataOf gpb lane := by
  by_cases hindex : index = row / 16 * nb + blk
  · have hlane := h hindex
    subst hindex
    rw [packBlockOf, Function.update_self, laneDataOf_setBytesOf_of_ne _ _ _ hlane,
      laneDataOf_setScales_of_ne _ _ hlane]
  · rw [packBlockOf, Function.update_of_ne hindex]

end PackBlock

/-- The two patterns in byte `byte` of block `blk` of a row. -/
def patternByte (gpb : ℕ) (rowBlocks : ℕ → BlockIfairy) (k blk byte : ℕ) : UInt8 :=
  packNibbles (lowNibble (encodeGroupOf gpb rowBlocks k (blk * gpb + 2 * byte)))
    (lowNibble (encodeGroupOf gpb rowBlocks k (blk * gpb + (2 * byte + 1))))

/-- Lane `row % 16` of tile `row / 16` holds the scales and the patterns of the row. -/
theorem transformTensorOf_lane (weights : ℕ → BlockIfairy) {nb rows : ℕ} (hgpb : 0 < gpb)
    (hnb : 0 < nb) (hrows : 0 < rows) :
    ∃ packed, transformTensorOf gpb weights (nb * (2 * gpb)) rows = some packed ∧
      ∀ row < rows, ∀ blk < nb, (packed (row / 16 * nb + blk)).laneDataOf gpb (row % 16) =
        (halfToRat (rowBlocks weights nb row blk).dReal,
          halfToRat (rowBlocks weights nb row blk).dImag, fun byte : Fin (gpb / 2) =>
            patternByte gpb (rowBlocks weights nb row) (nb * (2 * gpb)) blk byte) := by
  have hpos : 0 < 2 * gpb := by omega
  have hk : ¬ (nb * (2 * gpb) % (2 * gpb) ≠ 0 ∨ rows = 0 ∨ nb * (2 * gpb) = 0) := by
    have hne : nb * (2 * gpb) ≠ 0 := Nat.mul_ne_zero (by omega) (by omega)
    rw [Nat.mul_mod_left]
    omega
  have hblocks : nb * (2 * gpb) / (2 * gpb) = nb := Nat.mul_div_cancel nb hpos
  refine ⟨_, if_neg hk, fun row hrow blk hblk => ?_⟩
  set indexes := encode2wOf gpb weights (nb * (2 * gpb)) rows fun _ => 0 with hindexes
  have hindex : ∀ g < nb * gpb, indexes (row * (nb * gpb) + g) =
      encodeGroupOf gpb (rowBlocks weights nb row) (nb * (2 * gpb)) g := by
    intro g hg
    have h := @encode2wOf_apply gpb weights (fun _ => 0) (nb * (2 * gpb)) rows row g hrow
      (by rwa [hblocks])
    rwa [hblocks] at h
  -- two rows share a lane of a tile only when they are equal
  have howner : ∀ {row' blk'}, blk' < nb → row / 16 * nb + blk = row' / 16 * nb + blk' →
      row % 16 = row' % 16 → row' = row ∧ blk' = blk := by
    intro row' blk' hblk' heq hlane
    obtain ⟨htile, hblkeq⟩ := mul_add_inj hblk hblk' heq
    refine ⟨?_, hblkeq.symm⟩
    rw [← Nat.div_add_mod row' 16, ← htile, ← hlane, Nat.div_add_mod]
  rw [hblocks]
  refine foldl_read_of_cover _
    (fun packed : ℕ → LutWtile16 => (packed (row / 16 * nb + blk)).laneDataOf gpb (row % 16))
    (fun row' => row' = row) _ ?_ ?_ ⟨row, List.mem_range.mpr hrow, rfl⟩ _
  · rintro row' - rfl packed
    refine foldl_read_of_cover _
      (fun packed : ℕ → LutWtile16 => (packed (row' / 16 * nb + blk)).laneDataOf gpb (row' % 16))
      (fun blk' => blk' = blk) _ ?_ ?_ ⟨blk, List.mem_range.mpr hblk, rfl⟩ packed
    · rintro blk' - rfl packed
      rw [packBlockOf_own]
      have hgroup : ∀ g < gpb, blk' * gpb + g < nb * gpb := fun g hg => by
        have := Nat.mul_le_mul_right gpb (show blk' + 1 ≤ nb from hblk)
        rw [Nat.add_mul, Nat.one_mul] at this
        omega
      refine Prod.ext rfl (Prod.ext rfl (funext fun byte => ?_))
      show packNibbles (lowNibble (indexes _)) (lowNibble (indexes _)) = _
      rw [hindex _ (hgroup (2 * byte) (by omega)), hindex _ (hgroup (2 * byte + 1) (by omega))]
      rfl
    · intro blk' hblk' hne packed
      exact packBlockOf_other weights indexes packed fun heq hlane =>
        hne (howner (List.mem_range.mp hblk') heq hlane).2
  · intro row' _ hne packed
    refine foldl_read_of_not_cover _
      (fun packed : ℕ → LutWtile16 => (packed (row / 16 * nb + blk)).laneDataOf gpb (row % 16))
      (fun blk' hblk' packed => ?_) packed
    exact packBlockOf_other weights indexes packed fun heq hlane =>
      hne (howner (List.mem_range.mp hblk') heq hlane).1

end Lanes

theorem transformTensor_lane (weights : ℕ → BlockIfairy) {nb rows : ℕ} (hnb : 0 < nb)
    (hrows : 0 < rows) :
    ∃ packed, transformTensor weights (nb * 256) rows = some packed ∧
      ∀ row < rows, ∀ blk < nb, (packed (row / 16 * nb + blk)).laneData (row % 16) =
        (halfToRat (rowBlocks weights nb row blk).dReal,
          halfToRat (rowBlocks weights nb row blk).dImag, fun byte : Fin 64 =>
            packNibbles
              (lowNibble (encodeGroup (rowBlocks weights nb row) (nb * 256) (blk * 128 + 2 * byte)))
              (lowNibble (encodeGroup (rowBlocks weights nb row) (nb * 256)
                (blk * 128 + (2 * byte + 1))))) :=
  transformTensorOf_lane weights (show 0 < 128 by decide) hnb hrows

/-! ## Patterns -/

lemma codeAt_lt (qs : ℕ → UInt8) (j : ℕ) : (codeAt qs j).toNat < 4 := by
  rw [codeAt, pairAt_toNat _ (Nat.mod_lt _ (by decide))]
  exact Nat.mod_lt _ (by decide)

lemma packPairDirect_toNat {c0 c1 : UInt8} (h0 : c0.toNat < 4) (h1 : c1.toNat < 4) :
    (packPairDirect c0 c1).toNat = c0.toNat + 4 * c1.toNat := by
  have h : (packPairs c0 c1 0 0).toNat = c0.toNat + 4 * c1.toNat + 16 * 0 + 64 * 0 :=
    packPairs_toNat h0 h1 (by decide) (by decide)
  have hpack : packPairDirect c0 c1 = packPairs c0 c1 0 0 := by simp [packPairDirect, packPairs]
  rw [hpack]
  exact h

section Patterns

variable {gpb : ℕ} (rowBlocks : ℕ → BlockIfairy)

lemma readCodeOf_apply (blk : ℕ) {j : ℕ} (hj : j < 2 * gpb) :
    readCodeOf gpb rowBlocks (blk * (2 * gpb) + j) = codeAt (rowBlocks blk).qs j := by
  have hblk : (blk * (2 * gpb) + j) / (2 * gpb) = blk := by
    rw [Nat.mul_comm, Nat.mul_add_div (by omega), Nat.div_eq_of_lt hj, Nat.add_zero]
  rw [readCodeOf, hblk, Nat.add_sub_cancel_left]

variable {nb blk g : ℕ} (hblk : blk < nb) (hg : g < gpb)
include hblk hg

/-- The pattern of group `g` of a block: its two codes. -/
lemma encodeGroupOf_toNat :
    (encodeGroupOf gpb rowBlocks (nb * (2 * gpb)) (blk * gpb + g)).toNat =
      (codeAt (rowBlocks blk).qs (2 * g)).toNat +
        4 * (codeAt (rowBlocks blk).qs (2 * g + 1)).toNat := by
  have hdiv : (blk * gpb + g) / gpb = blk := by
    rw [Nat.mul_comm, Nat.mul_add_div (by omega), Nat.div_eq_of_lt hg, Nat.add_zero]
  have hlast := Nat.mul_le_mul_right (2 * gpb) (show blk + 1 ≤ nb from hblk)
  rw [Nat.add_mul, Nat.one_mul] at hlast
  have hbase : blk * (2 * gpb) + g * 2 < nb * (2 * gpb) := by omega
  have hbase' : blk * (2 * gpb) + (g * 2 + 1) < nb * (2 * gpb) := by omega
  simp only [encodeGroupOf, hdiv, Nat.add_sub_cancel_left, Nat.add_assoc, if_pos hbase,
    if_pos hbase']
  rw [readCodeOf_apply _ _ (by omega), readCodeOf_apply _ _ (by omega),
    packPairDirect_toNat (codeAt_lt _ _) (codeAt_lt _ _), Nat.mul_comm g]

lemma encodeGroupOf_lt :
    (encodeGroupOf gpb rowBlocks (nb * (2 * gpb)) (blk * gpb + g)).toNat < 16 := by
  have h0 := codeAt_lt (rowBlocks blk).qs (2 * g)
  have h1 := codeAt_lt (rowBlocks blk).qs (2 * g + 1)
  rw [encodeGroupOf_toNat rowBlocks hblk hg]
  omega

end Patterns

end IFairy
