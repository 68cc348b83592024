import IFairy.Lut.Pack
import IFairy.Lut.Tables

/-!
# The LUT matrix product

`ggml_ifairy_lut_qgemm_lut16` computes a column of outputs from the packed weight tiles and the
tables of the column.  The weight patterns are table indexes: a kernel looks up the four tables,
adds the entries of a block in integers and scales the four sums.  The source has one kernel per
instruction set: row by row, one tile of sixteen rows at a time (NEON), and four tiles per pass
over the tables (AVX2).  Adding to the previous output is always done row by row.

The vector kernels accumulate in 16-bit lanes.  Floating point is exact rational arithmetic, and
outputs are stored as floats.  `lutCol` and `scales` are the buffers from the column's offsets on.
-/

namespace IFairy

/-- A lane of a tile scaled and added to an output: the last two lines of every kernel. -/
def scaledAdd (out : Cplx) (lr li wr wi : ℚ) (ac bc ad bd : ℤ) : Cplx :=
  ⟨out.re + (ac * (lr * wr) + bd * (li * wi)), out.im + (bc * (lr * wi) + ad * (li * wr))⟩

/-! ## Row by row -/

/-- The four sums of a row in a block. -/
structure LaneSums where
  ac : ℤ
  bc : ℤ
  ad : ℤ
  bd : ℤ

/-- The table entries of a pattern added (`ggml_ifairy_lut_decode_lane_scalar`). -/
def LaneSums.addEntries (sum : LaneSums) (code : UInt8) (tbl : ℕ → Int8) : LaneSums :=
  let idx := (code &&& 0x0f).toNat
  ⟨sum.ac + (tbl (0 * 16 + idx)).toInt, sum.bc + (tbl (2 * 16 + idx)).toInt,
    sum.ad + (tbl (3 * 16 + idx)).toInt, sum.bd + (tbl (1 * 16 + idx)).toInt⟩

/-- The sums of a lane over a block. -/
def scalarSums (lutBlk : ℕ → Int8) (wt : LutWtile16) (lane : ℕ) : LaneSums :=
  (List.range 64).foldl (fun sum byteIdx =>
    let packed := wt.qs byteIdx lane
    let tbl0 := fun a => lutBlk (byteIdx * 2 * 64 + a)
    let tbl1 := fun a => tbl0 (64 + a)
    (sum.addEntries (packed &&& 0x0f) tbl0).addEntries ((packed >>> 4) &&& 0x0f) tbl1) ⟨0, 0, 0, 0⟩

/-- One row of the scalar kernel, from the value `out`. -/
def scalarRow (blocks : ℕ) (wtiles : ℕ → LutWtile16) (lutCol : ℕ → Int8) (scales : ℕ → ℚ)
    (out : Cplx) (row : ℕ) : Cplx :=
  let tile := row / 16
  let lane := row % 16
  (List.range blocks).foldl (fun out blk =>
    let wt := wtiles (tile * blocks + blk)
    let sum := scalarSums (fun a => lutCol (blk * 128 * 64 + a)) wt lane
    scaledAdd out (scales (blk * 2 + 0)) (scales (blk * 2 + 1)) (wt.dReal lane) (wt.dImag lane)
      sum.ac sum.bc sum.ad sum.bd) out

/-- The scalar kernel, also the one that adds. -/
def qgemmScalar (blocks m : ℕ) (wtiles : ℕ → LutWtile16) (lutCol : ℕ → Int8) (scales : ℕ → ℚ)
    (add : Bool) (dst : ℕ → Cplx) : ℕ → Cplx :=
  (List.range m).foldl (fun dst row =>
    Function.update dst row
      (scalarRow blocks wtiles lutCol scales (if add then dst row else ⟨0, 0⟩) row)) dst

/-! ## NEON -/

/-- The sums of a tile: two vectors of eight lanes for each. -/
structure NeonSums where
  ac : Fin 2 → Fin 8 → BitVec 16
  bc : Fin 2 → Fin 8 → BitVec 16
  ad : Fin 2 → Fin 8 → BitVec 16
  bd : Fin 2 → Fin 8 → BitVec 16

def NeonSums.zero : NeonSums := ⟨fun _ _ => 0, fun _ _ => 0, fun _ _ => 0, fun _ _ => 0⟩

/-- Two lookups added to the two vectors of a sum. -/
def neonAdd (sum : Fin 2 → Fin 8 → BitVec 16) (v0 v1 : Fin 16 → Int8) :
    Fin 2 → Fin 8 → BitVec 16 :=
  ![Neon.vaddw (Neon.vaddw (sum 0) (Neon.vgetLow v0)) (Neon.vgetLow v1),
    Neon.vaddw (Neon.vaddw (sum 1) (Neon.vgetHigh v0)) (Neon.vgetHigh v1)]

/-- One byte of every row of a tile. -/
def neonAccumulate (lutBlk : ℕ → Int8) (wt : LutWtile16) (sum : NeonSums) (byteIdx : ℕ) : NeonSums :=
  let packed := Neon.vld1q (wt.qs byteIdx) 0
  let idxLo := Neon.vandq packed (Neon.vdupq 0x0f)
  let idxHi := Neon.vandq (Neon.vshrq packed 4) (Neon.vdupq 0x0f)
  let lutPtr := byteIdx * 128
  let ilut0 := fun c => Neon.vld1q lutBlk (lutPtr + 0 + c * 16)
  let ilut1 := fun c => Neon.vld1q lutBlk (lutPtr + 64 + c * 16)
  { ac := neonAdd sum.ac (Neon.vqtbl1q (ilut0 0) idxLo) (Neon.vqtbl1q (ilut1 0) idxHi)
    bd := neonAdd sum.bd (Neon.vqtbl1q (ilut0 1) idxLo) (Neon.vqtbl1q (ilut1 1) idxHi)
    bc := neonAdd sum.bc (Neon.vqtbl1q (ilut0 2) idxLo) (Neon.vqtbl1q (ilut1 2) idxHi)
    ad := neonAdd sum.ad (Neon.vqtbl1q (ilut0 3) idxLo) (Neon.vqtbl1q (ilut1 3) idxHi) }

/-- Four lanes of a sum: `vget_low_s16` or `vget_high_s16` of one of its two vectors. -/
def neonQuad (sum : Fin 2 → Fin 8 → BitVec 16) (q : Fin 4) : Fin 4 → BitVec 16 :=
  ![Neon.vgetLowS16 (sum 0), Neon.vgetHighS16 (sum 0), Neon.vgetLowS16 (sum 1),
    Neon.vgetHighS16 (sum 1)] q

/-- `ggml_ifairy_lut_apply_tile_sums_arm`: the accumulators are four vectors of four lanes. -/
def applyTileSumsArm (wt : LutWtile16) (lr li : ℚ) (sum : NeonSums) (acc : Fin 4 → Fin 4 → Cplx) :
    Fin 4 → Fin 4 → Cplx := fun q l =>
  scaledAdd (acc q l) lr li (wt.dReal (4 * q + l)) (wt.dImag (4 * q + l))
    (neonQuad sum.ac q l).toInt (neonQuad sum.bc q l).toInt (neonQuad sum.ad q l).toInt
    (neonQuad sum.bd q l).toInt

/-- The accumulators of a tile after all blocks. -/
def neonTile (blocks : ℕ) (wtiles : ℕ → LutWtile16) (lutCol : ℕ → Int8) (scales : ℕ → ℚ) (t : ℕ) :
    Fin 4 → Fin 4 → Cplx :=
  (List.range blocks).foldl (fun acc blk =>
    let wt := wtiles (t * blocks + blk)
    let sum := (List.range 64).foldl
      (neonAccumulate (fun a => lutCol (blk * 128 * 64 + a)) wt) NeonSums.zero
    applyTileSumsArm wt (scales (blk * 2 + 0)) (scales (blk * 2 + 1)) sum acc) fun _ _ => ⟨0, 0⟩

/-- `ggml_ifairy_lut_store_tile_arm`. -/
def storeTileArm (tile m : ℕ) (acc : Fin 4 → Fin 4 → Cplx) (dst : ℕ → Cplx) : ℕ → Cplx :=
  let rowsLeft := m - tile * 16
  let rowsInTile := if 16 ≤ rowsLeft then 16 else rowsLeft
  let out := fun lane => acc (Fin.ofNat 4 (lane / 4)) (Fin.ofNat 4 lane)
  (List.range rowsInTile).foldl (fun dst lane =>
    Function.update dst (tile * 16 + lane) (out lane)) dst

def qgemmNeon (blocks m : ℕ) (wtiles : ℕ → LutWtile16) (lutCol : ℕ → Int8) (scales : ℕ → ℚ)
    (dst : ℕ → Cplx) : ℕ → Cplx :=
  let tiles := (m + 15) / 16
  ((List.range tiles).takeWhile fun t => t * 16 < m).foldl (fun dst t =>
    storeTileArm t m (neonTile blocks wtiles lutCol scales t) dst) dst

/-! ## AVX2 -/

/-- The sums of a tile: the lower and upper eight rows, `ac` and `bd` in the halves of one vector,
`bc` and `ad` in those of another. -/
structure Avx2Sums where
  s01Lo : Fin 16 → BitVec 16
  s01Hi : Fin 16 → BitVec 16
  s23Lo : Fin 16 → BitVec 16
  s23Hi : Fin 16 → BitVec 16

def Avx2Sums.zero : Avx2Sums := ⟨fun _ => 0, fun _ => 0, fun _ => 0, fun _ => 0⟩

/-- One byte of every row of a tile. -/
def avx2Accumulate (lutBlk : ℕ → Int8) (wt : LutWtile16) (byteIdx : ℕ) (sum : Avx2Sums) : Avx2Sums :=
  let one : Fin 32 → UInt8 := Avx2.set1Epi8 1
  let maskIdx : Fin 32 → UInt8 := Avx2.set1Epi8 0x0f
  let lutBase := byteIdx * 2 * 64
  let packed := Avx2.broadcastsi128 fun l : Fin 16 => wt.qs byteIdx l
  let idxLo := Avx2.andSi256 packed maskIdx
  let idxHi := Avx2.andSi256 (Avx2.srliEpi16 packed 4) maskIdx
  let out01_0 := Avx2.shuffleEpi8 (Avx2.loadu lutBlk (lutBase + 0)) idxLo
  let out23_0 := Avx2.shuffleEpi8 (Avx2.loadu lutBlk (lutBase + 32)) idxLo
  let out01_1 := Avx2.shuffleEpi8 (Avx2.loadu lutBlk (lutBase + 64)) idxHi
  let out23_1 := Avx2.shuffleEpi8 (Avx2.loadu lutBlk (lutBase + 96)) idxHi
  { s01Lo := Avx2.addEpi16 sum.s01Lo (Avx2.maddubsEpi16 one (Avx2.unpackloEpi8 out01_0 out01_1))
    s01Hi := Avx2.addEpi16 sum.s01Hi (Avx2.maddubsEpi16 one (Avx2.unpackhiEpi8 out01_0 out01_1))
    s23Lo := Avx2.addEpi16 sum.s23Lo (Avx2.maddubsEpi16 one (Avx2.unpackloEpi8 out23_0 out23_1))
    s23Hi := Avx2.addEpi16 sum.s23Hi (Avx2.maddubsEpi16 one (Avx2.unpackhiEpi8 out23_0 out23_1)) }

/-- The accumulators of a tile: the lower and the upper eight rows. -/
structure Avx2Acc where
  lo : Fin 8 → Cplx
  hi : Fin 8 → Cplx

def Avx2Acc.zero : Avx2Acc := ⟨fun _ => ⟨0, 0⟩, fun _ => ⟨0, 0⟩⟩

/-- The sums of a block scaled and added to the accumulators. -/
def applyTileSumsAvx2 (wt : LutWtile16) (lr li : ℚ) (sum : Avx2Sums) (acc : Avx2Acc) : Avx2Acc where
  lo l := scaledAdd (acc.lo l) lr li (wt.dReal (0 + l)) (wt.dImag (0 + l))
    (Avx2.castEpi16 sum.s01Lo l).toInt (Avx2.castEpi16 sum.s23Lo l).toInt
    (Avx2.extractEpi16 sum.s23Lo l).toInt (Avx2.extractEpi16 sum.s01Lo l).toInt
  hi l := scaledAdd (acc.hi l) lr li (wt.dReal (8 + l)) (wt.dImag (8 + l))
    (Avx2.castEpi16 sum.s01Hi l).toInt (Avx2.castEpi16 sum.s23Hi l).toInt
    (Avx2.extractEpi16 sum.s23Hi l).toInt (Avx2.extractEpi16 sum.s01Hi l).toInt

/-- `ggml_ifairy_lut_store_tile_avx2`. -/
def storeTileAvx2 (tile m : ℕ) (acc : Avx2Acc) (dst : ℕ → Cplx) : ℕ → Cplx :=
  let out := fun lane => if lane < 8 then acc.lo (Fin.ofNat 8 lane) else acc.hi (Fin.ofNat 8 lane)
  ((List.range 16).takeWhile fun lane => tile * 16 + lane < m).foldl (fun dst lane =>
    Function.update dst (tile * 16 + lane) (out lane)) dst

/-- The tiles of a pass: the first is always there. -/
def hasTile (tiles t0 j : ℕ) : Prop := j = 0 ∨ t0 + j < tiles

instance (tiles t0 j : ℕ) : Decidable (hasTile tiles t0 j) :=
  inferInstanceAs (Decidable (j = 0 ∨ t0 + j < tiles))

/-- The accumulators of the four tiles of a pass: the tables are read once for all of them. -/
def avx2Pass (blocks tiles : ℕ) (wtiles : ℕ → LutWtile16) (lutCol : ℕ → Int8) (scales : ℕ → ℚ)
    (t0 : ℕ) : ℕ → Avx2Acc :=
  (List.range blocks).foldl (fun acc blk =>
    let wt := fun j => wtiles ((t0 + j) * blocks + blk)
    let sum := (List.range 64).foldl (fun sum byteIdx => fun j =>
      if hasTile tiles t0 j then
        avx2Accumulate (fun a => lutCol (blk * 128 * 64 + a)) (wt j) byteIdx (sum j)
      else sum j) fun _ => Avx2Sums.zero
    fun j => if hasTile tiles t0 j then
        applyTileSumsAvx2 (wt j) (scales (blk * 2 + 0)) (scales (blk * 2 + 1)) (sum j) (acc j)
      else acc j) fun _ => Avx2Acc.zero

def qgemmAvx2 (blocks m : ℕ) (wtiles : ℕ → LutWtile16) (lutCol : ℕ → Int8) (scales : ℕ → ℚ)
    (dst : ℕ → Cplx) : ℕ → Cplx :=
  let tiles := (m + 15) / 16
  (stepRange tiles 4).foldl (fun dst t0 =>
    let acc := avx2Pass blocks tiles wtiles lutCol scales t0
    (List.range 4).foldl (fun dst j =>
      if hasTile tiles t0 j then storeTileAvx2 (t0 + j) m (acc j) dst else dst) dst) dst

/-! ## All columns -/

/-- `ggml_ifairy_lut_qgemm_lut16_one`. -/
def qgemmLut16One (isa : LutIsa) (blocks m : ℕ) (wtiles : ℕ → LutWtile16) (lutCol : ℕ → Int8)
    (scales : ℕ → ℚ) (add : Bool) (dst : ℕ → Cplx) : ℕ → Cplx :=
  if add then qgemmScalar blocks m wtiles lutCol scales true dst
  else match isa with
    | .avx2 => qgemmAvx2 blocks m wtiles lutCol scales dst
    | .neon => qgemmNeon blocks m wtiles lutCol scales dst
    | .scalar => qgemmScalar blocks m wtiles lutCol scales false dst

/-- `ggml_ifairy_lut_qgemm_lut16`: the output is addressed by column and row. -/
def qgemmLut16 (isa : LutIsa) (m k n : ℕ) (wtiles : ℕ → LutWtile16) (buf : LutBuffers) (add : Bool)
    (dst : ℕ → ℕ → Cplx) : ℕ → ℕ → Cplx :=
  if m = 0 ∨ k = 0 ∨ n = 0 then dst
  else
    let blocks := k / 256
    let groups := blocks * 128
    (List.range n).foldl (fun dst col =>
      Function.update dst col (qgemmLut16One isa blocks m wtiles
        (fun a => buf.lut (col * groups * 64 + a)) (fun a => buf.scales (col * blocks * 2 + a)) add
        (dst col))) dst

end IFairy
