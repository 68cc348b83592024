import IFairy.Lut.MulMat
import IFairy.Wide.Direct

/-!
# The LUT product of four weights

The fused kernel has a LUT version: the four weights are packed into tiles, the quantised
activations into tables of 32 groups to a block, and `ggml_ifairy64_lut_qgemm_four_cpu` calls a
kernel for pairs of weights twice.  The tables hold the products with the conjugate activations; the
first call negates the imaginary scales and gets the products with the activations themselves, and
the second call adds to the first.

For activations in `[-63, 63]` the result is that of the direct kernel (`pairTile_eq`).  There is no
such kernel without AVX2.  Outputs are exact rationals, so the format they are stored in is left
out.
-/

namespace IFairy.Wide

/-! ## Packing -/

/-- `ggml_ifairy_lut_transform_tensor_ifairy64`, with the patterns of `ggml_ifairy64_2w_encode`. -/
def transformTensor64 (weights : ℕ → BlockIfairy64) (k rows : ℕ) : Option (ℕ → LutWtile16) :=
  transformTensorOf 32 weights k rows

/-! ## Tables -/

/-- `ggml_ifairy64_lut_preprocess_q16_64_lut16_one`: the scales are written by every worker. -/
def preprocessQ1664One (isa : LutIsa) (actBlocks : ℕ → BlockIfairy64Q16)
    (blocks scalesOut lutOut g0 gstep : ℕ) (buf : LutBuffers) : LutBuffers where
  scales := fillScales actBlocks blocks scalesOut buf.scales
  lut := fillTables isa actBlocks 32 lutOut (fromRange g0 (blocks * 32) gstep) buf.lut

/-- The loop of `ggml_ifairy64_lut_preprocess_ex_q16_64_lut16` over the columns of a worker. -/
def workerColumns64 (isa : LutIsa) (act : ℕ → ℕ → BlockIfairy64Q16)
    (blocks colStart n colStep g0 gstep : ℕ) (buf : LutBuffers) : LutBuffers :=
  (fromRange colStart n colStep).foldl (fun buf col =>
    preprocessQ1664One isa (act col) blocks (col * blocks * 2) (col * (blocks * 32) * 64) g0 gstep
      buf) buf

/-- `ggml_ifairy64_lut_preprocess_ex_q16_64_lut16`: the part of worker `ith` of `nth`. -/
def preprocessQ1664 (isa : LutIsa) (k n : ℕ) (act : ℕ → ℕ → BlockIfairy64Q16) (ith nth : ℕ)
    (buf : LutBuffers) : LutBuffers :=
  let nth := max nth 1
  if nth ≤ ith then buf
  else
    let blocks := k / 64
    if nth ≤ n then workerColumns64 isa act blocks ith n nth 0 1 buf
    else workerColumns64 isa act blocks 0 n 1 ith nth buf

/-! ## The kernel for pairs -/

/-- The accumulators of a tile: real and imaginary parts of the lower and upper eight rows. -/
structure PairAcc where
  rLo : Fin 8 → ℚ
  rHi : Fin 8 → ℚ
  iLo : Fin 8 → ℚ
  iHi : Fin 8 → ℚ

def PairAcc.zero : PairAcc := ⟨fun _ => 0, fun _ => 0, fun _ => 0, fun _ => 0⟩

/-- `ggml_ifairy64_lut_accumulate_pair_channels`. -/
def accumulatePairChannels (wt0 wt1 : LutWtile16) (lutBlk : ℕ → Int8) : Avx2Sums × Avx2Sums :=
  (List.range 16).foldl (fun sum byteIdx =>
    (avx2Accumulate lutBlk wt0 byteIdx sum.1, avx2Accumulate lutBlk wt1 byteIdx sum.2))
    (.zero, .zero)

/-- A half of `ggml_ifairy64_lut_apply_pair_component`, with the scales from its offset on. -/
def applyPairComponent (sum0 sum1 : Fin 16 → BitVec 16) (scaleA0 scaleB0 scaleA1 scaleB1 : ℕ → ℚ)
    (vA vB : ℚ) (acc : Fin 8 → ℚ) : Fin 8 → ℚ := fun l =>
  let acc := acc l + (Avx2.castEpi16 sum0 l).toInt * (vA * scaleA0 l)
  let acc := acc + (Avx2.extractEpi16 sum0 l).toInt * (vB * scaleB0 l)
  let acc := acc + (Avx2.castEpi16 sum1 l).toInt * (vA * scaleA1 l)
  acc + (Avx2.extractEpi16 sum1 l).toInt * (vB * scaleB1 l)

/-- `ggml_ifairy64_lut_accumulate_pair`. -/
def accumulatePair (wt0 wt1 : LutWtile16) (lutBlk : ℕ → Int8) (vLr vLi : ℚ) (acc : PairAcc) :
    PairAcc :=
  let sum := accumulatePairChannels wt0 wt1 lutBlk
  let upper := fun (scale : ℕ → ℚ) l => scale (8 + l)
  { rLo := applyPairComponent sum.1.s01Lo sum.2.s01Lo wt0.dReal wt0.dImag wt1.dReal wt1.dImag
      vLr vLi acc.rLo
    rHi := applyPairComponent sum.1.s01Hi sum.2.s01Hi (upper wt0.dReal) (upper wt0.dImag)
      (upper wt1.dReal) (upper wt1.dImag) vLr vLi acc.rHi
    iLo := applyPairComponent sum.1.s23Lo sum.2.s23Lo wt0.dImag wt0.dReal wt1.dImag wt1.dReal
      vLr vLi acc.iLo
    iHi := applyPairComponent sum.1.s23Hi sum.2.s23Hi (upper wt0.dImag) (upper wt0.dReal)
      (upper wt1.dImag) (upper wt1.dReal) vLr vLi acc.iHi }

/-- The outputs of a tile: `out_r` and `out_i`. -/
def PairAcc.out (acc : PairAcc) (lane : ℕ) : Cplx :=
  if lane < 8 then ⟨acc.rLo (Fin.ofNat 8 lane), acc.iLo (Fin.ofNat 8 lane)⟩
  else ⟨acc.rHi (Fin.ofNat 8 lane), acc.iHi (Fin.ofNat 8 lane)⟩

/-- `ggml_ifairy64_lut_store_pair`. -/
def storePair (tile m : ℕ) (add : Bool) (acc : PairAcc) (dstCol : ℕ → Cplx) : ℕ → Cplx :=
  ((List.range 16).takeWhile fun lane => tile * 16 + lane < m).foldl (fun dstCol lane =>
    let prev : Cplx := if add then dstCol (tile * 16 + lane) else 0
    Function.update dstCol (tile * 16 + lane) (prev + acc.out lane)) dstCol

/-- The accumulators of a tile after all blocks. -/
def pairTile (blocks : ℕ) (wtiles0 wtiles1 : ℕ → LutWtile16) (lutCol : ℕ → Int8) (scales : ℕ → ℚ)
    (negateImagScale : Bool) (tile : ℕ) : PairAcc :=
  (List.range blocks).foldl (fun acc blk =>
    let vLr := scales (blk * 2 + 0)
    let vLi := if negateImagScale then -scales (blk * 2 + 1) else scales (blk * 2 + 1)
    accumulatePair (wtiles0 (tile * blocks + blk)) (wtiles1 (tile * blocks + blk))
      (fun a => lutCol (blk * 32 * 64 + a)) vLr vLi acc) .zero

/-- `ggml_ifairy64_lut_qgemm_pair_avx2`. -/
def qgemmPairAvx2 (m k n : ℕ) (wtiles0 wtiles1 : ℕ → LutWtile16) (buf : LutBuffers)
    (negateImagScale add : Bool) (dst : ℕ → ℕ → Cplx) : ℕ → ℕ → Cplx :=
  let blocks := k / 64
  let groups := blocks * 32
  let tiles := (m + 15) / 16
  (List.range n).foldl (fun dst col =>
    let lutCol := fun a => buf.lut (col * groups * 64 + a)
    let scales := fun a => buf.scales (col * blocks * 2 + a)
    Function.update dst col ((List.range tiles).foldl (fun dstCol tile =>
      storePair tile m add (pairTile blocks wtiles0 wtiles1 lutCol scales negateImagScale tile)
        dstCol) (dst col))) dst

/-- `ggml_ifairy64_lut_qgemm_four_cpu`: `none` stands for the result `false`. -/
def qgemmFour (isa : LutIsa) (m k n : ℕ) (u0 u1 w0 w1 : ℕ → LutWtile16) (buf : LutBuffers)
    (dst : ℕ → ℕ → Cplx) : Option (ℕ → ℕ → Cplx) :=
  if isa = .avx2 then
    if m = 0 then some dst
    else if k = 0 ∨ n = 0 then none
    else
      let dst := qgemmPairAvx2 m k n u0 u1 buf true false dst
      some (qgemmPairAvx2 m k n w0 w1 buf false true dst)
  else none

/-- The LUT product: `order` is the order in which the workers fill the tables. -/
def lutFour (isa : LutIsa) (m k n : ℕ) (u0 u1 w0 w1 : ℕ → BlockIfairy64)
    (act : ℕ → ℕ → BlockIfairy64Q16) (nth : ℕ) (order : List ℕ) (buf : LutBuffers)
    (dst : ℕ → ℕ → Cplx) : Option (ℕ → ℕ → Cplx) := do
  let packedU0 ← transformTensor64 u0 k m
  let packedU1 ← transformTensor64 u1 k m
  let packedW0 ← transformTensor64 w0 k m
  let packedW1 ← transformTensor64 w1 k m
  let buf := order.foldl (fun buf ith => preprocessQ1664 isa k n act ith nth buf) buf
  qgemmFour isa m k n packedU0 packedU1 packedW0 packedW1 buf dst

/-! ## After all workers -/

section Tables

variable (isa : LutIsa) {nb n : ℕ} (act : ℕ → ℕ → BlockIfairy64Q16)
  {col colStart colStep g0 gstep : ℕ} (buf : LutBuffers)

lemma workerColumns64_scale {blk : ℕ} (hblk : blk < nb) {e : ℕ} (he : e < 2) :
    (workerColumns64 isa act nb colStart n colStep g0 gstep buf).scales ((col * nb + blk) * 2 + e) =
      if col ∈ fromRange colStart n colStep then
        (if e = 0 then halfToRat (act col blk).dReal else halfToRat (act col blk).dImag)
      else buf.scales ((col * nb + blk) * 2 + e) := by
  have hother : ∀ col', col' ≠ col → ∀ buf : LutBuffers,
      fillScales (act col') nb (col' * nb * 2) buf.scales ((col * nb + blk) * 2 + e) =
        buf.scales ((col * nb + blk) * 2 + e) := fun col' hne buf =>
    fillScales_other (act col') (fun b hb heq => hne (mul_add_inj hblk hb heq).1.symm) buf.scales he
  split_ifs with hcol he0
  · subst he0
    refine foldl_read_of_cover _ (fun buf : LutBuffers => buf.scales ((col * nb + blk) * 2 + 0))
      (fun col' => col' = col) _ ?_ ?_ ⟨col, hcol, rfl⟩ buf
    · rintro col' - rfl buf
      exact (fillScales_own (act col') (col' * nb) hblk buf.scales).1
    · exact fun col' _ hne buf => hother col' hne buf
  · obtain rfl : e = 1 := by omega
    refine foldl_read_of_cover _ (fun buf : LutBuffers => buf.scales ((col * nb + blk) * 2 + 1))
      (fun col' => col' = col) _ ?_ ?_ ⟨col, hcol, rfl⟩ buf
    · rintro col' - rfl buf
      exact (fillScales_own (act col') (col' * nb) hblk buf.scales).2
    · exact fun col' _ hne buf => hother col' hne buf
  · refine foldl_read_of_not_cover _
      (fun buf : LutBuffers => buf.scales ((col * nb + blk) * 2 + e)) (fun col' hcol' buf => ?_) buf
    exact hother col' (fun heq => hcol (heq ▸ hcol')) buf

lemma workerColumns64_group {g : ℕ} (hg : g < nb * 32) (hstep : 0 < gstep) (c : Fin 64) :
    (workerColumns64 isa act nb colStart n colStep g0 gstep buf).lut
        ((col * (nb * 32) + g) * 64 + c) =
      if col ∈ fromRange colStart n colStep ∧ g ∈ fromRange g0 (nb * 32) gstep then
        (groupTables isa (act col) 32 g).byte c
      else buf.lut ((col * (nb * 32) + g) * 64 + c) := by
  have hgs : ∀ g ∈ fromRange g0 (nb * 32) gstep, g < nb * 32 := fun _ hg =>
    ((mem_fromRange hstep).mp hg).2.1
  split_ifs with h
  · exact columns_group_own (fun _ _ => rfl) hgs h.1 h.2 buf c
  · exact columns_group_other (fun _ _ => rfl) hgs hg h buf c

/-- What the buffers hold for a column. -/
structure Holds64 (nb col : ℕ) (actBlocks : ℕ → BlockIfairy64Q16) (buf : LutBuffers) : Prop where
  group : ∀ g < nb * 32, ∀ c : Fin 64,
    buf.lut ((col * (nb * 32) + g) * 64 + c) = (groupTables isa actBlocks 32 g).byte c
  scale : ∀ blk < nb, ∀ e < 2, buf.scales ((col * nb + blk) * 2 + e) =
    if e = 0 then halfToRat (actBlocks blk).dReal else halfToRat (actBlocks blk).dImag

variable {nth ith : ℕ}

lemma preprocessQ1664_group (hith : ith < nth) (hcol : col < n) {g : ℕ} (hg : g < nb * 32)
    (c : Fin 64) :
    (preprocessQ1664 isa (nb * 64) n act ith nth buf).lut ((col * (nb * 32) + g) * 64 + c) =
      if nth ≤ n ∧ ith = col % nth ∨ ¬ nth ≤ n ∧ ith = g % nth then
        (groupTables isa (act col) 32 g).byte c
      else buf.lut ((col * (nb * 32) + g) * 64 + c) := by
  have hnth : 0 < nth := Nat.zero_lt_of_lt hith
  have hall : ∀ {stop c : ℕ}, c < stop → c ∈ fromRange 0 stop 1 := fun hc => by
    rwa [fromRange_one, List.mem_range]
  have hmine : ∀ {stop c : ℕ}, c < stop → (c ∈ fromRange ith stop nth ↔ ith = c % nth) := fun hc =>
    ⟨eq_mod_of_mem_fromRange hith, fun h => h ▸ mod_mem_fromRange hnth hc⟩
  simp only [preprocessQ1664, max_eq_left (show 1 ≤ nth from hnth), if_neg (not_le.mpr hith),
    Nat.mul_div_cancel nb (show 0 < 64 by decide)]
  by_cases hshard : nth ≤ n
  · rw [if_pos hshard, workerColumns64_group isa act buf hg Nat.one_pos]
    simp only [hmine hcol, hall hg, hshard, true_and, and_true, not_true_eq_false, false_and,
      or_false]
  · rw [if_neg hshard, workerColumns64_group isa act buf hg hnth]
    simp only [hall hcol, hmine hg, hshard, false_and, not_false_eq_true, true_and, false_or]

lemma preprocessQ1664_scale (hith : ith < nth) (hcol : col < n) {blk : ℕ} (hblk : blk < nb) {e : ℕ}
    (he : e < 2) :
    (preprocessQ1664 isa (nb * 64) n act ith nth buf).scales ((col * nb + blk) * 2 + e) =
      if nth ≤ n ∧ ith = col % nth ∨ ¬ nth ≤ n then
        (if e = 0 then halfToRat (act col blk).dReal else halfToRat (act col blk).dImag)
      else buf.scales ((col * nb + blk) * 2 + e) := by
  have hnth : 0 < nth := Nat.zero_lt_of_lt hith
  have hall : col ∈ fromRange 0 n 1 := by rwa [fromRange_one, List.mem_range]
  have hmine : col ∈ fromRange ith n nth ↔ ith = col % nth :=
    ⟨eq_mod_of_mem_fromRange hith, fun h => h ▸ mod_mem_fromRange hnth hcol⟩
  simp only [preprocessQ1664, max_eq_left (show 1 ≤ nth from hnth), if_neg (not_le.mpr hith),
    Nat.mul_div_cancel nb (show 0 < 64 by decide)]
  by_cases hshard : nth ≤ n
  · rw [if_pos hshard, workerColumns64_scale isa act buf hblk he]
    simp only [hmine, hshard, true_and, not_true_eq_false, or_false]
  · rw [if_neg hshard, workerColumns64_scale isa act buf hblk he]
    simp only [hall, hshard, not_false_eq_true, or_true]

lemma preprocessQ1664_idle (k : ℕ) (hith : nth ≤ ith) (hnth : 0 < nth) :
    preprocessQ1664 isa k n act ith nth buf = buf := by
  simp only [preprocessQ1664, max_eq_left (show 1 ≤ nth from hnth), if_pos hith]

/-- After all workers, in any order, the buffers hold the tables and the scales of every
column. -/
theorem preprocessQ1664_holds (hnth : 0 < nth) {order : List ℕ} (hall : ∀ ith < nth, ith ∈ order)
    (hcol : col < n) :
    Holds64 isa nb col (act col)
      (order.foldl (fun buf ith => preprocessQ1664 isa (nb * 64) n act ith nth buf) buf) where
  group g hg c := by
    have howner : ∃ ith < nth, nth ≤ n ∧ ith = col % nth ∨ ¬ nth ≤ n ∧ ith = g % nth := by
      by_cases hshard : nth ≤ n
      · exact ⟨_, Nat.mod_lt col hnth, .inl ⟨hshard, rfl⟩⟩
      · exact ⟨_, Nat.mod_lt g hnth, .inr ⟨hshard, rfl⟩⟩
    obtain ⟨owner, hlt, howner⟩ := howner
    refine foldl_read_of_cover _
      (fun buf : LutBuffers => buf.lut ((col * (nb * 32) + g) * 64 + c)) (fun ith => ith < nth ∧
        (nth ≤ n ∧ ith = col % nth ∨ ¬ nth ≤ n ∧ ith = g % nth)) _ ?_ ?_
      ⟨owner, hall owner hlt, hlt, howner⟩ buf
    · rintro ith - ⟨hith, hown⟩ buf
      rw [preprocessQ1664_group isa act buf hith hcol hg, if_pos hown]
    · intro ith _ hnot buf
      by_cases hith : ith < nth
      · rw [preprocessQ1664_group isa act buf hith hcol hg, if_neg fun h => hnot ⟨hith, h⟩]
      · rw [preprocessQ1664_idle isa act buf _ (not_lt.mp hith) hnth]
  scale blk hblk e he := by
    have howner : ∃ ith < nth, nth ≤ n ∧ ith = col % nth ∨ ¬ nth ≤ n := by
      by_cases hshard : nth ≤ n
      · exact ⟨_, Nat.mod_lt col hnth, .inl ⟨hshard, rfl⟩⟩
      · exact ⟨0, hnth, .inr hshard⟩
    obtain ⟨owner, hlt, howner⟩ := howner
    refine foldl_read_of_cover _
      (fun buf : LutBuffers => buf.scales ((col * nb + blk) * 2 + e)) (fun ith => ith < nth ∧
        (nth ≤ n ∧ ith = col % nth ∨ ¬ nth ≤ n)) _ ?_ ?_ ⟨owner, hall owner hlt, hlt, howner⟩ buf
    · rintro ith - ⟨hith, hown⟩ buf
      rw [preprocessQ1664_scale isa act buf hith hcol hblk he, if_pos hown]
    · intro ith _ hnot buf
      by_cases hith : ith < nth
      · rw [preprocessQ1664_scale isa act buf hith hcol hblk he, if_neg fun h => hnot ⟨hith, h⟩]
      · rw [preprocessQ1664_idle isa act buf _ (not_lt.mp hith) hnth]

end Tables

/-! ## The value of a tile -/

/-- What a weight adds to a lane in a block. -/
def pairGain (wt : LutWtile16) (lutBlk : ℕ → Int8) (vLr vLi : ℚ) (lane : ℕ) : Cplx :=
  let sum := fun ch => (laneSumOf 16 lutBlk wt lane ch : ℚ)
  ⟨sum 0 * (vLr * wt.dReal lane) + sum 1 * (vLi * wt.dImag lane),
    sum 2 * (vLr * wt.dImag lane) + sum 3 * (vLi * wt.dReal lane)⟩

section Pair

variable (wt0 wt1 : LutWtile16) (lutBlk : ℕ → Int8)

def channelSums (wt : LutWtile16) : Avx2Sums :=
  (List.range 16).foldl (fun sum byteIdx => avx2Accumulate lutBlk wt byteIdx sum) .zero

lemma accumulatePairChannels_eq :
    accumulatePairChannels wt0 wt1 lutBlk = (channelSums lutBlk wt0, channelSums lutBlk wt1) :=
  foldl_prod (fun sum byteIdx => avx2Accumulate lutBlk wt0 byteIdx sum)
    (fun sum byteIdx => avx2Accumulate lutBlk wt1 byteIdx sum) _ _ _

/-- Lane `i` of the lower or upper eight rows. -/
lemma channelSums_lane (wt : LutWtile16) (i : Fin 8) :
    (Avx2.castEpi16 (channelSums lutBlk wt).s01Lo i).toInt = laneSumOf 16 lutBlk wt i 0 ∧
    (Avx2.extractEpi16 (channelSums lutBlk wt).s01Lo i).toInt = laneSumOf 16 lutBlk wt i 1 ∧
    (Avx2.castEpi16 (channelSums lutBlk wt).s23Lo i).toInt = laneSumOf 16 lutBlk wt i 2 ∧
    (Avx2.extractEpi16 (channelSums lutBlk wt).s23Lo i).toInt = laneSumOf 16 lutBlk wt i 3 ∧
    (Avx2.castEpi16 (channelSums lutBlk wt).s01Hi i).toInt = laneSumOf 16 lutBlk wt (8 + i) 0 ∧
    (Avx2.extractEpi16 (channelSums lutBlk wt).s01Hi i).toInt = laneSumOf 16 lutBlk wt (8 + i) 1 ∧
    (Avx2.castEpi16 (channelSums lutBlk wt).s23Hi i).toInt = laneSumOf 16 lutBlk wt (8 + i) 2 ∧
    (Avx2.extractEpi16 (channelSums lutBlk wt).s23Hi i).toInt =
      laneSumOf 16 lutBlk wt (8 + i) 3 := by
  have hfit : ∀ lane ch, (BitVec.ofInt 16 (laneSumOf 16 lutBlk wt lane ch)).toInt =
      laneSumOf 16 lutBlk wt lane ch := fun lane ch =>
    toInt_ofInt_laneSumOf lutBlk wt lane ch (by decide)
  obtain ⟨hac, hac', hbc, hbc'⟩ := avx2SumsOf_eq lutBlk wt 16 Nat.two_pos i.isLt
  obtain ⟨hbd, hbd', had, had'⟩ := avx2SumsOf_eq lutBlk wt 16 Nat.one_lt_two i.isLt
  simp only [Nat.mul_zero, Nat.zero_add, Nat.add_zero] at hac hac' hbc hbc' hbd hbd'
  refine ⟨?_, ?_, ?_, ?_, ?_, ?_, ?_, ?_⟩
  · exact (congrArg BitVec.toInt hac).trans (hfit _ _)
  · exact (congrArg BitVec.toInt hbd).trans (hfit _ _)
  · exact (congrArg BitVec.toInt hbc).trans (hfit _ _)
  · exact (congrArg BitVec.toInt had).trans (hfit _ _)
  · exact (congrArg BitVec.toInt hac').trans (hfit _ _)
  · exact (congrArg BitVec.toInt hbd').trans (hfit _ _)
  · exact (congrArg BitVec.toInt hbc').trans (hfit _ _)
  · exact (congrArg BitVec.toInt had').trans (hfit _ _)

lemma accumulatePair_out (vLr vLi : ℚ) (acc : PairAcc) {lane : ℕ} (hlane : lane < 16) :
    (accumulatePair wt0 wt1 lutBlk vLr vLi acc).out lane =
      acc.out lane +
        (pairGain wt0 lutBlk vLr vLi lane + pairGain wt1 lutBlk vLr vLi lane) := by
  rcases Nat.lt_or_ge lane 8 with h | h
  · obtain ⟨i, rfl⟩ : ∃ i : Fin 8, (i : ℕ) = lane := ⟨⟨lane, h⟩, rfl⟩
    have hi : Fin.ofNat 8 (i : ℕ) = i := Fin.ext (Nat.mod_eq_of_lt i.isLt)
    obtain ⟨hac, hbd, hbc, had, -⟩ := channelSums_lane lutBlk wt0 i
    obtain ⟨hac', hbd', hbc', had', -⟩ := channelSums_lane lutBlk wt1 i
    simp only [PairAcc.out, if_pos h, hi, accumulatePair, accumulatePairChannels_eq,
      applyPairComponent, hac, hbd, hbc, had, hac', hbd', hbc', had']
    ext
    · simp only [Cplx.re_add, pairGain]
      ring
    · simp only [Cplx.im_add, pairGain]
      ring
  · obtain ⟨i, rfl⟩ : ∃ i : Fin 8, 8 + (i : ℕ) = lane := ⟨⟨lane - 8, by omega⟩, by simp; omega⟩
    have hi : Fin.ofNat 8 (8 + (i : ℕ)) = i := Fin.ext (by simp only [Fin.ofNat]; omega)
    obtain ⟨-, -, -, -, hac, hbd, hbc, had⟩ := channelSums_lane lutBlk wt0 i
    obtain ⟨-, -, -, -, hac', hbd', hbc', had'⟩ := channelSums_lane lutBlk wt1 i
    simp only [PairAcc.out, if_neg (not_lt.mpr h), hi, accumulatePair, accumulatePairChannels_eq,
      applyPairComponent, hac, hbd, hbc, had, hac', hbd', hbc', had']
    ext
    · simp only [Cplx.re_add, pairGain]
      ring
    · simp only [Cplx.im_add, pairGain]
      ring

end Pair

section Tile

variable (blocks m : ℕ) (wtiles0 wtiles1 : ℕ → LutWtile16) (lutCol : ℕ → Int8) (scales : ℕ → ℚ)
  (negateImagScale add : Bool)

/-- What a row gains from a pair of weights. -/
def pairValue (row : ℕ) : Cplx :=
  ∑ blk ∈ Finset.range blocks,
    let vLi := if negateImagScale then -scales (blk * 2 + 1) else scales (blk * 2 + 1)
    let gain := fun (wtiles : ℕ → LutWtile16) => pairGain (wtiles (row / 16 * blocks + blk))
      (fun a => lutCol (blk * 32 * 64 + a)) (scales (blk * 2 + 0)) vLi (row % 16)
    (gain wtiles0 + gain wtiles1)

lemma pairTile_out (row : ℕ) :
    (pairTile blocks wtiles0 wtiles1 lutCol scales negateImagScale (row / 16)).out (row % 16) =
      pairValue blocks wtiles0 wtiles1 lutCol scales negateImagScale row := by
  have hzero : PairAcc.zero.out (row % 16) = 0 := by
    unfold PairAcc.out
    split_ifs <;> rfl
  refine (foldl_accumulate _ (fun acc : PairAcc => acc.out (row % 16)) _ blocks
    (fun acc blk _ => ?_) _).trans (by rw [hzero, zero_add]; rfl)
  exact accumulatePair_out _ _ _ _ _ acc (Nat.mod_lt _ (by decide))

/-- A tile stores its rows below `m`. -/
lemma storePair_apply (tile : ℕ) (acc : PairAcc) (dstCol : ℕ → Cplx) (row : ℕ) :
    storePair tile m add acc dstCol row =
      if row / 16 = tile ∧ row < m then (if add then dstCol row else 0) + acc.out (row % 16)
      else dstCol row := by
  have hmem : ∀ lane, lane ∈ (List.range 16).takeWhile (fun lane => tile * 16 + lane < m) ↔
      lane < 16 ∧ tile * 16 + lane < m := by
    intro lane
    rw [mem_takeWhile_range fun i j hij hj => by
      have hj := of_decide_eq_true hj
      exact decide_eq_true (by omega)]
    rw [decide_eq_true_iff]
  have hnodup : ((List.range 16).takeWhile fun lane => tile * 16 + lane < m).Nodup :=
    List.nodup_range.sublist (List.takeWhile_sublist _)
  unfold storePair
  by_cases h : row / 16 = tile ∧ row < m
  · rw [if_pos h]
    obtain ⟨rfl, hrow⟩ := h
    have hsplit : row / 16 * 16 + row % 16 = row := Nat.div_add_mod' row 16
    refine foldl_read_once _ (fun dstCol : ℕ → Cplx => dstCol row) hnodup
      ((hmem (row % 16)).mpr ⟨Nat.mod_lt _ (by decide), by omega⟩)
      (fun prev => (if add then prev else 0) + acc.out (row % 16)) (fun dstCol => ?_)
      (fun lane _ hne dstCol => ?_) dstCol
    · simp only [hsplit, Function.update_self]
    · exact Function.update_of_ne (by omega) _ _
  · rw [if_neg h]
    refine foldl_read_of_not_cover _ (fun dstCol : ℕ → Cplx => dstCol row)
      (fun lane hlane dstCol => ?_) dstCol
    obtain ⟨hlt, hrow⟩ := (hmem lane).mp hlane
    exact Function.update_of_ne (fun heq => h ⟨by omega, by omega⟩) _ _

/-- A column gains the values of its rows, and only the rows below `m` are written. -/
lemma pairColumn_apply (dstCol : ℕ → Cplx) (row : ℕ) :
    (List.range ((m + 15) / 16)).foldl (fun dstCol tile => storePair tile m add
      (pairTile blocks wtiles0 wtiles1 lutCol scales negateImagScale tile) dstCol) dstCol row =
      if row < m then (if add then dstCol row else 0) +
        pairValue blocks wtiles0 wtiles1 lutCol scales negateImagScale row
      else dstCol row := by
  by_cases hrow : row < m
  · rw [if_pos hrow]
    refine foldl_read_once _ (fun dstCol : ℕ → Cplx => dstCol row) List.nodup_range
      (List.mem_range.mpr (show row / 16 < (m + 15) / 16 by omega))
      (fun prev => (if add then prev else 0) +
        pairValue blocks wtiles0 wtiles1 lutCol scales negateImagScale row) (fun dstCol => ?_)
      (fun tile _ hne dstCol => ?_) dstCol
    · rw [storePair_apply, if_pos ⟨rfl, hrow⟩, pairTile_out]
    · rw [storePair_apply, if_neg fun h => hne h.1.symm]
  · rw [if_neg hrow]
    refine foldl_read_of_not_cover _ (fun dstCol : ℕ → Cplx => dstCol row)
      (fun tile _ dstCol => ?_) dstCol
    rw [storePair_apply, if_neg fun h => hrow h.2]

lemma qgemmPairAvx2_apply (nb n : ℕ) (buf : LutBuffers) (dst : ℕ → ℕ → Cplx) (col row : ℕ) :
    qgemmPairAvx2 m (nb * 64) n wtiles0 wtiles1 buf negateImagScale add dst col row =
      if col < n ∧ row < m then (if add then dst col row else 0) +
        pairValue nb wtiles0 wtiles1 (fun a => buf.lut (col * (nb * 32) * 64 + a))
          (fun a => buf.scales (col * nb * 2 + a)) negateImagScale row
      else dst col row := by
  simp only [qgemmPairAvx2, Nat.mul_div_cancel nb (show 0 < 64 by decide)]
  rw [foldl_update_range (fun col dstCol => (List.range ((m + 15) / 16)).foldl (fun dstCol tile =>
    storePair tile m add (pairTile nb wtiles0 wtiles1 (fun a => buf.lut (col * (nb * 32) * 64 + a))
      (fun a => buf.scales (col * nb * 2 + a)) negateImagScale tile) dstCol) dstCol) n dst col]
  by_cases hcol : col < n
  · rw [if_pos hcol, pairColumn_apply]
    simp only [hcol, true_and]
  · rw [if_neg hcol, if_neg fun h => hcol h.1]

end Tile

/-! ## The direct kernel -/

/-- What a weight adds to an output in a block. -/
def branch (w : ℕ → BlockIfairy64) (x : ℕ → BlockIfairy64Q16) (conjugateInput : Bool) (b : ℕ) :
    Cplx :=
  applyBranch (w b) (x b) (productSums (w b) (x b)) conjugateInput 0

lemma applyBranch_add (w : BlockIfairy64) (x : BlockIfairy64Q16) (sums : BlockSums)
    (conjugateInput : Bool) (acc : Cplx) :
    applyBranch w x sums conjugateInput acc = acc + applyBranch w x sums conjugateInput 0 := by
  cases conjugateInput
  · ext
    · simp [applyBranch]
    · simp [applyBranch]
  · ext
    · simp [applyBranch]
    · simp [applyBranch]

lemma fuseAccumulateFour_pairs (isa : WideIsa) (u0 u1 w0 w1 : ℕ → BlockIfairy64)
    {x : ℕ → BlockIfairy64Q16} {blocks : ℕ} (hx : ∀ b < blocks, Negatable (x b)) :
    fuseAccumulateFour isa u0 u1 w0 w1 x blocks 0 =
      ∑ b ∈ Finset.range blocks, (branch u0 x false b + branch u1 x false b) +
        ∑ b ∈ Finset.range blocks, (branch w0 x true b + branch w1 x true b) := by
  rw [← Finset.sum_add_distrib]
  refine (foldl_accumulate _ id _ blocks (fun acc b hb => ?_) 0).trans (zero_add _)
  simp only [id, accumulateFour_eq isa (u0 b) (u1 b) (w0 b) (w1 b) (.inr (hx b hb))]
  rw [applyBranch_add (w1 b), applyBranch_add (w0 b), applyBranch_add (u1 b),
    applyBranch_add (u0 b)]
  simp only [branch, add_assoc]

/-! ## Both ways the same -/

lemma sum_channelTerm (w : BlockIfairy64) (x : BlockIfairy64Q16) :
    ∑ j ∈ Finset.range 64, channelTerm w x 0 j = (productSums w x).ac ∧
    ∑ j ∈ Finset.range 64, channelTerm w x 1 j = (productSums w x).bd ∧
    ∑ j ∈ Finset.range 64, channelTerm w x 2 j = (productSums w x).bc ∧
    ∑ j ∈ Finset.range 64, channelTerm w x 3 j = -(productSums w x).ad := by
  refine ⟨?_, ?_, ?_, ?_⟩
  · exact Finset.sum_congr rfl fun j _ => mul_comm _ _
  · exact Finset.sum_congr rfl fun j _ => mul_comm _ _
  · exact Finset.sum_congr rfl fun j _ => mul_comm _ _
  · rw [productSums, ← Finset.sum_neg_distrib]
    exact Finset.sum_congr rfl fun j _ => congrArg Neg.neg (mul_comm _ _)

/-- The sign of the imaginary scale decides whether a weight is multiplied by the activations or by
their conjugates. -/
lemma pairGain_eq {isa : LutIsa} {nb blk lane : ℕ} {w : ℕ → BlockIfairy64}
    {x : ℕ → BlockIfairy64Q16} {lutBlk : ℕ → Int8} {wt : LutWtile16} (hblk : blk < nb)
    (hgroup : ∀ g < 32, ∀ c : Fin 64,
      lutBlk (g * 64 + c) = (groupTables isa x 32 (blk * 32 + g)).byte c)
    (hrange : ∀ j < 64, InLutRange (q16Re (x blk) j) ∧ InLutRange (q16Im (x blk) j))
    (hlane : wt.laneDataOf 32 lane = (halfToRat (w blk).dReal, halfToRat (w blk).dImag,
      fun byte : Fin 16 => patternByte 32 w (nb * 64) blk byte)) (negateImagScale : Bool) :
    pairGain wt lutBlk (halfToRat (x blk).dReal)
        (if negateImagScale then -halfToRat (x blk).dImag else halfToRat (x blk).dImag) lane =
      branch w x (!negateImagScale) blk := by
  have hreal : wt.dReal lane = halfToRat (w blk).dReal := congrArg (fun d => d.1) hlane
  have himag : wt.dImag lane = halfToRat (w blk).dImag := congrArg (fun d => d.2.1) hlane
  have hqs : ∀ byte : Fin 16, wt.qs byte lane = patternByte 32 w (nb * 64) blk byte := fun byte =>
    congrFun (congrArg (fun d => d.2.2) hlane) byte
  have hsum : ∀ ch < 4, laneSumOf 16 lutBlk wt lane ch =
      ∑ j ∈ Finset.range 64, channelTerm (w blk) (x blk) ch j := fun ch hch =>
    laneSumOf_eq (show 2 ∣ 32 by decide) hgroup hblk hrange hqs hch
  obtain ⟨hac, hbd, hbc, had⟩ := sum_channelTerm (w blk) (x blk)
  simp only [pairGain, hsum 0 (by decide), hsum 1 (by decide), hsum 2 (by decide),
    hsum 3 (by decide), hac, hbd, hbc, had, hreal, himag, branch, applyBranch]
  cases negateImagScale
  · ext
    · simp
    · simp
      ring
  · ext
    · simp
      ring
    · simp

/-- A packed tensor holds the rows of a matrix. -/
def HoldsRows (packed : ℕ → LutWtile16) (weights : ℕ → BlockIfairy64) (nb rows : ℕ) : Prop :=
  ∀ row < rows, ∀ blk < nb, (packed (row / 16 * nb + blk)).laneDataOf 32 (row % 16) =
    (halfToRat (rowBlocks weights nb row blk).dReal, halfToRat (rowBlocks weights nb row blk).dImag,
      fun byte : Fin 16 => patternByte 32 (rowBlocks weights nb row) (nb * 64) blk byte)

lemma transformTensor64_holds (weights : ℕ → BlockIfairy64) {nb rows : ℕ} (hnb : 0 < nb)
    (hrows : 0 < rows) :
    ∃ packed, transformTensor64 weights (nb * 64) rows = some packed ∧
      HoldsRows packed weights nb rows :=
  transformTensorOf_lane weights (show 0 < 32 by decide) hnb hrows

/-- The activations that the tables are made for. -/
def InTableRange (nb : ℕ) (x : ℕ → BlockIfairy64Q16) : Prop :=
  ∀ blk < nb, ∀ j < 64, InLutRange (q16Re (x blk) j) ∧ InLutRange (q16Im (x blk) j)

lemma InTableRange.negatable {nb : ℕ} {x : ℕ → BlockIfairy64Q16} (h : InTableRange nb x) :
    ∀ blk < nb, Negatable (x blk) := fun blk hblk j hj => by
  obtain ⟨⟨hr, -⟩, hi, -⟩ := h blk hblk j hj
  exact ⟨by omega, by omega⟩

lemma pairValue_eq {isa : LutIsa} {nb m col row : ℕ} {a b : ℕ → BlockIfairy64}
    {x : ℕ → BlockIfairy64Q16} {buf : LutBuffers} {packedA packedB : ℕ → LutWtile16}
    (hbuf : Holds64 isa nb col x buf) (hx : InTableRange nb x) (ha : HoldsRows packedA a nb m)
    (hb : HoldsRows packedB b nb m) (hrow : row < m) (negateImagScale : Bool) :
    pairValue nb packedA packedB (fun p => buf.lut (col * (nb * 32) * 64 + p))
        (fun p => buf.scales (col * nb * 2 + p)) negateImagScale row =
      ∑ blk ∈ Finset.range nb, (branch (rowBlocks a nb row) x (!negateImagScale) blk +
        branch (rowBlocks b nb row) x (!negateImagScale) blk) := by
  refine Finset.sum_congr rfl fun blk hmem => ?_
  have hblk := Finset.mem_range.mp hmem
  have hgroup : ∀ g < 32, ∀ c : Fin 64,
      buf.lut (col * (nb * 32) * 64 + (blk * 32 * 64 + (g * 64 + c))) =
        (groupTables isa x 32 (blk * 32 + g)).byte c := by
    intro g hg c
    rw [← hbuf.group (blk * 32 + g) (by omega) c]
    exact congrArg buf.lut (by ring)
  have hscale : ∀ e < 2, buf.scales (col * nb * 2 + (blk * 2 + e)) =
      if e = 0 then halfToRat (x blk).dReal else halfToRat (x blk).dImag := by
    intro e he
    rw [← hbuf.scale blk hblk e he]
    exact congrArg buf.scales (by ring)
  simp only [hscale 0 Nat.two_pos, hscale 1 Nat.one_lt_two, if_true, Nat.one_ne_zero, if_false]
  rw [pairGain_eq hblk hgroup (hx blk hblk) (ha row hrow blk hblk),
    pairGain_eq hblk hgroup (hx blk hblk) (hb row hrow blk hblk)]

lemma lutFour_isSome (isa : LutIsa) {m k n : ℕ} (hk : 64 ∣ k) (u0 u1 w0 w1 : ℕ → BlockIfairy64)
    (act : ℕ → ℕ → BlockIfairy64Q16) (nth : ℕ) (order : List ℕ) (buf : LutBuffers)
    (dst : ℕ → ℕ → Cplx) :
    (lutFour isa m k n u0 u1 w0 w1 act nth order buf dst).isSome ↔
      isa = .avx2 ∧ 0 < m ∧ 0 < k ∧ 0 < n := by
  have hmod : k % 64 = 0 := Nat.mod_eq_zero_of_dvd hk
  by_cases hmk : m = 0 ∨ k = 0
  · have hnone : transformTensor64 u0 k m = none := if_pos (by tauto)
    rw [lutFour, hnone]
    refine iff_of_false (by simp) ?_
    omega
  · have hsome : ∀ w, ∃ packed, transformTensor64 w k m = some packed := fun w =>
      ⟨_, if_neg (by omega)⟩
    obtain ⟨packedU0, hu0⟩ := hsome u0
    obtain ⟨packedU1, hu1⟩ := hsome u1
    obtain ⟨packedW0, hw0⟩ := hsome w0
    obtain ⟨packedW1, hw1⟩ := hsome w1
    rw [lutFour, hu0, hu1, hw0, hw1]
    show (qgemmFour isa m k n _ _ _ _ _ dst).isSome ↔ _
    unfold qgemmFour
    split_ifs with hisa hm hkn
    · omega
    · refine iff_of_false (by simp) ?_
      omega
    · refine iff_of_true rfl ⟨hisa, ?_⟩
      omega
    · exact iff_of_false (by simp) fun h => hisa h.1

/-- The LUT product is the complex matrix of the direct kernel, and it is computed for every matrix
that is not empty; entries outside the matrix are not written. -/
theorem lutFour_eq_direct (isa : LutIsa) {m k n nth : ℕ} (hk : 64 ∣ k)
    (u0 u1 w0 w1 : ℕ → BlockIfairy64) (act : ℕ → ℕ → BlockIfairy64Q16)
    (hact : ∀ col < n, InTableRange (k / 64) (act col)) (hnth : 0 < nth) {order : List ℕ}
    (hall : ∀ ith < nth, ith ∈ order) (buf : LutBuffers) (dst : ℕ → ℕ → Cplx) :
    ((lutFour isa m k n u0 u1 w0 w1 act nth order buf dst).isSome ↔
      isa = .avx2 ∧ 0 < m ∧ 0 < k ∧ 0 < n) ∧
    ∀ out ∈ lutFour isa m k n u0 u1 w0 w1 act nth order buf dst, ∀ col row,
      (col < n ∧ row < m → ∀ isa', out col row = fuseAccumulateFour isa'
        (rowBlocks u0 (k / 64) row) (rowBlocks u1 (k / 64) row) (rowBlocks w0 (k / 64) row)
        (rowBlocks w1 (k / 64) row) (act col) (k / 64) 0) ∧
      (¬ (col < n ∧ row < m) → out col row = dst col row) := by
  have hsome := lutFour_isSome isa (m := m) (n := n) hk u0 u1 w0 w1 act nth order buf dst
  refine ⟨hsome, fun out hout col row => ?_⟩
  obtain ⟨rfl, hm, hkpos, hn⟩ := hsome.1 (Option.isSome_iff_exists.2 ⟨out, hout⟩)
  obtain ⟨nb, rfl⟩ := hk
  rw [Nat.mul_comm 64 nb] at *
  rw [Nat.mul_div_cancel nb (show 0 < 64 by decide)] at *
  have hnb : 0 < nb := by omega
  obtain ⟨packedU0, hu0, hholds0⟩ := transformTensor64_holds u0 hnb hm
  obtain ⟨packedU1, hu1, hholds1⟩ := transformTensor64_holds u1 hnb hm
  obtain ⟨packedW0, hw0, hholds2⟩ := transformTensor64_holds w0 hnb hm
  obtain ⟨packedW1, hw1, hholds3⟩ := transformTensor64_holds w1 hnb hm
  have hvalue : lutFour .avx2 m (nb * 64) n u0 u1 w0 w1 act nth order buf dst =
      qgemmFour .avx2 m (nb * 64) n packedU0 packedU1 packedW0 packedW1
        (order.foldl (fun buf ith => preprocessQ1664 .avx2 (nb * 64) n act ith nth buf) buf) dst := by
    rw [lutFour, hu0, hu1, hw0, hw1]
    rfl
  rw [hvalue, qgemmFour, if_pos rfl, if_neg (by omega), if_neg (by omega),
    Option.mem_some_iff] at hout
  subst hout
  rw [qgemmPairAvx2_apply, qgemmPairAvx2_apply]
  refine ⟨fun hcell isa' => ?_, fun hcell => ?_⟩
  · have hbuf : Holds64 .avx2 nb col (act col) _ :=
      preprocessQ1664_holds .avx2 act buf hnth hall hcell.1
    have hx := hact col hcell.1
    rw [if_pos hcell, if_pos hcell, if_pos rfl, if_neg (by decide), zero_add,
      pairValue_eq hbuf hx hholds0 hholds1 hcell.2, pairValue_eq hbuf hx hholds2 hholds3 hcell.2,
      fuseAccumulateFour_pairs isa' _ _ _ _ hx.negatable]
    rfl
  · rw [if_neg hcell, if_neg hcell]

/-- Seventeen rows, so that the second tile has one, with more workers than columns. -/
theorem lutFour_eq_direct_seventeen :
    let weights : ℕ → BlockIfairy64 := fun b => ⟨fun i => UInt8.ofNat (b + i), 0x3c00, 0x4000⟩
    let act : ℕ → ℕ → BlockIfairy64Q16 := fun _ _ => ⟨fun _ => 63, fun _ => 193, 0x3c00, 0x3c00⟩
    ∃ out, lutFour .avx2 17 64 2 weights weights weights weights act 3 [2, 0, 1]
        ⟨fun _ => 0, fun _ => 0⟩ (fun _ _ => 0) = some out ∧
      ∀ row < 17, ∀ col < 2, out col row = fuseAccumulateFour .avx512 (rowBlocks weights 1 row)
        (rowBlocks weights 1 row) (rowBlocks weights 1 row) (rowBlocks weights 1 row) (act col) 1
        0 := by
  intro weights act
  have hrange : InLutRange (63 : UInt8).toInt8.toInt ∧ InLutRange (193 : UInt8).toInt8.toInt := by
    unfold InLutRange
    decide
  obtain ⟨hsome, hvalue⟩ := lutFour_eq_direct .avx2 (m := 17) (k := 64) (n := 2) (dvd_refl 64)
    weights weights weights weights act (fun _ _ _ _ _ _ => hrange) (show 0 < 3 by decide)
    (show ∀ ith < 3, ith ∈ [2, 0, 1] by decide) ⟨fun _ => 0, fun _ => 0⟩ (fun _ _ => 0)
  obtain ⟨out, hout⟩ := Option.isSome_iff_exists.1 (hsome.2 ⟨rfl, by decide, by decide, by decide⟩)
  exact ⟨out, hout, fun row hrow col hcol => (hvalue out hout col row).1 ⟨hcol, hrow⟩ .avx512⟩

end IFairy.Wide
