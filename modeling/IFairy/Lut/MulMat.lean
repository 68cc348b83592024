import IFairy.Lut.QgemmSpec

/-!
# The LUT path is the dot product

The LUT path of a matrix product packs the weights once, fills the tables of every activation
column and multiplies.  With activations that the dispatch accepts and weights whose rows have one
pair of scales, each output is the value of the direct kernel, in exact rational arithmetic
(`lut_path_eq_vecDot`): the packed patterns index the tables in the right order, and the entries
carry the signs of `w * conj x`.
-/

namespace IFairy

/-- The test of the dispatch on an activation byte. -/
def lutAcceptsByte (b : UInt8) : Bool := !(63 < b.toNat && b.toNat < 193)

/-- The dispatch takes the LUT path for a column whose bytes all pass. -/
def LutAccepts (k : ℕ) (x : ℕ → BlockIfairyQ16) : Prop :=
  ∀ b < k / 256, ∀ j < 256, lutAcceptsByte ((x b).xReal j) ∧ lutAcceptsByte ((x b).xImag j)

/-- All blocks of a row have one pair of scales, as `quantize_row_ifairy_ref` makes them. -/
def SharesScales (k : ℕ) (w : ℕ → BlockIfairy) : Prop :=
  ∀ b < k / 256, (w b).dReal = (w 0).dReal ∧ (w b).dImag = (w 0).dImag

/-- The LUT path: `order` is the order in which the workers fill the tables. -/
def lutMulMat (isa : LutIsa) (m k n : ℕ) (weights : ℕ → BlockIfairy)
    (act : ℕ → ℕ → BlockIfairyQ16) (nth : ℕ) (order : List ℕ) (buf : LutBuffers)
    (dst : ℕ → ℕ → Cplx) : Option (ℕ → ℕ → Cplx) := do
  let wtiles ← transformTensor weights k m
  let buf := order.foldl (fun buf ith => preprocessLut16 isa k n act ith nth buf) buf
  return qgemmLut16 isa m k n wtiles buf false dst

/-! ## Entries -/

lemma inLutRange_of_accepts {b : UInt8} (h : lutAcceptsByte b) : InLutRange b.toInt8.toInt := by
  have hb := b.toNat_lt
  have hvalue : b.toInt8.toInt = if b.toNat < 128 then (b.toNat : ℤ) else b.toNat - 256 := by
    rw [← Int8.toInt_toBitVec, UInt8.toBitVec_toInt8, BitVec.toInt_eq_toNat_cond]
    simp only [UInt8.toNat_toBitVec]
    norm_num
    split_ifs <;> omega
  have haccept : b.toNat ≤ 63 ∨ 193 ≤ b.toNat := by simpa [lutAcceptsByte] using h
  unfold InLutRange
  rw [hvalue]
  split_ifs <;> omega

/-- What element `j` of a block contributes to channel `ch`. -/
def channelTerm (w : BlockIfairy) (x : BlockIfairyQ16) (ch j : ℕ) : ℤ :=
  let code := codeAt w.qs j
  match ch with
  | 0 => phaseRe code * q16Re x j
  | 1 => phaseIm code * q16Im x j
  | 2 => phaseIm code * q16Re x j
  | _ => -(phaseRe code * q16Im x j)

lemma firstCode_eq {p : ℕ} {c0 c1 : UInt8} (h0 : c0.toNat < 4) (hp : p = c0.toNat + 4 * c1.toNat) :
    firstCode p = c0 := by
  have hmod : p % 4 = c0.toNat := by omega
  rw [firstCode, hmod, UInt8.ofNat_toNat]

lemma secondCode_eq {p : ℕ} {c0 c1 : UInt8} (h0 : c0.toNat < 4) (h1 : c1.toNat < 4)
    (hp : p = c0.toNat + 4 * c1.toNat) : secondCode p = c1 := by
  have hmod : p / 4 % 4 = c1.toNat := by omega
  rw [secondCode, hmod, UInt8.ofNat_toNat]

/-- The entry that the pattern of group `g` picks from channel `ch`: its two elements. -/
lemma groupTables_entry (isa : LutIsa) {x : ℕ → BlockIfairyQ16} {w : ℕ → BlockIfairy}
    {gpb nb blk g ch : ℕ} (hblk : blk < nb) (hg : g < gpb) (hch : ch < 4)
    (hrange : ∀ j < 2 * gpb, InLutRange (q16Re (x blk) j) ∧ InLutRange (q16Im (x blk) j))
    {c : Fin 64}
    (hc : (c : ℕ) = ch * 16 + (encodeGroupOf gpb w (nb * (2 * gpb)) (blk * gpb + g)).toNat) :
    ((groupTables isa x gpb (blk * gpb + g)).byte c).toInt =
      channelTerm (w blk) (x blk) ch (2 * g) + channelTerm (w blk) (x blk) ch (2 * g + 1) := by
  have hdiv : (blk * gpb + g) / gpb = blk := by
    rw [Nat.mul_comm, Nat.mul_add_div (by omega), Nat.div_eq_of_lt hg, Nat.add_zero]
  have hmod : (blk * gpb + g) % gpb = g := by
    rw [Nat.mul_comm, Nat.mul_add_mod, Nat.mod_eq_of_lt hg]
  have hlt := encodeGroupOf_lt w hblk hg
  have hpattern := encodeGroupOf_toNat w hblk hg
  have hentry : (c : ℕ) / 16 = ch ∧
      (c : ℕ) % 16 = (encodeGroupOf gpb w (nb * (2 * gpb)) (blk * gpb + g)).toNat := by omega
  have hfirst := firstCode_eq (codeAt_lt _ _) hpattern
  have hsecond := secondCode_eq (codeAt_lt _ _) (codeAt_lt _ _) hpattern
  obtain ⟨hr0, hi0⟩ := hrange (2 * g) (by omega)
  obtain ⟨hr1, hi1⟩ := hrange (2 * g + 1) (by omega)
  have hright := fillGroup_right hr0 hi0 hr1 hi1 isa
  have htables : groupTables isa x gpb (blk * gpb + g) = fillGroup isa (q16Re (x blk) (2 * g))
      (q16Im (x blk) (2 * g)) (q16Re (x blk) (2 * g + 1)) (q16Im (x blk) (2 * g + 1)) := by
    simp only [groupTables, hdiv, hmod, Nat.add_zero, Nat.mul_comm g 2]
  rw [htables, GroupTables.byte, hentry.1]
  obtain rfl | rfl | rfl | rfl : ch = 0 ∨ ch = 1 ∨ ch = 2 ∨ ch = 3 := by omega
  · refine (hright.ac _).trans ?_
    simp only [hentry.2, hfirst, hsecond, channelTerm]
  · refine (hright.bd _).trans ?_
    simp only [hentry.2, hfirst, hsecond, channelTerm]
  · refine (hright.bc _).trans ?_
    simp only [hentry.2, hfirst, hsecond, channelTerm]
  · refine (hright.ad _).trans ?_
    simp only [hentry.2, hfirst, hsecond, channelTerm]
    ring

/-! ## Sums -/

lemma laneSumOf_eq {isa : LutIsa} {gpb nb blk lane : ℕ} {x : ℕ → BlockIfairyQ16}
    {w : ℕ → BlockIfairy} {lutBlk : ℕ → Int8} {wt : LutWtile16} (heven : 2 ∣ gpb)
    (hgroup : ∀ g < gpb, ∀ c : Fin 64,
      lutBlk (g * 64 + c) = (groupTables isa x gpb (blk * gpb + g)).byte c)
    (hblk : blk < nb)
    (hrange : ∀ j < 2 * gpb, InLutRange (q16Re (x blk) j) ∧ InLutRange (q16Im (x blk) j))
    (hqs : ∀ byte : Fin (gpb / 2), wt.qs byte lane = patternByte gpb w (nb * (2 * gpb)) blk byte)
    {ch : ℕ} (hch : ch < 4) :
    laneSumOf (gpb / 2) lutBlk wt lane ch =
      ∑ j ∈ Finset.range (2 * gpb), channelTerm (w blk) (x blk) ch j := by
  have hentry : ∀ g < gpb, ∀ b : UInt8, b = encodeGroupOf gpb w (nb * (2 * gpb)) (blk * gpb + g) →
      (lutBlk (g * 64 + (ch * 16 + b.toNat))).toInt =
        channelTerm (w blk) (x blk) ch (2 * g) + channelTerm (w blk) (x blk) ch (2 * g + 1) := by
    rintro g hg b rfl
    have hlt := encodeGroupOf_lt w hblk hg
    have hc : ch * 16 + (encodeGroupOf gpb w (nb * (2 * gpb)) (blk * gpb + g)).toNat < 64 := by
      omega
    rw [hgroup g hg ⟨_, hc⟩]
    exact groupTables_entry isa hblk hg hch hrange rfl
  have hsplit : 2 * gpb = gpb / 2 * 2 * 2 := by omega
  rw [hsplit, ← sum_range_pairs, ← sum_range_pairs]
  refine Finset.sum_congr rfl fun byteIdx hbyte => ?_
  have hlt := Finset.mem_range.mp hbyte
  have hmask : ∀ b : UInt8, b.toNat < 16 → lowNibble b = b := fun b hb =>
    UInt8.toNat_inj.mp (lowNibble_idem hb)
  have heven := encodeGroupOf_lt w hblk (show 2 * byteIdx < gpb by omega)
  have hodd := encodeGroupOf_lt w hblk (show 2 * byteIdx + 1 < gpb by omega)
  have hbytes : wt.qs byteIdx lane =
      packNibbles (encodeGroupOf gpb w (nb * (2 * gpb)) (blk * gpb + 2 * byteIdx))
        (encodeGroupOf gpb w (nb * (2 * gpb)) (blk * gpb + (2 * byteIdx + 1))) := by
    have h := hqs ⟨byteIdx, hlt⟩
    rwa [patternByte, hmask _ heven, hmask _ hodd] at h
  have hlow := hentry (2 * byteIdx) (by omega) (lowNibble (wt.qs byteIdx lane))
    (by rw [hbytes, lowNibble_packNibbles heven hodd])
  have hhigh := hentry (2 * byteIdx + 1) (by omega) (highNibble (wt.qs byteIdx lane))
    (by rw [hbytes, highNibble_packNibbles heven hodd])
  have haddr : ∀ p, byteIdx * 128 + ch * 16 + p = 2 * byteIdx * 64 + (ch * 16 + p) := fun p => by
    ring
  have haddr' : ∀ p, byteIdx * 128 + 64 + ch * 16 + p =
      (2 * byteIdx + 1) * 64 + (ch * 16 + p) := fun p => by ring
  rw [← hlow, ← hhigh]
  simp only [entryPair, haddr, haddr']

section Lane

variable {isa : LutIsa} {nb col blk lane : ℕ} {x : ℕ → BlockIfairyQ16} {w : ℕ → BlockIfairy}
  {buf : LutBuffers} {wt : LutWtile16}

lemma laneSum_eq (hbuf : buf.Holds isa nb col x) (hblk : blk < nb)
    (hrange : ∀ j < 256, InLutRange (q16Re (x blk) j) ∧ InLutRange (q16Im (x blk) j))
    (hqs : ∀ byte : Fin 64, wt.qs byte lane =
      packNibbles (lowNibble (encodeGroup w (nb * 256) (blk * 128 + 2 * byte)))
        (lowNibble (encodeGroup w (nb * 256) (blk * 128 + (2 * byte + 1)))))
    {ch : ℕ} (hch : ch < 4) :
    laneSum (fun a => buf.lut (col * (nb * 128) * 64 + (blk * 128 * 64 + a))) wt lane ch =
      ∑ j ∈ Finset.range 256, channelTerm (w blk) (x blk) ch j := by
  have hgroup : ∀ g < 128, ∀ c : Fin 64,
      buf.lut (col * (nb * 128) * 64 + (blk * 128 * 64 + (g * 64 + c))) =
        (groupTables isa x 128 (blk * 128 + g)).byte c := by
    intro g hg c
    rw [← hbuf.group (blk * 128 + g) (by omega) c]
    exact congrArg buf.lut (by ring)
  exact laneSumOf_eq (show 2 ∣ 128 by decide) hgroup hblk hrange hqs hch

lemma laneValue_eq {wtiles : ℕ → LutWtile16} {row : ℕ}
    (hbuf : buf.Holds isa nb col x)
    (hrange : ∀ blk < nb, ∀ j < 256, InLutRange (q16Re (x blk) j) ∧ InLutRange (q16Im (x blk) j))
    (hlane : ∀ blk < nb, (wtiles (row / 16 * nb + blk)).laneData (row % 16) =
      (halfToRat (w blk).dReal, halfToRat (w blk).dImag, fun byte : Fin 64 =>
        packNibbles (lowNibble (encodeGroup w (nb * 256) (blk * 128 + 2 * byte)))
          (lowNibble (encodeGroup w (nb * 256) (blk * 128 + (2 * byte + 1))))))
    (hshare : ∀ blk < nb, (w blk).dReal = (w 0).dReal ∧ (w blk).dImag = (w 0).dImag) :
    laneValue nb wtiles (fun a => buf.lut (col * (nb * 128) * 64 + a))
      (fun a => buf.scales (col * nb * 2 + a)) (row / 16) (row % 16) =
      vecDotIfairyQ16K (nb * 256) w x := by
  have hsum : ∀ blk < nb, ∀ ch < 4,
      laneSum (fun a => buf.lut (col * (nb * 128) * 64 + (blk * 128 * 64 + a)))
        (wtiles (row / 16 * nb + blk)) (row % 16) ch =
      ∑ j ∈ Finset.range 256, channelTerm (w blk) (x blk) ch j := fun blk hblk ch hch =>
    laneSum_eq hbuf hblk (hrange blk hblk)
      (fun byte => congrFun (congrArg (fun d => d.2.2) (hlane blk hblk)) byte) hch
  have hscale : ∀ blk < nb, buf.scales (col * nb * 2 + (blk * 2 + 0)) = halfToRat (x blk).dReal ∧
      buf.scales (col * nb * 2 + (blk * 2 + 1)) = halfToRat (x blk).dImag := by
    intro blk hblk
    obtain ⟨hreal, himag⟩ := hbuf.scale blk hblk
    rw [← hreal, ← himag]
    exact ⟨congrArg buf.scales (by ring), congrArg buf.scales (by ring)⟩
  have hreal : ∀ blk < nb, (wtiles (row / 16 * nb + blk)).dReal (row % 16) =
      halfToRat (w 0).dReal := fun blk hblk =>
    (congrArg (fun d => d.1) (hlane blk hblk)).trans (by rw [(hshare blk hblk).1])
  have himag : ∀ blk < nb, (wtiles (row / 16 * nb + blk)).dImag (row % 16) =
      halfToRat (w 0).dImag := fun blk hblk =>
    (congrArg (fun d => d.2.1) (hlane blk hblk)).trans (by rw [(hshare blk hblk).2])
  obtain ⟨hacXr, hbdXi, hbcXr, hadXi⟩ := rowAcc_eq nb w x
  rw [vecDotIfairyQ16K]
  simp only [Nat.mul_div_cancel _ (show 0 < 256 by decide), hacXr, hbdXi, hbcXr, hadXi, laneValue,
    Cplx.mk.injEq]
  constructor
  · rw [Finset.mul_sum, Finset.mul_sum, ← Finset.sum_add_distrib]
    refine Finset.sum_congr rfl fun blk hblk => ?_
    have hlt := Finset.mem_range.mp hblk
    obtain ⟨hac, -, -, hbd⟩ := blockSums_eq (w blk) (x blk)
    have hac' : ∑ j ∈ Finset.range 256, channelTerm (w blk) (x blk) 0 j =
        (blockSums (w blk) (x blk)).ac := by
      rw [hac]
      exact Finset.sum_congr rfl fun j _ => mul_comm _ _
    have hbd' : ∑ j ∈ Finset.range 256, channelTerm (w blk) (x blk) 1 j =
        (blockSums (w blk) (x blk)).bd := by
      rw [hbd]
      exact Finset.sum_congr rfl fun j _ => mul_comm _ _
    rw [hsum blk hlt 0 (by decide), hsum blk hlt 1 (by decide), hac', hbd', (hscale blk hlt).1,
      (hscale blk hlt).2, hreal blk hlt, himag blk hlt]
    ring
  · rw [Finset.mul_sum, Finset.mul_sum, ← Finset.sum_sub_distrib]
    refine Finset.sum_congr rfl fun blk hblk => ?_
    have hlt := Finset.mem_range.mp hblk
    obtain ⟨-, had, hbc, -⟩ := blockSums_eq (w blk) (x blk)
    have hbc' : ∑ j ∈ Finset.range 256, channelTerm (w blk) (x blk) 2 j =
        (blockSums (w blk) (x blk)).bc := by
      rw [hbc]
      exact Finset.sum_congr rfl fun j _ => mul_comm _ _
    have had' : ∑ j ∈ Finset.range 256, channelTerm (w blk) (x blk) 3 j =
        -(blockSums (w blk) (x blk)).ad := by
      rw [had, ← Finset.sum_neg_distrib]
      exact Finset.sum_congr rfl fun j _ => congrArg Neg.neg (mul_comm _ _)
    rw [hsum blk hlt 2 (by decide), hsum blk hlt 3 (by decide), hbc', had', (hscale blk hlt).1,
      (hscale blk hlt).2, hreal blk hlt, himag blk hlt]
    push_cast
    ring

end Lane

/-! ## The whole path -/

lemma qgemmLut16_apply (isa : LutIsa) {m n nb : ℕ} (hm : 0 < m) (hn : 0 < n) (hnb : 0 < nb)
    (wtiles : ℕ → LutWtile16) (buf : LutBuffers) (add : Bool) (dst : ℕ → ℕ → Cplx) (col : ℕ) :
    qgemmLut16 isa m (nb * 256) n wtiles buf add dst col =
      if col < n then qgemmLut16One isa nb m wtiles
        (fun a => buf.lut (col * (nb * 128) * 64 + a)) (fun a => buf.scales (col * nb * 2 + a)) add
        (dst col)
      else dst col := by
  have hguard : ¬ (m = 0 ∨ nb * 256 = 0 ∨ n = 0) := by omega
  have hblocks : nb * 256 / 256 = nb := Nat.mul_div_cancel nb (by decide)
  rw [qgemmLut16, if_neg hguard]
  simp only [hblocks]
  exact foldl_update_range (fun col dst => qgemmLut16One isa nb m wtiles
    (fun a => buf.lut (col * (nb * 128) * 64 + a)) (fun a => buf.scales (col * nb * 2 + a)) add dst)
    n dst col

lemma vecDot_eq_dotConj_of_shared {nb : ℕ} {w : ℕ → BlockIfairy}
    (hshare : ∀ blk < nb, (w blk).dReal = (w 0).dReal ∧ (w blk).dImag = (w 0).dImag)
    (x : ℕ → BlockIfairyQ16) :
    vecDotIfairyQ16K (nb * 256) w x = dotConj (nb * 256) (dequantRow w) (dequantQ16 x) := by
  rw [vecDotIfairyQ16K_eq]
  refine dotConj_congr (fun k hk => ?_) _
  obtain ⟨hreal, himag⟩ := hshare (k / 256) (by omega)
  simp only [dequantRow, firstScales, hreal, himag]

/-- Every output of the LUT path is the value of the direct kernel, which is the sum of
`w * conj x` over the row. -/
theorem lut_path_eq_vecDot (isa : LutIsa) {m k n nth : ℕ} (hm : 0 < m) (hk : 0 < k)
    (hk256 : 256 ∣ k) (weights : ℕ → BlockIfairy)
    (hshare : ∀ row < m, SharesScales k (rowBlocks weights (k / 256) row))
    (act : ℕ → ℕ → BlockIfairyQ16) (haccept : ∀ col < n, LutAccepts k (act col)) (hnth : 0 < nth)
    {order : List ℕ} (hall : ∀ ith < nth, ith ∈ order) (buf : LutBuffers) (dst : ℕ → ℕ → Cplx) :
    ∃ out, lutMulMat isa m k n weights act nth order buf dst = some out ∧
      ∀ row < m, ∀ col < n,
        out col row = vecDotIfairyQ16K k (rowBlocks weights (k / 256) row) (act col) ∧
        out col row =
          dotConj k (dequantRow (rowBlocks weights (k / 256) row)) (dequantQ16 (act col)) := by
  obtain ⟨nb, rfl⟩ := hk256
  rw [Nat.mul_comm] at *
  have hblocks : nb * 256 / 256 = nb := Nat.mul_div_cancel nb (by decide)
  simp only [SharesScales, LutAccepts, hblocks] at hshare haccept ⊢
  have hnb : 0 < nb := by omega
  obtain ⟨wtiles, hpack, hlane⟩ := transformTensor_lane weights hnb hm
  refine ⟨_, by rw [lutMulMat, hpack]; rfl, fun row hrow col hcol => ?_⟩
  have hvalue : ∀ out, out = vecDotIfairyQ16K (nb * 256) (rowBlocks weights nb row) (act col) →
      out = vecDotIfairyQ16K (nb * 256) (rowBlocks weights nb row) (act col) ∧
      out = dotConj (nb * 256) (dequantRow (rowBlocks weights nb row)) (dequantQ16 (act col)) :=
    fun out hout => ⟨hout, hout.trans (vecDot_eq_dotConj_of_shared (hshare row hrow) _)⟩
  apply hvalue
  rw [qgemmLut16_apply isa hm (Nat.zero_lt_of_lt hcol) hnb, if_pos hcol, qgemmLut16One_apply,
    if_pos hrow]
  refine (Cplx.zero_plus _).trans (laneValue_eq
    (preprocess_holds isa act buf hnth hall hcol) ?_ (fun blk hblk => hlane row hrow blk hblk)
    (hshare row hrow))
  exact fun blk hblk j hj => ⟨inLutRange_of_accepts (haccept col hcol blk hblk j hj).1,
    inLutRange_of_accepts (haccept col hcol blk hblk j hj).2⟩

/-- Seventeen rows, so that the second tile has one, with three workers finishing out of order and
activations at both ends of the accepted range. -/
theorem lut_path_eq_vecDot_seventeen :
    let weights : ℕ → BlockIfairy := fun b => ⟨fun i => UInt8.ofNat (b + i), 0x3c00, 0x3c00⟩
    let act : ℕ → ℕ → BlockIfairyQ16 := fun _ _ => ⟨fun _ => 63, fun _ => 193, 0x3c00, 0x3c00⟩
    ∃ out, lutMulMat .avx2 17 256 2 weights act 3 [2, 0, 1] ⟨fun _ => 0, fun _ => 0⟩
        (fun _ _ => ⟨0, 0⟩) = some out ∧
      ∀ row < 17, ∀ col < 2,
        out col row = vecDotIfairyQ16K 256 (rowBlocks weights 1 row) (act col) ∧
        out col row = dotConj 256 (dequantRow (rowBlocks weights 1 row)) (dequantQ16 (act col)) := by
  intro weights act
  exact lut_path_eq_vecDot .avx2 (by decide) (by decide) (dvd_refl 256) weights
    (fun _ _ _ _ => ⟨rfl, rfl⟩) act (fun _ _ _ _ _ _ => ⟨rfl, rfl⟩) (by decide) (by decide) _ _

end IFairy
