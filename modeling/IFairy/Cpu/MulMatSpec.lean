import IFairy.Cpu.MulMat

/-!
# What the matrix product stores

Each stage of the product does a fixed list of stores, in some order: the first stage one store
for each block of the work buffer (`quantize_does`), the second one store for each element of
`dst`, with the value of the product (`chunks_do`).
-/

namespace IFairy

namespace MulMat

variable {ρ β α : Type} {p : MulMat ρ β α} {nth : ℕ}

/-! ## Quantisation -/

lemma mem_src1Rows {i : ℕ × ℕ × ℕ} :
    i ∈ p.src1Rows ↔ i.1 < p.src1.ne1 ∧ i.2.1 < p.src1.ne2 ∧ i.2.2 < p.src1.ne3 := by
  simp only [src1Rows, List.mem_flatMap, List.mem_map, List.mem_range]
  constructor
  · rintro ⟨i13, h13, i12, h12, i11, h11, rfl⟩
    exact ⟨h11, h12, h13⟩
  · rintro ⟨h11, h12, h13⟩
    exact ⟨i.2.2, h13, i.2.1, h12, i.1, h11, rfl⟩

lemma nodup_src1Rows (p : MulMat ρ β α) : p.src1Rows.Nodup := by
  refine nodup_flatMap_of_owner (fun i => i.2.2) List.nodup_range (fun i13 _ => ?_) ?_
  · refine nodup_flatMap_of_owner (fun i => i.2.1) List.nodup_range
      (fun i12 _ => List.nodup_range.map fun _ _ h => (Prod.ext_iff.1 h).1) ?_
    intro i12 _ i hi
    obtain ⟨i11, -, rfl⟩ := List.mem_map.1 hi
    rfl
  · intro i13 _ i hi
    obtain ⟨i12, -, hi⟩ := List.mem_flatMap.1 hi
    obtain ⟨i11, -, rfl⟩ := List.mem_map.1 hi
    rfl

/-- The stores of the blocks of all rows, with the values `v`. -/
def workAll (p : MulMat ρ β α) (v : ℕ × ℕ × ℕ → ℕ → β) : List (MStore β α) :=
  if p.sameType then []
  else p.src1Rows.flatMap fun i => (List.range p.blocks).map fun b =>
    workStore (p.workRow i.1 i.2.1 i.2.2 + b * p.typeSize) (v i b)

/-- A block that `from_float` makes. -/
def floatBlock (p : MulMat ρ β α) (i : ℕ × ℕ × ℕ) (b : ℕ) : β :=
  p.fromFloat (p.src1.row i.1 i.2.1 i.2.2 + b * p.blckSize * p.src1.nb0)

lemma blockStart_last (hp : p.SrcValid) (hnth : 0 < nth) : p.blockStart nth nth = p.blocks := by
  obtain ⟨k, hk⟩ := hp.blck_dvd
  rw [blockStart, blocks, hk, Nat.mul_div_cancel_left _ hp.blck_pos, Nat.mul_left_comm,
    Nat.mul_div_cancel_left _ hp.blck_pos, Nat.mul_div_cancel_left _ hnth]

lemma fromFloatPart_all (hp : p.SrcValid) (hnth : 0 < nth) (hsame : p.sameType = false)
    (i : ℕ × ℕ × ℕ) :
    ((List.range nth).flatMap fun t => p.fromFloatPart nth t i) =
      (List.range p.blocks).map fun b =>
        workStore (p.workRow i.1 i.2.1 i.2.2 + b * p.typeSize) (p.floatBlock i b) := by
  have hmono : Monotone (p.blockStart nth) := fun t u h =>
    Nat.div_le_div_right (Nat.div_le_div_right (Nat.mul_le_mul_right _ h))
  have hzero : p.blockStart nth 0 = 0 := by simp [blockStart]
  have hpart : ∀ t, p.fromFloatPart nth t i =
      ((List.range (p.blockStart nth (t + 1) - p.blockStart nth t)).map
        (p.blockStart nth t + ·)).map fun b =>
          workStore (p.workRow i.1 i.2.1 i.2.2 + b * p.typeSize) (p.floatBlock i b) := by
    intro t
    have hnb : p.src1.nb0 = 4 := by simpa [hsame] using hp.nb10
    rw [fromFloatPart, List.map_map]
    refine List.map_congr_left fun b _ => ?_
    simp only [Function.comp_apply, floatBlock, hnb, Nat.add_mul, Nat.add_assoc]
  rw [List.flatMap_congr fun t _ => hpart t, ← List.map_flatMap, flatMap_range_pieces hzero hmono,
    blockStart_last hp hnth]

lemma fromFloat_perm (hp : p.SrcValid) (hnth : 0 < nth) :
    ((List.range nth).flatMap fun t =>
      if p.sameType then [] else p.src1Rows.flatMap (p.fromFloatPart nth t)).Perm
        (p.workAll p.floatBlock) := by
  cases hsame : p.sameType with
  | true => simp [workAll, hsame]
  | false =>
    simp only [workAll, hsame, Bool.false_eq_true, if_false]
    refine (flatMap_flatMap_perm _ _ fun t i => p.fromFloatPart nth t i).trans ?_
    exact List.Perm.flatMap_left _ fun i _ => by rw [fromFloatPart_all hp hnth hsame]

/-- The stores of the first stage. -/
def quantizeAll (p : MulMat ρ β α) : List (MStore β α) :=
  p.workAll fun i => p.operand i.1 i.2.1 i.2.2

lemma quantizeSrc1_perm (hp : p.SrcValid) (hnth : 0 < nth) :
    ((List.range nth).flatMap (p.quantizeSrc1 nth)).Perm p.quantizeAll := by
  cases hbackend : p.backendQuantizes with
  | true =>
    obtain ⟨k, rfl⟩ := Nat.exists_eq_succ_of_ne_zero hnth.ne'
    have hstore : p.quantizeSrc1 (k + 1) 0 = p.quantizeAll := by
      cases hsame : p.sameType <;>
        simp [quantizeSrc1, tryQuantize, quantizeAll, workAll, operand, hbackend, hsame]
    have hidle : ((List.range k).flatMap fun t => p.quantizeSrc1 (k + 1) (t + 1)) = [] :=
      List.flatMap_eq_nil_iff.2 fun t _ => by simp [quantizeSrc1, tryQuantize, hbackend]
    rw [List.range_succ_eq_map, List.flatMap_cons, hstore, List.flatMap_map, hidle,
      List.append_nil]
  | false =>
    have hworker : p.quantizeSrc1 nth = fun t =>
        if p.sameType then [] else p.src1Rows.flatMap (p.fromFloatPart nth t) :=
      funext fun t => by simp [quantizeSrc1, hbackend]
    have hall : p.quantizeAll = p.workAll p.floatBlock := by
      cases hsame : p.sameType <;>
        simp [quantizeAll, workAll, operand, floatBlock, hbackend, hsame]
    rw [hworker, hall]
    exact fromFloat_perm hp hnth

lemma rowSize_eq (hp : p.SrcValid) : p.rowSize = p.blocks * p.typeSize := by
  rw [rowSize, blocks, Nat.mul_div_assoc _ hp.blck_dvd, Nat.mul_comm]

lemma workRow_eq (p : MulMat ρ β α) (i11 i12 i13 : ℕ) :
    p.workRow i11 i12 i13 =
      (i11 + i12 * p.src1.ne1 + i13 * p.src1.ne2 * p.src1.ne1) * p.rowSize := by
  simp only [workRow]
  ring

lemma workOffset_inj (hp : p.SrcValid) {i j : ℕ × ℕ × ℕ} {b c : ℕ} (hi : i ∈ p.src1Rows)
    (hj : j ∈ p.src1Rows) (hb : b < p.blocks) (hc : c < p.blocks)
    (h : p.workRow i.1 i.2.1 i.2.2 + b * p.typeSize = p.workRow j.1 j.2.1 j.2.2 + c * p.typeSize) :
    i = j ∧ b = c := by
  obtain ⟨hi1, hi2, -⟩ := mem_src1Rows.1 hi
  obtain ⟨hj1, hj2, -⟩ := mem_src1Rows.1 hj
  have hindex : ∀ k : ℕ × ℕ × ℕ, ∀ b,
      p.workRow k.1 k.2.1 k.2.2 + b * p.typeSize =
        (((k.2.2 * p.src1.ne2 + k.2.1) * p.src1.ne1 + k.1) * p.blocks + b) * p.typeSize := by
    intro k b
    rw [workRow_eq, rowSize_eq hp]
    ring
  rw [hindex, hindex] at h
  obtain ⟨hrow, hblock⟩ := mul_add_inj hb hc (Nat.eq_of_mul_eq_mul_right hp.type_pos h)
  obtain ⟨hmat, h1⟩ := mul_add_inj hi1 hj1 hrow
  obtain ⟨h3, h2⟩ := mul_add_inj hi2 hj2 hmat
  exact ⟨Prod.ext h1 (Prod.ext h2 h3), hblock⟩

/-- The blocks of the work buffer. -/
def workCells (p : MulMat ρ β α) : List MulMatCell :=
  if p.sameType then []
  else p.src1Rows.flatMap fun i => (List.range p.blocks).map fun b =>
    .work (p.workRow i.1 i.2.1 i.2.2 + b * p.typeSize)

lemma map_target_workAll (p : MulMat ρ β α) (v : ℕ × ℕ × ℕ → ℕ → β) :
    (p.workAll v).map Store.target = p.workCells := by
  unfold workAll workCells
  split
  · rfl
  · rw [List.map_flatMap]
    refine List.flatMap_congr fun i _ => ?_
    rw [List.map_map]
    rfl

lemma nodup_workCells (hp : p.SrcValid) : p.workCells.Nodup := by
  unfold workCells
  split
  · exact List.nodup_nil
  · have hmap : (p.src1Rows.flatMap fun i => (List.range p.blocks).map fun b =>
        MulMatCell.work (p.workRow i.1 i.2.1 i.2.2 + b * p.typeSize)) =
          (p.src1Rows.flatMap fun i => (List.range p.blocks).map fun b => (i, b)).map fun x =>
            MulMatCell.work (p.workRow x.1.1 x.1.2.1 x.1.2.2 + x.2 * p.typeSize) := by
      rw [List.map_flatMap]
      refine List.flatMap_congr fun i _ => ?_
      rw [List.map_map]
      rfl
    rw [hmap]
    refine List.Nodup.map_on ?_ ?_
    · intro x hx y hy hxy
      simp only [List.mem_flatMap, List.mem_map, List.mem_range] at hx hy
      obtain ⟨i, hi, b, hb, rfl⟩ := hx
      obtain ⟨j, hj, c, hc, rfl⟩ := hy
      obtain ⟨hij, hbc⟩ := workOffset_inj hp hi hj hb hc (MulMatCell.work.inj hxy)
      exact Prod.ext hij hbc
    · refine nodup_flatMap_of_owner Prod.fst (nodup_src1Rows p)
        (fun i _ => List.nodup_range.map fun _ _ h => (Prod.ext_iff.1 h).2) ?_
      intro i _ x hx
      obtain ⟨b, -, rfl⟩ := List.mem_map.1 hx
      rfl

lemma workAll_does (hp : p.SrcValid) (hnth : 0 < nth) {v : ℕ × ℕ × ℕ → ℕ → β}
    {work : ℕ → List (MStore β α)}
    (hwork : ((List.range nth).flatMap work).Perm (p.workAll v)) :
    ((strided nth nth).stage work).Does (p.workAll v) where
  nonempty := (stridedLaw hnth nth).stage_nonempty _
  perm log hlog := ((stridedLaw hnth nth).perm_of_mem_stage hlog).trans hwork
  nodup := by
    rw [map_target_workAll]
    exact nodup_workCells hp
  reads := by
    intro s hs mem mem' _
    unfold workAll at hs
    split at hs
    · cases hs
    · obtain ⟨i, -, hs⟩ := List.mem_flatMap.1 hs
      obtain ⟨b, -, rfl⟩ := List.mem_map.1 hs
      rfl

theorem quantize_does (hp : p.SrcValid) (hnth : 0 < nth) :
    ((strided nth nth).stage (p.quantizeSrc1 nth)).Does p.quantizeAll :=
  workAll_does hp hnth (quantizeSrc1_perm hp hnth)

/-! ## The dot products of a tile -/

section Tile

variable {num iir0 ir0End : ℕ}

/-- The entries of `tmp` that one call of `vec_dot` sets. -/
lemma vecDotInto_apply (hnum : num = 1 ∨ num = 2) {at_ a c : ℕ} (ha : a < num) (hc : c < num)
    (row col bx by_ : ℕ) (tmp : ℕ → Memory β α → α) :
    p.vecDotInto num at_ row col (if 1 < num then 16 else 0) bx by_ tmp (at_ + a + c * 16) =
      p.dot (row + a * bx) (col + c * by_) := by
  refine foldl_read_of_cover
    (fun tmp x => Function.update tmp (at_ + x.1 + x.2 * (if 1 < num then 16 else 0))
      (p.dot (row + x.1 * bx) (col + x.2 * by_)))
    (fun tmp => tmp (at_ + a + c * 16)) (fun x => x = (a, c)) _ ?_ ?_ ⟨(a, c), ?_, rfl⟩ tmp
  · rintro x - rfl tmp
    have haddr : at_ + a + c * (if 1 < num then 16 else 0) = at_ + a + c * 16 := by
      split
      · rfl
      · obtain rfl : c = 0 := by omega
        rfl
    simp only [haddr, Function.update_self]
  · intro x hx hne tmp
    simp only [List.mem_flatMap, List.mem_map, List.mem_range] at hx
    obtain ⟨c', hc', a', ha', rfl⟩ := hx
    refine Function.update_of_ne (fun heq => hne ?_) _ _
    simp only at heq
    rcases hnum with rfl | rfl
    · exact Prod.ext (by simp only; omega) (by simp only; omega)
    · rw [if_pos (by decide)] at heq
      exact Prod.ext (by simp only; omega) (by simp only; omega)
  · simp only [List.mem_flatMap, List.mem_map, List.mem_range]
    exact ⟨c, hc, a, ha, rfl⟩

/-- The other entries of `tmp` stay. -/
lemma vecDotInto_of_not_mem {at_ i : ℕ} (row col bs bx by_ : ℕ) (tmp : ℕ → Memory β α → α)
    (hi : ∀ a < num, ∀ c < num, i ≠ at_ + a + c * bs) :
    p.vecDotInto num at_ row col bs bx by_ tmp i = tmp i := by
  refine foldl_read_of_not_cover
    (fun tmp (x : ℕ × ℕ) => Function.update tmp (at_ + x.1 + x.2 * bs)
      (p.dot (row + x.1 * bx) (col + x.2 * by_))) (fun tmp => tmp i) (fun x hx tmp => ?_) tmp
  simp only [List.mem_flatMap, List.mem_map, List.mem_range] at hx
  obtain ⟨c, hc, a, ha, rfl⟩ := hx
  exact Function.update_of_ne (hi a ha c hc) _ _

/-- Entry `cn * 16 + j` of `tmp` is the dot product of row `iir0 + j` and column `cn`. -/
lemma tileDots_apply (hnum : num = 1 ∨ num = 2) (hend : ir0End ≤ iir0 + 16)
    (heven : (ir0End - iir0) % num = 0) {cn j : ℕ} (hcn : cn < num) (hj : j < ir0End - iir0)
    (src0Row src1Col : ℕ) :
    p.tileDots num iir0 ir0End src0Row src1Col (cn * 16 + j) =
      p.dot (src0Row + (iir0 + j) * p.src0.nb1) (src1Col + cn * p.src1ColStride) := by
  have hpos : 0 < num := by omega
  refine foldl_read_of_cover
    (fun tmp ir0 => p.vecDotInto num (ir0 - iir0) (src0Row + ir0 * p.src0.nb1) src1Col
      (if 1 < num then 16 else 0) (if 1 < num then p.src0.nb1 else 0)
      (if 1 < num then p.src1ColStride else 0) tmp)
    (fun tmp => tmp (cn * 16 + j)) (fun ir0 => ir0 ≤ iir0 + j ∧ iir0 + j < ir0 + num) _ ?_ ?_
    ⟨iir0 + j / num * num, ?_, ?_⟩ _
  · intro ir0 hir0 hcover tmp
    have hir0 := (mem_fromRange hpos).1 hir0
    have hindex : cn * 16 + j = ir0 - iir0 + (iir0 + j - ir0) + cn * 16 := by omega
    rw [hindex, vecDotInto_apply hnum (by omega) hcn]
    rcases hnum with rfl | rfl
    · obtain rfl : ir0 = iir0 + j := by omega
      obtain rfl : cn = 0 := by omega
      simp
    · have hrow : src0Row + ir0 * p.src0.nb1 + (iir0 + j - ir0) * p.src0.nb1 =
          src0Row + (iir0 + j) * p.src0.nb1 := by
        rw [Nat.add_assoc, ← Nat.add_mul, Nat.add_sub_cancel' hcover.1]
      rw [if_pos (by decide), if_pos (by decide), hrow]
  · intro ir0 hir0 hcover tmp
    have hir0 := (mem_fromRange hpos).1 hir0
    refine vecDotInto_of_not_mem _ _ _ _ _ tmp fun a ha c hc => ?_
    rcases hnum with rfl | rfl
    · rw [if_neg (by decide)]
      omega
    · rw [if_pos (by decide)]
      omega
  · rw [mem_fromRange hpos]
    rcases hnum with rfl | rfl <;> omega
  · rcases hnum with rfl | rfl <;> omega

end Tile

/-! ## Columns -/

lemma colIndices (ir1 ne1 ne12 : ℕ) :
    ir1 / (ne12 * ne1) = ir1 / ne1 / ne12 ∧
      (ir1 - ir1 / (ne12 * ne1) * ne12 * ne1) / ne1 = ir1 / ne1 % ne12 ∧
      ir1 - ir1 / (ne12 * ne1) * ne12 * ne1 -
        (ir1 - ir1 / (ne12 * ne1) * ne12 * ne1) / ne1 * ne1 = ir1 % ne1 := by
  have hrest : ir1 - ir1 / (ne12 * ne1) * ne12 * ne1 = ir1 % (ne1 * ne12) := by
    rw [Nat.mod_eq_sub_mul_div, Nat.mul_assoc, Nat.mul_comm (ir1 / _), Nat.mul_comm ne12]
  refine ⟨by rw [Nat.div_div_eq_div_mul, Nat.mul_comm], ?_, ?_⟩
  · rw [hrest, Nat.mod_mul_right_div_self]
  · rw [hrest, Nat.mul_comm _ ne1, ← Nat.mod_eq_sub_mul_div, Nat.mod_mul_right_mod]

lemma nextCol {num ne1 ir1 cn : ℕ} (hnum : num = 1 ∨ num = 2) (hpos : 0 < ne1)
    (hne1 : ne1 % num = 0) (hir1 : ir1 % num = 0) (hcn : cn < num) :
    (ir1 + cn) % ne1 = ir1 % ne1 + cn ∧ (ir1 + cn) / ne1 = ir1 / ne1 := by
  have hlt : ir1 % ne1 + cn < ne1 := by
    have hmod := Nat.mod_lt ir1 hpos
    rcases hnum with rfl | rfl
    · omega
    · have hparity := Nat.mod_mod_of_dvd ir1 (Nat.dvd_of_mod_eq_zero hne1)
      omega
  have hsum : ir1 + cn = ir1 / ne1 * ne1 + (ir1 % ne1 + cn) := by
    rw [← Nat.add_assoc, Nat.div_add_mod']
  rw [hsum]
  exact (mul_add_div_mod hlt).symm

lemma src1Col_next (p : MulMat ρ β α) (i11 i12 i13 cn : ℕ) :
    p.src1Col (i11 + cn) i12 i13 = p.src1Col i11 i12 i13 + cn * p.src1ColStride := by
  unfold src1Col src1ColStride
  split
  · ring
  · ring

/-- The store of the element of row `x.1` and column `x.2`. -/
def elementStore (p : MulMat ρ β α) (x : ℕ × ℕ) : MStore β α :=
  let i1 := x.2 % p.dst.ne1
  let i2 := x.2 / p.dst.ne1 % p.src1.ne2
  let i3 := x.2 / p.dst.ne1 / p.src1.ne2
  dstStore (p.dst.row i1 i2 i3 + x.1 * 4)
    (p.dot (p.src0.row x.1 (i2 / (p.src1.ne2 / p.src0.ne2)) (i3 / (p.src1.ne3 / p.src0.ne3)))
      (p.src1Col i1 i2 i3))

lemma tileRound_eq (hp : p.Valid) {num iir0 ir0End ir1 : ℕ} (hnum : num = 1 ∨ num = 2)
    (hpos : 0 < p.dst.ne1) (hne1 : p.dst.ne1 % num = 0) (hir1 : ir1 % num = 0)
    (hend : ir0End ≤ iir0 + 16) (heven : (ir0End - iir0) % num = 0) :
    p.tileRound num iir0 ir0End ir1 =
      (tilePairs num iir0 ir0End ir1).map p.elementStore := by
  obtain ⟨h3, h2, h1⟩ := colIndices ir1 p.dst.ne1 p.src1.ne2
  rw [h3] at h2 h1
  rw [h2] at h1
  simp only [tileRound, h1, h2, h3]
  rw [tilePairs, List.map_flatMap]
  refine List.flatMap_congr fun cn hcn => ?_
  rw [List.map_map]
  refine List.map_congr_left fun j hj => ?_
  have hcn := List.mem_range.1 hcn
  obtain ⟨hmod, hdiv⟩ := nextCol hnum hpos hne1 hir1 hcn
  rw [tileDots_apply hnum hend heven hcn (List.mem_range.1 hj), Function.comp_apply, elementStore]
  simp only [hmod, hdiv, src1Col_next]
  congr 1
  · obtain ⟨k, hk⟩ := hp.nb1_dvd
    have hskip : cn * p.dst.nb1 / p.dst.nb0 * 4 = cn * p.dst.nb1 := by
      rw [hp.nb0, hk, Nat.mul_left_comm, Nat.mul_div_cancel_left _ (by decide), Nat.mul_comm]
    rw [TensorShape.row, Nat.add_mul, Nat.add_mul, hskip]
    ring
  · congr 1
    rw [TensorShape.row]
    ring

/-! ## The chunks -/

lemma numRowsPerVecDot_cases (hp : p.Valid) (nr0 ne11 : ℕ) (b : ChunkBounds) :
    numRowsPerVecDot p.vecDotNumRows nr0 ne11 b = 1 ∨
      numRowsPerVecDot p.vecDotNumRows nr0 ne11 b = 2 ∧ ne11 % 2 = 0 ∧
        (b.ir0End - b.ir0Start) % 2 = 0 ∧ (b.ir1End - b.ir1Start) % 2 = 0 := by
  unfold numRowsPerVecDot
  split
  · exact .inl rfl
  · rename_i hnot
    rcases hp.num_rows with h | h
    · exact .inl h
    · exact .inr ⟨h, by omega, by omega, by omega⟩

lemma ir1Start_even {nr0 nr1 chunk : ℕ} {grid : ℕ × ℕ} (heven : nr1 % 2 = 0)
    (hlt : (chunkBounds nr0 nr1 grid chunk).ir1Start < (chunkBounds nr0 nr1 grid chunk).ir1End)
    (hlen : ((chunkBounds nr0 nr1 grid chunk).ir1End -
      (chunkBounds nr0 nr1 grid chunk).ir1Start) % 2 = 0) :
    (chunkBounds nr0 nr1 grid chunk).ir1Start % 2 = 0 := by
  simp only [chunkBounds] at hlt hlen ⊢
  by_cases hlast : (nr1 + grid.2 - 1) / grid.2 * (chunk / grid.1) + (nr1 + grid.2 - 1) / grid.2 ≤ nr1
  · rw [min_eq_left hlast, Nat.add_sub_cancel_left] at hlen
    rw [Nat.mul_mod, hlen, Nat.zero_mul, Nat.zero_mod]
  · rw [min_eq_right (by omega)] at hlen hlt
    omega

lemma chunk_eq (hp : p.Valid) (hpos : 0 < p.dst.ne1) (c : ℕ) :
    p.chunk nth c =
      (let b := chunkBounds p.nr0 p.nr1 (p.grid nth) c
        let num := numRowsPerVecDot p.vecDotNumRows p.nr0 p.src1.ne1 b
        tiles num b (tilePairs num)).map p.elementStore := by
  have hcases := numRowsPerVecDot_cases hp p.nr0 p.src1.ne1
    (chunkBounds p.nr0 p.nr1 (p.grid nth) c)
  simp only [chunk, oneChunk, map_tiles]
  refine tiles_congr (hcases.imp_right And.left) ?_
  intro iir0 ir0End ir1 hend hlen hlo hcol hhi
  rcases hcases with hone | ⟨htwo, hne1, hlen0, hlen1⟩
  · rw [hone] at hcol ⊢
    exact tileRound_eq hp (.inl rfl) hpos (Nat.mod_one _) (Nat.mod_one _) hend (Nat.mod_one _)
  · rw [htwo] at hlen hcol ⊢
    rw [← hp.ne1] at hne1
    have hnr1 : p.nr1 % 2 = 0 := by
      rw [nr1, Nat.mul_assoc, Nat.mul_mod, hne1, Nat.zero_mul, Nat.zero_mod]
    have hstart := ir1Start_even hnr1 (by omega) hlen1
    exact tileRound_eq hp (.inr rfl) hpos hne1 (by omega) hend (hlen hlen0)

def elementsAll (p : MulMat ρ β α) : List (MStore β α) :=
  (allPairs p.nr0 p.nr1).map p.elementStore

lemma chunks_perm (hp : p.Valid) (hnth : 0 < nth) :
    ((List.range ((p.grid nth).1 * (p.grid nth).2)).flatMap (p.chunk nth)).Perm
      p.elementsAll := by
  rcases Nat.eq_zero_or_pos p.dst.ne1 with hzero | hpos
  · have hnr1 : p.nr1 = 0 := by rw [nr1, hzero, Nat.zero_mul, Nat.zero_mul]
    have hempty : ∀ c, p.chunk nth c = [] := by
      intro c
      simp [chunk, oneChunk, tiles, chunkBounds, hnr1]
    rw [elementsAll, hnr1, List.flatMap_eq_nil_iff.2 fun c _ => hempty c]
    rfl
  · rw [List.flatMap_congr fun c _ => chunk_eq hp hpos c, ← List.map_flatMap, elementsAll]
    refine (chunkPairs_perm (chunkGrid_pos hnth _ _ _) fun b => ?_).map _
    exact (numRowsPerVecDot_cases hp p.nr0 p.src1.ne1 b).imp_right fun h => ⟨h.1, h.2.2.2⟩

/-! ## The elements -/

/-- The elements of `dst`, as `(i0, i1, i2, i3)`. -/
def dstIndices (p : MulMat ρ β α) : List (ℕ × ℕ × ℕ × ℕ) :=
  (List.range p.dst.ne3).flatMap fun i3 => (List.range p.dst.ne2).flatMap fun i2 =>
    (List.range p.dst.ne1).flatMap fun i1 => (List.range p.dst.ne0).map fun i0 => (i0, i1, i2, i3)

def dstOffset (p : MulMat ρ β α) (i : ℕ × ℕ × ℕ × ℕ) : ℕ :=
  p.dst.row i.2.1 i.2.2.1 i.2.2.2 + i.1 * 4

/-- The elements of `dst`. -/
def dstCells (p : MulMat ρ β α) : List MulMatCell := p.dstIndices.map fun i => .dst (p.dstOffset i)

lemma mem_dstIndices {i : ℕ × ℕ × ℕ × ℕ} :
    i ∈ p.dstIndices ↔
      i.1 < p.dst.ne0 ∧ i.2.1 < p.dst.ne1 ∧ i.2.2.1 < p.dst.ne2 ∧ i.2.2.2 < p.dst.ne3 := by
  simp only [dstIndices, List.mem_flatMap, List.mem_map, List.mem_range]
  constructor
  · rintro ⟨i3, h3, i2, h2, i1, h1, i0, h0, rfl⟩
    exact ⟨h0, h1, h2, h3⟩
  · rintro ⟨h0, h1, h2, h3⟩
    exact ⟨i.2.2.2, h3, i.2.2.1, h2, i.2.1, h1, i.1, h0, rfl⟩

lemma nodup_dstIndices (p : MulMat ρ β α) : p.dstIndices.Nodup := by
  refine nodup_flatMap_of_owner (fun i => i.2.2.2) List.nodup_range (fun i3 _ => ?_) ?_
  · refine nodup_flatMap_of_owner (fun i => i.2.2.1) List.nodup_range (fun i2 _ => ?_) ?_
    · refine nodup_flatMap_of_owner (fun i => i.2.1) List.nodup_range
        (fun i1 _ => List.nodup_range.map fun _ _ h => (Prod.ext_iff.1 h).1) ?_
      intro i1 _ i hi
      obtain ⟨i0, -, rfl⟩ := List.mem_map.1 hi
      rfl
    · intro i2 _ i hi
      obtain ⟨i1, -, hi⟩ := List.mem_flatMap.1 hi
      obtain ⟨i0, -, rfl⟩ := List.mem_map.1 hi
      rfl
  · intro i3 _ i hi
    obtain ⟨i2, -, hi⟩ := List.mem_flatMap.1 hi
    obtain ⟨i1, -, hi⟩ := List.mem_flatMap.1 hi
    obtain ⟨i0, -, rfl⟩ := List.mem_map.1 hi
    rfl

/-- Different elements have different places in `dst`. -/
lemma dstOffset_inj (hp : p.DstValid) {i j : ℕ × ℕ × ℕ × ℕ} (hi : i ∈ p.dstIndices)
    (hj : j ∈ p.dstIndices) (h : p.dstOffset i = p.dstOffset j) : i = j := by
  have hlt : ∀ {n s i r t : ℕ}, i < n → r < s → n * s ≤ t → i * s + r < t := by
    intro n s i r t hi hr hle
    have hmul := Nat.mul_le_mul_right s (Nat.succ_le_of_lt hi)
    rw [Nat.succ_mul] at hmul
    omega
  have hbounds : ∀ k ∈ p.dstIndices, k.1 * 4 < p.dst.nb1 ∧
      k.2.1 * p.dst.nb1 + k.1 * 4 < p.dst.nb2 ∧
        k.2.2.1 * p.dst.nb2 + (k.2.1 * p.dst.nb1 + k.1 * 4) < p.dst.nb3 := by
    intro k hk
    obtain ⟨h0, h1, h2, -⟩ := mem_dstIndices.1 hk
    have hrow : k.1 * 4 < p.dst.nb1 := by
      have hrows := hp.rows_apart
      omega
    have hcol := hlt h1 hrow hp.cols_apart
    exact ⟨hrow, hcol, hlt h2 hcol hp.mats_apart⟩
  have hoffset : ∀ k : ℕ × ℕ × ℕ × ℕ, p.dstOffset k =
      k.2.2.2 * p.dst.nb3 + (k.2.2.1 * p.dst.nb2 + (k.2.1 * p.dst.nb1 + k.1 * 4)) := by
    intro k
    rw [dstOffset, TensorShape.row]
    ring
  obtain ⟨hi1, hi2, hi3⟩ := hbounds i hi
  obtain ⟨hj1, hj2, hj3⟩ := hbounds j hj
  rw [hoffset, hoffset] at h
  obtain ⟨h3, h⟩ := mul_add_inj hi3 hj3 h
  obtain ⟨h2, h⟩ := mul_add_inj hi2 hj2 h
  obtain ⟨h1, h⟩ := mul_add_inj hi1 hj1 h
  exact Prod.ext (by omega) (Prod.ext h1 (Prod.ext h2 h3))

lemma nodup_dstCells (hp : p.DstValid) : p.dstCells.Nodup :=
  (nodup_dstIndices p).map_on fun _ hi _ hj h => dstOffset_inj hp hi hj (MulMatCell.dst.inj h)

def elementAt (p : MulMat ρ β α) (i : ℕ × ℕ × ℕ × ℕ) : MStore β α :=
  dstStore (p.dstOffset i) (p.dot (p.src0.row i.1 (i.2.2.1 / (p.src1.ne2 / p.src0.ne2))
    (i.2.2.2 / (p.src1.ne3 / p.src0.ne3))) (p.src1Col i.2.1 i.2.2.1 i.2.2.2))

lemma elementsAll_perm (hp : p.Valid) :
    p.elementsAll.Perm (p.dstIndices.map p.elementAt) := by
  let decode : ℕ × ℕ → ℕ × ℕ × ℕ × ℕ := fun x =>
    (x.1, x.2 % p.dst.ne1, x.2 / p.dst.ne1 % p.src1.ne2, x.2 / p.dst.ne1 / p.src1.ne2)
  have hstore : p.elementsAll = ((allPairs p.nr0 p.nr1).map decode).map p.elementAt := by
    rw [elementsAll, List.map_map]
    rfl
  have hnodup : ((allPairs p.nr0 p.nr1).map decode).Nodup := by
    refine (nodup_allPairs _ _).map fun x y h => ?_
    simp only [decode, Prod.mk.injEq] at h
    obtain ⟨h0, h1, h2, h3⟩ := h
    have hcol : x.2 / p.dst.ne1 = y.2 / p.dst.ne1 := by
      rw [← Nat.div_add_mod (x.2 / p.dst.ne1) p.src1.ne2, h3, h2, Nat.div_add_mod]
    refine Prod.ext h0 ?_
    rw [← Nat.div_add_mod x.2 p.dst.ne1, hcol, h1, Nat.div_add_mod]
  rw [hstore]
  refine ((List.perm_ext_iff_of_nodup hnodup (nodup_dstIndices p)).2 fun i => ?_).map _
  rw [mem_dstIndices, List.mem_map]
  constructor
  · rintro ⟨x, hx, rfl⟩
    obtain ⟨hx0, hx1⟩ := mem_allPairs.1 hx
    rw [nr1] at hx1
    have hpos := Nat.mul_ne_zero_iff.1 (Nat.zero_lt_of_lt hx1).ne'
    have hpos' := Nat.mul_ne_zero_iff.1 hpos.1
    have h1 := Nat.pos_of_ne_zero hpos'.1
    have h2 := Nat.pos_of_ne_zero hpos'.2
    refine ⟨hx0, Nat.mod_lt _ h1, ?_, ?_⟩
    · rw [hp.ne2] at h2 ⊢
      exact Nat.mod_lt _ h2
    · simp only [decode]
      rw [← hp.ne2, Nat.div_div_eq_div_mul]
      exact Nat.div_lt_of_lt_mul hx1
  · rintro ⟨h0, h1, h2, h3⟩
    rw [hp.ne2] at h2
    obtain ⟨hdiv, hmod⟩ := mul_add_div_mod (a := i.2.2.2 * p.src1.ne2 + i.2.2.1) h1
    obtain ⟨hdiv', hmod'⟩ := mul_add_div_mod (a := i.2.2.2) h2
    refine ⟨(i.1, (i.2.2.2 * p.src1.ne2 + i.2.2.1) * p.dst.ne1 + i.2.1),
      mem_allPairs.2 ⟨h0, ?_⟩, ?_⟩
    · have hmat := Nat.mul_le_mul_right p.src1.ne2 (Nat.succ_le_of_lt h3)
      have hcol := Nat.mul_le_mul_right p.dst.ne1
        (show i.2.2.2 * p.src1.ne2 + i.2.2.1 + 1 ≤ p.dst.ne3 * p.src1.ne2 by
          rw [Nat.succ_mul] at hmat
          omega)
      rw [Nat.add_mul _ 1, Nat.one_mul] at hcol
      have hnr1 : p.nr1 = p.dst.ne3 * p.src1.ne2 * p.dst.ne1 := by
        rw [nr1, hp.ne2]
        ring
      rw [hnr1]
      simp only
      omega
    · simp only [decode, hdiv, hmod, hdiv', hmod']

lemma dot_congr (row col : ℕ) {mem mem' : Memory β α}
    (h : ∀ offset, mem (.work offset) = mem' (.work offset)) :
    p.dot row col mem = p.dot row col mem' := by
  simp only [dot, block, h]

theorem chunks_do (hp : p.Valid) (hnth : 0 < nth) :
    ((ownThenShared nth ((p.grid nth).1 * (p.grid nth).2)).stage (p.chunk nth)).Does
      (p.dstIndices.map p.elementAt) where
  nonempty := (ownThenSharedLaw nth _ hnth).stage_nonempty _
  perm log hlog := ((ownThenSharedLaw nth _ hnth).perm_of_mem_stage hlog).trans
    ((chunks_perm hp hnth).trans (elementsAll_perm hp))
  nodup := by
    rw [List.map_map]
    exact nodup_dstCells hp.toDstValid
  reads := by
    intro s hs mem mem' hsame
    obtain ⟨i, -, rfl⟩ := List.mem_map.1 hs
    refine dot_congr _ _ fun offset => hsame _ fun hmem => ?_
    simp only [targets, List.map_map, Set.mem_ofPred_eq, List.mem_map] at hmem
    obtain ⟨j, -, hj⟩ := hmem
    cases hj

/-! ## The operand -/

/-- What a product does: it stores every block and every element once, and it can be run to its
end, and then every element is the one of the product. -/
structure Right (p : MulMat ρ β α) (nth : ℕ) : Prop where
  blocks_once : ∀ log ∈ (strided nth nth).stage (p.quantizeSrc1 nth),
    (log.map Store.target).Perm p.workCells
  blocks_apart : p.workCells.Nodup
  elements_once : ∀ log ∈ (ownThenShared nth ((p.grid nth).1 * (p.grid nth).2)).stage
    (p.chunk nth), (log.map Store.target).Perm p.dstCells
  elements_apart : p.dstCells.Nodup
  ends : ∀ mem, ∃ mem', StageRuns (p.stages nth) mem mem'
  value : ∀ mem mem', StageRuns (p.stages nth) mem mem' → ∀ i ∈ p.dstIndices,
    mem' (.dst (p.dstOffset i)) = p.product i.1 i.2.1 i.2.2.1 i.2.2.2

lemma stages_do (hp : p.Valid) (hnth : 0 < nth) :
    List.Forall₂ Stage.Does (p.stages nth) [p.quantizeAll, p.dstIndices.map p.elementAt] :=
  .cons (quantize_does hp.toSrcValid hnth) (.cons (chunks_do hp hnth) .nil)

end MulMat

end IFairy
