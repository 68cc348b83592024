import IFairy.Cpu.MulMatSpec

/-!
# The matrix product by experts

`ggml_compute_forward_mul_mat_id`.  The routing ids name the matrix of `src0` for each row of the
result.  Before the barrier one worker groups the rows by matrix; after it the workers go through
the matrices in order and draw the chunks of each from a counter of its own, so that some may still
be in one matrix while others are in the next.  Whatever the ids, each row is in the group of its
matrix once, and each element is stored once with the value of the product
(`MulMatId.mulMatId_right`).
-/

namespace IFairy

/-- The rows of each matrix, as thread 0 groups them: `matrix_row_counts` and `matrix_rows`, the
entries of which are the `i1` and `i2` of a row. -/
structure RowGroups where
  counts : ℕ → ℕ
  rows : ℕ → ℕ × ℕ

/-- A `MUL_MAT_ID` node: the tensors and the data of a product, and the ids by token. -/
structure MulMatId (ρ β α : Type) extends MulMat ρ β α where
  nIds : ℕ
  nTokens : ℕ
  ids : ℕ → ℕ → ℕ

namespace MulMatId

variable {ρ β α : Type} (p : MulMatId ρ β α)

/-- The rows of the result, as `(iid1, id)`. -/
def routed : List (ℕ × ℕ) :=
  (List.range p.nTokens).flatMap fun iid1 => (List.range p.nIds).map fun id => (iid1, id)

/-- The place of a row of matrix `rowId`, `MMID_MATRIX_ROW`. -/
def matrixRow (rowId i1 : ℕ) : ℕ := rowId * p.nIds * p.nTokens + i1

/-- A row joins the group of its matrix. -/
def joinGroup (g : RowGroups) (x : ℕ × ℕ) : RowGroups :=
  let i02 := p.ids x.1 x.2
  ⟨Function.update g.counts i02 (g.counts i02 + 1),
    Function.update g.rows (p.matrixRow i02 (g.counts i02)) (x.2, x.1)⟩

/-- The groups, over whatever the work buffer held. -/
def rowGroups (rows : ℕ → ℕ × ℕ) : RowGroups :=
  p.routed.foldl p.joinGroup ⟨fun _ => 0, rows⟩

/-- What worker `ith` quantises before the barrier. -/
def quantizeSrc1 (nth ith : ℕ) : List (MulMat.MStore β α) :=
  if p.sameType then [] else p.src1Rows.flatMap (p.fromFloatPart nth ith)

def src1Col (i11 i12 : ℕ) : ℕ :=
  if p.src1Cont || !p.sameType then (i11 + i12 * p.src1.ne1) * p.rowSize
  else i11 * p.src1.nb1 + i12 * p.src1.nb2

/-- One round of the tile loops of matrix `curA`. -/
def tileRound (g : RowGroups) (curA iir0 ir0End ir1 : ℕ) : List (MulMat.MStore β α) :=
  let rowMapping := g.rows (p.matrixRow curA ir1)
  let id := rowMapping.1
  let i11 := id % p.src1.ne1
  let i12 := rowMapping.2
  let dstCol := id * p.dst.nb1 + i12 * p.dst.nb2
  let tmp := p.tileDots 1 iir0 ir0End (curA * p.src0.nb2) (p.src1Col i11 i12)
  (List.range (ir0End - iir0)).map fun j => MulMat.dstStore (dstCol + (iir0 + j) * 4) (tmp j)

def grid (nth cne1 : ℕ) : ℕ × ℕ := chunkGrid p.src0.ne1 cne1 nth p.byThread

/-- The chunks of a matrix; the loop passes over a matrix without rows. -/
def chunks (g : RowGroups) (nth curA : ℕ) : ℕ :=
  if g.counts curA = 0 then 0
  else (p.grid nth (g.counts curA)).1 * (p.grid nth (g.counts curA)).2

/-- The work on a chunk of a matrix, `ggml_compute_forward_mul_mat_id_one_chunk`. -/
def chunk (g : RowGroups) (nth curA c : ℕ) : List (MulMat.MStore β α) :=
  tiles 1 (chunkBounds p.src0.ne1 (g.counts curA) (p.grid nth (g.counts curA)) c)
    (p.tileRound g curA)

def experts (g : RowGroups) (nth : ℕ) : Stage MulMatCell (MulMatCell.Value β α) :=
  teamStage p.src0.ne2 (fun curA => ownThenShared nth (p.chunks g nth curA)) (p.chunk g nth)

/-- `ggml_compute_forward_mul_mat_id`. -/
def stages (rows : ℕ → ℕ × ℕ) (nth : ℕ) : List (Stage MulMatCell (MulMatCell.Value β α)) :=
  [(strided nth nth).stage (p.quantizeSrc1 nth), p.experts (p.rowGroups rows) nth]

/-- What the code asserts of the shapes and of the ids. -/
structure Valid : Prop extends p.toMulMat.SrcValid, p.toMulMat.DstValid where
  ne0 : p.dst.ne0 = p.src0.ne1
  ne1 : p.dst.ne1 = p.nIds
  ne2 : p.dst.ne2 = p.nTokens
  ne3 : p.dst.ne3 = 1
  src1_ne1 : 0 < p.src1.ne1
  src1_ne2 : p.src1.ne2 = p.nTokens
  src1_ne3 : p.src1.ne3 = 1
  ids_lt : ∀ iid1 < p.nTokens, ∀ id < p.nIds, p.ids iid1 id < p.src0.ne2

/-- A block of `src1` as the dot product takes it. -/
def operand (i11 i12 b : ℕ) : β :=
  let row := p.src1.row i11 i12 0
  if p.sameType then p.src1Block (row + b * p.typeSize)
  else p.fromFloat (row + b * p.blckSize * p.src1.nb0)

/-- `MUL_MAT_ID`: a row of the matrix that the id names, with a row of `src1` of the token. -/
def product (i0 id iid1 : ℕ) : α :=
  p.vecDot (p.src0Row (p.src0.row i0 (p.ids iid1 id) 0))
    ((List.range p.blocks).map (p.operand (id % p.src1.ne1) iid1))

/-! ## Groups -/

variable {p} {nth : ℕ}

/-- The rows of the result that go to matrix `a`, in order. -/
def group (p : MulMatId ρ β α) (l : List (ℕ × ℕ)) (a : ℕ) : List (ℕ × ℕ) :=
  l.filter fun x => p.ids x.1 x.2 = a

lemma length_routed (p : MulMatId ρ β α) : p.routed.length = p.nTokens * p.nIds := by
  simp [routed]

lemma mem_routed {x : ℕ × ℕ} : x ∈ p.routed ↔ x.1 < p.nTokens ∧ x.2 < p.nIds := by
  simp only [routed, List.mem_flatMap, List.mem_map, List.mem_range]
  constructor
  · rintro ⟨iid1, h1, id, h, rfl⟩
    exact ⟨h1, h⟩
  · rintro ⟨h1, h⟩
    exact ⟨x.1, h1, x.2, h, rfl⟩

lemma nodup_routed (p : MulMatId ρ β α) : p.routed.Nodup := by
  refine nodup_flatMap_of_owner Prod.fst List.nodup_range
    (fun _ _ => List.nodup_range.map fun _ _ h => (Prod.ext_iff.1 h).2) ?_
  intro iid1 _ x hx
  obtain ⟨id, -, rfl⟩ := List.mem_map.1 hx
  rfl

lemma groups_of_prefix (rows : ℕ → ℕ × ℕ) {l : List (ℕ × ℕ)}
    (hl : l.length ≤ p.nTokens * p.nIds) (a : ℕ) :
    (l.foldl p.joinGroup ⟨fun _ => 0, rows⟩).counts a = (p.group l a).length ∧
      ∀ (i : ℕ) (hi : i < (p.group l a).length),
        (l.foldl p.joinGroup ⟨fun _ => 0, rows⟩).rows (p.matrixRow a i) =
          ((p.group l a).get ⟨i, hi⟩).swap := by
  induction l using List.reverseRecOn generalizing a with
  | nil =>
    exact ⟨rfl, fun i hi => absurd hi (Nat.not_lt_zero i)⟩
  | append_singleton l x ih =>
    rw [List.length_append, List.length_singleton] at hl
    have ih := ih (by omega)
    have hlen : ∀ a, (p.group l a).length < p.nTokens * p.nIds := fun a =>
      lt_of_le_of_lt (List.length_filter_le _ _) (by omega)
    have hplace : ∀ {a b i j : ℕ}, i < p.nTokens * p.nIds → j < p.nTokens * p.nIds →
        p.matrixRow a i = p.matrixRow b j → a = b ∧ i = j := by
      intro a b i j hi hj h
      rw [matrixRow, matrixRow, Nat.mul_assoc, Nat.mul_assoc, Nat.mul_comm p.nIds] at h
      exact mul_add_inj hi hj h
    rw [List.foldl_append, List.foldl_cons, List.foldl_nil]
    simp only [joinGroup]
    by_cases hax : p.ids x.1 x.2 = a
    · have hgroup : p.group (l ++ [x]) a = p.group l a ++ [x] := by
        simp [group, List.filter_append, hax]
      obtain ⟨hcount, hrows⟩ := ih a
      refine ⟨?_, fun i hi => ?_⟩
      · rw [hax, Function.update_self, hcount, hgroup, List.length_append, List.length_singleton]
      · have hi' : i < (p.group l a).length + 1 := by
          rwa [hgroup, List.length_append, List.length_singleton] at hi
        rw [hax, hcount]
        rcases Nat.lt_succ_iff_lt_or_eq.1 hi' with hlt | rfl
        · rw [Function.update_of_ne, hrows i hlt]
          · simp only [List.get_eq_getElem, hgroup]
            rw [List.getElem_append_left hlt]
          · intro heq
            have hij := (hplace (by have := hlen a; omega) (hlen a) heq).2
            omega
        · simp only [Function.update_self, hgroup, List.get_eq_getElem,
            List.getElem_concat_length]
          rfl
    · have hgroup : p.group (l ++ [x]) a = p.group l a := by
        simp [group, List.filter_append, hax]
      obtain ⟨hcount, hrows⟩ := ih a
      refine ⟨?_, fun i hi => ?_⟩
      · rw [Function.update_of_ne (Ne.symm hax), hcount, hgroup]
      · have hi' : i < (p.group l a).length := by rwa [hgroup] at hi
        rw [Function.update_of_ne, hrows i hi']
        · simp only [List.get_eq_getElem, hgroup]
        · intro heq
          have hcount' := (ih (p.ids x.1 x.2)).1
          refine hax (hplace ?_ ?_ heq).1.symm
          · have := hlen a
            omega
          · rw [hcount']
            exact hlen _

lemma group_perm (hp : p.Valid) :
    ((List.range p.src0.ne2).flatMap fun a => p.group p.routed a).Perm p.routed := by
  refine flatMap_perm_of_owner (nodup_routed p) (fun a _ => (nodup_routed p).filter _) ?_ ?_
  · intro a _ b _ x hxa hxb
    have ha := of_decide_eq_true (List.mem_filter.1 hxa).2
    have hb := of_decide_eq_true (List.mem_filter.1 hxb).2
    exact ha.symm.trans hb
  · intro x
    constructor
    · intro hx
      obtain ⟨h1, h⟩ := mem_routed.1 hx
      exact ⟨p.ids x.1 x.2, hp.ids_lt _ h1 _ h, List.mem_filter.2 ⟨hx, decide_eq_true rfl⟩⟩
    · rintro ⟨a, -, hx⟩
      exact (List.mem_filter.1 hx).1

/-! ## The chunks of a matrix -/

/-- The store of the element of row `x.1` of matrix `a` and place `x.2` of its group. -/
def groupStore (p : MulMatId ρ β α) (g : RowGroups) (a : ℕ) (x : ℕ × ℕ) : MulMat.MStore β α :=
  let row := g.rows (p.matrixRow a x.2)
  MulMat.dstStore (row.1 * p.dst.nb1 + row.2 * p.dst.nb2 + x.1 * 4)
    (p.dot (a * p.src0.nb2 + x.1 * p.src0.nb1) (p.src1Col (row.1 % p.src1.ne1) row.2))

lemma tileRound_eq (g : RowGroups) (a : ℕ) {iir0 ir0End ir1 : ℕ} (hend : ir0End ≤ iir0 + 16) :
    p.tileRound g a iir0 ir0End ir1 = (tilePairs 1 iir0 ir0End ir1).map (p.groupStore g a) := by
  rw [tilePairs, List.range_one, List.flatMap_singleton, List.map_map, tileRound]
  refine List.map_congr_left fun j hj => ?_
  have hdots := MulMat.tileDots_apply (p := p.toMulMat) (.inl rfl) hend (Nat.mod_one _)
    Nat.one_pos (List.mem_range.1 hj) (a * p.src0.nb2)
    (p.src1Col ((g.rows (p.matrixRow a ir1)).1 % p.src1.ne1) (g.rows (p.matrixRow a ir1)).2)
  rw [Nat.zero_mul, Nat.zero_add, Nat.zero_mul, Nat.add_zero] at hdots
  rw [hdots]
  rfl

lemma chunk_eq (g : RowGroups) (a c : ℕ) :
    p.chunk g nth a c =
      (tiles 1 (chunkBounds p.src0.ne1 (g.counts a) (p.grid nth (g.counts a)) c)
        (tilePairs 1)).map (p.groupStore g a) := by
  rw [map_tiles]
  exact tiles_congr (.inl rfl) fun _ _ _ hend _ _ _ _ => tileRound_eq g a hend

lemma chunks_perm (hnth : 0 < nth) (g : RowGroups) (a : ℕ) :
    ((List.range (p.chunks g nth a)).flatMap (p.chunk g nth a)).Perm
      ((allPairs p.src0.ne1 (g.counts a)).map (p.groupStore g a)) := by
  by_cases hzero : g.counts a = 0
  · rw [chunks, if_pos hzero, hzero]
    rfl
  · rw [chunks, if_neg hzero, List.flatMap_congr fun c _ => chunk_eq g a c, ← List.map_flatMap]
    exact (chunkPairs_perm (chunkGrid_pos hnth _ _ _) fun _ => .inl rfl).map _

def elementAt (p : MulMatId ρ β α) (i : ℕ × ℕ × ℕ × ℕ) : MulMat.MStore β α :=
  MulMat.dstStore (p.dstOffset i) (p.dot (p.src0.row i.1 (p.ids i.2.2.1 i.2.1) 0)
    (p.toMulMat.src1Col (i.2.1 % p.src1.ne1) i.2.2.1 0))

/-- The stores of a row of the result. -/
def rowStores (p : MulMatId ρ β α) (x : ℕ × ℕ) : List (MulMat.MStore β α) :=
  (List.range p.src0.ne1).map fun i0 => p.elementAt (i0, x.2, x.1, 0)

lemma src1Col_eq (p : MulMatId ρ β α) (i11 i12 : ℕ) :
    p.src1Col i11 i12 = p.toMulMat.src1Col i11 i12 0 := by
  simp [src1Col, MulMat.src1Col]

lemma groupStores_eq (rows : ℕ → ℕ × ℕ) (a : ℕ) :
    (allPairs p.src0.ne1 ((p.rowGroups rows).counts a)).map (p.groupStore (p.rowGroups rows) a) =
      (p.group p.routed a).flatMap p.rowStores := by
  obtain ⟨hcount, hrows⟩ := groups_of_prefix rows (length_routed p).le a
  have hlist : p.group p.routed a = (List.range (p.group p.routed a).length).map fun i =>
      (p.group p.routed a).getD i (0, 0) := by
    refine List.ext_getElem (by simp) fun i hi _ => ?_
    simp [List.getElem?_eq_getElem hi]
  conv_rhs => rw [hlist]
  rw [List.flatMap_map, allPairs, List.map_flatMap, rowGroups, hcount]
  refine List.flatMap_congr fun i hi => ?_
  have hi := List.mem_range.1 hi
  have hmem : (p.group p.routed a).get ⟨i, hi⟩ ∈ p.group p.routed a := List.get_mem _ _
  have hid : p.ids ((p.group p.routed a).get ⟨i, hi⟩).1 ((p.group p.routed a).get ⟨i, hi⟩).2 = a :=
    of_decide_eq_true (List.mem_filter.1 hmem).2
  have hget : (p.group p.routed a).getD i (0, 0) = (p.group p.routed a).get ⟨i, hi⟩ := by
    simp [List.getElem?_eq_getElem hi]
  rw [hget, rowStores, List.map_map]
  refine List.map_congr_left fun i0 _ => ?_
  simp only [Function.comp_apply, groupStore, elementAt, hrows i hi, hid, Prod.fst_swap,
    Prod.snd_swap, src1Col_eq]
  congr 1
  · simp only [MulMat.dstOffset, TensorShape.row]
    ring
  · congr 1
    rw [TensorShape.row]
    ring

lemma experts_perm (hp : p.Valid) (rows : ℕ → ℕ × ℕ) (hnth : 0 < nth) :
    ((List.range p.src0.ne2).flatMap fun a =>
      (List.range (p.chunks (p.rowGroups rows) nth a)).flatMap
        (p.chunk (p.rowGroups rows) nth a)).Perm (p.dstIndices.map p.elementAt) := by
  have hall : p.dstIndices.map p.elementAt = p.routed.flatMap p.rowStores := by
    simp only [MulMat.dstIndices, hp.ne0, hp.ne1, hp.ne2, hp.ne3, List.range_one,
      List.flatMap_singleton, List.map_flatMap, List.map_map, routed, List.flatMap_assoc,
      List.flatMap_map]
    rfl
  rw [hall]
  refine (List.Perm.flatMap_left _ fun a _ => chunks_perm hnth _ a).trans ?_
  rw [List.flatMap_congr fun a _ => groupStores_eq rows a, ← List.flatMap_assoc]
  exact (group_perm hp).flatMap_right _

theorem experts_do (hp : p.Valid) (rows : ℕ → ℕ × ℕ) (hnth : 0 < nth) :
    (p.experts (p.rowGroups rows) nth).Does (p.dstIndices.map p.elementAt) where
  nonempty := teamStage_nonempty (fun _ => ownThenSharedLaw nth _ hnth) _
  perm log hlog := (perm_of_mem_teamStage (fun _ => ownThenSharedLaw nth _ hnth) hlog).trans
    (experts_perm hp rows hnth)
  nodup := by
    rw [List.map_map]
    exact MulMat.nodup_dstCells hp.toDstValid
  reads := by
    intro s hs mem mem' hsame
    obtain ⟨i, -, rfl⟩ := List.mem_map.1 hs
    refine MulMat.dot_congr _ _ fun offset => hsame _ fun hmem => ?_
    simp only [targets, List.map_map, Set.mem_ofPred_eq, List.mem_map] at hmem
    obtain ⟨j, -, hj⟩ := hmem
    cases hj

/-! ## The product -/

/-- What a product by experts does: it stores every block and every element once, and it can be
run to its end, and then every element is the one of the product. -/
structure Right (p : MulMatId ρ β α) (rows : ℕ → ℕ × ℕ) (nth : ℕ) : Prop where
  blocks_once : ∀ log ∈ (strided nth nth).stage (p.quantizeSrc1 nth),
    (log.map Store.target).Perm p.workCells
  blocks_apart : p.workCells.Nodup
  elements_once : ∀ log ∈ p.experts (p.rowGroups rows) nth,
    (log.map Store.target).Perm p.dstCells
  elements_apart : p.dstCells.Nodup
  ends : ∀ mem, ∃ mem', StageRuns (p.stages rows nth) mem mem'
  value : ∀ mem mem', StageRuns (p.stages rows nth) mem mem' → ∀ i ∈ p.dstIndices,
    mem' (.dst (p.dstOffset i)) = p.product i.1 i.2.1 i.2.2.1

lemma quantize_does (hp : p.Valid) (hnth : 0 < nth) :
    ((strided nth nth).stage (p.quantizeSrc1 nth)).Does (p.workAll p.floatBlock) :=
  MulMat.workAll_does hp.toSrcValid hnth (MulMat.fromFloat_perm hp.toSrcValid hnth)

lemma stages_do (hp : p.Valid) (rows : ℕ → ℕ × ℕ) (hnth : 0 < nth) :
    List.Forall₂ Stage.Does (p.stages rows nth)
      [p.workAll p.floatBlock, p.dstIndices.map p.elementAt] :=
  .cons (quantize_does hp hnth) (.cons (experts_do hp rows hnth) .nil)

end MulMatId

end IFairy
