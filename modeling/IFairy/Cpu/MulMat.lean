import IFairy.Cpu.Chunks
import IFairy.Framework.Stages

/-!
# The matrix product of the CPU backend

`ggml_compute_forward_mul_mat`, built without `GGML_USE_LLAMAFILE`.  The workers first bring `src1`
into the work buffer, in the type that the dot product takes, and then draw chunks of the result.
The tensors are given by their shapes, and the data by what is found at an offset, so that a model
of the product says which rows it reads.  Whatever the shape, the number of workers and the order
of their draws, each block is quantised once and each element is stored once, and the elements are
those of the product (`MulMat.mulMat_right`).
-/

namespace IFairy

/-! ## Shapes -/

/-- `ne` and `nb` of a tensor. -/
structure TensorShape where
  ne0 : ℕ
  ne1 : ℕ
  ne2 : ℕ
  ne3 : ℕ
  nb0 : ℕ
  nb1 : ℕ
  nb2 : ℕ
  nb3 : ℕ

/-- The loop of `ggml_is_contiguous` over the outer dimensions. -/
def contiguousFrom : List (ℕ × ℕ) → ℕ → Bool
  | [], _ => true
  | (ne, nb) :: dims, nextNb =>
    if ne ≠ 1 then if nb ≠ nextNb then false else contiguousFrom dims (nextNb * ne)
    else contiguousFrom dims nextNb

/-- `ggml_is_contiguous`. -/
def TensorShape.isContiguous (s : TensorShape) (blckSize typeSize : ℕ) : Bool :=
  if s.ne0 ≠ blckSize ∧ s.nb0 ≠ typeSize then false
  else contiguousFrom [(s.ne1, s.nb1), (s.ne2, s.nb2), (s.ne3, s.nb3)]
    (typeSize * (s.ne0 / blckSize))

def TensorShape.row (s : TensorShape) (i1 i2 i3 : ℕ) : ℕ := i1 * s.nb1 + i2 * s.nb2 + i3 * s.nb3

lemma row_of_contiguous {s : TensorShape} {blckSize typeSize i1 i2 i3 : ℕ}
    (h : s.isContiguous blckSize typeSize = true) (h1 : i1 < s.ne1) (h2 : i2 < s.ne2)
    (h3 : i3 < s.ne3) :
    s.row i1 i2 i3 = (i1 + i2 * s.ne1 + i3 * s.ne2 * s.ne1) * (typeSize * (s.ne0 / blckSize)) := by
  have hdim : ∀ {ne nb nextNb : ℕ} {dims : List (ℕ × ℕ)} {i : ℕ}, i < ne →
      contiguousFrom ((ne, nb) :: dims) nextNb = true →
      i * nb = i * nextNb ∧ contiguousFrom dims (nextNb * ne) = true := by
    intro ne nb nextNb dims i hi hc
    rw [contiguousFrom] at hc
    by_cases hne : ne = 1
    · rw [if_neg (not_not.2 hne)] at hc
      obtain rfl : i = 0 := by omega
      exact ⟨by rw [Nat.zero_mul, Nat.zero_mul], by rwa [hne, Nat.mul_one]⟩
    · rw [if_pos hne] at hc
      by_cases hnb : nb = nextNb
      · rw [if_neg (not_not.2 hnb)] at hc
        exact ⟨by rw [hnb], hc⟩
      · rw [if_pos hnb] at hc
        cases hc
  unfold TensorShape.isContiguous at h
  split at h
  · cases h
  · obtain ⟨hrow1, h⟩ := hdim h1 h
    obtain ⟨hrow2, h⟩ := hdim h2 h
    obtain ⟨hrow3, -⟩ := hdim h3 h
    rw [TensorShape.row, hrow1, hrow2, hrow3]
    ring

/-! ## The node -/

/-- What the workers store, by its offset: a block of the work buffer, an element of `dst`. -/
inductive MulMatCell
  | work (offset : ℕ)
  | dst (offset : ℕ)
deriving DecidableEq

/-- What a cell holds. -/
abbrev MulMatCell.Value (β α : Type) : MulMatCell → Type
  | .work _ => β
  | .dst _ => α

/-- A `MUL_MAT` node: the shapes, the type that the dot product takes of `src1` (`sameType` when
`src1` has it already), and what is found at the offsets of the data.  `fromFloat` is the quantised
block of the floats at an offset, `quantizeRow` the row that the backend quantises as a whole. -/
structure MulMat (ρ β α : Type) where
  src0 : TensorShape
  src1 : TensorShape
  dst : TensorShape
  blckSize : ℕ
  typeSize : ℕ
  vecDotNumRows : ℕ
  sameType : Bool
  byThread : Bool
  backendQuantizes : Bool
  src0Row : ℕ → ρ
  src1Block : ℕ → β
  fromFloat : ℕ → β
  quantizeRow : ℕ → ℕ → β
  vecDot : ρ → List β → α
  uninit : ℕ → α

namespace MulMat

variable {ρ β α : Type} (p : MulMat ρ β α)

abbrev Memory (β α : Type) : Type := ∀ cell : MulMatCell, cell.Value β α

abbrev MStore (β α : Type) : Type := Store MulMatCell (MulMatCell.Value β α)

/-- The store of a block into the work buffer. -/
def workStore (offset : ℕ) (v : β) : MStore β α := ⟨.work offset, fun _ => v⟩

/-- The store of an element of `dst`. -/
def dstStore (offset : ℕ) (v : Memory β α → α) : MStore β α := ⟨.dst offset, v⟩

/-- The blocks of a row of `src1`. -/
def blocks : ℕ := p.src1.ne0 / p.blckSize

/-- `ggml_row_size(vec_dot_type, ne10)`. -/
def rowSize : ℕ := p.typeSize * p.src1.ne0 / p.blckSize

/-- The row of the work buffer for a row of `src1`. -/
def workRow (i11 i12 i13 : ℕ) : ℕ :=
  let nbw1 := p.rowSize
  let nbw2 := nbw1 * p.src1.ne1
  let nbw3 := nbw2 * p.src1.ne2
  i13 * nbw3 + i12 * nbw2 + i11 * nbw1

/-! ## Quantisation -/

/-- The loops over the rows of `src1`, as `(i11, i12, i13)`. -/
def src1Rows : List (ℕ × ℕ × ℕ) :=
  (List.range p.src1.ne3).flatMap fun i13 => (List.range p.src1.ne2).flatMap fun i12 =>
    (List.range p.src1.ne1).map fun i11 => (i11, i12, i13)

/-- The first block of a row that worker `ith` quantises. -/
def blockStart (nth ith : ℕ) : ℕ := ith * p.src1.ne0 / p.blckSize / nth

/-- The call of `from_float` on the part of a row of worker `ith`. -/
def fromFloatPart (nth ith : ℕ) (i : ℕ × ℕ × ℕ) : List (MStore β α) :=
  let start := p.blockStart nth ith
  (List.range (p.blockStart nth (ith + 1) - start)).map fun b =>
    workStore (p.workRow i.1 i.2.1 i.2.2 + start * p.typeSize + b * p.typeSize)
      (p.fromFloat (p.src1.row i.1 i.2.1 i.2.2 + start * p.blckSize * p.src1.nb0 +
        b * p.blckSize * 4))

/-- `ggml_legacy_ifairy_cpu_try_quantize_mul_mat_src1`, where it takes the quantisation over. -/
def tryQuantize (ith : ℕ) : List (MStore β α) :=
  if ith ≠ 0 then []
  else p.src1Rows.flatMap fun i => (List.range p.blocks).map fun b =>
    workStore (p.workRow i.1 i.2.1 i.2.2 + b * p.typeSize)
      (p.quantizeRow (p.src1.row i.1 i.2.1 i.2.2) b)

/-- What worker `ith` does before the barrier. -/
def quantizeSrc1 (nth ith : ℕ) : List (MStore β α) :=
  if p.sameType then []
  else if p.backendQuantizes then p.tryQuantize ith
  else p.src1Rows.flatMap (p.fromFloatPart nth ith)

/-! ## Chunks -/

/-- `ggml_is_contiguous(src1)`, for a `src1` of the type that the dot product takes. -/
def src1Cont : Bool := p.src1.isContiguous p.blckSize p.typeSize

def nr0 : ℕ := p.dst.ne0

def nr1 : ℕ := p.dst.ne1 * p.dst.ne2 * p.dst.ne3

/-- A block of the operand of the dot products, at its offset in the work buffer or in `src1`. -/
def block (mem : Memory β α) (offset : ℕ) : β :=
  if p.sameType then p.src1Block offset else mem (.work offset)

/-- One dot product, of the rows at two offsets. -/
def dot (row col : ℕ) (mem : Memory β α) : α :=
  p.vecDot (p.src0Row row) ((List.range p.blocks).map fun b => p.block mem (col + b * p.typeSize))

/-- `vec_dot` on `num` rows and `num` columns, its results from `tmp[at]` on. -/
def vecDotInto (num at_ row col bs bx by_ : ℕ) (tmp : ℕ → Memory β α → α) :
    ℕ → Memory β α → α :=
  ((List.range num).flatMap fun c => (List.range num).map fun a => (a, c)).foldl
    (fun tmp x => Function.update tmp (at_ + x.1 + x.2 * bs)
      (p.dot (row + x.1 * bx) (col + x.2 * by_))) tmp

/-- The column of the operand: the indices count when its rows follow one another. -/
def src1Col (i11 i12 i13 : ℕ) : ℕ :=
  if p.src1Cont || !p.sameType then
    (i11 + i12 * p.src1.ne1 + i13 * p.src1.ne2 * p.src1.ne1) * p.rowSize
  else i11 * p.src1.nb1 + i12 * p.src1.nb2 + i13 * p.src1.nb3

/-- `src1_col_stride`. -/
def src1ColStride : ℕ := if p.src1Cont || !p.sameType then p.rowSize else p.src1.nb1

/-- The dot products of a column of a tile, in `tmp`. -/
def tileDots (num iir0 ir0End src0Row src1Col : ℕ) : ℕ → Memory β α → α :=
  (fromRange iir0 ir0End num).foldl (fun tmp ir0 =>
    p.vecDotInto num (ir0 - iir0) (src0Row + ir0 * p.src0.nb1) src1Col
      (if 1 < num then 16 else 0) (if 1 < num then p.src0.nb1 else 0)
      (if 1 < num then p.src1ColStride else 0) tmp) fun i _ => p.uninit i

def tileRound (num iir0 ir0End ir1 : ℕ) : List (MStore β α) :=
  let ne1 := p.dst.ne1
  let ne12 := p.src1.ne2
  let i13 := ir1 / (ne12 * ne1)
  let i12 := (ir1 - i13 * ne12 * ne1) / ne1
  let i11 := ir1 - i13 * ne12 * ne1 - i12 * ne1
  let i03 := i13 / (p.src1.ne3 / p.src0.ne3)
  let i02 := i12 / (p.src1.ne2 / p.src0.ne2)
  let src0Row := 0 + i02 * p.src0.nb2 + i03 * p.src0.nb3
  let dstCol := i11 * p.dst.nb1 + i12 * p.dst.nb2 + i13 * p.dst.nb3
  let tmp := p.tileDots num iir0 ir0End src0Row (p.src1Col i11 i12 i13)
  (List.range num).flatMap fun cn => (List.range (ir0End - iir0)).map fun j =>
    dstStore (dstCol + (iir0 + cn * p.dst.nb1 / p.dst.nb0 + j) * 4) (tmp (cn * 16 + j))

/-- `ggml_compute_forward_mul_mat_one_chunk`. -/
def oneChunk (num : ℕ) (b : ChunkBounds) : List (MStore β α) := tiles num b (p.tileRound num)

def grid (nth : ℕ) : ℕ × ℕ := chunkGrid p.nr0 p.nr1 nth p.byThread

def chunk (nth c : ℕ) : List (MStore β α) :=
  let b := chunkBounds p.nr0 p.nr1 (p.grid nth) c
  p.oneChunk (numRowsPerVecDot p.vecDotNumRows p.nr0 p.src1.ne1 b) b

/-- `ggml_compute_forward_mul_mat`: the stage before the barrier and the one after it. -/
def stages (nth : ℕ) : List (Stage MulMatCell (MulMatCell.Value β α)) :=
  [(strided nth nth).stage (p.quantizeSrc1 nth),
    (ownThenShared nth ((p.grid nth).1 * (p.grid nth).2)).stage (p.chunk nth)]

/-! ## The product -/

/-- What the code asserts of `src1` and its blocks. -/
structure SrcValid : Prop where
  nb10 : p.src1.nb0 = if p.sameType then p.typeSize else 4
  blck_dvd : p.blckSize ∣ p.src1.ne0
  blck_pos : 0 < p.blckSize
  type_pos : 0 < p.typeSize

/-- The elements of `dst` are floats that lie apart. -/
structure DstValid : Prop where
  nb0 : p.dst.nb0 = 4
  rows_apart : p.dst.ne0 * 4 ≤ p.dst.nb1
  cols_apart : p.dst.ne1 * p.dst.nb1 ≤ p.dst.nb2
  mats_apart : p.dst.ne2 * p.dst.nb2 ≤ p.dst.nb3
  nb1_dvd : 4 ∣ p.dst.nb1

/-- What the code asserts of the shapes of a product. -/
structure Valid : Prop extends SrcValid p, DstValid p where
  ne0 : p.dst.ne0 = p.src0.ne1
  ne1 : p.dst.ne1 = p.src1.ne1
  ne2 : p.dst.ne2 = p.src1.ne2
  ne3 : p.dst.ne3 = p.src1.ne3
  num_rows : p.vecDotNumRows = 1 ∨ p.vecDotNumRows = 2

/-- A block of `src1` as the dot product takes it. -/
def operand (i11 i12 i13 b : ℕ) : β :=
  let row := p.src1.row i11 i12 i13
  if p.sameType then p.src1Block (row + b * p.typeSize)
  else if p.backendQuantizes then p.quantizeRow row b
  else p.fromFloat (row + b * p.blckSize * p.src1.nb0)

/-- `MUL_MAT`: a row of `src0`, broadcast over `src1`, with a row of `src1`. -/
def product (i0 i1 i2 i3 : ℕ) : α :=
  p.vecDot (p.src0Row (p.src0.row i0 (i2 / (p.src1.ne2 / p.src0.ne2))
    (i3 / (p.src1.ne3 / p.src0.ne3)))) ((List.range p.blocks).map (p.operand i1 i2 i3))

end MulMat

end IFairy
