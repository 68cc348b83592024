import IFairy.Cpu.MulMat
import IFairy.Quant.Activations
import IFairy.Wide.Blocks

/-!
# The direct fused kernel

`ggml_compute_forward_ifairy_wide_linear_w2`: the workers quantise the rows of the activations in
turn, and after a barrier each computes its range of the outputs, in which two weights multiply the
activations and two their conjugates.  As elsewhere the accumulation is exact rational arithmetic,
without the rounding to `bfloat16`.

The kernel finds row `ir` of the activations at `ir * nb[1]`, whatever the outer dimensions are.
`ggml_is_contiguous` does not look at the stride of a dimension of one row, so that the rows need
not lie there (`RowsAdjacent`).
-/

namespace IFairy

namespace Cplx

instance : Zero Cplx := ⟨⟨0, 0⟩⟩

instance : Add Cplx := ⟨fun a b => ⟨a.re + b.re, a.im + b.im⟩⟩

instance : Mul Cplx := ⟨fun a b => ⟨a.re * b.re - a.im * b.im, a.re * b.im + a.im * b.re⟩⟩

def conj (a : Cplx) : Cplx := ⟨a.re, -a.im⟩

@[simp] lemma re_zero : (0 : Cplx).re = 0 := rfl

@[simp] lemma im_zero : (0 : Cplx).im = 0 := rfl

@[simp] lemma re_add (a b : Cplx) : (a + b).re = a.re + b.re := rfl

@[simp] lemma im_add (a b : Cplx) : (a + b).im = a.im + b.im := rfl

@[simp] lemma re_mul (a b : Cplx) : (a * b).re = a.re * b.re - a.im * b.im := rfl

@[simp] lemma im_mul (a b : Cplx) : (a * b).im = a.re * b.im + a.im * b.re := rfl

@[simp] lemma re_conj (a : Cplx) : a.conj.re = a.re := rfl

@[simp] lemma im_conj (a : Cplx) : a.conj.im = -a.im := rfl

instance : AddCommMonoid Cplx where
  add_assoc a b c := Cplx.ext (add_assoc _ _ _) (add_assoc _ _ _)
  zero_add a := Cplx.ext (zero_add _) (zero_add _)
  add_zero a := Cplx.ext (add_zero _) (add_zero _)
  add_comm a b := Cplx.ext (add_comm _ _) (add_comm _ _)
  nsmul := nsmulRec

@[simp] lemma re_sum {ι : Type*} (s : Finset ι) (f : ι → Cplx) :
    (∑ i ∈ s, f i).re = ∑ i ∈ s, (f i).re :=
  map_sum (⟨⟨Cplx.re, rfl⟩, fun _ _ => rfl⟩ : Cplx →+ ℚ) f s

@[simp] lemma im_sum {ι : Type*} (s : Finset ι) (f : ι → Cplx) :
    (∑ i ∈ s, f i).im = ∑ i ∈ s, (f i).im :=
  map_sum (⟨⟨Cplx.im, rfl⟩, fun _ _ => rfl⟩ : Cplx →+ ℚ) f s

lemma add_mul (a b c : Cplx) : (a + b) * c = a * c + b * c := by
  ext
  · simp only [re_mul, re_add, im_add]
    ring
  · simp only [im_mul, re_add, im_add]
    ring

end Cplx

namespace Wide

/-! ## A row of blocks -/

/-- `ggml_ifairy64_fuse_apply_branch`. -/
def applyBranch (w : BlockIfairy64) (x : BlockIfairy64Q16) (sums : BlockSums)
    (conjugateInput : Bool) (acc : Cplx) : Cplx :=
  let xr := halfToRat x.dReal
  let xi := halfToRat x.dImag
  let wr := halfToRat w.dReal
  let wi := halfToRat w.dImag
  if conjugateInput then
    ⟨acc.re + (sums.ac * (xr * wr) + sums.bd * (xi * wi)),
      acc.im + (sums.bc * (xr * wi) - sums.ad * (xi * wr))⟩
  else
    ⟨acc.re + (sums.ac * (xr * wr) - sums.bd * (xi * wi)),
      acc.im + (sums.bc * (xr * wi) + sums.ad * (xi * wr))⟩

/-- `ggml_ifairy64_fuse_accumulate_four`. -/
def fuseAccumulateFour (isa : WideIsa) (u0 u1 w0 w1 : ℕ → BlockIfairy64)
    (x : ℕ → BlockIfairy64Q16) (blocks : ℕ) (acc : Cplx) : Cplx :=
  (List.range blocks).foldl (fun acc ib =>
    let sums := accumulateFour isa (u0 ib) (u1 ib) (w0 ib) (w1 ib) (x ib)
    let acc := applyBranch (u0 ib) (x ib) sums.u0 false acc
    let acc := applyBranch (u1 ib) (x ib) sums.u1 false acc
    let acc := applyBranch (w0 ib) (x ib) sums.w0 true acc
    applyBranch (w1 ib) (x ib) sums.w1 true acc) acc

/-- Element `k` of a row of weights. -/
def dequantRow64 (w : ℕ → BlockIfairy64) (k : ℕ) : Cplx :=
  let block := w (k / 64)
  let q := codeAt block.qs (k % 64)
  ⟨phaseRe q * halfToRat block.dReal, phaseIm q * halfToRat block.dImag⟩

/-- Element `k` of a row of quantised activations. -/
def dequantQ64 (x : ℕ → BlockIfairy64Q16) (k : ℕ) : Cplx :=
  let block := x (k / 64)
  ⟨q16Re block (k % 64) * halfToRat block.dReal, q16Im block (k % 64) * halfToRat block.dImag⟩

/-- The widely linear product: `Σ (u0 + u1) * x + (w0 + w1) * conj x`. -/
def wideProduct (n : ℕ) (u0 u1 w0 w1 x : ℕ → Cplx) : Cplx :=
  ∑ k ∈ Finset.range n, ((u0 k + u1 k) * x k + (w0 k + w1 k) * (x k).conj)

lemma applyBranch_eq (w : BlockIfairy64) (x : BlockIfairy64Q16) (conjugateInput : Bool)
    (acc : Cplx) :
    applyBranch w x (productSums w x) conjugateInput acc = acc + ∑ j ∈ Finset.range 64,
      (⟨phaseRe (codeAt w.qs j) * halfToRat w.dReal, phaseIm (codeAt w.qs j) * halfToRat w.dImag⟩ :
        Cplx) * (if conjugateInput then
          (⟨q16Re x j * halfToRat x.dReal, q16Im x j * halfToRat x.dImag⟩ : Cplx).conj
          else ⟨q16Re x j * halfToRat x.dReal, q16Im x j * halfToRat x.dImag⟩) := by
  cases conjugateInput with
  | true =>
    ext
    · simp only [applyBranch, productSums, if_true, Cplx.re_add, Cplx.re_sum, Cplx.re_mul,
        Cplx.re_conj, Cplx.im_conj, Int.cast_sum, Finset.sum_mul, ← Finset.sum_add_distrib]
      congr 1
      refine Finset.sum_congr rfl fun j _ => ?_
      push_cast
      ring
    · simp only [applyBranch, productSums, if_true, Cplx.im_add, Cplx.im_sum, Cplx.im_mul,
        Cplx.re_conj, Cplx.im_conj, Int.cast_sum, Finset.sum_mul, ← Finset.sum_sub_distrib]
      congr 1
      refine Finset.sum_congr rfl fun j _ => ?_
      push_cast
      ring
  | false =>
    ext
    · simp only [applyBranch, productSums, Bool.false_eq_true, if_false, Cplx.re_add, Cplx.re_sum,
        Cplx.re_mul, Int.cast_sum, Finset.sum_mul, ← Finset.sum_sub_distrib]
      congr 1
      refine Finset.sum_congr rfl fun j _ => ?_
      push_cast
      ring
    · simp only [applyBranch, productSums, Bool.false_eq_true, if_false, Cplx.im_add, Cplx.im_sum,
        Cplx.im_mul, Int.cast_sum, Finset.sum_mul, ← Finset.sum_add_distrib]
      congr 1
      refine Finset.sum_congr rfl fun j _ => ?_
      push_cast
      ring

theorem fuseAccumulateFour_eq (isa : WideIsa) (u0 u1 w0 w1 : ℕ → BlockIfairy64)
    {x : ℕ → BlockIfairy64Q16} {blocks : ℕ} (hx : ∀ b < blocks, Negatable (x b)) :
    fuseAccumulateFour isa u0 u1 w0 w1 x blocks 0 = wideProduct (blocks * 64) (dequantRow64 u0)
      (dequantRow64 u1) (dequantRow64 w0) (dequantRow64 w1) (dequantQ64 x) := by
  have hdiv : ∀ b, ∀ j ∈ Finset.range 64, (64 * b + j) / 64 = b := fun b j hj => by
    have := Finset.mem_range.mp hj
    omega
  have hmod : ∀ b, ∀ j ∈ Finset.range 64, (64 * b + j) % 64 = j := fun b j hj => by
    have := Finset.mem_range.mp hj
    omega
  rw [wideProduct, sum_range_mul _ blocks 64]
  refine (foldl_accumulate _ id _ blocks (fun acc b hb => ?_) 0).trans (zero_add _)
  simp only [id, accumulateFour_eq isa (u0 b) (u1 b) (w0 b) (w1 b) (.inr (hx b hb)),
    applyBranch_eq, Bool.false_eq_true, if_false, if_true]
  rw [add_assoc, add_assoc, add_assoc, ← Finset.sum_add_distrib, ← Finset.sum_add_distrib,
    ← Finset.sum_add_distrib]
  congr 1
  refine Finset.sum_congr rfl fun j hj => ?_
  simp only [dequantRow64, dequantQ64, hdiv b j hj, hmod b j hj, Cplx.add_mul]
  rw [add_assoc]

/-! ## The node -/

/-- What the workers store: a row of quantised activations, an element of `dst` by its offset. -/
inductive WideCell
  | quant (row : ℕ)
  | dst (offset : ℕ)
deriving DecidableEq

/-- What a cell holds. -/
abbrev WideCell.Value : WideCell → Type
  | .quant _ => ℕ → BlockIfairy64Q16
  | .dst _ => Cplx

abbrev WideMemory : Type := ∀ cell : WideCell, cell.Value

abbrev WideStore : Type := Store WideCell WideCell.Value

/-- An `IFAIRY_WIDE_LINEAR_W2` node: `m` rows of each weight, block after block, and what is found
at the offsets of the activations and of the bias. -/
structure WideNode (F : Type) where
  isa : WideIsa
  ops : FloatOps F
  x : TensorShape
  m : ℕ
  word : ℕ → UInt32
  u0 : ℕ → BlockIfairy64
  u1 : ℕ → BlockIfairy64
  w0 : ℕ → BlockIfairy64
  w1 : ℕ → BlockIfairy64
  bias : Option (TensorShape × (ℕ → ℚ))

/-- `ggml_ifairy_wide_linear_bias_at`. -/
def biasAt (bias : TensorShape × (ℕ → ℚ)) (i0 i1 i2 i3 : ℕ) : ℚ :=
  bias.2 (i0 % bias.1.ne0 * bias.1.nb0 + i1 % bias.1.ne1 * bias.1.nb1 +
    i2 % bias.1.ne2 * bias.1.nb2 + i3 % bias.1.ne3 * bias.1.nb3)

namespace WideNode

variable {F : Type} (p : WideNode F)

/-- `ggml_nrows`. -/
def actRows : ℕ := p.x.ne1 * p.x.ne2 * p.x.ne3

def blocks : ℕ := p.x.ne0 / 64

/-- The row of floats that the quantiser reads from an offset. -/
def rowAt (offset : ℕ) : ℕ → BlockIfairy64Q16 :=
  quantizeRowIfairy64Q16 p.ops fun k => p.word (offset + k * 4)

/-- The rows that worker `ith` quantises. -/
def quantize (nth ith : ℕ) : List WideStore :=
  (fromRange ith p.actRows nth).map fun ir => ⟨.quant ir, fun _ => p.rowAt (ir * p.x.nb1)⟩

/-- Output number `index`. -/
def element (index : ℕ) (mem : WideMemory) : Cplx :=
  let row := index % p.m
  let actRow := index / p.m
  let i1 := actRow % p.x.ne1
  let i2 := actRow / p.x.ne1 % p.x.ne2
  let i3 := actRow / (p.x.ne1 * p.x.ne2)
  let acc := fuseAccumulateFour p.isa (fun b => p.u0 (row * p.blocks + b))
    (fun b => p.u1 (row * p.blocks + b)) (fun b => p.w0 (row * p.blocks + b))
    (fun b => p.w1 (row * p.blocks + b)) (mem (.quant actRow)) p.blocks 0
  match p.bias with
  | none => acc
  | some bias => ⟨acc.re + biasAt bias row i1 i2 i3, acc.im + biasAt bias (row + p.m) i1 i2 i3⟩

/-- The store of output number `index`, in a `dst` whose rows are `4 * m` bytes long. -/
def elementStore (index : ℕ) : WideStore :=
  ⟨.dst (index / p.m * (4 * p.m) + index % p.m * 4), p.element index⟩

/-- The outputs of worker `ith`. -/
def compute (nth ith : ℕ) : List WideStore :=
  let total := p.m * p.actRows
  let first := total * ith / nth
  let last := total * (ith + 1) / nth
  (List.range (last - first)).map fun i => p.elementStore (first + i)

/-- `ggml_compute_forward_ifairy_wide_linear_w2`, cut at its barrier. -/
def stages (nth : ℕ) : List (Stage WideCell WideCell.Value) :=
  [(strided nth nth).stage (p.quantize nth), (strided nth nth).stage (p.compute nth)]

/-! ## The outputs -/

/-- The quantised activations of a row of the tensor. -/
def activation (i1 i2 i3 : ℕ) : ℕ → BlockIfairy64Q16 :=
  quantizeRowIfairy64Q16 p.ops fun k => p.word (p.x.row i1 i2 i3 + k * p.x.nb0)

def biasTerm (i0 i1 i2 i3 : ℕ) : Cplx :=
  match p.bias with
  | none => 0
  | some bias => ⟨biasAt bias i0 i1 i2 i3, biasAt bias (i0 + p.m) i1 i2 i3⟩

/-- An output from a row of quantised activations. -/
def outputFrom (x : ℕ → BlockIfairy64Q16) (i0 i1 i2 i3 : ℕ) : Cplx :=
  wideProduct p.x.ne0 (dequantRow64 fun b => p.u0 (i0 * p.blocks + b))
    (dequantRow64 fun b => p.u1 (i0 * p.blocks + b))
    (dequantRow64 fun b => p.w0 (i0 * p.blocks + b))
    (dequantRow64 fun b => p.w1 (i0 * p.blocks + b)) (dequantQ64 x) + p.biasTerm i0 i1 i2 i3

/-- The output that the node stands for. -/
def output (i0 i1 i2 i3 : ℕ) : Cplx := p.outputFrom (p.activation i1 i2 i3) i0 i1 i2 i3

/-- The offset of an element of `dst`. -/
def dstOffset (i0 i1 i2 i3 : ℕ) : ℕ :=
  i0 * 4 + i1 * (4 * p.m) + i2 * (4 * p.m * p.x.ne1) + i3 * (4 * p.m * p.x.ne1 * p.x.ne2)

def IsElement (i0 i1 i2 i3 : ℕ) : Prop := i0 < p.m ∧ i1 < p.x.ne1 ∧ i2 < p.x.ne2 ∧ i3 < p.x.ne3

/-- What the assertions of the kernel let through. -/
structure Accepted : Prop where
  contiguous : p.x.isContiguous 1 4 = true
  whole_blocks : p.x.ne0 % 64 = 0

/-- Whether the rows of the activations follow each other by the stride of the second dimension. -/
def RowsAdjacent : Prop :=
  p.x.ne0 = 0 ∨ p.x.ne1 ≠ 1 ∨ p.actRows ≤ 1 ∨ p.x.nb1 = 4 * p.x.ne0

/-- What the kernel is for: its variants agree, its workers store every row and every output
once, it can be run to its end, and the outputs are those of the node. -/
structure Right (nth : ℕ) : Prop where
  variants : ∀ (isa isa' : WideIsa) (u0 u1 w0 w1 : BlockIfairy64) (x : BlockIfairy64Q16),
    (∀ j < 64, -127 ≤ q16Re x j ∧ -127 ≤ q16Im x j) →
      accumulateFour isa u0 u1 w0 w1 x = accumulateFour isa' u0 u1 w0 w1 x
  elements_once : ∀ log ∈ (strided nth nth).stage (p.compute nth),
    (log.map Store.target).Nodup ∧ ∀ cell, cell ∈ log.map Store.target ↔
      ∃ i0 i1 i2 i3, p.IsElement i0 i1 i2 i3 ∧ cell = .dst (p.dstOffset i0 i1 i2 i3)
  elements_apart : ∀ i0 i1 i2 i3 j0 j1 j2 j3, p.IsElement i0 i1 i2 i3 → p.IsElement j0 j1 j2 j3 →
    p.dstOffset i0 i1 i2 i3 = p.dstOffset j0 j1 j2 j3 → i0 = j0 ∧ i1 = j1 ∧ i2 = j2 ∧ i3 = j3
  ends : ∀ mem, ∃ mem', StageRuns (p.stages nth) mem mem'
  value : ∀ mem mem', StageRuns (p.stages nth) mem mem' → ∀ i0 i1 i2 i3,
    p.IsElement i0 i1 i2 i3 → mem' (.dst (p.dstOffset i0 i1 i2 i3)) = p.output i0 i1 i2 i3

/-! ## The stages -/

variable {p} {nth : ℕ}

lemma quantize_does (p : WideNode F) (hnth : 0 < nth) :
    ((strided nth nth).stage (p.quantize nth)).Does ((List.range p.actRows).map fun ir =>
      ⟨.quant ir, fun _ => p.rowAt (ir * p.x.nb1)⟩) where
  nonempty := (stridedLaw hnth nth).stage_nonempty _
  perm log hlog := by
    refine ((stridedLaw hnth nth).perm_of_mem_stage hlog).trans ?_
    unfold quantize
    rw [← List.map_flatMap]
    exact (strided_perm hnth p.actRows).map _
  nodup := by
    rw [List.map_map]
    exact List.nodup_range.map fun _ _ h => WideCell.quant.inj h
  reads := by
    intro s hs mem mem' _
    obtain ⟨ir, -, rfl⟩ := List.mem_map.1 hs
    rfl

lemma target_elementStore (p : WideNode F) (index : ℕ) :
    (p.elementStore index).target = .dst (4 * index) := by
  have hsplit := Nat.div_add_mod index p.m
  show WideCell.dst (index / p.m * (4 * p.m) + index % p.m * 4) = _
  congr 1
  calc index / p.m * (4 * p.m) + index % p.m * 4
      = 4 * (p.m * (index / p.m) + index % p.m) := by ring
    _ = 4 * index := by rw [hsplit]

lemma compute_does (p : WideNode F) (hnth : 0 < nth) :
    ((strided nth nth).stage (p.compute nth)).Does
      ((List.range (p.m * p.actRows)).map p.elementStore) where
  nonempty := (stridedLaw hnth nth).stage_nonempty _
  perm log hlog := by
    have hpieces := @flatMap_range_pieces (fun t => p.m * p.actRows * t / nth) (by simp)
      (fun t u htu => Nat.div_le_div_right (Nat.mul_le_mul_left _ htu)) nth
    refine ((stridedLaw hnth nth).perm_of_mem_stage hlog).trans (List.Perm.of_eq ?_)
    simp only [Nat.mul_div_cancel _ hnth] at hpieces
    rw [← hpieces, List.map_flatMap]
    refine List.flatMap_congr fun t _ => ?_
    rw [List.map_map]
    rfl
  nodup := by
    rw [List.map_map]
    refine List.nodup_range.map fun a b h => ?_
    simp only [Function.comp_apply, target_elementStore, WideCell.dst.injEq] at h
    omega
  reads := by
    intro s hs mem mem' hsame
    obtain ⟨index, -, rfl⟩ := List.mem_map.1 hs
    have hquant : mem (.quant (index / p.m)) = mem' (.quant (index / p.m)) :=
      hsame _ fun hmem => by
        simp only [targets, List.map_map, Set.mem_ofPred_eq, List.mem_map, Function.comp_apply,
          target_elementStore] at hmem
        obtain ⟨_, -, h⟩ := hmem
        cases h
    show p.element index mem = p.element index mem'
    simp only [element, hquant]

lemma stages_do (p : WideNode F) (hnth : 0 < nth) :
    List.Forall₂ Stage.Does (p.stages nth) [(List.range p.actRows).map fun ir =>
      ⟨.quant ir, fun _ => p.rowAt (ir * p.x.nb1)⟩,
      (List.range (p.m * p.actRows)).map p.elementStore] :=
  .cons (quantize_does p hnth) (.cons (compute_does p hnth) .nil)

/-! ## Numbers of the outputs -/

/-- The number of a row of the activations. -/
def rowNumber (p : WideNode F) (i1 i2 i3 : ℕ) : ℕ := (i3 * p.x.ne2 + i2) * p.x.ne1 + i1

lemma dstOffset_eq (p : WideNode F) (i0 i1 i2 i3 : ℕ) :
    p.dstOffset i0 i1 i2 i3 = 4 * (p.rowNumber i1 i2 i3 * p.m + i0) := by
  unfold dstOffset rowNumber
  ring

lemma IsElement.decode {i0 i1 i2 i3 : ℕ} (h : p.IsElement i0 i1 i2 i3) :
    (p.rowNumber i1 i2 i3 * p.m + i0) / p.m = p.rowNumber i1 i2 i3 ∧
      (p.rowNumber i1 i2 i3 * p.m + i0) % p.m = i0 ∧ p.rowNumber i1 i2 i3 % p.x.ne1 = i1 ∧
      p.rowNumber i1 i2 i3 / p.x.ne1 % p.x.ne2 = i2 ∧
      p.rowNumber i1 i2 i3 / (p.x.ne1 * p.x.ne2) = i3 := by
  obtain ⟨h0, h1, h2, h3⟩ := h
  obtain ⟨hdiv0, hmod0⟩ := mul_add_div_mod (a := p.rowNumber i1 i2 i3) h0
  obtain ⟨hdiv1, hmod1⟩ := mul_add_div_mod (a := i3 * p.x.ne2 + i2) h1
  obtain ⟨hdiv2, hmod2⟩ := mul_add_div_mod (a := i3) h2
  refine ⟨hdiv0, hmod0, hmod1, ?_, ?_⟩
  · rw [rowNumber, hdiv1, hmod2]
  · rw [rowNumber, ← Nat.div_div_eq_div_mul, hdiv1, hdiv2]

lemma rowNumber_lt {i1 i2 i3 : ℕ} (h1 : i1 < p.x.ne1) (h2 : i2 < p.x.ne2) (h3 : i3 < p.x.ne3) :
    p.rowNumber i1 i2 i3 < p.actRows := by
  have h32 : i3 * p.x.ne2 + i2 < p.x.ne3 * p.x.ne2 := by nlinarith
  have h321 : (i3 * p.x.ne2 + i2) * p.x.ne1 + i1 < p.x.ne3 * p.x.ne2 * p.x.ne1 := by nlinarith
  calc p.rowNumber i1 i2 i3 < p.x.ne3 * p.x.ne2 * p.x.ne1 := h321
    _ = p.actRows := by unfold actRows; ring

lemma lt_iff_isElement {index : ℕ} : index < p.m * p.actRows ↔
    ∃ i0 i1 i2 i3, p.IsElement i0 i1 i2 i3 ∧ index = p.rowNumber i1 i2 i3 * p.m + i0 := by
  constructor
  · intro h
    have hm : 0 < p.m := Nat.pos_of_ne_zero fun h0 => by simp [h0] at h
    have hrow : index / p.m < p.actRows := Nat.div_lt_of_lt_mul h
    have h12 : 0 < p.x.ne1 * p.x.ne2 := Nat.pos_of_ne_zero fun h0 => by simp [actRows, h0] at hrow
    have h1 : 0 < p.x.ne1 := Nat.pos_of_mul_pos_right h12
    have h2 : 0 < p.x.ne2 := Nat.pos_of_mul_pos_left h12
    have hi3 : index / p.m / p.x.ne1 / p.x.ne2 < p.x.ne3 := by
      rw [Nat.div_div_eq_div_mul]
      exact Nat.div_lt_of_lt_mul hrow
    refine ⟨index % p.m, index / p.m % p.x.ne1, index / p.m / p.x.ne1 % p.x.ne2,
      index / p.m / p.x.ne1 / p.x.ne2,
      ⟨Nat.mod_lt _ hm, Nat.mod_lt _ h1, Nat.mod_lt _ h2, hi3⟩, ?_⟩
    have hnumber : p.rowNumber (index / p.m % p.x.ne1) (index / p.m / p.x.ne1 % p.x.ne2)
        (index / p.m / p.x.ne1 / p.x.ne2) = index / p.m := by
      rw [rowNumber, Nat.div_add_mod', Nat.div_add_mod']
    rw [hnumber, Nat.div_add_mod']
  · rintro ⟨i0, i1, i2, i3, ⟨h0, h1, h2, h3⟩, rfl⟩
    have hrow := rowNumber_lt h1 h2 h3
    calc p.rowNumber i1 i2 i3 * p.m + i0 < (p.rowNumber i1 i2 i3 + 1) * p.m := by
          rw [Nat.add_one_mul]
          omega
      _ ≤ p.actRows * p.m := Nat.mul_le_mul_right _ hrow
      _ = p.m * p.actRows := Nat.mul_comm _ _

/-! ## The rows -/

lemma Accepted.nb0_eq (hp : p.Accepted) : p.x.nb0 = 4 := by
  have h := hp.contiguous
  have hblocks := hp.whole_blocks
  unfold TensorShape.isContiguous at h
  split at h
  · cases h
  · rename_i hnb
    exact not_not.1 (not_and.1 hnb (by omega))

lemma Accepted.nb1_eq (hp : p.Accepted) (h1 : p.x.ne1 ≠ 1) : p.x.nb1 = 4 * p.x.ne0 := by
  have h := hp.contiguous
  unfold TensorShape.isContiguous at h
  split at h
  · cases h
  · rw [contiguousFrom, if_pos h1] at h
    split at h
    · cases h
    · rename_i hnb
      rw [not_not.1 hnb, Nat.div_one]

lemma Accepted.row_eq (hp : p.Accepted) {i1 i2 i3 : ℕ} (h1 : i1 < p.x.ne1) (h2 : i2 < p.x.ne2)
    (h3 : i3 < p.x.ne3) : p.x.row i1 i2 i3 = p.rowNumber i1 i2 i3 * (4 * p.x.ne0) := by
  rw [row_of_contiguous hp.contiguous h1 h2 h3, Nat.div_one, rowNumber]
  ring

lemma rowsAdjacent_iff (hp : p.Accepted) : p.RowsAdjacent ↔ p.x.ne0 = 0 ∨
    ∀ i1 i2 i3, i1 < p.x.ne1 → i2 < p.x.ne2 → i3 < p.x.ne3 →
      p.rowNumber i1 i2 i3 * p.x.nb1 = p.x.row i1 i2 i3 := by
  constructor
  · rintro (h | h | h | h)
    · exact .inl h
    · refine .inr fun i1 i2 i3 h1 h2 h3 => ?_
      rw [hp.row_eq h1 h2 h3, hp.nb1_eq h]
    · refine .inr fun i1 i2 i3 h1 h2 h3 => ?_
      have hzero : p.rowNumber i1 i2 i3 = 0 := by
        have := rowNumber_lt h1 h2 h3
        omega
      rw [hp.row_eq h1 h2 h3, hzero, Nat.zero_mul, Nat.zero_mul]
    · refine .inr fun i1 i2 i3 h1 h2 h3 => ?_
      rw [hp.row_eq h1 h2 h3, h]
  · rintro (h | h)
    · exact .inl h
    · refine or_iff_not_imp_left.2 fun _ => or_iff_not_imp_left.2 fun hne1 =>
        or_iff_not_imp_left.2 fun hrows => ?_
      have hone : p.x.ne1 = 1 := not_not.1 hne1
      have hmany : 1 < p.x.ne2 * p.x.ne3 := by
        have hrows' : 1 < p.actRows := not_le.1 hrows
        rwa [actRows, hone, Nat.one_mul] at hrows'
      -- the second row is the next in the third dimension, or in the fourth
      have hsecond : ∃ i2 i3, i2 < p.x.ne2 ∧ i3 < p.x.ne3 ∧ p.rowNumber 0 i2 i3 = 1 := by
        by_cases h2 : 1 < p.x.ne2
        · exact ⟨1, 0, h2, Nat.pos_of_mul_pos_left (Nat.zero_lt_of_lt hmany),
            by simp [rowNumber, hone]⟩
        · have h2' : p.x.ne2 = 1 := by
            have := Nat.pos_of_mul_pos_right (Nat.zero_lt_of_lt hmany)
            omega
          rw [h2', Nat.one_mul] at hmany
          exact ⟨0, 1, by omega, hmany, by simp [rowNumber, hone, h2']⟩
      obtain ⟨i2, i3, h2, h3, hnumber⟩ := hsecond
      have hread := h 0 i2 i3 (by omega) h2 h3
      rwa [hp.row_eq (by omega) h2 h3, hnumber, Nat.one_mul, Nat.one_mul] at hread

/-- The quantiser writes no `-128`. -/
lemma rowAt_negatable (p : WideNode F) (offset b : ℕ) : Negatable (p.rowAt offset b) := by
  have hbyte : ∀ v, (clampByte 127 v).toInt8.toInt ≠ -128 := fun v => by
    have := (clampByte_bounds (show (0 : ℤ) ≤ 127 by decide) (le_refl 127) v).1
    omega
  exact fun j _ => ⟨hbyte _, hbyte _⟩

lemma quant_eq (p : WideNode F) (mem : WideMemory) (hnth : 0 < nth) {ir : ℕ}
    (hir : ir < p.actRows) :
    runStores mem ((List.range p.actRows).map fun ir =>
      (⟨.quant ir, fun _ => p.rowAt (ir * p.x.nb1)⟩ : WideStore)) (.quant ir) =
      p.rowAt (ir * p.x.nb1) := by
  have hdoes := quantize_does p hnth
  exact runStores_target subset_rfl hdoes.nodup hdoes.reads
    (List.mem_map.2 ⟨ir, List.mem_range.2 hir, rfl⟩)

lemma element_eq (p : WideNode F) (hblocks : p.x.ne0 % 64 = 0) {i0 i1 i2 i3 offset : ℕ}
    (hi : p.IsElement i0 i1 i2 i3) {mem : WideMemory}
    (hmem : mem (.quant ((p.rowNumber i1 i2 i3 * p.m + i0) / p.m)) = p.rowAt offset) :
    p.element (p.rowNumber i1 i2 i3 * p.m + i0) mem =
      p.outputFrom (p.rowAt offset) i0 i1 i2 i3 := by
  obtain ⟨hdiv, hmod, hi1, hi2, hi3⟩ := hi.decode
  have hwhole : p.blocks * 64 = p.x.ne0 := Nat.div_mul_cancel (Nat.dvd_of_mod_eq_zero hblocks)
  simp only [element, hmem]
  simp only [hdiv, hmod, hi1, hi2, hi3, outputFrom, biasTerm,
    fuseAccumulateFour_eq _ _ _ _ _ fun b (_ : b < p.blocks) => rowAt_negatable p offset b, hwhole]
  cases p.bias with
  | none => exact (add_zero (_ : Cplx)).symm
  | some bias => rfl

/-- What a run leaves at an element of `dst`. -/
lemma run_value (p : WideNode F) (hblocks : p.x.ne0 % 64 = 0) (hnth : 0 < nth)
    {mem mem' : WideMemory} (hrun : StageRuns (p.stages nth) mem mem') {i0 i1 i2 i3 : ℕ}
    (hi : p.IsElement i0 i1 i2 i3) : mem' (.dst (p.dstOffset i0 i1 i2 i3)) =
      p.outputFrom (p.rowAt (p.rowNumber i1 i2 i3 * p.x.nb1)) i0 i1 i2 i3 := by
  have hdoes := compute_does p hnth
  have hindex := lt_iff_isElement.2 ⟨i0, i1, i2, i3, hi, rfl⟩
  have hoffset : p.dstOffset i0 i1 i2 i3 =
      (p.rowNumber i1 i2 i3 * p.m + i0) / p.m * (4 * p.m) +
        (p.rowNumber i1 i2 i3 * p.m + i0) % p.m * 4 := by
    rw [dstOffset_eq, hi.decode.1, hi.decode.2.1]
    ring
  have hquant := quant_eq p mem hnth (Nat.div_lt_of_lt_mul hindex)
  rw [hrun.eq_foldl (stages_do p hnth), List.foldl_cons, List.foldl_cons, List.foldl_nil, hoffset]
  refine (runStores_target subset_rfl hdoes.nodup hdoes.reads
    (List.mem_map.2 ⟨_, List.mem_range.2 hindex, rfl⟩)).trans ?_
  exact (element_eq p hblocks hi hquant).trans (by rw [hi.decode.1])

/-! ## The kernel -/

/-- The variants of the block sums agree where nothing is `-128`. -/
lemma accumulateFour_agree (isa isa' : WideIsa) (u0 u1 w0 w1 : BlockIfairy64)
    {x : BlockIfairy64Q16} (hx : ∀ j < 64, -127 ≤ q16Re x j ∧ -127 ≤ q16Im x j) :
    accumulateFour isa u0 u1 w0 w1 x = accumulateFour isa' u0 u1 w0 w1 x := by
  have hneg : Negatable x := fun j hj => by
    obtain ⟨hr, hi⟩ := hx j hj
    constructor <;> omega
  rw [accumulateFour_eq isa u0 u1 w0 w1 (.inr hneg), accumulateFour_eq isa' u0 u1 w0 w1 (.inr hneg)]

/-- In every run over activations with adjacent rows the fused kernel does what it is for. -/
theorem wideLinear_right (p : WideNode F) {nth : ℕ} (hnth : 0 < nth) (hp : p.Accepted)
    (hadjacent : p.RowsAdjacent) : p.Right nth where
  variants isa isa' u0 u1 w0 w1 x hx := accumulateFour_agree isa isa' u0 u1 w0 w1 hx
  elements_once log hlog := by
    have hdoes := compute_does p hnth
    have hperm := (hdoes.perm log hlog).map Store.target
    refine ⟨hperm.nodup_iff.2 hdoes.nodup, fun cell => ?_⟩
    rw [hperm.mem_iff, List.map_map, List.mem_map]
    constructor
    · rintro ⟨index, hindex, rfl⟩
      obtain ⟨i0, i1, i2, i3, hi, rfl⟩ := lt_iff_isElement.1 (List.mem_range.1 hindex)
      exact ⟨i0, i1, i2, i3, hi, by rw [Function.comp_apply, target_elementStore, dstOffset_eq]⟩
    · rintro ⟨i0, i1, i2, i3, hi, rfl⟩
      exact ⟨_, List.mem_range.2 (lt_iff_isElement.2 ⟨i0, i1, i2, i3, hi, rfl⟩),
        by rw [Function.comp_apply, target_elementStore, dstOffset_eq]⟩
  elements_apart i0 i1 i2 i3 j0 j1 j2 j3 hi hj h := by
    rw [dstOffset_eq, dstOffset_eq] at h
    have hnumber : p.rowNumber i1 i2 i3 * p.m + i0 = p.rowNumber j1 j2 j3 * p.m + j0 := by omega
    obtain ⟨hdiv, hmod, hi1, hi2, hi3⟩ := hi.decode
    obtain ⟨hdiv', hmod', hj1, hj2, hj3⟩ := hj.decode
    rw [hnumber] at hdiv hmod
    have hrows : p.rowNumber i1 i2 i3 = p.rowNumber j1 j2 j3 := hdiv.symm.trans hdiv'
    rw [hrows] at hi1 hi2 hi3
    exact ⟨hmod.symm.trans hmod', hi1.symm.trans hj1, hi2.symm.trans hj2, hi3.symm.trans hj3⟩
  ends := exists_stageRuns (stages_do p hnth)
  value mem mem' hrun i0 i1 i2 i3 hi := by
    rw [run_value p hp.whole_blocks hnth hrun hi, output, outputFrom, outputFrom]
    obtain hzero | hread := (rowsAdjacent_iff hp).1 hadjacent
    · simp only [wideProduct, hzero, Finset.sum_range_zero]
    · rw [hread i1 i2 i3 hi.2.1 hi.2.2.1 hi.2.2.2, rowAt, activation, hp.nb0_eq]

/-- Two tokens of 64 activations as two matrices of one row each: the first token is zero and the
second `127`, and after the tensor come zeros.  The first weight is one and the others vanish. -/
def adjacentTokens : WideNode ℚ where
  isa := .scalar
  ops := ratOps fun q => if q = 1 then 0x3c00 else 1
  x := ⟨64, 1, 2, 1, 4, 256, 256, 512⟩
  m := 1
  word := fun offset => if 256 ≤ offset ∧ offset < 512 then 0x42fe else 0
  u0 := fun _ => ⟨fun _ => 0x55, 0x3c00, 0x3c00⟩
  u1 := fun _ => ⟨fun _ => 0, 0, 0⟩
  w0 := fun _ => ⟨fun _ => 0, 0, 0⟩
  w1 := fun _ => ⟨fun _ => 0, 0, 0⟩
  bias := none

theorem adjacentTokens_right : adjacentTokens.Right 3 :=
  wideLinear_right adjacentTokens (by decide) ⟨by decide, by decide⟩ (.inr (.inr (.inr rfl)))

/-! ## Rows apart -/

/-- The same memory through `ggml_permute`, which gives the second dimension the stride of a
matrix. -/
def twoTokens : WideNode ℚ := { adjacentTokens with x := ⟨64, 1, 2, 1, 4, 512, 256, 512⟩ }

lemma dequantQ64_of_zero {words : ℕ → UInt32} (hwords : ∀ k, words k = 0) (k : ℕ) :
    dequantQ64 (quantizeRowIfairy64Q16 twoTokens.ops words) k = 0 := by
  have hbyte : ∀ iscale : ℚ, (clampByte 127 (roundEven (bf16ToRat 0 * iscale))).toInt8.toInt = 0 :=
    fun iscale => by
      have hzero : bf16ToRat 0 = 0 := by decide +kernel
      rw [hzero, zero_mul]
      decide +kernel
  have hre : q16Re (quantizeRowIfairy64Q16 twoTokens.ops words (k / 64)) (k % 64) = 0 := by
    show (clampByte 127 (roundEven (bf16ToRat (words _).toUInt16 * _))).toInt8.toInt = 0
    rw [hwords]
    exact hbyte _
  have him : q16Im (quantizeRowIfairy64Q16 twoTokens.ops words (k / 64)) (k % 64) = 0 := by
    show (clampByte 127 (roundEven (bf16ToRat (words _ >>> 16).toUInt16 * _))).toInt8.toInt = 0
    rw [hwords]
    exact hbyte _
  rw [dequantQ64, hre, him]
  simp only [Int.cast_zero, zero_mul]
  rfl

lemma twoTokens_activation {k : ℕ} (hk : k < 64) :
    dequantQ64 (twoTokens.activation 0 1 0) k = ⟨127, 0⟩ := by
  have hmax : realMax twoTokens.ops .scalar 64 (fun j =>
      twoTokens.word (twoTokens.x.row 0 1 0 + (0 * 64 + j) * twoTokens.x.nb0)) = 127 := by
    decide +kernel
  have hword : twoTokens.word (twoTokens.x.row 0 1 0 + (0 * 64 + k) * twoTokens.x.nb0) = 0x42fe := by
    have hlow : 256 ≤ 256 + k * 4 ∧ 256 + k * 4 < 512 := by omega
    show (if 256 ≤ 0 * 512 + 1 * 256 + 0 * 512 + (0 * 64 + k) * 4 ∧
      0 * 512 + 1 * 256 + 0 * 512 + (0 * 64 + k) * 4 < 512 then 0x42fe else 0) = (0x42fe : UInt32)
    rw [if_pos (by omega)]
  have hre : q16Re (twoTokens.activation 0 1 0 0) k = 127 := by
    show (clampByte 127 (roundEven (bf16ToRat (twoTokens.word _).toUInt16 *
      (127 / realMax twoTokens.ops .scalar 64 _)))).toInt8.toInt = 127
    rw [hmax, hword]
    decide +kernel
  have him : q16Im (twoTokens.activation 0 1 0 0) k = 0 := by
    show (clampByte 127 (roundEven (bf16ToRat (twoTokens.word _ >>> 16).toUInt16 *
      _))).toInt8.toInt = 0
    rw [hword, show bf16ToRat ((0x42fe : UInt32) >>> 16).toUInt16 = 0 by decide +kernel, zero_mul]
    decide +kernel
  have hscale : (twoTokens.activation 0 1 0 0).dReal = 0x3c00 := by
    show (if (1 : ℚ) / (127 / realMax twoTokens.ops .scalar 64 _) = 1 then 0x3c00 else 1) =
      (0x3c00 : UInt16)
    rw [hmax]
    decide +kernel
  rw [dequantQ64, Nat.div_eq_of_lt hk, Nat.mod_eq_of_lt hk, hre, him, hscale, halfToRat_one]
  norm_num

lemma twoTokens_output (x : ℕ → BlockIfairy64Q16) :
    (twoTokens.outputFrom x 0 0 1 0).re = ∑ k ∈ Finset.range 64, (dequantQ64 x k).re := by
  have hcode : ∀ k, codeAt (fun _ => 0x55) k = 1 := fun k => by
    have hpart : k / 16 % 4 < 4 := Nat.mod_lt _ (by decide)
    rw [codeAt]
    generalize k / 16 % 4 = part at hpart ⊢
    obtain rfl | rfl | rfl | rfl : part = 0 ∨ part = 1 ∨ part = 2 ∨ part = 3 := by omega
    all_goals decide
  have hone : ∀ k, dequantRow64 (fun _ => ⟨fun _ => 0x55, 0x3c00, 0x3c00⟩) k = ⟨1, 0⟩ := fun k => by
    simp [dequantRow64, hcode, phaseRe, phaseIm]
  have hnone : ∀ k, dequantRow64 (fun _ => ⟨fun _ => 0, 0, 0⟩) k = 0 := fun k => by
    simp only [dequantRow64, halfToRat_zero, mul_zero]
    rfl
  show (wideProduct 64 (dequantRow64 fun _ => ⟨fun _ => 0x55, 0x3c00, 0x3c00⟩)
    (dequantRow64 fun _ => ⟨fun _ => 0, 0, 0⟩) (dequantRow64 fun _ => ⟨fun _ => 0, 0, 0⟩)
    (dequantRow64 fun _ => ⟨fun _ => 0, 0, 0⟩) (dequantQ64 x) + 0).re = _
  simp [wideProduct, hone, hnone]

/-- The tensor passes the assertions, and the kernel stores `0` where the second token times `64`
weights of one belongs. -/
theorem not_right_twoTokens : twoTokens.Accepted ∧ ¬twoTokens.Right 1 := by
  refine ⟨⟨by decide, by decide⟩, fun h => ?_⟩
  have hi : twoTokens.IsElement 0 0 1 0 := ⟨by decide, by decide, by decide, by decide⟩
  obtain ⟨mem', hrun⟩ := h.ends fun cell => match cell with
    | .quant _ => fun _ => ⟨fun _ => 0, fun _ => 0, 0, 0⟩
    | .dst _ => 0
  have hvalue := (run_value twoTokens (by decide) Nat.one_pos hrun hi).symm.trans
    (h.value _ _ hrun 0 0 1 0 hi)
  have hzero : ∀ k, dequantQ64 (twoTokens.rowAt (twoTokens.rowNumber 0 1 0 * twoTokens.x.nb1)) k =
      0 := dequantQ64_of_zero fun k => if_neg (show ¬(256 ≤ 512 + k * 4 ∧ 512 + k * 4 < 512) by omega)
  have hre := congrArg Cplx.re hvalue
  have hsum := Finset.sum_congr rfl fun k (hk : k ∈ Finset.range 64) =>
    congrArg Cplx.re (twoTokens_activation (Finset.mem_range.1 hk))
  rw [output, twoTokens_output, twoTokens_output, hsum] at hre
  simp [hzero] at hre

end WideNode

end Wide

end IFairy
