import IFairy.Alloc.Tensor
import IFairy.Cpu.MulMatSpec
import IFairy.Framework.Deciders
import IFairy.Lut.Workers
import IFairy.Quant.Activations

/-!
# The dispatch of a matrix product

`ggml_legacy_ifairy_cpu_compute_mul_mat` and what stands around it.  The dispatch claims a node by
its shape and the environment; when the node is computed every worker decides anew, from the
packed weights, the workspace and the activations, whether to take the LUT path or to leave the
node to `ggml_compute_forward_mul_mat`.  The workspace was planned before, perhaps in another
environment.
-/

namespace IFairy

open Alloc

/-! ## The environment -/

/-- The environment variables that the dispatch reads. -/
structure LutEnv where
  lut : Option String
  lutImpl : Option String
  vecDotActTensor : Option String

/-- `ggml_ifairy_env_enabled`. -/
def envEnabled : Option String → Bool
  | none => false
  | some env => env != "0"

/-- `ggml_legacy_ifairy_lut_impl`. -/
inductive LutImpl
  | auto
  | lut16
  | lutC
deriving DecidableEq

/-- `ggml_legacy_ifairy_lut_impl_from_env`. -/
def lutImplFromEnv : Option String → LutImpl
  | some "lut16" => .lut16
  | some "lut_c" => .lutC
  | _ => .auto

/-! ## The node -/

/-- What the dispatch reads of a tensor. -/
structure NodeTensor where
  type : GgmlType
  op : GgmlOp
  shape : TensorShape

/-- A node with its two sources. -/
structure MulMatNode where
  w : NodeTensor
  x : NodeTensor
  dst : NodeTensor

/-- `ggml_type_size` of the types that a product on the LUT path has. -/
def lutTypeSize : GgmlType → ℕ
  | .f32 => 4
  | .ifairy => 68
  | .ifairyQ16 => 516
  | _ => 0

def intMax : ℕ := 2147483647

/-- A product when it is computed: the environment, the data by its offset, the packed weights
(`none` where `extra` or `packed_w` is `NULL`) and the workspace. -/
structure LutProduct (F : Type) where
  isa : LutIsa
  ops : FloatOps F
  env : LutEnv
  node : MulMatNode
  weights : ℕ → ℕ → BlockIfairy
  words : ℕ → UInt32
  q16 : ℕ → BlockIfairyQ16
  byThread : Bool
  uninit : ℕ → Cplx
  packedW : Option (ℕ → LutWtile16)
  wdata : Bool
  wsize : ℕ

namespace LutProduct

variable {F : Type} (p : LutProduct F)

/-- The words of a row of `F32` activations. -/
def rowWords (offset j : ℕ) : UInt32 := p.words (offset + j * 4)

def lutNode : LutNode where
  isa := p.isa
  m := p.node.w.shape.ne1
  blocks := p.node.w.shape.ne0 / 256
  n := p.node.x.shape.ne1
  wtiles := p.packedW.getD fun _ => LutWtile16.zero
  x := if p.node.x.type = .f32 then .f32 fun col => p.rowWords (col * p.node.x.shape.nb1)
    else .q16 fun col b => p.q16 (col * p.node.x.shape.nb1 + b * 516)
  quantizeRow := if lutImplFromEnv p.env.lutImpl = .lutC then
      quantizeRowIfairyQ16LutC p.ops p.isa
    else quantizeRowIfairyQ16Tensor p.ops p.isa p.node.w.shape.ne0

/-- The direct path of the product. -/
def direct : MulMat (ℕ → BlockIfairy) BlockIfairyQ16 Cplx where
  src0 := p.node.w.shape
  src1 := p.node.x.shape
  dst := p.node.dst.shape
  blckSize := 256
  typeSize := lutTypeSize .ifairyQ16
  vecDotNumRows := 1
  sameType := p.node.x.type = .ifairyQ16
  byThread := p.byThread
  backendQuantizes := p.node.x.type = .f32 && envEnabled p.env.vecDotActTensor
  src0Row := p.weights
  src1Block := p.q16
  fromFloat offset := quantizeRowIfairyQ16 p.ops p.isa (p.rowWords offset) 0
  quantizeRow offset :=
    quantizeRowIfairyQ16Tensor p.ops p.isa p.node.x.shape.ne0 (p.rowWords offset)
  vecDot w x := vecDotIfairyQ16K p.node.w.shape.ne0 w fun b => x.getD b ⟨fun _ => 0, fun _ => 0, 0, 0⟩
  uninit := p.uninit

/-! ## The workspace -/

/-- The bytes of the work buffer that the direct path fills. -/
def directNeed : ℕ :=
  if p.direct.sameType then 0
  else p.node.x.shape.ne3 * (p.direct.rowSize * p.node.x.shape.ne1 * p.node.x.shape.ne2)

/-- The memory of the workers: the activations, and the cells of either path. -/
inductive Cell
  | act (offset : ℕ)
  | lut (cell : LutCell)
  | direct (cell : MulMatCell)
deriving DecidableEq

abbrev Cell.Value : Cell → Type
  | .act _ => BlockIfairyQ16
  | .lut cell => cell.Value
  | .direct cell => MulMatCell.Value BlockIfairyQ16 Cplx cell

/-- A cell of the result, as either path addresses it. -/
def Cell.IsDst : Cell → Prop
  | .lut (.dst _ _) | .direct (.dst _) => True
  | _ => False

/-- The elements of the activations in the order of the range test. -/
def elements : List (ℕ × ℕ × ℕ) :=
  (List.range p.node.x.shape.ne1).flatMap fun col =>
    (List.range (p.node.w.shape.ne0 / 256)).flatMap fun b =>
      (List.range 256).map fun j => (col, b, j)

/-- The range test of the activations. -/
def rangeTest : List (ℕ × ℕ × ℕ) → Probe Cell Cell.Value Bool
  | [] => .decided true
  | (col, b, j) :: rest => .read (.act (col * p.node.x.shape.nb1 + b * 516)) fun block =>
      if lutAcceptsByte (block.xReal j) && lutAcceptsByte (block.xImag j) then rangeTest rest
      else .decided false

/-- Whether a worker takes the LUT path. -/
def decision : Probe Cell Cell.Value Bool :=
  if p.packedW.isNone ∨ p.wdata = false ∨ p.wsize < p.lutNode.getWsize then .decided false
  else if p.node.x.type = .f32 then .decided true
  else p.rangeTest p.elements

/-- The stores of a worker up to the first barrier, by its decision: on the LUT path the columns
that it quantises, or the tables where nothing is to be quantised. -/
def firstWork (nth ith : ℕ) : Bool → List (Store Cell Cell.Value)
  | true =>
    ((if p.node.x.type = .f32 then p.lutNode.quantize nth ith
      else p.lutNode.preprocess nth ith).map (Store.along (V := Cell.Value) .lut))
  | false => (p.direct.quantizeSrc1 nth ith).map (Store.along (V := Cell.Value) .direct)

/-- The states of `nth` workers up to the first barrier, from a memory. -/
abbrev Reachable {nth : ℕ} (m : ∀ c : Cell, c.Value) (s : DeciderState nth Cell Cell.Value Bool) :
    Prop :=
  DeciderReachable (p.firstWork nth) p.decision m s

/-! ## Nodes that are claimed -/

variable {p}

def workspace : Set Cell := {cell | match cell with
  | .lut (.dst _ _) | .direct (.dst _) | .act _ => False
  | _ => True}

lemma target_firstWork {nth ith : ℕ} {d : Bool} {s : Store Cell Cell.Value}
    (hs : s ∈ p.firstWork nth ith d) : s.target ∈ workspace := by
  cases d with
  | false =>
    obtain ⟨x, hx, rfl⟩ := List.mem_map.1 hs
    have htarget : ∃ offset, x.target = .work offset := by
      simp only [MulMat.quantizeSrc1, MulMat.tryQuantize] at hx
      split_ifs at hx
      · cases hx
      · cases hx
      · obtain ⟨i, -, hx⟩ := List.mem_flatMap.1 hx
        obtain ⟨b, -, rfl⟩ := List.mem_map.1 hx
        exact ⟨_, rfl⟩
      · obtain ⟨i, -, hx⟩ := List.mem_flatMap.1 hx
        obtain ⟨b, -, rfl⟩ := List.mem_map.1 hx
        exact ⟨_, rfl⟩
    obtain ⟨offset, htarget⟩ := htarget
    simp [Store.along, workspace, htarget]
  | true =>
    obtain ⟨x, hx, rfl⟩ := List.mem_map.1 hs
    have htarget : ∀ col row, x.target ≠ .dst col row := by
      intro col row
      split_ifs at hx with htype
      · simp only [LutNode.quantize, lutNode, htype, if_true] at hx
        obtain ⟨_, -, rfl⟩ := List.mem_map.1 hx
        exact LutCell.noConfusion
      · rcases LutNode.target_preprocess hx with ⟨_, _, h⟩ | ⟨_, _, h⟩ <;> rw [h] <;>
          exact LutCell.noConfusion
    cases hcell : x.target <;> simp_all [Store.along, workspace]

lemma decision_avoids (p : LutProduct F) : p.decision.Avoids workspace := by
  have htest : ∀ l, (p.rangeTest l).Avoids workspace := by
    intro l
    induction l with
    | nil => exact .decided true
    | cons x rest ih =>
      refine .read (by simp [workspace]) fun block => ?_
      split_ifs
      · exact ih
      · exact .decided false
  unfold decision
  split_ifs
  · exact .decided false
  · exact .decided true
  · exact htest _

/-- What the workers decide, from the memory they start in. -/
def decides (p : LutProduct F) (m : ∀ c : Cell, c.Value) : Bool := p.decision.eval m

/-- What the dispatch guarantees of `nth` workers that start in a memory: they decide alike and
get to the barrier; a product left to the direct path has its result untouched and its workspace
large enough, and comes out as the direct path has it; on the LUT path the tables read activations
of their range only, `later` being the stores of the table phase so far. -/
structure Safe (p : LutProduct F) (nth : ℕ) (m : ∀ c : Cell, c.Value) : Prop where
  agree : ∀ s : DeciderState nth Cell Cell.Value Bool, p.Reachable m s → ∀ t d rest,
    s.worker t = .working d rest → d = p.decides m
  reach_barrier : ∀ s : DeciderState nth Cell Cell.Value Bool, p.Reachable m s →
    ∃ s', Relation.ReflTransGen (DeciderStep (p.firstWork nth)) s s' ∧ s'.Done
  dst_kept : p.decides m = false → ∀ s : DeciderState nth Cell Cell.Value Bool,
    p.Reachable m s → ∀ cell : Cell, cell.IsDst → s.mem cell = m cell
  need_le : p.decides m = false →
    p.directNeed ≤ p.wsize ∧ (0 < p.directNeed → p.wdata = true)
  direct_ends : p.decides m = false → ∀ s : DeciderState nth Cell Cell.Value Bool,
    p.Reachable m s → s.Done →
      ∃ mem', StageRuns (p.direct.stages nth).tail (fun c => s.mem (.direct c)) mem'
  direct_right : p.decides m = false → ∀ s : DeciderState nth Cell Cell.Value Bool,
    p.Reachable m s → s.Done →
      ∀ mem', StageRuns (p.direct.stages nth).tail (fun c => s.mem (.direct c)) mem' →
        ∀ i ∈ p.direct.dstIndices, mem' (.dst (p.direct.dstOffset i)) =
          p.direct.product i.1 i.2.1 i.2.2.1 i.2.2.2
  act_in_range : p.decides m = true → p.node.x.type ≠ .f32 →
    ∀ s : DeciderState nth Cell Cell.Value Bool, p.Reachable m s →
      ∀ col < p.node.x.shape.ne1, ∀ b < p.node.w.shape.ne0 / 256, ∀ j < 256,
        let block : BlockIfairyQ16 := s.mem (.act (col * p.node.x.shape.nb1 + b * 516))
        InLutRange (q16Re block j) ∧ InLutRange (q16Im block j)
  table_in_range : p.decides m = true →
    ∀ s : DeciderState nth Cell Cell.Value Bool, p.Reachable m s → s.Done →
      ∀ later, (∀ x ∈ later, ∃ ith, x ∈ p.lutNode.preprocess nth ith) →
        ∀ col < p.lutNode.n, ∀ b < p.lutNode.blocks, ∀ j < 256,
          let block := p.lutNode.act (runStores (fun c => s.mem (.lut c)) later) col b
          InLutRange (q16Re block j) ∧ InLutRange (q16Im block j)

end LutProduct

end IFairy
