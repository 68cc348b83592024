import Mathlib.Algebra.BigOperators.Intervals

/-!
# Buffers for the tensors of a context

`ggml_backend_alloc_ctx_tensors_from_buft` (`ggml/src/ggml-alloc.c`) walks the tensors of a context
in the order of their creation and adds up the padded sizes of those that need memory.  At the
tensor that would exceed the maximum size of a buffer, `alloc_tensor_range` allocates a buffer for
the tensors so far and places them with a `ggml_tallocr`.  Sizes and addresses are natural numbers;
an assertion that fails ends the run (`none`).  Buffers can always be had, at aligned addresses and
of the size asked for.
-/

namespace IFairy.CtxTensors

/-! ## Contexts and buffer types -/

/-- A buffer: one that was there before, or buffer `k` of this call. -/
inductive BufferRef
  | old (id : ℕ)
  | own (k : ℕ)
  deriving DecidableEq

/-- Address and buffer of every tensor, `none` for `NULL`. -/
structure Placement where
  buffer : ℕ → Option BufferRef
  data : ℕ → Option ℕ

/-- A context with the tensors `0, …, n - 1`, in the order of their creation; the names from `n` on
are tensors of other contexts.  A tensor is created after the source of its view, which is itself
no view.  Memory means an address and a buffer. -/
structure Ctx where
  n : ℕ
  allocSize : ℕ → ℕ
  viewSrc : ℕ → Option ℕ
  viewOffs : ℕ → ℕ
  initial : Placement
  buffer_old : ∀ t b, initial.buffer t = some b → ∃ id, b = .old id
  fresh_buffer : ∀ t < n, viewSrc t = none → (initial.buffer t = none ↔ initial.data t = none)
  source_no_view : ∀ t < n, ∀ s, viewSrc t = some s → viewSrc s = none
  source_first : ∀ t < n, ∀ s, viewSrc t = some s → initial.buffer t = none →
    s < t ∨ n ≤ s ∧ initial.buffer s ≠ none ∧ initial.data s ≠ none

/-- A buffer type.  The alignment is a power of two; `base k` is the address of buffer `k` of this
call. -/
structure BufferType where
  logAlignment : ℕ
  maxSize : ℕ
  base : ℕ → ℕ
  base_aligned : ∀ k, 2 ^ logAlignment ∣ base k

def BufferType.alignment (buft : BufferType) : ℕ := 2 ^ buft.logAlignment

/-- `GGML_PAD`, for a power of two. -/
def ggmlPad (x n : ℕ) : ℕ := (x + n - 1) / n * n

/-- `aligned_offset`. -/
def alignedOffset (base offset alignment : ℕ) : ℕ :=
  offset + (alignment - (base + offset) % alignment) % alignment

/-! ## The placing pass -/

/-- The placement with the sizes of the buffers of this call. -/
structure State where
  placement : Placement
  sizes : List ℕ

/-- `ggml_tallocr`: its buffer is buffer `k` of this call. -/
structure Tallocr where
  k : ℕ
  offset : ℕ

section

variable (ctx : Ctx) (buft : BufferType)

def State.assign (s : State) (t : ℕ) (buffer : BufferRef) (addr : ℕ) : State :=
  { s with
    placement := ⟨Function.update s.placement.buffer t (some buffer),
      Function.update s.placement.data t (some addr)⟩ }

/-- `ggml_backend_tensor_alloc` with the assertions on the tensor and on its place. -/
def tensorAlloc (k t addr : ℕ) (s : State) : Option State :=
  if s.placement.buffer t = none ∧ s.placement.data t = none ∧ ctx.viewSrc t = none ∧
      buft.base k ≤ addr ∧ addr + ctx.allocSize t ≤ buft.base k + s.sizes.getD k 0 then
    some (s.assign t (.own k) addr)
  else none

/-- `ggml_tallocr_alloc`: without enough space the run is aborted. -/
def tallocrAlloc (tallocr : Tallocr) (t : ℕ) (s : State) : Option (Tallocr × State) :=
  let size := ggmlPad (ctx.allocSize t) buft.alignment
  if s.sizes.getD tallocr.k 0 < tallocr.offset + size then none
  else
    let addr := buft.base tallocr.k + tallocr.offset
    (tensorAlloc ctx buft tallocr.k t addr s).map fun s =>
      ({ tallocr with offset := tallocr.offset + size }, s)

/-- `ggml_backend_view_init`. -/
def viewInit (t : ℕ) (s : State) : Option State :=
  match ctx.viewSrc t with
  | none => none
  | some src =>
    if s.placement.buffer t = none then
      match s.placement.buffer src, s.placement.data src with
      | some buffer, some data => some (s.assign t buffer (data + ctx.viewOffs t))
      | _, _ => none
    else none

/-- One round of the loop of `alloc_tensor_range`. -/
def placeTensor (tallocr : Tallocr) (t : ℕ) (s : State) : Option (Tallocr × State) :=
  if s.placement.data t = none then
    if ctx.viewSrc t = none then tallocrAlloc ctx buft tallocr t s
    else if s.placement.buffer t = none then (viewInit ctx t s).map (tallocr, ·)
    else some (tallocr, s)
  else if ctx.viewSrc t ≠ none ∧ s.placement.buffer t = none then
    (viewInit ctx t s).map (tallocr, ·)
  else some (tallocr, s)

/-- The loop over `count` tensors from `t` on. -/
def placeTensors : ℕ → ℕ → Tallocr → State → Option State
  | 0, _, _, s => some s
  | count + 1, t, tallocr, s =>
    (placeTensor ctx buft tallocr t s).bind fun out => placeTensors count (t + 1) out.1 out.2

/-- `alloc_tensor_range` for the tensors from `first` to before `last`. -/
def allocTensorRange (first last size : ℕ) (s : State) : Option State :=
  let k := s.sizes.length
  placeTensors ctx buft (last - first) first ⟨k, alignedOffset (buft.base k) 0 buft.alignment⟩
    { s with sizes := s.sizes ++ [size] }

/-! ## The sizing pass -/

/-- The loop variables: the first tensor of the current buffer and its size so far. -/
structure Sizing where
  first : ℕ
  curBufSize : ℕ
  state : State

/-- `this_size` of a tensor. -/
def thisSize (s : State) (t : ℕ) : ℕ :=
  if s.placement.data t = none ∧ ctx.viewSrc t = none then
    ggmlPad (ctx.allocSize t) buft.alignment
  else 0

/-- One round of the loop of `ggml_backend_alloc_ctx_tensors_from_buft`. -/
def sizeTensor (t : ℕ) (z : Sizing) : Option Sizing :=
  let size := thisSize ctx buft z.state t
  if 0 < z.curBufSize ∧ buft.maxSize < z.curBufSize + size then
    (allocTensorRange ctx buft z.first t z.curBufSize z.state).map fun s => ⟨t, size, s⟩
  else some { z with curBufSize := z.curBufSize + size }

/-- The loop over the first `i` tensors. -/
def sizeTensors : ℕ → Option Sizing
  | 0 => some ⟨0, 0, ⟨ctx.initial, []⟩⟩
  | i + 1 => (sizeTensors i).bind (sizeTensor ctx buft i)

/-- `ggml_backend_alloc_ctx_tensors_from_buft`, with the state it leaves in place of the buffer it
returns. -/
def allocCtxTensorsFromBuft : Option State :=
  (sizeTensors ctx buft ctx.n).bind fun z =>
    if 0 < z.curBufSize then allocTensorRange ctx buft z.first ctx.n z.curBufSize z.state
    else some z.state

end

end IFairy.CtxTensors
