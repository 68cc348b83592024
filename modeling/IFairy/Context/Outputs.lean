import IFairy.Framework.SwapSort
import IFairy.KvCache.Split

/-!
# The outputs of a context: `decode`, `output_reorder` and the getters

`decode` stores the logits and the embeddings of the output tokens ubatch after ubatch in one host
buffer, logits first.  When the ubatches do not have the outputs in the order of the batch, it sorts
the batch indices of the rows and records the swaps; the rows are swapped by `output_reorder`, which
every getter calls first.

The buffer is a function of the offset in floats, and `logits` and `embd` are offsets into it.  What
`decode` takes from other components is a `DecodeEnv`: the bounds of the memory module, the splitter
that it chooses for a batch, the result of computing a ubatch, and the content of a newly allocated
buffer.  The pooled embeddings of sequences are not kept here, since no getter of a token reads
them.
-/

namespace IFairy

/-- `enum llama_pooling_type`. -/
inductive PoolingType
  | unspecified
  | none
  | mean
  | cls
  | last
  | rank
  deriving DecidableEq

/-- The sizes of the model and the parameters of the context. -/
structure OutputParams where
  nVocab : ℕ
  nEmbd : ℕ
  nPosPerEmbd : ℕ
  /-- `llm_arch_name(model.arch)`. -/
  arch : String
  nBatch : ℕ
  nUbatch : ℕ
  nSeqMax : ℕ
  kvUnified : Bool
  embeddings : Bool
  poolingType : PoolingType
  nBatch_lt : nBatch < 2 ^ 32
  nBatch_pos : 0 < nBatch
  /-- The constructor replaces an unspecified pooling type. -/
  poolingType_ne : poolingType ≠ .unspecified

namespace OutputParams

variable (p : OutputParams)

/-- The number of sequences that a batch may use. -/
def nSeqs : ℕ := if p.kvUnified then llamaMaxSeq else p.nSeqMax

/-- Whether there is a buffer for embeddings. -/
def hasEmbd : Bool := p.embeddings || p.arch = "t5"

end OutputParams

/-- The output tensors of a computed graph, flat. -/
structure GraphResult (α : Type*) where
  tLogits : Option (ℕ → α)
  tEmbd : Option (ℕ → α)
  tEmbdPooled : Option (ℕ → α)

/-- The part of `llama_context` that concerns the outputs. -/
structure OutputCtx (α : Type*) where
  /-- The content of `buf_output`. -/
  buf : ℕ → α
  /-- The size of `buf_output`, or `none` without a buffer. -/
  bufSize : Option ℕ
  logitsSize : ℕ
  embdSize : ℕ
  logits : Option ℕ
  embd : Option ℕ
  nOutputs : ℕ
  /-- `output_ids.size()`. -/
  nIds : ℕ
  outputIds : ℕ → ℤ
  outputSwaps : List (ℕ × ℕ)

/-- What `decode` takes from the other components. -/
structure DecodeEnv (α : Type*) where
  mem : MemBounds
  /-- The splitter, or the code that `decode` returns when the batch cannot be prepared. -/
  initBatch : Batch → Except ℤ Splitter
  alloc : Option (ℕ → α)
  /-- The result of a ubatch, or the code that `decode` returns. -/
  processUbatch : ℕ → UBatch → Except ℤ (GraphResult α)

/-- How a call of `decode` ends. -/
inductive DecodeEnd
  | code (c : ℤ)
  | abort
  deriving DecidableEq

namespace Batch

/-- `get_n_outputs()`. -/
def nOutputs (b : Batch) : ℕ := (List.range b.nTokens).countP b.logits

end Batch

namespace OutputCtx

variable {α : Type*}

/-! ## The output buffer -/

/-- The context before the constructor reserves the outputs. -/
def unreserved (buf : ℕ → α) : OutputCtx α :=
  { buf := buf, bufSize := none, logitsSize := 0, embdSize := 0, logits := none, embd := none
    nOutputs := 0, nIds := 0, outputIds := fun _ => 0, outputSwaps := [] }

/-- `output_reserve(n_outputs)`: the number of outputs that fit, and the context. -/
def outputReserve (p : OutputParams) (alloc : Option (ℕ → α)) (n : ℕ) (c : OutputCtx α) :
    ℕ × OutputCtx α :=
  let nMax := max n p.nSeqMax
  let logitsSize := p.nVocab * nMax
  let embdSize := if p.hasEmbd then p.nEmbd * nMax else 0
  let c := { c with
    logitsSize := logitsSize
    embdSize := embdSize
    nIds := if c.nIds = 0 then p.nBatch else c.nIds }
  let placed (c : OutputCtx α) : ℕ × OutputCtx α :=
    (nMax, { c with
      logits := some 0
      embd := if p.hasEmbd then some logitsSize else none
      outputIds := fun _ => -1
      nOutputs := 0 })
  match c.bufSize, alloc with
  | some size, none =>
    if size < logitsSize + embdSize then
      (0, { c with bufSize := none, logits := none, embd := none })
    else placed c
  | some size, some fresh =>
    if size < logitsSize + embdSize then
      placed { c with buf := fresh, bufSize := some (logitsSize + embdSize) }
    else placed c
  | none, none => (0, c)
  | none, some fresh => placed { c with buf := fresh, bufSize := some (logitsSize + embdSize) }

/-- Copy `n` floats of a tensor to an offset. -/
def storeAt (buf : ℕ → α) (off n : ℕ) (src : ℕ → α) : ℕ → α :=
  fun a => if off ≤ a ∧ a < off + n then src (a - off) else buf a

/-- Copy the rows of a tensor behind the `prev` rows that are stored; `none` is a failed assertion.
The logits and the token embeddings are copied alike. -/
def extract (base : Option ℕ) (size w nAll prev : ℕ) (t : Option (ℕ → α)) (c : OutputCtx α) :
    Option (OutputCtx α) :=
  match t with
  | none => some c
  | some src =>
    if c.nOutputs = 0 then some c
    else match base with
      | none => none
      | some off =>
        if prev + c.nOutputs ≤ nAll ∧ (prev + c.nOutputs) * w ≤ size then
          some { c with buf := storeAt c.buf (off + prev * w) (c.nOutputs * w) src }
        else none

/-- The tensor of which `decode` copies embeddings. -/
def embdTensor (p : OutputParams) (res : GraphResult α) : Option (ℕ → α) :=
  if p.embeddings then
    match res.tEmbd, res.tEmbdPooled with
    | none, _ => none
    | some t, none => some t
    | some _, some t => some t
  else none

/-- Extract the logits and the embeddings of a ubatch. -/
def store (p : OutputParams) (nAll prev : ℕ) (res : GraphResult α) (c : OutputCtx α) :
    Option (OutputCtx α) :=
  (extract c.logits c.logitsSize p.nVocab nAll prev res.tLogits c).bind fun c =>
    let t := embdTensor p res
    match p.poolingType with
    | .none => extract c.embd c.embdSize p.nEmbd nAll prev t c
    | .mean | .cls | .last | .rank => some c
    | .unspecified => if t.isSome ∧ 0 < c.nOutputs then none else some c

/-! ## `decode` -/

/-- The number of outputs of a ubatch. -/
def newOutputs (b : Batch) (u : UBatch) : ℕ :=
  if b.nOutputs = b.nTokens then u.nTokens else (List.range u.nTokens).countP u.output

/-- The loop over the ubatches from the `k`-th on, of which the earlier ones had `prev` outputs. -/
def ubatchLoop (p : OutputParams) (process : ℕ → UBatch → Except ℤ (GraphResult α)) (b : Batch) :
    List UBatch → ℕ → ℕ → OutputCtx α → Option DecodeEnd × OutputCtx α
  | [], _, _, c => (none, c)
  | u :: us, k, prev, c =>
    let c := { c with nOutputs := newOutputs b u }
    match process k u with
    | .error code => (some (.code code), c)
    | .ok res =>
      match c.store p b.nOutputs prev res with
      | none => (some .abort, c)
      | some c => ubatchLoop p process b us (k + 1) (prev + newOutputs b u) c

/-- `output_ids[out_ids[i]] = i` for every output. -/
def mapIds (ids : ℕ → ℤ) (outIds : ℕ → ℕ) (n : ℕ) : ℕ → ℤ :=
  (List.range n).foldl (fun ids i => Function.update ids (outIds i) i) ids

/-- Set the output mappings, and sort the outputs when they are not in the order of the batch. -/
def setMappings (outIds : List ℕ) (c : OutputCtx α) : Option (OutputCtx α) :=
  if c.nOutputs = 0 then some c
  else if outIds.length ≠ c.nOutputs then none
  else
    let keys : ℕ → ℕ := fun i => outIds.getD i 0
    if ∀ i < c.nOutputs, keys i = i then
      some { c with outputIds := mapIds c.outputIds keys c.nOutputs }
    else
      let r := swapSort c.nOutputs keys
      some { c with
        outputIds := mapIds (fun _ => -1) r.1 c.nOutputs
        outputSwaps := c.outputSwaps ++ r.2 }

/-- The split of a batch that the memory module asks for. -/
def splitFor (p : OutputParams) (sp : Splitter) (b : Batch) : List UBatch × BatchAllocr :=
  splitRun sp p.nUbatch p.nSeqs p.nEmbd p.nPosPerEmbd b

/-- `decode` from the reservation of the outputs on, for a batch that was split. -/
def computeBatch (p : OutputParams) (env : DecodeEnv α) (b : Batch) (s : List UBatch × BatchAllocr)
    (c : OutputCtx α) : DecodeEnd × OutputCtx α :=
  let r := c.outputReserve p env.alloc b.nOutputs
  if r.1 < b.nOutputs then (.code (-2), r.2)
  else match ubatchLoop p env.processUbatch b s.1 0 0 r.2 with
    | (some e, c) => (e, c)
    | (none, c) =>
      let c := { c with nOutputs := b.nOutputs }
      match c.setMappings s.2.outIds with
      | none => (.abort, c)
      | some c => (.code 0, c)

/-- `decode(batch_inp)` of a context with a memory module. -/
def decode (p : OutputParams) (env : DecodeEnv α) (inp : BatchInp) (c : OutputCtx α) :
    DecodeEnd × OutputCtx α :=
  if inp.token.isSome = inp.embd.isSome then (.abort, c)
  else if inp.nTokens = 0 then (.code (-1), c)
  else match inp.init env.mem p.nVocab p.nSeqs p.embeddings with
    | none => (.code (-1), c)
    | some b =>
      if p.embeddings ∧ b.nOutputs ≠ b.nTokens then (.code (-1), c)
      else if p.nBatch < b.nTokens then (.abort, c)
      else
        let c := { c with outputSwaps := [] }
        match env.initBatch b with
        | .error code => (.code code, c)
        | .ok sp =>
          let s := splitFor p sp b
          if s.2.nUsed < b.nTokens then (.code 1, c) else computeBatch p env b s c

/-! ## The getters -/

/-- Swap two rows, float by float. -/
def swapRows (off w : ℕ) (buf : ℕ → α) (s : ℕ × ℕ) : ℕ → α :=
  (List.range w).foldl
    (fun buf k => buf ∘ Equiv.swap (off + (s.1 * w + k)) (off + (s.2 * w + k))) buf

/-- One pending swap of `output_reorder`.  Swaps are pending only while the buffer is there. -/
def reorderStep (p : OutputParams) (c : OutputCtx α) (s : ℕ × ℕ) : OutputCtx α :=
  let c := if 0 < c.logitsSize then
    { c with buf := swapRows (c.logits.getD 0) p.nVocab c.buf s } else c
  if 0 < c.embdSize then { c with buf := swapRows (c.embd.getD 0) p.nEmbd c.buf s } else c

/-- `output_reorder()`. -/
def outputReorder (p : OutputParams) (c : OutputCtx α) : OutputCtx α :=
  { c.outputSwaps.foldl (reorderStep p) c with outputSwaps := [] }

/-- The `w` floats of row `r` behind an offset. -/
def row (buf : ℕ → α) (off w r : ℕ) : Fin w → α := fun k => buf (off + (r * w + k))

/-- The row of the `i`-th token in one of the two parts of the buffer.  The sum of the unsigned
`n_outputs` and a negative `i` wraps around. -/
def getRow (missing : String) (base : Option ℕ) (w : ℕ) (i : Int32) (c : OutputCtx α) :
    Except String (Fin w → α) :=
  match base with
  | none => .error missing
  | some off =>
    let corrupt (j : ℤ) : String := s!"corrupt output buffer (j={j}, n_outputs={c.nOutputs})"
    let rowAt (j : ℤ) : Except String (Fin w → α) :=
      if j < 0 then .error s!"batch.logits[{i}] != true"
      else if c.nOutputs ≤ j then .error (corrupt j)
      else .ok (row c.buf off w j.toNat)
    if i < 0 then
      let j := (c.nOutputs + i.toInt) % 2 ^ 32
      if j < 0 then .error s!"negative index out of range [0, {c.nOutputs})"
      else rowAt j
    else if c.nIds ≤ i.toInt then .error s!"out of range [0, {c.nIds})"
    else rowAt (c.outputIds i.toInt.toNat)

/-- `get_logits_ith(i)`. -/
def getLogitsIth (p : OutputParams) (i : Int32) (c : OutputCtx α) :
    Except String (Fin p.nVocab → α) × OutputCtx α :=
  let c := c.outputReorder p
  (getRow "no logits" c.logits p.nVocab i c, c)

/-- `get_embeddings_ith(i)`. -/
def getEmbeddingsIth (p : OutputParams) (i : Int32) (c : OutputCtx α) :
    Except String (Fin p.nEmbd → α) × OutputCtx α :=
  let c := c.outputReorder p
  (getRow "no embeddings" c.embd p.nEmbd i c, c)

/-! ## Runs -/

/-- The constructed context: `output_reserve(n_seq_max)` on new memory. -/
def constructed (p : OutputParams) (fresh : ℕ → α) : OutputCtx α :=
  ((unreserved fresh).outputReserve p (some fresh) p.nSeqMax).2

end OutputCtx

/-- The calls of a context. -/
inductive OutputAction (α : Type*)
  | decode (env : DecodeEnv α) (inp : BatchInp)
  | getLogitsIth (i : Int32)
  | getEmbeddingsIth (i : Int32)

namespace OutputAction

variable {α : Type*}

def IsRead : OutputAction α → Prop
  | decode _ _ => False
  | getLogitsIth _ => True
  | getEmbeddingsIth _ => True

/-- The context after a call; a failed assertion ends the run. -/
def step (p : OutputParams) (c : OutputCtx α) : OutputAction α → Option (OutputCtx α)
  | decode env inp =>
    let r := c.decode p env inp
    if r.1 = .abort then none else some r.2
  | getLogitsIth i => some (c.getLogitsIth p i).2
  | getEmbeddingsIth i => some (c.getEmbeddingsIth p i).2

end OutputAction

end IFairy
