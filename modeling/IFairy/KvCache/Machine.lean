import IFairy.Framework.Runs
import IFairy.KvCache.PrepareSpec
import IFairy.KvCache.SplitSpec

/-!
# Runs of a KV cache

The state is a cache and, while `llama_context::decode` works through a batch, the ubatches that are
still to be applied with their slots.  The steps are the functions of the memory API, the start of
a decode (`init` of the batch, `memory_update`, splitting, `prepare`) and the application of the
next ubatch, after whose computation the tensors hold any data and whose failure makes `decode`
remove the ubatch again and return.

A step that leads to no state stands for a `GGML_ASSERT` that fails.  The retry after a failed
`prepare` is another `decode` step with the same batch.
-/

namespace IFairy

/-- Cache and ubatches to apply. -/
@[ext] structure KvMachine where
  cache : KvCache
  todo : List (SlotInfo × UBatch)

/-- What a decode starts from: the batch, the bounds that the memory module reports (for a plain
cache its own, see `KvCache.bounds`), parameters of the model and the context, whether the graph of
a pending K-shift can be computed, and the splitter that the memory module uses. -/
structure DecodeArgs where
  inp : BatchInp
  mem : MemBounds
  nVocab : ℕ
  outputAll : Bool
  okUpdate : Bool
  sp : Splitter
  nUbatch : ℕ
  nEmbd : ℕ
  nPosPerEmbd : ℕ

/-- The steps. -/
inductive KvOp
  | clear (data : Bool)
  | seqRm (seqId : Option SeqId) (p0 p1 : ℤ)
  | seqCp (src dst : SeqId) (p0 p1 : ℤ)
  | seqKeep (s : SeqId)
  | seqSetPrefix (s : SeqId) (prefixEnd : ℤ)
  | seqAdd (s : SeqId) (p0 p1 shift : ℤ)
  | seqDiv (s : SeqId) (p0 p1 d : ℤ)
  | update (ok : Bool)
  | decode (d : DecodeArgs)
  | apply (data : KvData) (ok : Bool)
  /-- `decode` returns early, for lack of an output buffer. -/
  | abandon

/-- `n_seq_max` of `init`: `kv_unified ? LLAMA_MAX_SEQ : n_seq_max`. -/
def KvConfig.batchSeqMax (cfg : KvConfig) : ℕ := if cfg.unified then llamaMaxSeq else cfg.nSeqMax

namespace KvCache

/-- The bounds that a cache reports for itself. -/
def bounds (cfg : KvConfig) (k : KvCache) : MemBounds := ⟨k.seqPosMin cfg, k.seqPosMax cfg⟩

/-- The cache after an ubatch was applied and computed, which leaves any data in the tensors. -/
def computed (cfg : KvConfig) (k : KvCache) (si : SlotInfo) (u : UBatch) (data : KvData) : KvCache :=
  { k.applyUbatch cfg si u with data := data }

/-- The first position that each sequence, named first by a token, has in the ubatch. -/
def failedPosMin (u : UBatch) (s : SeqId) : ℤ :=
  ((List.range u.nTokens).filter fun i => (u.seqId i).head = s).foldl
    (fun m i => min m (u.pos i)) posMax

/-- `decode` after a failed computation: the positions of the ubatch are removed. -/
def removeFailed (cfg : KvConfig) (k : KvCache) (u : UBatch) : KvCache :=
  (List.finRange llamaMaxSeq).foldl (fun k s =>
    if failedPosMin u s = posMax then k else k.seqRm cfg (some s) (failedPosMin u s) (-1)) k

end KvCache

namespace KvMachine

variable (rope : KvLayer → ℤ → (ℕ → UInt8) → ℕ → UInt8) (cfg : KvConfig)

def start (cfg : KvConfig) : KvMachine := ⟨.new cfg, []⟩

/-- The ubatches for which `prepare` calls `find_slot`. -/
def tried (cfg : KvConfig) (k : KvCache) (us : List UBatch) : List UBatch :=
  us.take ((KvCache.prepareLoop cfg k us).2.1.length + 1)

def decode (m : KvMachine) (d : DecodeArgs) : Option KvMachine :=
  match d.inp.init d.mem d.nVocab cfg.batchSeqMax d.outputAll with
  | none => some m
  | some b =>
    let k := m.cache.update rope cfg d.okUpdate
    match splitBatch d.sp d.nUbatch cfg.batchSeqMax d.nEmbd d.nPosPerEmbd b with
    | none => some { m with cache := k }
    | some us =>
      if ∀ u ∈ tried cfg k us, KvCache.SlotAsserts cfg u then
        let r := k.prepare cfg us
        some ⟨r.1, match r.2 with
          | none => []
          | some sis => sis.zip us⟩
      else none

/-- The next ubatch is applied and computed. -/
def apply (m : KvMachine) (data : KvData) (ok : Bool) : Option KvMachine :=
  match m.todo with
  | [] => none
  | (si, u) :: rest =>
    let k := m.cache.computed cfg si u data
    some (if ok then ⟨k, rest⟩ else ⟨k.removeFailed cfg u, []⟩)

/-- `GGML_ASSERT(seq_id >= 0 && (size_t) seq_id < seq_to_stream.size())`. -/
def idOk (cfg : KvConfig) (s : SeqId) : Prop := s.val < cfg.seqToStreamSize

instance (s : SeqId) : Decidable (idOk cfg s) := inferInstanceAs (Decidable (_ < _))

def api (k : KvCache) : KvOp → Option KvCache
  | .clear data => some (k.clear cfg data)
  | .seqRm none p0 p1 => some (k.seqRm cfg none p0 p1)
  | .seqRm (some s) p0 p1 => if idOk cfg s then some (k.seqRm cfg (some s) p0 p1) else none
  | .seqCp src dst p0 p1 =>
    if idOk cfg src ∧ idOk cfg dst then k.seqCp cfg src dst p0 p1 else none
  | .seqKeep s => if idOk cfg s then some (k.seqKeep cfg s) else none
  | .seqSetPrefix s e => some (k.seqSetPrefix cfg s e).1
  | .seqAdd s p0 p1 shift => if idOk cfg s then some (k.seqAdd cfg s p0 p1 shift) else none
  | .seqDiv s p0 p1 d => if idOk cfg s then some (k.seqDiv cfg s p0 p1 d) else none
  | .update ok => some (k.update rope cfg ok)
  | .decode _ | .apply _ _ | .abandon => none

def step (m : KvMachine) : KvOp → Option KvMachine
  | .decode d => if m.todo = [] then m.decode rope cfg d else none
  | .apply data ok => m.apply cfg data ok
  | .abandon => some { m with todo := [] }
  | op => if m.todo = [] then (api rope cfg m.cache op).map fun k => { m with cache := k } else none

end KvMachine

end IFairy
