import IFairy.KvCache.Machine
import IFairy.KvCache.Ubatches

/-!
# The cache of models with interleaved windows: `llama_kv_cache_iswa`

A model whose layers attend partly within a sliding window and partly to everything has two caches,
the base cache without a window and the usually smaller SWA cache.  Every function of the memory API
is applied to both, a batch is prepared in both and its ubatches are applied to both;
`seq_pos_min` and `seq_pos_max` are read from the SWA cache.

The state is the pair of caches and, while a batch is decoded, the ubatches that are still to be
applied with their slots in both.
-/

namespace IFairy

/-- What the constructor of `llama_kv_cache_iswa` is given. -/
structure IswaConfig where
  unified : Bool
  nSeqMax : ℕ
  kvSize : ℕ
  nPad : ℕ
  /-- `hparams.n_swa` and `hparams.swa_type`. -/
  nSwa : ℕ
  swaType : SwaType
  swaFull : Bool
  nUbatch : ℕ
  typeK : ℤ
  typeV : ℤ
  vTrans : Bool
  rope : Bool
  /-- The layers for which `hparams.is_swa` is false, and those for which it is true. -/
  layersBase : List KvLayer
  layersSwa : List KvLayer
  nSeqMax_pos : 0 < nSeqMax
  nSeqMax_le : nSeqMax ≤ llamaMaxSeq
  nPad_pow : ∃ e, nPad = 2 ^ e
  nPad_dvd : nPad ∣ kvSize

namespace IswaConfig

/-- `size_swa`. -/
def sizeSwa (c : IswaConfig) : ℕ :=
  if c.swaFull then c.kvSize
  else
    min c.kvSize (ggmlPad (c.nSwa * (if c.unified then c.nSeqMax else 1) + c.nUbatch) c.nPad)

lemma nPad_dvd_sizeSwa (c : IswaConfig) : c.nPad ∣ c.sizeSwa := by
  unfold sizeSwa
  split
  · exact c.nPad_dvd
  · exact min_rec' (c.nPad ∣ ·) c.nPad_dvd (Nat.dvd_mul_left _ _)

/-- `kv_base`. -/
def base (c : IswaConfig) : KvConfig where
  unified := c.unified
  nSeqMax := c.nSeqMax
  kvSize := c.kvSize
  nPad := c.nPad
  nSwa := 0
  swaType := .none
  window := 0
  prefixCap := 0
  nUbatch := 0
  typeK := c.typeK
  typeV := c.typeV
  vTrans := c.vTrans
  rope := c.rope
  layers := c.layersBase
  nSeqMax_pos := c.nSeqMax_pos
  nSeqMax_le := c.nSeqMax_le
  nPad_pow := c.nPad_pow
  nPad_dvd := c.nPad_dvd

/-- `kv_swa`. -/
def swa (c : IswaConfig) : KvConfig :=
  { c.base with
    kvSize := c.sizeSwa
    nSwa := c.nSwa
    swaType := c.swaType
    layers := c.layersSwa
    nPad_dvd := c.nPad_dvd_sizeSwa }

lemma not_prefixSliding_base (c : IswaConfig) : ¬ c.base.PrefixSliding :=
  fun h => absurd h.1 (Nat.lt_irrefl 0)

lemma not_prefixSliding_swa (c : IswaConfig) : ¬ c.swa.PrefixSliding :=
  fun h => absurd h.1 (Nat.lt_irrefl 0)

@[simp] lemma seqToStream_swa (c : IswaConfig) : c.swa.seqToStream = c.base.seqToStream := rfl

@[simp] lemma nStream_swa (c : IswaConfig) : c.swa.nStream = c.base.nStream := rfl

@[simp] lemma batchSeqMax_swa (c : IswaConfig) : c.swa.batchSeqMax = c.base.batchSeqMax := rfl

end IswaConfig

/-- The two caches, and the ubatches to apply with their slots in both. -/
structure IswaMachine where
  base : KvCache
  swa : KvCache
  todo : List (SlotInfo × SlotInfo × UBatch)

/-- What a decode starts from; the bounds are those that the SWA cache reports. -/
structure IswaDecode where
  inp : BatchInp
  nVocab : ℕ
  outputAll : Bool
  okBase : Bool
  okSwa : Bool
  nUbatch : ℕ
  nEmbd : ℕ
  nPosPerEmbd : ℕ

/-- The steps. -/
inductive IswaOp
  | clear (data : Bool)
  | seqRm (seqId : Option SeqId) (p0 p1 : ℤ)
  | seqCp (src dst : SeqId) (p0 p1 : ℤ)
  | seqKeep (s : SeqId)
  | seqAdd (s : SeqId) (p0 p1 shift : ℤ)
  | seqDiv (s : SeqId) (p0 p1 d : ℤ)
  | update (okBase okSwa : Bool)
  | decode (d : IswaDecode)
  | apply (dataBase dataSwa : KvData) (ok : Bool)
  | abandon

/-- The calls that the two caches get. -/
def IswaOp.calls : IswaOp → Option (KvOp × KvOp)
  | .clear data => some (.clear data, .clear data)
  | .seqRm seqId p0 p1 => some (.seqRm seqId p0 p1, .seqRm seqId p0 p1)
  | .seqCp src dst p0 p1 => some (.seqCp src dst p0 p1, .seqCp src dst p0 p1)
  | .seqKeep s => some (.seqKeep s, .seqKeep s)
  | .seqAdd s p0 p1 shift => some (.seqAdd s p0 p1 shift, .seqAdd s p0 p1 shift)
  | .seqDiv s p0 p1 d => some (.seqDiv s p0 p1 d, .seqDiv s p0 p1 d)
  | .update okBase okSwa => some (.update okBase, .update okSwa)
  | .decode _ | .apply _ _ _ | .abandon => none

namespace IswaMachine

variable (rope : KvLayer → ℤ → (ℕ → UInt8) → ℕ → UInt8) (c : IswaConfig)

def start (c : IswaConfig) : IswaMachine := ⟨.new c.base, .new c.swa, []⟩

/-- One round of `init_batch`: the ubatches are prepared in the base cache and then in the SWA
cache.  The second component tells whether both found slots. -/
def attempt (m : IswaMachine) (us : List UBatch) : Option (IswaMachine × Bool) :=
  if ∀ u ∈ KvMachine.tried c.base m.base us, KvCache.SlotAsserts c.base u then
    let rb := m.base.prepare c.base us
    match rb.2 with
    | none => some (⟨rb.1, m.swa, []⟩, false)
    | some sisBase =>
      if ∀ u ∈ KvMachine.tried c.swa m.swa us, KvCache.SlotAsserts c.swa u then
        let rs := m.swa.prepare c.swa us
        match rs.2 with
        | none => some (⟨rb.1, rs.1, []⟩, false)
        | some sisSwa => some (⟨rb.1, rs.1, sisBase.zip (sisSwa.zip us)⟩, true)
      else none
  else none

/-- `init_batch`: the splitters are tried in turn. -/
def initBatch (d : IswaDecode) (b : Batch) : List Splitter → IswaMachine → Option IswaMachine
  | [], m => some m
  | sp :: sps, m =>
    match splitBatch sp d.nUbatch c.base.batchSeqMax d.nEmbd d.nPosPerEmbd b with
    | none => initBatch d b sps m
    | some us =>
      match m.attempt c us with
      | none => none
      | some (m', true) => some m'
      | some (m', false) => initBatch d b sps m'

/-- `memory_update`. -/
def updated (m : IswaMachine) (d : IswaDecode) : IswaMachine :=
  ⟨m.base.update rope c.base d.okBase, m.swa.update rope c.swa d.okSwa, []⟩

def decode (m : IswaMachine) (d : IswaDecode) : Option IswaMachine :=
  match d.inp.init (m.swa.bounds c.swa) d.nVocab c.base.batchSeqMax d.outputAll with
  | none => some m
  | some b => initBatch c d b (MemoryKind.kvCacheIswa.splitters c.base) (m.updated rope c d)

/-- The next ubatch is applied to both caches and computed. -/
def apply (m : IswaMachine) (dataBase dataSwa : KvData) (ok : Bool) : Option IswaMachine :=
  match m.todo with
  | [] => none
  | (siBase, siSwa, u) :: rest =>
    let kb := m.base.computed c.base siBase u dataBase
    let ks := m.swa.computed c.swa siSwa u dataSwa
    some (if ok then ⟨kb, ks, rest⟩ else ⟨kb.removeFailed c.base u, ks.removeFailed c.swa u, []⟩)

/-- A function of the memory API on both caches. -/
def call (m : IswaMachine) (ops : KvOp × KvOp) : Option IswaMachine :=
  (KvMachine.api rope c.base m.base ops.1).bind fun kb =>
    (KvMachine.api rope c.swa m.swa ops.2).map fun ks => ⟨kb, ks, m.todo⟩

def step (m : IswaMachine) : IswaOp → Option IswaMachine
  | .decode d => if m.todo = [] then m.decode rope c d else none
  | .apply dataBase dataSwa ok => m.apply c dataBase dataSwa ok
  | .abandon => some { m with todo := [] }
  | op => if m.todo = [] then op.calls.bind (m.call rope c) else none

/-- `seq_pos_min` and `seq_pos_max`. -/
def seqPosMin (m : IswaMachine) (s : SeqId) : ℤ := m.swa.seqPosMin c.swa s

def seqPosMax (m : IswaMachine) (s : SeqId) : ℤ := m.swa.seqPosMax c.swa s

end IswaMachine

end IFairy
