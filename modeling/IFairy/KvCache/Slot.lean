import IFairy.KvCache.Cache
import IFairy.KvCache.Split

/-!
# Placing tokens: `find_slot`, `apply_ubatch`, `prepare`

`find_slot` looks for usable cells in the stream of every sequence, from the search head on and
around the usable part of the ring; `apply_ubatch` puts the tokens into the cells that were found;
`prepare` does both tentatively for a list of ubatches and then restores the cells and heads it
saved.  `slotLoop` carries fuel for the `while (true)` of the source; `IFairy.KvCache.SlotSpec`
shows that it does not run out.
-/

namespace IFairy

/-- `GGML_PAD(x, n)` for a power of two `n`. -/
def ggmlPad (x n : ℕ) : ℕ := (x + (n - 1)) / n * n

/-- `llama_kv_cache::slot_info`. -/
structure SlotInfo where
  s0 : ℕ
  s1 : ℕ
  strm : List ℕ
  idxs : List (List ℕ)
  deriving DecidableEq

namespace SlotInfo

/-- `n_stream()`. -/
def nStream (si : SlotInfo) : ℕ := si.strm.length

/-- `size()`. -/
def size (si : SlotInfo) : ℕ := (si.idxs.headD []).length

/-- `strm[s]`. -/
def stream (si : SlotInfo) (s : ℕ) : ℕ := si.strm.getD s 0

/-- `idxs[s]`. -/
def cellIdxs (si : SlotInfo) (s : ℕ) : List ℕ := si.idxs.getD s []

end SlotInfo

namespace KvCache

/-- `prefix_sliding_size(seq_id)`. -/
def prefixSlidingSize (cfg : KvConfig) (k : KvCache) (s : SeqId) : ℕ :=
  min cfg.kvSize
    (ggmlPad ((max 0 (k.prefixEnd s)).toNat + cfg.window - 1 + cfg.nUbatch) cfg.nPad)

/-! ## `find_slot` -/

/-- `can_use` for cell `idx`: it is empty, or it holds one sequence whose token is outside the
sliding window. -/
def CanUse (cfg : KvConfig) (cells : KvCells) (s : SeqId) (prefixEnd minIncoming : ℤ)
    (idx : ℕ) : Prop :=
  cells.IsEmpty idx ∨
    (cells.seq idx).card = 1 ∧ ∃ t ∈ cells.seqGet idx,
      (cfg.PrefixSliding ∧ t = s ∧ prefixEnd ≤ cells.pos idx ∧
        cells.pos idx < minIncoming - cfg.window + 1) ∨
      cfg.IsMaskedSwa (cells.pos idx) (cells.seqPosMax t + 1)

instance (cfg : KvConfig) (cells : KvCells) (s : SeqId) (prefixEnd minIncoming : ℤ) :
    DecidablePred (CanUse cfg cells s prefixEnd minIncoming) := fun idx =>
  inferInstanceAs (Decidable (_ ∨ (_ ∧ ∃ t ∈ cells.seqGet idx, _)))

/-- The inner loop of `find_slot` over `n` cells from `head` on: the head, the number of tested
cells and the cells found. -/
def testRun (canUse : ℕ → Prop) [DecidablePred canUse] (cont : Bool) :
    ℕ → ℕ → ℕ → List ℕ → ℕ × ℕ × List ℕ
  | 0, head, tested, idxs => (head, tested, idxs)
  | n + 1, head, tested, idxs =>
    if canUse head then testRun canUse cont n (head + 1) (tested + 1) (idxs ++ [head])
    else if cont then (head + 1, tested + 1, idxs)
    else testRun canUse cont n (head + 1) (tested + 1) idxs

/-- The `while (true)` of `find_slot` for one sequence. -/
def slotLoop (canUse : ℕ → Prop) [DecidablePred canUse] (cont : Bool) (usable nTokens : ℕ) :
    ℕ → ℕ → ℕ → List ℕ → Option (List ℕ)
  | 0, _, _, _ => none
  | fuel + 1, head, tested, idxs =>
    let nTest := if cont then nTokens else 1
    if usable < head + nTest then
      slotLoop canUse cont usable nTokens fuel 0 (tested + (usable - head)) idxs
    else
      let r := testRun canUse cont nTest head tested idxs
      if r.2.2.length = nTokens then some r.2.2
      else if usable ≤ r.2.1 then none
      else slotLoop canUse cont usable nTokens fuel r.1 r.2.1 (if cont then [] else r.2.2)

/-- `min_incoming_pos` of the `s`-th sequence of the ubatch. -/
def minIncoming (u : UBatch) (nTokens s : ℕ) : ℤ :=
  (List.range nTokens).foldl (fun m i => min m (u.pos (s * nTokens + i))) posMax

/-- The cell from which the search starts. -/
def startHead (head usable used nTokens : ℕ) : ℕ :=
  let head := if usable ≤ head then 0 else head
  if used + 2 * nTokens < head then 0 else head

/-- `usable_size`. -/
def usableSize (cfg : KvConfig) (k : KvCache) (s : SeqId) : ℕ :=
  if cfg.PrefixSliding then k.prefixSlidingSize cfg s else (k.cells (cfg.seqToStream s)).size

/-- The cells for the `s`-th sequence of the ubatch. -/
def findSeqSlot (cfg : KvConfig) (k : KvCache) (u : UBatch) (cont : Bool) (nTokens s : ℕ) :
    Option (List ℕ) :=
  let seqId := u.seqIdUnq.getD s 0
  let cells := k.cells (cfg.seqToStream seqId)
  let prefixEnd := if cfg.PrefixSliding then k.prefixEnd seqId else -1
  if cfg.PrefixSliding ∧ prefixEnd < 0 then none
  else
    let usable := k.usableSize cfg seqId
    let head := startHead (k.heads (cfg.seqToStream seqId)) usable cells.getUsed nTokens
    if usable < nTokens then none
    else slotLoop (CanUse cfg cells seqId prefixEnd (minIncoming u nTokens s)) cont usable nTokens
      (2 * usable + 2) head 0 []

/-- `n_seqs` of `find_slot`. -/
def slotSeqs (cfg : KvConfig) (u : UBatch) : ℕ := if 1 < cfg.nStream then u.nSeqsUnq else 1

/-- `n_tokens` of `find_slot`: the tokens of each sequence. -/
def slotTokens (cfg : KvConfig) (u : UBatch) : ℕ :=
  if 1 < cfg.nStream then u.nTokens / u.nSeqsUnq else u.nTokens

/-- The `GGML_ASSERT`s of `find_slot`: with several streams the tokens are grouped by sequence, in
the order of `seq_id_unq`. -/
def SlotAsserts (cfg : KvConfig) (u : UBatch) : Prop :=
  1 < cfg.nStream →
    u.nTokens % u.nSeqsUnq = 0 ∧
      ∀ s, s < u.nSeqsUnq →
        (u.seqId (s * slotTokens cfg u)).tail = [] ∧
          (u.seqId (s * slotTokens cfg u)).head = u.seqIdUnq.getD s 0

instance (cfg : KvConfig) (u : UBatch) : Decidable (SlotAsserts cfg u) :=
  inferInstanceAs (Decidable (_ → _ ∧ ∀ s, s < u.nSeqsUnq → _))

/-- `find_slot(ubatch, cont)`. -/
def findSlot (cfg : KvConfig) (k : KvCache) (u : UBatch) (cont : Bool) : Option SlotInfo :=
  let strm := (List.range (slotSeqs cfg u)).map fun s => cfg.seqToStream (u.seqIdUnq.getD s 0)
  ((List.range (slotSeqs cfg u)).mapM (findSeqSlot cfg k u cont (slotTokens cfg u))).map
    fun idxs =>
      { s0 := strm.foldl min llamaMaxSeq
        s1 := strm.foldl max 0
        strm := strm
        idxs := idxs }

/-! ## `apply_ubatch` -/

/-- `seq_pos_max_rm` after the tokens of an occupied cell are overwritten. -/
def notePurge (cfg : KvConfig) (cells : KvCells) (idx : ℕ) (maxRm : SeqId → ℤ) : SeqId → ℤ :=
  match cells.seqGet idx with
  | none => maxRm
  | some t =>
    if cfg.PrefixSliding then maxRm
    else Function.update maxRm t (max (maxRm t) (cells.pos idx))

/-- The cells after token `i` is put into cell `idx`. -/
def placeToken (u : UBatch) (idx i : ℕ) (cells : KvCells) : KvCells :=
  let cells := if cells.IsEmpty idx then cells else cells.rm idx
  (u.seqId i).toList.foldl (fun c s => c.seqAdd idx s) (cells.posSet idx (u.pos i))

/-- One round of the placing loop of `apply_ubatch`. -/
def emplace (cfg : KvConfig) (u : UBatch) (st idx i : ℕ) (r : KvCache × (SeqId → ℤ)) :
    KvCache × (SeqId → ℤ) :=
  let cells := r.1.cells st
  (r.1.setCells st (placeToken u idx i cells),
    if cells.IsEmpty idx then r.2 else notePurge cfg cells idx r.2)

/-- The placing loop: the cache and `seq_pos_max_rm`. -/
def emplaceAll (cfg : KvConfig) (k : KvCache) (si : SlotInfo) (u : UBatch) :
    KvCache × (SeqId → ℤ) :=
  (List.range si.nStream).foldl (fun r s =>
    (List.range si.size).foldl (fun r ii =>
      emplace cfg u (si.stream s) ((si.cellIdxs s).getD ii 0) (s * si.size + ii) r) r)
    (k, fun _ => -1)

/-- The purge of sequence `s`: no position at or below an overwritten one stays. -/
def purgeSeq (cfg : KvConfig) (maxRm : SeqId → ℤ) (k : KvCache) (s : SeqId) : KvCache :=
  if maxRm s = -1 then k
  else
    let pMin := (k.cells (cfg.seqToStream s)).seqPosMin s
    if pMin ≤ maxRm s then k.seqRm cfg (some s) pMin (maxRm s + 1) else k

/-- The purging loop of `apply_ubatch`, which prefix sliding skips. -/
def purge (cfg : KvConfig) (maxRm : SeqId → ℤ) (k : KvCache) : KvCache :=
  if cfg.PrefixSliding then k else (List.finRange llamaMaxSeq).foldl (purgeSeq cfg maxRm) k

/-- The heads move to the end of the slot. -/
def moveHeads (si : SlotInfo) (k : KvCache) : KvCache :=
  (List.range si.nStream).foldl
    (fun k s => k.setHead (si.stream s) ((si.cellIdxs s).getLastD 0 + 1)) k

/-- `apply_ubatch(sinfo, ubatch)`. -/
def applyUbatch (cfg : KvConfig) (k : KvCache) (si : SlotInfo) (u : UBatch) : KvCache :=
  let r := emplaceAll cfg k si u
  moveHeads si (purge cfg r.2 r.1)

/-! ## `prepare` -/

/-- What `prepare` remembers of the state before a ubatch is placed. -/
structure SavedState where
  sinfo : SlotInfo
  headsOld : ℕ → ℕ
  cells : List KvCells

/-- The entry of the recovery stack for a slot. -/
def save (k : KvCache) (si : SlotInfo) : SavedState where
  sinfo := si
  headsOld := k.heads
  cells := (List.range si.nStream).map fun s => (k.cells (si.stream s)).cp (si.cellIdxs s)

/-- The loop of `prepare`: the cache, the recovery stack from its bottom up, and success. -/
def prepareLoop (cfg : KvConfig) : KvCache → List UBatch → KvCache × List SavedState × Bool
  | k, [] => (k, [], true)
  | k, u :: us =>
    match findSlot cfg k u false with
    | none => (k, [], false)
    | some si =>
      let r := prepareLoop cfg (k.applyUbatch cfg si u) us
      (r.1, k.save si :: r.2.1, r.2.2)

/-- One entry of the recovery stack is restored. -/
def restore (k : KvCache) (saved : SavedState) : KvCache :=
  (List.range saved.sinfo.nStream).foldl (fun k s =>
    let st := saved.sinfo.stream s
    let old := saved.cells.getD s (.resize 0)
    (k.setCells st ((k.cells st).set (saved.sinfo.cellIdxs s) old)).setHead st
      (saved.headsOld st)) k

/-- `prepare(ubatches)`: the cache afterwards, and the slots when all ubatches were placed. -/
def prepare (cfg : KvConfig) (k : KvCache) (us : List UBatch) :
    KvCache × Option (List SlotInfo) :=
  let r := prepareLoop cfg k us
  (r.2.1.reverse.foldl restore r.1, if r.2.2 then some (r.2.1.map SavedState.sinfo) else none)

end KvCache

end IFairy
