import IFairy.KvCache.Cells

/-!
# The KV cache object: `llama_kv_cache`

The state of the cache: the cells and the search head of every stream, the prefix boundary of
every sequence, the queue of pending stream copies and the bytes of the K, V and K-mean tensors.
`KvConfig` holds what the constructor fixes.  This module has the operations on whole sequences
(`clear`, `seq_rm`, `seq_cp`, `seq_keep`, `seq_set_prefix`, `seq_add`, `seq_div`) and `update`;
the placement of tokens is in `IFairy.KvCache.Slot`.

Positions are integers: the overflow of a signed 32-bit addition is undefined in the source.
A `GGML_ASSERT` on the arguments is a condition of `IFairy.KvCache.Machine`; the one in the middle
of `seq_cp` makes that function return `none`.
-/

namespace IFairy

/-- `std::numeric_limits<llama_pos>::max()`. -/
def posMax : ℤ := 2147483647

/-- `llama_swa_type`. -/
inductive SwaType
  | none
  | standard
  | chunked
  | symmetric
  deriving DecidableEq

/-- `kv_layer`: the model layer, the types and the row sizes of its tensors. -/
structure KvLayer where
  il : ℕ
  kType : ℤ
  vType : ℤ
  /-- `n_embd_k_gqa(il)` and the bytes of a K row. -/
  nEmbdK : ℕ
  kRow : ℕ
  /-- `n_embd_v_gqa(il)`, the bytes of a V row and of one V element. -/
  nEmbdV : ℕ
  vRow : ℕ
  vEl : ℕ
  /-- The layer has a tensor of K means. -/
  kMean : Bool

/-- What the constructor of `llama_kv_cache` fixes. -/
structure KvConfig where
  unified : Bool
  nSeqMax : ℕ
  kvSize : ℕ
  nPad : ℕ
  nSwa : ℕ
  swaType : SwaType
  window : ℕ
  prefixCap : ℕ
  nUbatch : ℕ
  typeK : ℤ
  typeV : ℤ
  vTrans : Bool
  /-- `hparams.rope_type != LLAMA_ROPE_TYPE_NONE`. -/
  rope : Bool
  layers : List KvLayer
  nSeqMax_pos : 0 < nSeqMax
  nSeqMax_le : nSeqMax ≤ llamaMaxSeq
  nPad_pow : ∃ e, nPad = 2 ^ e
  nPad_dvd : nPad ∣ kvSize

namespace KvConfig

/-- `n_stream`. -/
def nStream (cfg : KvConfig) : ℕ := if cfg.unified then 1 else cfg.nSeqMax

/-- `seq_to_stream.size()`. -/
def seqToStreamSize (cfg : KvConfig) : ℕ := if 1 < cfg.nStream then cfg.nStream else llamaMaxSeq

/-- `seq_to_stream[s]`. -/
def seqToStream (cfg : KvConfig) (s : SeqId) : ℕ := if 1 < cfg.nStream then s else 0

/-- `prefix_sliding_enabled()`. -/
def PrefixSliding (cfg : KvConfig) : Prop := 0 < cfg.window ∧ 0 < cfg.prefixCap

instance (cfg : KvConfig) : Decidable cfg.PrefixSliding := inferInstanceAs (Decidable (_ ∧ _))

/-- `is_masked_swa(p0, p1)`. -/
def IsMaskedSwa (cfg : KvConfig) (p0 p1 : ℤ) : Prop :=
  match cfg.swaType with
  | .none => False
  | .standard => (cfg.nSwa : ℤ) ≤ p1 - p0
  | .chunked => p0 < p1.tdiv cfg.nSwa * cfg.nSwa
  | .symmetric => p1 - p0 < -((cfg.nSwa : ℤ).tdiv 2) ∨ (cfg.nSwa : ℤ).tdiv 2 < p1 - p0

instance (cfg : KvConfig) (p0 p1 : ℤ) : Decidable (cfg.IsMaskedSwa p0 p1) := by
  unfold IsMaskedSwa
  split <;> infer_instance

lemma one_eq_two_pow : ∃ e, 1 = 2 ^ e := ⟨0, rfl⟩

/-- A cache without window, prefix or padding, and without tensors. -/
def basic (unified : Bool) (nSeqMax kvSize : ℕ) (hpos : 0 < nSeqMax) (hle : nSeqMax ≤ llamaMaxSeq) :
    KvConfig where
  unified := unified
  nSeqMax := nSeqMax
  kvSize := kvSize
  nPad := 1
  nSwa := 0
  swaType := .none
  window := 0
  prefixCap := 0
  nUbatch := 1
  typeK := 0
  typeV := 0
  vTrans := false
  rope := true
  layers := []
  nSeqMax_pos := hpos
  nSeqMax_le := hle
  nPad_pow := one_eq_two_pow
  nPad_dvd := Nat.one_dvd _

end KvConfig

/-- The bytes of the tensors, by position of the layer in `layers`, stream and offset. -/
@[ext] structure KvData where
  k : ℕ → ℕ → ℕ → UInt8
  v : ℕ → ℕ → ℕ → UInt8
  kMean : ℕ → ℕ → ℕ → UInt8

def KvData.zero : KvData := ⟨fun _ _ _ => 0, fun _ _ _ => 0, fun _ _ _ => 0⟩

/-- The state of a `llama_kv_cache`. -/
@[ext] structure KvCache where
  cells : ℕ → KvCells
  heads : ℕ → ℕ
  prefixEnd : SeqId → ℤ
  /-- `sc_info`: source and destination streams of the pending copies. -/
  scInfo : List (ℕ × ℕ)
  data : KvData

namespace KvCache

/-- The state that the constructor leaves. -/
def new (cfg : KvConfig) : KvCache where
  cells _ := .resize cfg.kvSize
  heads _ := 0
  prefixEnd _ := -1
  scInfo := []
  data := .zero

def setCells (k : KvCache) (st : ℕ) (c : KvCells) : KvCache :=
  { k with cells := Function.update k.cells st c }

def setHead (k : KvCache) (st h : ℕ) : KvCache :=
  { k with heads := Function.update k.heads st h }

/-- `reset_k_mean(stream)`: the last float of every mean row, its token count, becomes `0`. -/
def resetKMean (cfg : KvConfig) (k : KvCache) (st : ℕ) : KvCache :=
  { k with data := { k.data with
      kMean := fun l t b =>
        if t = st ∧ ∃ layer ∈ cfg.layers[l]?, layer.kMean = true ∧
            4 * layer.nEmbdK ≤ b ∧ b < 4 * layer.nEmbdK + 4 then 0
        else k.data.kMean l t b } }

/-- `clear(data)`. -/
def clear (cfg : KvConfig) (k : KvCache) (data : Bool) : KvCache :=
  let k := (List.range cfg.nStream).foldl (fun k st =>
    let k := (k.setCells st (k.cells st).reset).setHead st 0
    if data then k else k.resetKMean cfg st) k
  let k := { k with prefixEnd := fun _ => -1 }
  if data then { k with data := .zero } else k

/-! ## Loops over the cells of a stream -/

/-- `for (i = 0; i < cells.size(); ++i)` over a body that reports whether it freed the cell; also
the first freed cell, `cells.size()` when there is none. -/
def sweep (body : KvCells → ℕ → KvCells × Bool) (c : KvCells) : KvCells × ℕ :=
  (List.range c.size).foldl (fun r i =>
    let b := body r.1 i
    (b.1, if b.2 ∧ r.2 = c.size then i else r.2)) (c, c.size)

/-- A sweep of a stream; the head moves back to the first freed cell. -/
def sweepStream (k : KvCache) (st : ℕ) (body : KvCells → ℕ → KvCells × Bool) : KvCache :=
  let r := sweep body (k.cells st)
  let k := k.setCells st r.1
  if r.2 ≠ r.1.size ∧ r.2 < k.heads st then k.setHead st r.2 else k

/-! ## Operations on sequences -/

/-- `if (p0 < 0) p0 = 0`. -/
def clampP0 (p0 : ℤ) : ℤ := if p0 < 0 then 0 else p0

/-- `if (p1 < 0) p1 = std::numeric_limits<llama_pos>::max()`. -/
def clampP1 (p1 : ℤ) : ℤ := if p1 < 0 then posMax else p1

/-- The part of `seq_rm` that moves a prefix boundary. -/
def cutPrefix (removeAll : Prop) [Decidable removeAll] (p0 p1 prefixEnd : ℤ) : ℤ :=
  if removeAll then -1
  else if p0 < p1 ∧ 0 ≤ prefixEnd ∧ p0 < prefixEnd then p0 else prefixEnd

/-- `seq_rm(seq_id, p0, p1)`; no sequence stands for `seq_id == -1`. -/
def seqRm (cfg : KvConfig) (k : KvCache) (seqId : Option SeqId) (p0 p1 : ℤ) : KvCache :=
  let removeAll := p0 ≤ 0 ∧ p1 < 0
  let p0 := clampP0 p0
  let p1 := clampP1 p1
  match seqId with
  | some s =>
    let cut := cutPrefix removeAll p0 p1 (k.prefixEnd s)
    let k := if cfg.PrefixSliding then
        { k with prefixEnd := Function.update k.prefixEnd s cut }
      else k
    let st := cfg.seqToStream s
    let k := k.sweepStream st fun c i =>
      if c.PosIn i p0 p1 ∧ s ∈ c.seq i then c.seqRm i s else (c, false)
    if removeAll ∧ (k.cells st).getUsed = 0 then k.resetKMean cfg st else k
  | none =>
    let k := if cfg.PrefixSliding then
        { k with prefixEnd := fun s => cutPrefix removeAll p0 p1 (k.prefixEnd s) }
      else k
    (List.range cfg.nStream).foldl (fun k st =>
      let k := k.sweepStream st fun c i =>
        if c.PosIn i p0 p1 then (c.rm i, true) else (c, false)
      if removeAll then k.resetKMean cfg st else k) k

/-- One round of the loop of a cross-stream `seq_cp`: cell `i` of the source goes to the
destination, first at the position its K row is encoded for. -/
def copyCell (src : KvCells) (i : ℕ) (seqDst : SeqId) (dst : KvCells) : KvCells :=
  let shift := src.shift i
  let pos := if shift ≠ 0 then src.pos i - shift else src.pos i
  let dst := (dst.posSet i pos).seqAdd i seqDst
  if shift ≠ 0 then (dst.posAdd i shift).1 else dst

/-- `seq_cp(seq_id_src, seq_id_dst, p0, p1)`. -/
def seqCp (cfg : KvConfig) (k : KvCache) (seqSrc seqDst : SeqId) (p0 p1 : ℤ) : Option KvCache :=
  let s0 := cfg.seqToStream seqSrc
  let s1 := cfg.seqToStream seqDst
  if cfg.PrefixSliding ∧ ¬ (p0 ≤ 0 ∧ p1 < 0) then some k
  else
    let k := if cfg.PrefixSliding then
        { k with prefixEnd := Function.update k.prefixEnd seqDst (k.prefixEnd seqSrc) }
      else k
    if s0 = s1 then
      if seqSrc = seqDst then some k
      else
        let p0 := clampP0 p0
        let p1 := clampP1 p1
        some (k.setCells s0 (sweep (fun c i =>
          if c.PosIn i p0 p1 ∧ seqSrc ∈ c.seq i then (c.seqAdd i seqDst, false)
          else (c, false)) (k.cells s0)).1)
    else if (0 < p0 ∧ p0 + 1 < cfg.kvSize) ∨ (0 < p1 ∧ p1 + 1 < cfg.kvSize) then none
    else
      let k := { k with scInfo := k.scInfo ++ [(s0, s1)] }
      let src := k.cells s0
      let dst := (List.range src.size).foldl (fun dst i =>
        if seqSrc ∈ src.seq i then copyCell src i seqDst dst else dst) (k.cells s1).reset
      some ((k.setCells s1 dst).setHead s1 (k.heads s0))

/-- `seq_keep(seq_id)`. -/
def seqKeep (cfg : KvConfig) (k : KvCache) (s : SeqId) : KvCache :=
  let st := cfg.seqToStream s
  if cfg.PrefixSliding then
    let k := (List.range cfg.nStream).foldl (fun k t =>
      let k := k.sweepStream t fun c i => c.seqKeep i s
      if t ≠ st then k.resetKMean cfg t else k) k
    { k with prefixEnd := fun t => if t = s then k.prefixEnd t else -1 }
  else k.sweepStream st fun c i => c.seqKeep i s

/-- `seq_set_prefix(seq_id, prefix_end)`; the second component is the returned value. -/
def seqSetPrefix (cfg : KvConfig) (k : KvCache) (s : SeqId) (prefixEnd : ℤ) : KvCache × Bool :=
  if ¬ cfg.PrefixSliding ∨ cfg.seqToStreamSize ≤ s.val ∨ prefixEnd < 0 ∨
      (cfg.prefixCap : ℤ) < prefixEnd then (k, false)
  else ({ k with prefixEnd := Function.update k.prefixEnd s prefixEnd }, true)

/-- `seq_add(seq_id, p0, p1, shift)`. -/
def seqAdd (cfg : KvConfig) (k : KvCache) (s : SeqId) (p0 p1 shift : ℤ) : KvCache :=
  let st := cfg.seqToStream s
  if cfg.PrefixSliding then k
  else if shift = 0 then k
  else
    let p0 := clampP0 p0
    let p1 := clampP1 p1
    if p0 = p1 then k
    else
      let r := sweep (fun c i =>
        if c.PosIn i p0 p1 ∧ s ∈ c.seq i then c.posAdd i shift else (c, false)) (k.cells st)
      (k.setCells st r.1).setHead st (if r.2 ≠ r.1.size then r.2 else 0)

/-- `seq_div(seq_id, p0, p1, d)`. -/
def seqDiv (cfg : KvConfig) (k : KvCache) (s : SeqId) (p0 p1 d : ℤ) : KvCache :=
  let st := cfg.seqToStream s
  if cfg.PrefixSliding then k
  else if d = 1 then k
  else
    let p0 := clampP0 p0
    let p1 := clampP1 p1
    if p0 = p1 then k
    else k.setCells st (sweep (fun c i =>
      if c.PosIn i p0 p1 ∧ s ∈ c.seq i then (c.posDiv i d, false) else (c, false))
      (k.cells st)).1

/-- `seq_pos_min(seq_id)`. -/
def seqPosMin (cfg : KvConfig) (k : KvCache) (s : SeqId) : ℤ :=
  (k.cells (cfg.seqToStream s)).seqPosMin s

/-- `seq_pos_max(seq_id)`. -/
def seqPosMax (cfg : KvConfig) (k : KvCache) (s : SeqId) : ℤ :=
  (k.cells (cfg.seqToStream s)).seqPosMax s

/-! ## Pending copies and shifts -/

/-- `get_has_shift()`. -/
def getHasShift (cfg : KvConfig) (k : KvCache) : Bool :=
  (List.range cfg.nStream).any fun st => (k.cells st).hasShift

/-- `ggml_backend_tensor_copy` of the tensors of stream `p.1` to those of stream `p.2`. -/
def KvData.copyStream (d : KvData) (p : ℕ × ℕ) : KvData where
  k l := Function.update (d.k l) p.2 (d.k l p.1)
  v l := Function.update (d.v l) p.2 (d.v l p.1)
  kMean l := Function.update (d.kMean l) p.2 (d.kMean l p.1)

/-- `set_input_k_shift`: the shift of an occupied cell, `0` for an empty one. -/
def kShift (k : KvCache) (st i : ℕ) : ℤ :=
  if (k.cells st).IsEmpty i then 0 else (k.cells st).shift i

/-- The K tensors after the K-shift graph, which turns the row of every cell by its shift. -/
def KvData.rotate (rope : KvLayer → ℤ → (ℕ → UInt8) → ℕ → UInt8) (cfg : KvConfig) (k : KvCache)
    (d : KvData) : KvData :=
  { d with k := fun l st b =>
      match cfg.layers[l]? with
      | none => d.k l st b
      | some layer =>
        let i := b / layer.kRow
        rope layer (k.kShift st i) (fun j => d.k l st (i * layer.kRow + j)) (b % layer.kRow) }

/-- `memory_update`: `init_update` takes the pending copies out of the queue, `update` performs
them and then the K-shift.  `ok` says whether the graph of the K-shift could be computed. -/
def update (rope : KvLayer → ℤ → (ℕ → UInt8) → ℕ → UInt8) (cfg : KvConfig) (k : KvCache)
    (ok : Bool) : KvCache :=
  let doShift := k.getHasShift cfg
  let k := { k with data := k.scInfo.foldl KvData.copyStream k.data, scInfo := [] }
  if doShift then
    if cfg.rope ∧ ¬ ok then k
    else
      let k := if cfg.rope then { k with data := KvData.rotate rope cfg k k.data } else k
      (List.range cfg.nStream).foldl (fun k st => k.setCells st (k.cells st).resetShift) k
  else k

end KvCache

end IFairy
