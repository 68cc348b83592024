import IFairy.KvCache.Reuse
import IFairy.KvCache.SetRows

/-!
# The K and V tensors of a layer

A layer keeps the K rows of all cells of all streams in one tensor, and the V values in another one:
as rows, or, without flash attention, transposed, with a row for each element and a column for each
cell.  This module has the index tensors that `set_input_k_idxs` and `set_input_v_idxs` fill, the writes
of `cpy_k` and `cpy_v` with their BF16 carrier variants, and the views `get_k` and `get_v`.

The tensor `k_cur` is taken after the optional centering of K.

A slot gives every token of an ubatch a cell in the stream of its sequence, and no two tokens the same
one.  The index tensors name the rows of these cells among the rows of all streams, or, for a
transposed V, the places of the elements.
-/

namespace IFairy

/-- The extents and types of the tensors of a layer.  A head is made of whole blocks, as
`ggml_row_size` asserts; a transposed V has a type without blocks, as the context makes sure; the
cells of all streams are counted with 32 bits. -/
structure LayerDims where
  kvSize : ℕ
  nStream : ℕ
  nHeadKv : ℕ
  nEmbdHeadK : ℕ
  nEmbdHeadV : ℕ
  /-- `n_embd_v_gqa_max()`, over all layers. -/
  nEmbdVMax : ℕ
  kType : TypeTraits
  vType : TypeTraits
  vTrans : Bool
  nStream_pos : 0 < nStream
  kBlocks : kType.blckSize ∣ nEmbdHeadK
  vBlocks : vType.blckSize ∣ nEmbdHeadV
  vElements : vTrans = true → vType.blckSize = 1
  le_max : nEmbdHeadV * nHeadKv ≤ nEmbdVMax
  offset_lt : (nStream - 1) * kvSize < 4294967296

/-- The threads of the backend and the order in which their writes are performed. -/
structure Threads where
  nth : ℕ
  schedule : (α : Type) → List α → List α
  nth_pos : 0 < nth
  perm : ∀ α l, (schedule α l).Perm l

namespace LayerDims

variable (d : LayerDims)

/-- `n_embd_k_gqa(il)`. -/
def nEmbdK : ℕ := d.nEmbdHeadK * d.nHeadKv

/-- `n_embd_v_gqa(il)`. -/
def nEmbdV : ℕ := d.nEmbdHeadV * d.nHeadKv

/-- The first extent of the V tensor. -/
def vWidth : ℕ := if d.vTrans then d.nEmbdVMax else d.nEmbdV

/-- `layers[ikv].k`. -/
def kTensor (data : ℕ) (buf : ℕ → UInt8) : Tensor := .new d.kType d.nEmbdK d.kvSize d.nStream 1 data buf

/-- `layers[ikv].v`. -/
def vTensor (data : ℕ) (buf : ℕ → UInt8) : Tensor := .new d.vType d.vWidth d.kvSize d.nStream 1 data buf

/-! ## The views -/

/-- A view of the rows of the streams of a slot, split into heads. -/
def rowView (t : Tensor) (nEmbdHead nKv : ℕ) (si : SlotInfo) : Tensor :=
  t.view4d nEmbdHead d.nHeadKv nKv (si.s1 - si.s0 + 1) (t.type.rowSize nEmbdHead)
    (t.type.rowSize t.ne0) (t.type.rowSize (t.ne0 * d.kvSize))
    (t.type.rowSize (t.ne0 * d.kvSize) * si.s0)

/-- `get_k`. -/
def getK (k : Tensor) (nKv : ℕ) (si : SlotInfo) : Tensor := d.rowView k d.nEmbdHeadK nKv si

/-- `get_v`. -/
def getV (v : Tensor) (nKv : ℕ) (si : SlotInfo) : Tensor :=
  if d.vTrans then
    v.view4d nKv d.nHeadKv d.nEmbdHeadV (si.s1 - si.s0 + 1)
      (v.type.rowSize (d.kvSize * d.nEmbdHeadV)) (v.type.rowSize d.kvSize)
      (v.type.rowSize (d.kvSize * v.ne0)) (v.type.rowSize (d.kvSize * v.ne0) * si.s0)
  else d.rowView v d.nEmbdHeadV nKv si

/-! ## The indices -/

/-- The rows of the cells of a slot; `strm[s]*get_size()` is computed with 32 bits. -/
def rowIdxs (si : SlotInfo) : ℕ → ℤ :=
  (List.range si.nStream).foldl (fun data s =>
    let offs := si.stream s * d.kvSize % 4294967296
    (List.range si.size).foldl (fun data i =>
      Function.update data (s * si.size + i) ((offs + (si.cellIdxs s).getD i 0 : ℕ) : ℤ)) data)
    fun _ => 0

/-- `set_input_k_idxs`. -/
def setInputKIdxs (u : UBatch) (si : SlotInfo) : Option Indices :=
  if u.nTokens = si.size * si.nStream then some ⟨u.nTokens, d.rowIdxs si⟩ else none

/-- `set_input_v_idxs`. -/
def setInputVIdxs (u : UBatch) (si : SlotInfo) : Option Indices :=
  if u.nTokens = si.size * si.nStream then
    some (if d.vTrans then
      ⟨u.nTokens * d.nEmbdVMax, (List.range si.nStream).foldl (fun data s =>
        let offs := si.stream s * d.kvSize * d.nEmbdVMax
        (List.range si.size).foldl (fun data i =>
          (List.range d.nEmbdVMax).foldl (fun data j =>
            Function.update data (s * si.size * d.nEmbdVMax + i * d.nEmbdVMax + j)
              ((offs + j * d.kvSize + (si.cellIdxs s).getD i 0 : ℕ) : ℤ)) data) data)
        fun _ => 0⟩
    else ⟨u.nTokens, d.rowIdxs si⟩)
  else none

/-! ## The writes -/

variable (th : Threads)

/-- The tokens as rows: dimensions `0` and `1` merged. -/
def tokenRows (cur : Tensor) : Tensor := cur.view2d (cur.ne0 * cur.ne1) cur.ne2 cur.nb2 0

/-- A cache tensor with the rows of all streams merged. -/
def mergeStreams (t : Tensor) (nEmbdGqa : ℕ) : Option Tensor :=
  if 1 < t.ne2 then t.reshape2d nEmbdGqa (d.kvSize * t.ne2) else some t

/-- `ggml_set_rows` on a cache tensor whose streams are merged. -/
def storeRows (t cur : Tensor) (idxs : Indices) : Option Tensor :=
  (d.mergeStreams t (cur.ne0 * cur.ne1)).bind fun rows =>
    let b := tokenRows cur
    (setRows (th.schedule _ (setRowsJobs b th.nth)) rows b idxs).map fun r => { t with buf := r.buf }

/-- `ggml_set_rows_bf16_carrier` in row mode on a cache tensor whose streams are merged. -/
def storeCarrierRows (t cur : Tensor) (idxs : Indices) : Option Tensor :=
  (d.mergeStreams t (cur.ne0 * cur.ne1)).bind fun rows =>
    let b := tokenRows cur
    (setRowsCarrierRows (th.schedule _ (carrierRowsJobs b th.nth)) rows b idxs).map fun r =>
      { t with buf := r.buf }

/-- `cpy_k`: the K tensor after the write. -/
def cpyK (k kCur : Tensor) (kIdxs : Indices) (si : SlotInfo) : Option Tensor :=
  if kCur.ne2 % si.nStream = 0 ∧ kCur.type.rowSize kCur.ne0 = kCur.nb1 then
    d.storeRows th k kCur kIdxs
  else none

/-- `cpy_k_bf16_carrier`. -/
def cpyKBf16Carrier (k kCur : Tensor) (kIdxs : Indices) : Option Tensor :=
  if (k.type.IsBf16 ∧ kCur.type.IsF32) ∧ kCur.type.rowSize kCur.ne0 = kCur.nb1 then
    d.storeCarrierRows th k kCur kIdxs
  else none

/-- The tokens of `v_cur` as contiguous rows of the width of the V tensor. -/
def packTokens (v vCur : Tensor) : Option Tensor :=
  let nEmbdGqa := vCur.ne0 * vCur.ne1
  let packed := if vCur.type.rowSize nEmbdGqa = vCur.nb2 then vCur.reshape2d nEmbdGqa vCur.ne2
    else vCur.cont2d nEmbdGqa vCur.ne2
  packed.bind fun cur => if nEmbdGqa < v.ne0 then cur.pad (v.ne0 - nEmbdGqa) else some cur

/-- `cpy_v`. -/
def cpyV (v vCur : Tensor) (vIdxs : Indices) : Option Tensor :=
  if vCur.type.rowSize vCur.ne0 = vCur.nb1 then
    if d.vTrans then
      (packTokens v vCur).bind fun cur =>
        (v.reshape2d 1 v.nelements).bind fun elements =>
          (cur.reshape2d 1 cur.nelements).bind fun b =>
            (setRows (th.schedule _ (setRowsJobs b th.nth)) elements b vIdxs).map fun r =>
              { v with buf := r.buf }
    else d.storeRows th v vCur vIdxs
  else none

/-- `cpy_v_bf16_carrier`. -/
def cpyVBf16Carrier (v vCur : Tensor) (vIdxs : Indices) : Option Tensor :=
  if (v.type.IsBf16 ∧ vCur.type.IsF32) ∧ vCur.type.rowSize vCur.ne0 = vCur.nb1 then
    if d.vTrans then
      if vCur.ne0 * vCur.ne1 = v.ne0 ∧ vCur.ne3 = 1 ∧ vIdxs.ne0 = vCur.ne0 * vCur.ne1 * vCur.ne2 then
        (v.reshape2d 1 v.nelements).bind fun elements =>
          (setRowsCarrierElements (th.schedule _ (threadsRange vCur.nelements th.nth)) elements vCur
            vIdxs).map fun r => { v with buf := r.buf }
      else none
    else d.storeCarrierRows th v vCur vIdxs
  else none

end LayerDims

/-! ## The cells of the tokens -/

namespace SlotInfo

def streamOf (si : SlotInfo) (tok : ℕ) : ℕ := si.stream (tok / si.size)

def cellOf (si : SlotInfo) (tok : ℕ) : ℕ := (si.cellIdxs (tok / si.size)).getD (tok % si.size) 0

/-- The streams of a slot are streams of the cache, between `s0` and `s1`. -/
structure InStreams (si : SlotInfo) (nStream : ℕ) : Prop where
  lt : ∀ s < si.nStream, si.stream s < nStream
  s0_le : ∀ s < si.nStream, si.s0 ≤ si.stream s
  le_s1 : ∀ s < si.nStream, si.stream s ≤ si.s1

end SlotInfo

variable {n : ℕ} {si : SlotInfo} {u : UBatch}

namespace SlotFits

/-- A token is one of the `size` tokens of a stream of the slot. -/
lemma div_lt (h : SlotFits n si u) {tok : ℕ} (htok : tok < u.nTokens) :
    tok / si.size < si.nStream ∧ tok % si.size < si.size := by
  rw [← h.tokens] at htok
  have hsize : 0 < si.size := pos_of_mul_pos_right (Nat.zero_lt_of_lt htok) (Nat.zero_le _)
  exact ⟨Nat.div_lt_of_lt_mul (by rwa [Nat.mul_comm]), Nat.mod_lt _ hsize⟩

lemma cellOf_lt (h : SlotFits n si u) {tok : ℕ} (htok : tok < u.nTokens) : si.cellOf tok < n := by
  obtain ⟨hs, hi⟩ := h.div_lt htok
  obtain ⟨hlt, heq⟩ := h.getD_eq hs hi
  unfold SlotInfo.cellOf
  rw [heq]
  exact h.lt _ hs _ (List.getElem_mem hlt)

lemma tok_eq (h : SlotFits n si u) {tok tok' : ℕ} (htok : tok < u.nTokens)
    (htok' : tok' < u.nTokens) (hstream : si.streamOf tok = si.streamOf tok')
    (hcell : si.cellOf tok = si.cellOf tok') : tok = tok' := by
  obtain ⟨hs, hi⟩ := h.div_lt htok
  obtain ⟨hs', hi'⟩ := h.div_lt htok'
  have hdiv : tok / si.size = tok' / si.size := h.stream_inj _ hs _ hs' hstream
  obtain ⟨hlt, heq⟩ := h.getD_eq hs hi
  obtain ⟨hlt', heq'⟩ := h.getD_eq hs' hi'
  have hmod : tok % si.size = tok' % si.size := by
    unfold SlotInfo.cellOf at hcell
    rw [heq, heq'] at hcell
    simp only [← hdiv] at hcell
    exact (List.Nodup.getElem_inj_iff (h.nodup _ hs)).1 hcell
  calc tok = si.size * (tok / si.size) + tok % si.size := (Nat.div_add_mod _ _).symm
    _ = si.size * (tok' / si.size) + tok' % si.size := by rw [hdiv, hmod]
    _ = tok' := Nat.div_add_mod _ _

end SlotFits

/-- The streams of a slot that `find_slot` returns. -/
lemma KvCache.findSlot_inStreams {cfg : KvConfig} {k : KvCache}
    (hu : ∀ s ∈ u.seqIdUnq, s.val < cfg.batchSeqMax) (h : findSlot cfg k u false = some si) :
    si.InStreams cfg.nStream := by
  obtain ⟨hcount, hstream, -⟩ := findSlot_parts h
  have hmem : ∀ s < si.nStream, si.stream s ∈ si.strm := fun s hs => by
    unfold SlotInfo.stream
    rw [List.getD_eq_getElem _ _ hs]
    exact List.getElem_mem hs
  have hends : si.s0 = si.strm.foldl min llamaMaxSeq ∧ si.s1 = si.strm.foldl max 0 := by
    obtain ⟨idxs, -, rfl⟩ := Option.map_eq_some_iff.1 h
    exact ⟨rfl, rfl⟩
  refine ⟨fun s hs => ?_, fun s hs => ?_, fun s hs => ?_⟩
  · rw [hcount] at hs
    rw [hstream s hs]
    refine seqToStream_lt_of_idOk ?_
    unfold slotSeqs at hs
    unfold KvConfig.seqToStreamSize
    split at hs
    · rename_i hmany
      have hlt := hu _ (List.getElem_mem hs)
      rw [List.getD_eq_getElem _ _ hs]
      unfold KvConfig.batchSeqMax at hlt
      unfold KvConfig.nStream at hmany ⊢
      split at hmany
      · omega
      · rename_i hno
        rw [if_neg hno] at hlt
        rwa [if_neg hno, if_pos hmany]
    · rename_i hone
      rw [if_neg hone]
      exact Fin.isLt _
  · rw [hends.1, List.foldl_min_eq_min (List.ne_nil_of_mem (hmem s hs))]
    exact (min_le_right _ _).trans (List.min_le_of_mem (hmem s hs))
  · rw [hends.2, List.foldl_max_eq_max (List.ne_nil_of_mem (hmem s hs))]
    exact (List.le_max_of_mem (hmem s hs)).trans (le_max_right _ _)

namespace LayerDims

variable {d : LayerDims}

/-! ## The indices -/

/-- The row of a token among the rows of all streams. -/
def rowOf (d : LayerDims) (si : SlotInfo) (tok : ℕ) : ℕ := si.streamOf tok * d.kvSize + si.cellOf tok

lemma rowIdxs_apply (hfit : SlotFits d.kvSize si u) (hin : si.InStreams d.nStream) {tok : ℕ}
    (htok : tok < u.nTokens) : d.rowIdxs si tok = (d.rowOf si tok : ℤ) := by
  obtain ⟨hs, hi⟩ := hfit.div_lt htok
  have hmem : (tok / si.size, tok % si.size) ∈ List.range si.nStream ×ˢ List.range si.size :=
    List.pair_mem_product.2 ⟨List.mem_range.2 hs, List.mem_range.2 hi⟩
  have hnest := (foldl_product (fun (data : ℕ → ℤ) (p : ℕ × ℕ) =>
    Function.update data (p.1 * si.size + p.2)
      ((si.stream p.1 * d.kvSize % 4294967296 + (si.cellIdxs p.1).getD p.2 0 : ℕ) : ℤ))
    (List.range si.nStream) (List.range si.size) fun _ => 0).symm
  have hread := foldl_update_of_inj (fun p : ℕ × ℕ => p.1 * si.size + p.2) (fun p =>
    ((si.stream p.1 * d.kvSize % 4294967296 + (si.cellIdxs p.1).getD p.2 0 : ℕ) : ℤ)) (fun _ => 0)
    hmem fun p hp heq => by
      have hp2 := List.mem_range.1 (List.mem_product.1 hp).2
      obtain ⟨h1, h2⟩ := mul_add_inj hp2 hi heq
      exact Prod.ext h1 h2
  have htok' : tok / si.size * si.size + tok % si.size = tok := Nat.div_add_mod' _ _
  refine (congrFun hnest tok).trans ?_
  rw [← htok', hread]
  have hoffs : si.stream (tok / si.size) * d.kvSize % 4294967296
      = si.stream (tok / si.size) * d.kvSize := by
    have hlt := hin.lt _ hs
    exact Nat.mod_eq_of_lt ((Nat.mul_le_mul_right _ (Nat.le_sub_one_of_lt hlt)).trans_lt d.offset_lt)
  rw [htok', hoffs]
  rfl

lemma rowOf_lt (hfit : SlotFits d.kvSize si u) (hin : si.InStreams d.nStream) {tok : ℕ}
    (htok : tok < u.nTokens) : d.rowOf si tok < d.kvSize * d.nStream := by
  have hs := hin.lt _ (hfit.div_lt htok).1
  calc d.rowOf si tok
      < si.streamOf tok * d.kvSize + d.kvSize := Nat.add_lt_add_left (hfit.cellOf_lt htok) _
    _ = (si.streamOf tok + 1) * d.kvSize := (Nat.succ_mul _ _).symm
    _ ≤ d.nStream * d.kvSize := Nat.mul_le_mul_right _ hs
    _ = d.kvSize * d.nStream := Nat.mul_comm _ _

lemma rowOf_inj (hfit : SlotFits d.kvSize si u) {tok tok' : ℕ} (htok : tok < u.nTokens)
    (htok' : tok' < u.nTokens) (h : d.rowOf si tok = d.rowOf si tok') : tok = tok' := by
  obtain ⟨hstream, hcell⟩ := mul_add_inj (hfit.cellOf_lt htok) (hfit.cellOf_lt htok') h
  exact hfit.tok_eq htok htok' hstream hcell

/-- The place of an element of a token among the elements of a transposed V tensor. -/
def elementOf (d : LayerDims) (si : SlotInfo) (e : ℕ) : ℕ :=
  (si.streamOf (e / d.nEmbdVMax) * d.nEmbdVMax + e % d.nEmbdVMax) * d.kvSize
    + si.cellOf (e / d.nEmbdVMax)

lemma div_nEmbdVMax_lt {e m : ℕ} (he : e < m * d.nEmbdVMax) :
    e / d.nEmbdVMax < m ∧ e % d.nEmbdVMax < d.nEmbdVMax := by
  have hpos : 0 < d.nEmbdVMax := pos_of_mul_pos_right (Nat.zero_lt_of_lt he) (Nat.zero_le _)
  exact ⟨Nat.div_lt_of_lt_mul (by rwa [Nat.mul_comm]), Nat.mod_lt _ hpos⟩

lemma elementOf_lt (hfit : SlotFits d.kvSize si u) (hin : si.InStreams d.nStream) {e : ℕ}
    (he : e < u.nTokens * d.nEmbdVMax) :
    d.elementOf si e < d.nEmbdVMax * d.kvSize * d.nStream := by
  obtain ⟨htok, hj⟩ := div_nEmbdVMax_lt he
  have hs := hin.lt _ (hfit.div_lt htok).1
  have hrow : si.streamOf (e / d.nEmbdVMax) * d.nEmbdVMax + e % d.nEmbdVMax + 1
      ≤ d.nStream * d.nEmbdVMax := by
    calc si.streamOf (e / d.nEmbdVMax) * d.nEmbdVMax + e % d.nEmbdVMax + 1
        ≤ si.streamOf (e / d.nEmbdVMax) * d.nEmbdVMax + d.nEmbdVMax := by omega
      _ = (si.streamOf (e / d.nEmbdVMax) + 1) * d.nEmbdVMax := (Nat.succ_mul _ _).symm
      _ ≤ d.nStream * d.nEmbdVMax := Nat.mul_le_mul_right _ hs
  calc d.elementOf si e
      < (si.streamOf (e / d.nEmbdVMax) * d.nEmbdVMax + e % d.nEmbdVMax) * d.kvSize + d.kvSize :=
        Nat.add_lt_add_left (hfit.cellOf_lt htok) _
    _ = (si.streamOf (e / d.nEmbdVMax) * d.nEmbdVMax + e % d.nEmbdVMax + 1) * d.kvSize :=
        (Nat.succ_mul _ _).symm
    _ ≤ d.nStream * d.nEmbdVMax * d.kvSize := Nat.mul_le_mul_right _ hrow
    _ = d.nEmbdVMax * d.kvSize * d.nStream := by ring

lemma elementOf_inj (hfit : SlotFits d.kvSize si u) {e e' : ℕ} (he : e < u.nTokens * d.nEmbdVMax)
    (he' : e' < u.nTokens * d.nEmbdVMax) (h : d.elementOf si e = d.elementOf si e') : e = e' := by
  obtain ⟨htok, hj⟩ := div_nEmbdVMax_lt he
  obtain ⟨htok', hj'⟩ := div_nEmbdVMax_lt he'
  obtain ⟨hrow, hcell⟩ := mul_add_inj (hfit.cellOf_lt htok) (hfit.cellOf_lt htok') h
  obtain ⟨hstream, hmod⟩ := mul_add_inj hj hj' hrow
  calc e = d.nEmbdVMax * (e / d.nEmbdVMax) + e % d.nEmbdVMax := (Nat.div_add_mod _ _).symm
    _ = d.nEmbdVMax * (e' / d.nEmbdVMax) + e' % d.nEmbdVMax := by
        rw [hfit.tok_eq htok htok' hstream hcell, hmod]
    _ = e' := Nat.div_add_mod _ _

/-- The indices of `set_input_k_idxs`, and of `set_input_v_idxs` for rows of V. -/
structure NamesRows (d : LayerDims) (si : SlotInfo) (u : UBatch) (c : Indices) : Prop where
  ne0 : c.ne0 = u.nTokens
  val : ∀ tok < u.nTokens, c.val tok = d.rowOf si tok

/-- The indices of `set_input_v_idxs` for a transposed V. -/
structure NamesElements (d : LayerDims) (si : SlotInfo) (u : UBatch) (c : Indices) : Prop where
  ne0 : c.ne0 = u.nTokens * d.nEmbdVMax
  val : ∀ e < u.nTokens * d.nEmbdVMax, c.val e = d.elementOf si e

lemma NamesRows.picks {c : Indices} {a : Tensor} (hfit : SlotFits d.kvSize si u)
    (hin : si.InStreams d.nStream) (hc : d.NamesRows si u c) (ha : a.ne1 = d.kvSize * d.nStream) :
    c.Picks a u.nTokens where
  lt tok htok := by
    rw [hc.val tok htok, ha]
    exact ⟨Int.natCast_nonneg _, Int.ofNat_lt.2 (rowOf_lt hfit hin htok)⟩
  inj tok htok tok' htok' h := by
    rw [hc.val tok htok, hc.val tok' htok'] at h
    exact rowOf_inj hfit htok htok' (Int.ofNat_inj.1 h)

lemma NamesElements.picks {c : Indices} {a : Tensor} (hfit : SlotFits d.kvSize si u)
    (hin : si.InStreams d.nStream) (hc : d.NamesElements si u c)
    (ha : a.ne1 = d.nEmbdVMax * d.kvSize * d.nStream) : c.Picks a (u.nTokens * d.nEmbdVMax) where
  lt e he := by
    rw [hc.val e he, ha]
    exact ⟨Int.natCast_nonneg _, Int.ofNat_lt.2 (elementOf_lt hfit hin he)⟩
  inj e he e' he' h := by
    rw [hc.val e he, hc.val e' he'] at h
    exact elementOf_inj hfit he he' (Int.ofNat_inj.1 h)

lemma setInputKIdxs_names (hfit : SlotFits d.kvSize si u) (hin : si.InStreams d.nStream) :
    ∃ c, d.setInputKIdxs u si = some c ∧ d.NamesRows si u c :=
  ⟨_, if_pos (hfit.tokens ▸ Nat.mul_comm _ _), rfl, fun _ htok => rowIdxs_apply hfit hin htok⟩

lemma setInputVIdxs_rows (hfit : SlotFits d.kvSize si u) (hin : si.InStreams d.nStream)
    (hplain : d.vTrans = false) : ∃ c, d.setInputVIdxs u si = some c ∧ d.NamesRows si u c := by
  refine ⟨_, if_pos (hfit.tokens ▸ Nat.mul_comm _ _), ?_⟩
  rw [hplain, if_neg Bool.false_ne_true]
  exact ⟨rfl, fun _ htok => rowIdxs_apply hfit hin htok⟩

lemma setInputVIdxs_elements (hfit : SlotFits d.kvSize si u) (htrans : d.vTrans = true) :
    ∃ c, d.setInputVIdxs u si = some c ∧ d.NamesElements si u c := by
  refine ⟨_, if_pos (hfit.tokens ▸ Nat.mul_comm _ _), ?_⟩
  rw [htrans, if_pos rfl]
  refine ⟨rfl, fun e he => ?_⟩
  obtain ⟨htok, hj⟩ := div_nEmbdVMax_lt he
  obtain ⟨hs, hi⟩ := hfit.div_lt htok
  have hmem : (e / d.nEmbdVMax / si.size, e / d.nEmbdVMax % si.size, e % d.nEmbdVMax)
      ∈ List.range si.nStream ×ˢ (List.range si.size ×ˢ List.range d.nEmbdVMax) :=
    List.pair_mem_product.2 ⟨List.mem_range.2 hs,
      List.pair_mem_product.2 ⟨List.mem_range.2 hi, List.mem_range.2 hj⟩⟩
  have hnest := foldl_product (fun (data : ℕ → ℤ) (p : ℕ × ℕ × ℕ) =>
    Function.update data (p.1 * si.size * d.nEmbdVMax + p.2.1 * d.nEmbdVMax + p.2.2)
      ((si.stream p.1 * d.kvSize * d.nEmbdVMax + p.2.2 * d.kvSize
        + (si.cellIdxs p.1).getD p.2.1 0 : ℕ) : ℤ))
    (List.range si.nStream) (List.range si.size ×ˢ List.range d.nEmbdVMax) fun _ => 0
  simp only [foldl_product] at hnest
  have hread := foldl_update_of_inj
    (fun p : ℕ × ℕ × ℕ => p.1 * si.size * d.nEmbdVMax + p.2.1 * d.nEmbdVMax + p.2.2)
    (fun p => ((si.stream p.1 * d.kvSize * d.nEmbdVMax + p.2.2 * d.kvSize
      + (si.cellIdxs p.1).getD p.2.1 0 : ℕ) : ℤ)) (fun _ => 0) hmem fun p hp heq => by
      obtain ⟨-, hp2⟩ := List.mem_product.1 hp
      obtain ⟨hp21, hp22⟩ := List.mem_product.1 hp2
      simp only [← Nat.add_mul] at heq
      obtain ⟨hpair, hlast⟩ := mul_add_inj (List.mem_range.1 hp22) hj heq
      obtain ⟨hfst, hsnd⟩ := mul_add_inj (List.mem_range.1 hp21) hi hpair
      exact Prod.ext hfst (Prod.ext hsnd hlast)
  have he' : e / d.nEmbdVMax / si.size * si.size * d.nEmbdVMax
      + e / d.nEmbdVMax % si.size * d.nEmbdVMax + e % d.nEmbdVMax = e := by
    rw [← Nat.add_mul, Nat.div_add_mod', Nat.div_add_mod']
  simp only [he', foldl_product] at hread
  refine hread.trans (congrArg Nat.cast ?_)
  unfold elementOf SlotInfo.streamOf SlotInfo.cellOf
  ring

end LayerDims

end IFairy
