import IFairy.KvCache.LayerTensors

/-!
# What is written to a layer is read back

Four places of the source compute addresses: the indices of `set_input_k_idxs` and
`set_input_v_idxs`, the writes with `ggml_set_rows`, the carrier writes, and the strided views `get_k`
and `get_v`.  They agree: every token of an ubatch finds its own values at its cell, in the stream of
its sequence, and all other cells are as before (`LayerDims.write_read_back`).
-/

namespace IFairy

/-! ## The tokens to be written -/

namespace Tensor

/-- The tensor `k_cur` or `v_cur` of an ubatch, for a cache of type `type`: the heads of a token are
contiguous, as `cpy_k` asserts, and the type is one that `ggml_set_rows` takes.  The tokens may be
apart. -/
structure IsCur (cur : Tensor) (type : TypeTraits) (nEmbdHead nHead nTokens : ℕ) : Prop where
  ne0 : cur.ne0 = nEmbdHead
  ne1 : cur.ne1 = nHead
  ne2 : cur.ne2 = nTokens
  ne3 : cur.ne3 = 1
  nb0 : cur.nb0 = cur.type.typeSize
  nb1 : cur.nb1 = cur.type.rowSize cur.ne0
  stored : cur.type.IsF32 ∨ type.IsBf16 ∧ cur.type.IsBf16

/-- The address of element `e` of a token. -/
def tokenAddr (cur : Tensor) (tok e : ℕ) : ℕ := cur.addr (e % cur.ne0) (e / cur.ne0) tok 0

/-- The float of element `e` of a token. -/
def tokenFloat (cur : Tensor) (tok e : ℕ) : UInt32 := f32At cur.buf (cur.tokenAddr tok e)

/-- The elements `es` of a token, as the type of the cache stores them. -/
def tokenBytes (cur : Tensor) (type : TypeTraits) (tok : ℕ) (es : List ℕ) : ℕ → UInt8 :=
  if cur.type.IsF32 then type.fromFloat (es.map (cur.tokenFloat tok))
  else fun x => cur.buf (cur.tokenAddr tok (es.getD (x / 2) 0) + x % 2)

variable {cur : Tensor} {type : TypeTraits} {nEmbdHead nHead nTokens : ℕ}

lemma tokenBytes_of_isF32 (h : cur.type.IsF32) (type : TypeTraits) (tok : ℕ) (es : List ℕ) :
    cur.tokenBytes type tok es = type.fromFloat (es.map (cur.tokenFloat tok)) := if_pos h

lemma tokenBytes_of_not_isF32 (h : ¬ cur.type.IsF32) (type : TypeTraits) (tok : ℕ) (es : List ℕ)
    (x : ℕ) : cur.tokenBytes type tok es x
      = cur.buf (cur.tokenAddr tok (es.getD (x / 2) 0) + x % 2) := congrFun (if_neg h) x

lemma IsCur.elements (h : cur.IsCur type nEmbdHead nHead nTokens) :
    cur.type.blckSize = 1 ∧ cur.type.typeSize = if cur.type.IsF32 then 4 else 2 := by
  split
  · rename_i hf32
    exact cur.type.f32 hf32
  · rename_i hf32
    exact cur.type.bf16 (h.stored.resolve_left hf32).2

lemma IsCur.tokenAddr_eq (h : cur.IsCur type nEmbdHead nHead nTokens) (tok e : ℕ) :
    cur.tokenAddr tok e = cur.data + tok * cur.nb2 + e * cur.type.typeSize := by
  have hsplit := Nat.div_add_mod e cur.ne0
  unfold tokenAddr addr
  rw [h.nb0, h.nb1, TypeTraits.rowSize_of_blckSize_one h.elements.1]
  calc cur.data + e % cur.ne0 * cur.type.typeSize + e / cur.ne0 * (cur.type.typeSize * cur.ne0)
        + tok * cur.nb2 + 0 * cur.nb3
      = cur.data + tok * cur.nb2
        + (cur.ne0 * (e / cur.ne0) + e % cur.ne0) * cur.type.typeSize := by ring
    _ = cur.data + tok * cur.nb2 + e * cur.type.typeSize := by rw [hsplit]

lemma addrOf_token {tok e : ℕ} (htok : tok < cur.ne2) (he : e < cur.ne0 * cur.ne1) :
    cur.addrOf (tok * (cur.ne0 * cur.ne1) + e) = cur.tokenAddr tok e := by
  obtain ⟨hdiv, hmod⟩ := mul_add_div_mod (a := tok) he
  unfold addrOf tokenAddr
  rw [← Nat.div_div_eq_div_mul _ (cur.ne0 * cur.ne1), hdiv, Nat.mod_eq_of_lt htok,
    Nat.div_eq_of_lt htok, ← Nat.mod_mul_right_div_self, hmod,
    ← Nat.mod_mul_right_mod _ cur.ne0 cur.ne1, hmod]

/-- `p` has the tokens of `cur` as contiguous rows of `width` elements, `used` of them filled. -/
structure Packs (p cur : Tensor) (width used nTokens : ℕ) : Prop where
  shape : p = .new cur.type width nTokens 1 1 p.data p.buf
  bytes : ∀ tok < nTokens, ∀ e < used, ∀ b < cur.type.typeSize,
    p.buf (p.data + (tok * width + e) * cur.type.typeSize + b) = cur.buf (cur.tokenAddr tok e + b)

end Tensor

namespace LayerDims

variable {d : LayerDims} {th : Threads} {si : SlotInfo} {u : UBatch} {c : Indices}
  {cur : Tensor} {type : TypeTraits} {nEmbdHead data : ℕ} {buf : ℕ → UInt8}

/-! ## Writing rows -/

lemma mergeStreams_new (d : LayerDims) (type : TypeTraits) (width data : ℕ) (buf : ℕ → UInt8) :
    d.mergeStreams (.new type width d.kvSize d.nStream 1 data buf) width
      = some (.new type width (d.kvSize * d.nStream) 1 1 data buf) := by
  unfold mergeStreams
  by_cases hmany : 1 < d.nStream
  · refine (if_pos hmany).trans (Tensor.reshape2d_new ?_)
    rw [Nat.mul_one, Nat.mul_assoc]
    rfl
  · have hone : d.nStream = 1 := Nat.le_antisymm (Nat.le_of_not_lt hmany) d.nStream_pos
    refine (if_neg hmany).trans ?_
    rw [hone, Nat.mul_one]

/-- The bytes that `ggml_set_rows` converts for a token. -/
lemma rowBytes_tokenRows (h : cur.IsCur type nEmbdHead d.nHeadKv u.nTokens) {tok x : ℕ}
    (hx : cur.type.IsF32 ∨ x < (nEmbdHead * d.nHeadKv) * 2) :
    rowBytes type (tokenRows cur) (cur.data + 0 + tok * cur.nb2) (cur.ne0 * cur.ne1) x
      = cur.tokenBytes type tok (List.range (nEmbdHead * d.nHeadKv)) x := by
  obtain ⟨-, hsize⟩ := h.elements
  rw [h.ne0, h.ne1]
  by_cases hf32 : cur.type.IsF32
  · rw [if_pos hf32] at hsize
    rw [rowBytes_of_isF32 (b := tokenRows cur) hf32, Tensor.tokenBytes_of_isF32 hf32]
    refine congrFun (congrArg type.fromFloat (List.map_congr_left fun e _ => ?_)) x
    unfold Tensor.tokenFloat
    rw [h.tokenAddr_eq, hsize, Nat.add_zero, Nat.mul_comm e]
    rfl
  · have hlt := hx.resolve_left hf32
    rw [if_neg hf32] at hsize
    rw [rowBytes_of_not_isF32 (b := tokenRows cur) hf32, Tensor.tokenBytes_of_not_isF32 hf32]
    have helem : (List.range (nEmbdHead * d.nHeadKv)).getD (x / 2) 0 = x / 2 := by
      rw [List.getD_eq_getElem _ _ (by rw [List.length_range]; omega), List.getElem_range]
    rw [helem, h.tokenAddr_eq, hsize, Nat.add_zero, Nat.add_assoc _ (x / 2 * 2), Nat.div_add_mod']
    rfl

lemma storeRows_recorded (th : Threads) (hfit : SlotFits d.kvSize si u) (hin : si.InStreams d.nStream)
    (hc : d.NamesRows si u c) (h : cur.IsCur type nEmbdHead d.nHeadKv u.nTokens)
    (hblocks : type.blckSize ∣ nEmbdHead) {t : Tensor}
    (ht : t = .new type (nEmbdHead * d.nHeadKv) d.kvSize d.nStream 1 data buf) :
    ∃ buf', d.storeRows th t cur c = some { t with buf := buf' } ∧
      Recorded data (type.rowSize (nEmbdHead * d.nHeadKv)) (· < u.nTokens) (d.rowOf si)
        (fun tok => cur.tokenBytes type tok (List.range (nEmbdHead * d.nHeadKv))) buf buf' := by
  have hwidth : cur.ne0 * cur.ne1 = nEmbdHead * d.nHeadKv := by rw [h.ne0, h.ne1]
  set rows : Tensor := .new type (nEmbdHead * d.nHeadKv) (d.kvSize * d.nStream) 1 1 data buf
    with hrows
  have hrow : rows.nb1 = type.rowSize (nEmbdHead * d.nHeadKv) := by
    obtain ⟨m, hm⟩ := hblocks.mul_right d.nHeadKv
    rw [hm, TypeTraits.rowSize_blocks, hrows, hm]
    exact congrArg _ (Nat.mul_div_cancel_left _ type.blckSize_pos)
  have hpicks : c.Picks rows (tokenRows cur).ne1 := by
    rw [show (tokenRows cur).ne1 = u.nTokens from h.ne2]
    exact hc.picks hfit hin rfl
  obtain ⟨buf', heq, hrec⟩ := setRows_recorded (a := rows) th.nth_pos
    (th.perm _ (setRowsJobs (tokenRows cur) th.nth))
    ⟨hwidth.symm, rfl, rfl, h.ne2.trans hc.ne0.symm, rfl, rfl⟩ h.stored ⟨rfl, rfl⟩ hrow hpicks
  refine ⟨buf', ?_, ?_⟩
  · unfold storeRows
    rw [ht, hwidth, mergeStreams_new, Option.bind_some]
    refine (congrArg (Option.map _) heq).trans ?_
    rfl
  · have hrec' : Recorded data (type.rowSize (nEmbdHead * d.nHeadKv)) (· < cur.ne2)
        (fun tok => (c.val tok).toNat) (fun tok => rowBytes type (tokenRows cur)
          (cur.data + 0 + tok * cur.nb2) (cur.ne0 * cur.ne1)) buf buf' := by
      rw [← hrow]
      exact hrec
    rw [h.ne2] at hrec'
    refine hrec'.congr (fun tok htok => ?_) fun tok htok x hx => rowBytes_tokenRows h ?_
    · rw [hc.val tok htok, Int.toNat_natCast]
    · refine h.stored.imp_right fun hbf16 => ?_
      obtain ⟨hblck, hsize⟩ := type.bf16 hbf16.1
      rwa [TypeTraits.rowSize_of_blckSize_one hblck, hsize, Nat.mul_comm] at hx

lemma storeCarrierRows_recorded (th : Threads) (hfit : SlotFits d.kvSize si u) (hin : si.InStreams d.nStream)
    (hc : d.NamesRows si u c) (h : cur.IsCur type nEmbdHead d.nHeadKv u.nTokens)
    (htype : type.IsBf16 ∧ cur.type.IsF32) {t : Tensor}
    (ht : t = .new type (nEmbdHead * d.nHeadKv) d.kvSize d.nStream 1 data buf) :
    ∃ buf', d.storeCarrierRows th t cur c = some { t with buf := buf' } ∧
      Recorded data (type.rowSize (nEmbdHead * d.nHeadKv)) (· < u.nTokens) (d.rowOf si)
        (fun tok x => carrierPayload (cur.tokenFloat tok (x / 2)) (x % 2)) buf buf' := by
  have hwidth : cur.ne0 * cur.ne1 = nEmbdHead * d.nHeadKv := by rw [h.ne0, h.ne1]
  obtain ⟨hblck, hsize⟩ := type.bf16 htype.1
  set rows : Tensor := .new type (nEmbdHead * d.nHeadKv) (d.kvSize * d.nStream) 1 1 data buf
  have hrow : rows.nb1 = type.rowSize rows.ne0 := by
    rw [TypeTraits.rowSize_of_blckSize_one hblck]
    refine congrArg (type.typeSize * ·) ?_
    rw [hblck, Nat.div_one]
    rfl
  have hpicks : c.Picks rows (tokenRows cur).ne1 := by
    rw [show (tokenRows cur).ne1 = u.nTokens from h.ne2]
    exact hc.picks hfit hin rfl
  obtain ⟨buf', heq, hrec⟩ := setRowsCarrierRows_recorded (a := rows) th.nth_pos
    (th.perm _ (carrierRowsJobs (tokenRows cur) th.nth))
    ⟨hwidth.symm, rfl, rfl, h.ne2.trans hc.ne0.symm, rfl, rfl⟩ htype ⟨rfl, rfl⟩ hrow hpicks
  refine ⟨buf', ?_, ?_⟩
  · unfold storeCarrierRows
    rw [ht, hwidth, mergeStreams_new, Option.bind_some]
    refine (congrArg (Option.map _) heq).trans ?_
    rfl
  · have hrec' : Recorded data (cur.ne0 * cur.ne1 * 2) (· < cur.ne2) (fun tok => (c.val tok).toNat)
        (fun tok x => carrierPayload (f32At cur.buf (cur.data + 0 + tok * cur.nb2
          + x / 2 * cur.type.typeSize)) (x % 2)) buf buf' :=
      hrec.group (· < cur.ne2) (fun tok => (c.val tok).toNat) fun tok e =>
        carrierPayload (f32At cur.buf (cur.data + 0 + tok * cur.nb2 + e * cur.type.typeSize))
    have hbytes : nEmbdHead * d.nHeadKv * 2 = type.rowSize (nEmbdHead * d.nHeadKv) := by
      rw [TypeTraits.rowSize_of_blckSize_one hblck, hsize, Nat.mul_comm]
    rw [h.ne2, hwidth, hbytes] at hrec'
    refine hrec'.congr (fun tok htok => ?_) fun tok htok x hx => ?_
    · rw [hc.val tok htok, Int.toNat_natCast]
    · unfold Tensor.tokenFloat
      rw [h.tokenAddr_eq, Nat.add_zero]

/-! ## Reading rows -/

/-- The tokens find their bytes `own` in a view of rows, and all other cells are as before. -/
structure RowsReadBack (d : LayerDims) (si : SlotInfo) (u : UBatch) (nEmbdHead : ℕ)
    (own : ℕ → ℕ → UInt8) (t t' : Tensor) (view : ℕ → Tensor) : Prop where
  inBounds : ∀ nKv, ∀ tok < u.nTokens, si.cellOf tok < nKv → ∀ h < d.nHeadKv, ∀ e < nEmbdHead,
    (view nKv).InBounds e h (si.cellOf tok) (si.streamOf tok - si.s0)
  own : ∀ nKv, ∀ tok < u.nTokens, ∀ h < d.nHeadKv, ∀ x < t.type.rowSize nEmbdHead,
    (view nKv).buf ((view nKv).addr 0 h (si.cellOf tok) (si.streamOf tok - si.s0) + x)
      = own tok (h * t.type.rowSize nEmbdHead + x)
  frame : ∀ st < d.nStream, ∀ j < d.kvSize,
    (∀ tok < u.nTokens, ¬ (si.streamOf tok = st ∧ si.cellOf tok = j)) →
      ∀ x < t.type.rowSize t.ne0, t'.buf (t.addr 0 j st 0 + x) = t.buf (t.addr 0 j st 0 + x)

lemma rowView_addr (d : LayerDims) {width : ℕ} (hblocks : type.blckSize ∣ width) (data : ℕ)
    (buf : ℕ → UInt8) (nEmbdHead nKv : ℕ) (si : SlotInfo) (h cell rest : ℕ) :
    (d.rowView (.new type width d.kvSize d.nStream 1 data buf) nEmbdHead nKv si).addr 0 h cell rest
      = data + ((si.s0 + rest) * d.kvSize + cell) * type.rowSize width
        + h * type.rowSize nEmbdHead := by
  unfold Tensor.addr rowView Tensor.view4d Tensor.new
  simp only [TypeTraits.rowSize_mul hblocks]
  ring

lemma rowsReadBack_of_recorded (hfit : SlotFits d.kvSize si u) (hin : si.InStreams d.nStream)
    (hblocks : type.blckSize ∣ nEmbdHead) {own : ℕ → ℕ → UInt8} {buf' : ℕ → UInt8} {t : Tensor}
    (ht : t = .new type (nEmbdHead * d.nHeadKv) d.kvSize d.nStream 1 data buf)
    (hrec : Recorded data (type.rowSize (nEmbdHead * d.nHeadKv)) (· < u.nTokens) (d.rowOf si) own
      buf buf') :
    d.RowsReadBack si u nEmbdHead own t { t with buf := buf' }
      fun nKv => d.rowView { t with buf := buf' } nEmbdHead nKv si := by
  subst ht
  have hwidth := hblocks.mul_right d.nHeadKv
  refine ⟨fun nKv tok htok hcell h hh e he => ⟨he, hh, hcell, ?_⟩, fun nKv tok htok h hh x hx => ?_,
    fun st hst j hj hother x hx => ?_⟩
  · have hlow := hin.s0_le _ (hfit.div_lt htok).1
    have hhigh := hin.le_s1 _ (hfit.div_lt htok).1
    exact Nat.lt_succ_of_le (Nat.sub_le_sub_right hhigh _)
  · have hstream : si.s0 + (si.streamOf tok - si.s0) = si.streamOf tok :=
      Nat.add_sub_cancel' (hin.s0_le _ (hfit.div_lt htok).1)
    have hlt : h * type.rowSize nEmbdHead + x < type.rowSize (nEmbdHead * d.nHeadKv) := by
      rw [TypeTraits.rowSize_mul hblocks]
      calc h * type.rowSize nEmbdHead + x
          < h * type.rowSize nEmbdHead + type.rowSize nEmbdHead := Nat.add_lt_add_left hx _
        _ = (h + 1) * type.rowSize nEmbdHead := (Nat.succ_mul _ _).symm
        _ ≤ d.nHeadKv * type.rowSize nEmbdHead := Nat.mul_le_mul_right _ hh
        _ = type.rowSize nEmbdHead * d.nHeadKv := Nat.mul_comm _ _
    refine Eq.trans (congrArg buf' ?_) (hrec.read tok htok _ hlt)
    refine (congrArg (· + x) (d.rowView_addr hwidth data buf' nEmbdHead nKv si h _ _)).trans ?_
    rw [hstream, Nat.add_assoc]
    rfl
  · have hrow : type.typeSize * (nEmbdHead * d.nHeadKv / type.blckSize)
        = type.rowSize (nEmbdHead * d.nHeadKv) := by
      obtain ⟨m, hm⟩ := hwidth
      rw [hm, TypeTraits.rowSize_blocks, Nat.mul_div_cancel_left _ type.blckSize_pos]
    have haddr : (Tensor.new type (nEmbdHead * d.nHeadKv) d.kvSize d.nStream 1 data buf).addr 0 j st 0
        = data + (st * d.kvSize + j) * type.rowSize (nEmbdHead * d.nHeadKv) := by
      unfold Tensor.addr Tensor.new
      simp only [hrow]
      ring
    rw [haddr]
    refine hrec.frame _ (fun tok htok heq => hother tok htok ?_) x hx
    exact mul_add_inj (hfit.cellOf_lt htok) hj heq

/-! ## Writing columns -/

lemma exists_packs (h : cur.IsCur type nEmbdHead d.nHeadKv u.nTokens) :
    ∃ p, (if cur.type.rowSize (cur.ne0 * cur.ne1) = cur.nb2 then
        cur.reshape2d (cur.ne0 * cur.ne1) cur.ne2
      else cur.cont2d (cur.ne0 * cur.ne1) cur.ne2) = some p ∧
      p.Packs cur (cur.ne0 * cur.ne1) (cur.ne0 * cur.ne1) cur.ne2 := by
  obtain ⟨hblck, -⟩ := h.elements
  have hcount : cur.nelements = cur.ne0 * cur.ne1 * cur.ne2 := by
    unfold Tensor.nelements
    rw [h.ne3, Nat.mul_one]
  by_cases hmerged : cur.type.rowSize (cur.ne0 * cur.ne1) = cur.nb2
  · have hnb2 := hmerged.symm
    rw [TypeTraits.rowSize_of_blckSize_one hblck] at hnb2
    have hcont : cur.IsContiguous := by
      refine ⟨.inr h.nb0, fun _ => ?_, fun _ => ?_, fun hno => absurd h.ne3 hno⟩
      · rw [h.nb1, hblck, Nat.div_one, TypeTraits.rowSize_of_blckSize_one hblck]
      · rw [hnb2, hblck, Nat.div_one, Nat.mul_assoc]
    refine ⟨_, (if_pos hmerged).trans (if_pos ⟨hcont, hcount⟩), rfl, fun tok htok e he b hb => ?_⟩
    refine congrArg cur.buf ?_
    rw [h.tokenAddr_eq, hnb2]
    change cur.data + _ + b = _
    ring
  · refine ⟨_, (if_neg hmerged).trans (if_pos hcount), rfl, fun tok htok e he b hb => ?_⟩
    obtain ⟨hdiv, hmod⟩ := mul_add_div_mod (a := tok * (cur.ne0 * cur.ne1) + e) hb
    change cur.buf (cur.addrOf ((0 + _ + b) / cur.type.typeSize) + (0 + _ + b) % cur.type.typeSize)
      = _
    rw [Nat.zero_add, hdiv, hmod, Tensor.addrOf_token htok he]

/-- `ggml_pad` keeps the elements of the rows. -/
lemma exists_packs_pad {p : Tensor} {used width n : ℕ} (hp : p.Packs cur used used n)
    (hf32 : cur.type.IsF32) (hle : used ≤ width) :
    ∃ q, p.pad (width - used) = some q ∧ q.Packs cur width used n := by
  obtain ⟨data, buf, rfl⟩ : ∃ data buf, p = .new cur.type used n 1 1 data buf := ⟨_, _, hp.shape⟩
  have hsize := (cur.type.f32 hf32).2
  have hwidth : used + (width - used) = width := Nat.add_sub_cancel' hle
  refine ⟨_, if_pos ⟨hf32, hsize⟩, ?_, fun tok htok e he b hb => ?_⟩
  · rw [show (Tensor.new cur.type used n 1 1 data buf).ne0 + (width - used) = width from hwidth]
    rfl
  · rw [hsize] at hb
    obtain ⟨hdiv, hmod⟩ := mul_add_div_mod (a := tok * width + e) hb
    obtain ⟨hrow, hcol⟩ := mul_add_div_mod (a := tok) (he.trans_le hle)
    rw [← hp.bytes tok htok e he b (hsize ▸ hb)]
    refine (if_pos ?_).trans (congrArg buf ?_)
    · simp only [Tensor.new, hsize, Nat.zero_add, hwidth, hdiv, hcol, he]
    · have hlast : (tok * width + e) / (width * n) = 0 := by
        rw [← Nat.div_div_eq_div_mul, hrow, Nat.div_eq_of_lt htok]
      have hblck := (cur.type.f32 hf32).1
      unfold Tensor.addr
      simp only [Tensor.new, hsize, Nat.zero_add, Nat.mul_one, hwidth, hdiv, hmod, hcol, hrow, hlast,
        hblck, Nat.div_one, Nat.mod_eq_of_lt htok, Nat.zero_mod, Nat.zero_mul, Nat.add_zero]
      ring

lemma exists_packTokens {v : Tensor} (hv : v.ne0 = d.nEmbdVMax)
    (h : cur.IsCur type d.nEmbdHeadV d.nHeadKv u.nTokens)
    (hpad : d.nEmbdV < d.nEmbdVMax → cur.type.IsF32) :
    ∃ p, packTokens v cur = some p ∧ p.Packs cur d.nEmbdVMax d.nEmbdV u.nTokens := by
  have hwidth : cur.ne0 * cur.ne1 = d.nEmbdV := by
    rw [h.ne0, h.ne1]
    rfl
  obtain ⟨p, heq, hp⟩ := exists_packs h
  unfold packTokens
  simp only [heq, Option.bind_some]
  rw [hwidth, h.ne2] at hp
  rw [hwidth, hv]
  rcases d.le_max.lt_or_eq with hlt | hmax
  · obtain ⟨q, hq, hpacks⟩ := exists_packs_pad hp (hpad hlt) hlt.le
    exact ⟨q, (if_pos hlt).trans hq, hpacks⟩
  · have hmax' : d.nEmbdV = d.nEmbdVMax := hmax
    refine ⟨p, if_neg hmax'.not_lt, ?_⟩
    rw [← hmax']
    exact hp

lemma elements_new (d : LayerDims) (data : ℕ) (buf : ℕ → UInt8) {v : Tensor}
    (hv : v = .new d.vType d.nEmbdVMax d.kvSize d.nStream 1 data buf) :
    v.reshape2d 1 v.nelements
      = some (.new d.vType 1 (d.nEmbdVMax * d.kvSize * d.nStream) 1 1 data buf) := by
  have hcount : v.nelements = d.nEmbdVMax * d.kvSize * d.nStream := by
    rw [hv]
    exact Nat.mul_one _
  rw [hcount, hv]
  exact Tensor.reshape2d_new (by rw [Nat.mul_one, Nat.one_mul])

/-- The bytes that `ggml_set_rows` converts for an element of a token. -/
lemma rowBytes_packs {nTokens width used m pdata x : ℕ} {pbuf : ℕ → UInt8}
    (h : cur.IsCur type nEmbdHead d.nHeadKv nTokens)
    (hp : (Tensor.new cur.type width nTokens 1 1 pdata pbuf).Packs cur width used nTokens) {tok e : ℕ}
    (htok : tok < nTokens) (he : e < used) (hx : x < type.typeSize) :
    rowBytes type (.new cur.type 1 m 1 1 pdata pbuf)
        (pdata + (tok * width + e) * (Tensor.new cur.type 1 m 1 1 pdata pbuf).nb1) 1 x
      = cur.tokenBytes type tok [e] x := by
  obtain ⟨hblck, hsize⟩ := h.elements
  have hread := hp.bytes tok htok e he
  have hnb : (Tensor.new cur.type 1 m 1 1 pdata pbuf).nb1 = cur.type.typeSize := by
    change cur.type.typeSize * (1 / cur.type.blckSize) = _
    rw [hblck, Nat.div_one, Nat.mul_one]
  rw [hnb]
  by_cases hf32 : cur.type.IsF32
  · rw [if_pos hf32] at hsize
    rw [rowBytes_of_isF32 (b := .new cur.type 1 m 1 1 pdata pbuf) hf32,
      Tensor.tokenBytes_of_isF32 hf32, List.range_one]
    refine congrFun (congrArg type.fromFloat (congrArg (fun f => [f]) ?_)) x
    exact f32At_congr fun n hn => hread n (hsize ▸ hn)
  · rw [if_neg hf32] at hsize
    rw [(type.bf16 (h.stored.resolve_left hf32).1).2] at hx
    rw [rowBytes_of_not_isF32 (b := .new cur.type 1 m 1 1 pdata pbuf) hf32,
      Tensor.tokenBytes_of_not_isF32 hf32, Nat.div_eq_of_lt hx, Nat.mod_eq_of_lt hx]
    exact hread x (hsize ▸ hx)

lemma cpyV_recorded (th : Threads) (hfit : SlotFits d.kvSize si u) (hin : si.InStreams d.nStream)
    (htrans : d.vTrans = true) (hc : d.NamesElements si u c)
    (h : cur.IsCur d.vType d.nEmbdHeadV d.nHeadKv u.nTokens)
    (hpad : d.nEmbdV < d.nEmbdVMax → cur.type.IsF32) {v : Tensor}
    (hv : v = .new d.vType d.nEmbdVMax d.kvSize d.nStream 1 data buf) :
    ∃ buf' bytes, d.cpyV th v cur c = some { v with buf := buf' } ∧
      Recorded data d.vType.typeSize (· < u.nTokens * d.nEmbdVMax) (d.elementOf si) bytes buf buf' ∧
      ∀ tok < u.nTokens, ∀ e < d.nEmbdV, ∀ x < d.vType.typeSize,
        bytes (tok * d.nEmbdVMax + e) x = cur.tokenBytes d.vType tok [e] x := by
  have hblck := d.vElements htrans
  obtain ⟨p, hp, hpacks⟩ := exists_packTokens (v := v) (congrArg Tensor.ne0 hv) h hpad
  obtain ⟨pdata, pbuf, rfl⟩ : ∃ pdata pbuf, p = .new cur.type d.nEmbdVMax u.nTokens 1 1 pdata pbuf :=
    ⟨_, _, hpacks.shape⟩
  set a : Tensor := .new d.vType 1 (d.nEmbdVMax * d.kvSize * d.nStream) 1 1 data buf
  set b : Tensor := .new cur.type 1 (d.nEmbdVMax * u.nTokens) 1 1 pdata pbuf
  have hb : (Tensor.new cur.type d.nEmbdVMax u.nTokens 1 1 pdata pbuf).reshape2d 1
      (Tensor.new cur.type d.nEmbdVMax u.nTokens 1 1 pdata pbuf).nelements = some b := by
    refine (Tensor.reshape2d_new (Nat.one_mul _).symm).trans ?_
    refine congrArg (fun n => some (Tensor.new cur.type 1 n 1 1 pdata pbuf)) ?_
    exact (Nat.mul_one _).trans (Nat.mul_one _)
  have hcount : d.nEmbdVMax * u.nTokens = u.nTokens * d.nEmbdVMax := Nat.mul_comm _ _
  have hpicks : c.Picks a b.ne1 := by
    rw [show b.ne1 = u.nTokens * d.nEmbdVMax from hcount]
    exact hc.picks hfit hin rfl
  have hrow : a.nb1 = d.vType.typeSize := by
    change d.vType.typeSize * (1 / d.vType.blckSize) = _
    rw [hblck, Nat.div_one, Nat.mul_one]
  have hrow' : a.nb1 = a.type.rowSize a.ne0 :=
    hrow.trans ((TypeTraits.rowSize_of_blckSize_one hblck 1).trans (Nat.mul_one _)).symm
  obtain ⟨buf', heq, hrec⟩ := setRows_recorded (a := a) th.nth_pos
    (th.perm _ (setRowsJobs b th.nth)) ⟨rfl, rfl, rfl, hcount.trans hc.ne0.symm, rfl, rfl⟩ h.stored
    ⟨rfl, rfl⟩ hrow' hpicks
  refine ⟨buf', fun e => rowBytes d.vType b (pdata + e * b.nb1) 1, ?_, ?_, fun tok htok e he x hx => ?_⟩
  · unfold cpyV
    rw [if_pos h.nb1.symm, if_pos htrans, hp, Option.bind_some, elements_new d data buf hv,
      Option.bind_some, hb, Option.bind_some]
    refine (congrArg (Option.map _) heq).trans ?_
    rfl
  · rw [hrow] at hrec
    have hrec' : Recorded data d.vType.typeSize (· < d.nEmbdVMax * u.nTokens)
      (fun e => (c.val e).toNat) (fun e => rowBytes d.vType b (pdata + e * b.nb1) 1) buf buf' := hrec
    rw [hcount] at hrec'
    refine hrec'.congr (fun e he => ?_) fun _ _ _ _ => rfl
    rw [hc.val e he, Int.toNat_natCast]
  · exact rowBytes_packs h hpacks htok he hx

lemma cpyVBf16Carrier_recorded (th : Threads) (hfit : SlotFits d.kvSize si u) (hin : si.InStreams d.nStream)
    (htrans : d.vTrans = true) (hc : d.NamesElements si u c)
    (h : cur.IsCur d.vType d.nEmbdHeadV d.nHeadKv u.nTokens)
    (htype : d.vType.IsBf16 ∧ cur.type.IsF32) (hmax : d.nEmbdV = d.nEmbdVMax) {v : Tensor}
    (hv : v = .new d.vType d.nEmbdVMax d.kvSize d.nStream 1 data buf) :
    ∃ buf' bytes, d.cpyVBf16Carrier th v cur c = some { v with buf := buf' } ∧
      Recorded data d.vType.typeSize (· < u.nTokens * d.nEmbdVMax) (d.elementOf si) bytes buf buf' ∧
      ∀ tok < u.nTokens, ∀ e < d.nEmbdV, ∀ x < d.vType.typeSize,
        bytes (tok * d.nEmbdVMax + e) x = carrierPayload (cur.tokenFloat tok e) x := by
  obtain ⟨hblck, hsize⟩ := d.vType.bf16 htype.1
  have hwidth : cur.ne0 * cur.ne1 = d.nEmbdVMax := by
    rw [h.ne0, h.ne1]
    exact hmax
  have hcount : cur.nelements = u.nTokens * d.nEmbdVMax := by
    unfold Tensor.nelements
    rw [h.ne3, Nat.mul_one, hwidth, h.ne2, Nat.mul_comm]
  set a : Tensor := .new d.vType 1 (d.nEmbdVMax * d.kvSize * d.nStream) 1 1 data buf
  have hpicks : c.Picks a cur.nelements := by
    rw [hcount]
    exact hc.picks hfit hin rfl
  have hrow : a.nb1 = a.type.rowSize a.ne0 := by
    refine Eq.trans ?_ (TypeTraits.rowSize_of_blckSize_one hblck 1).symm
    change d.vType.typeSize * (1 / d.vType.blckSize) = _
    rw [hblck, Nat.div_one]
  obtain ⟨buf', heq, hrec⟩ := setRowsCarrierElements_recorded (a := a) (b := cur) th.nth_pos
    (th.perm _ (threadsRange cur.nelements th.nth))
    ⟨rfl, rfl, rfl, h.ne3, hc.ne0.trans hcount.symm⟩ htype ⟨rfl, h.nb0⟩ hrow hpicks
  refine ⟨buf', fun e => carrierPayload (f32At cur.buf (cur.addrOf e)), ?_, ?_,
    fun tok htok e he x hx => ?_⟩
  · have hshape : cur.ne0 * cur.ne1 = v.ne0 ∧ cur.ne3 = 1 ∧ c.ne0 = cur.ne0 * cur.ne1 * cur.ne2 := by
      refine ⟨hwidth.trans (congrArg Tensor.ne0 hv).symm, h.ne3, ?_⟩
      rw [hc.ne0, hwidth, h.ne2, Nat.mul_comm]
    have htypes : v.type.IsBf16 ∧ cur.type.IsF32 := by
      rw [hv]
      exact htype
    unfold cpyVBf16Carrier
    rw [if_pos ⟨htypes, h.nb1.symm⟩, if_pos htrans, if_pos hshape, elements_new d data buf hv,
      Option.bind_some]
    refine (congrArg (Option.map _) heq).trans ?_
    rfl
  · rw [hcount] at hrec
    rw [hsize]
    refine hrec.congr (fun e he => ?_) fun _ _ _ _ => rfl
    rw [hc.val e he, Int.toNat_natCast]
  · refine congrFun (congrArg (fun y => carrierPayload (f32At cur.buf y)) ?_) x
    rw [← hwidth]
    refine Tensor.addrOf_token (h.ne2.symm ▸ htok) ?_
    rw [hwidth, ← hmax]
    exact he

/-! ## Reading columns -/

/-- The tokens find their bytes `own` in the columns of a transposed view, and all other cells are as
before. -/
structure ColumnsReadBack (d : LayerDims) (si : SlotInfo) (u : UBatch) (own : ℕ → ℕ → ℕ → UInt8)
    (t t' : Tensor) (view : ℕ → Tensor) : Prop where
  inBounds : ∀ nKv, ∀ tok < u.nTokens, si.cellOf tok < nKv → ∀ h < d.nHeadKv, ∀ e < d.nEmbdHeadV,
    (view nKv).InBounds (si.cellOf tok) h e (si.streamOf tok - si.s0)
  own : ∀ nKv, ∀ tok < u.nTokens, ∀ h < d.nHeadKv, ∀ e < d.nEmbdHeadV, ∀ x < t.type.typeSize,
    (view nKv).buf ((view nKv).addr (si.cellOf tok) h e (si.streamOf tok - si.s0) + x)
      = own tok (h * d.nEmbdHeadV + e) x
  frame : ∀ st < d.nStream, ∀ j < d.kvSize,
    (∀ tok < u.nTokens, ¬ (si.streamOf tok = st ∧ si.cellOf tok = j)) →
      ∀ e < d.nEmbdVMax, ∀ x < t.type.typeSize,
        t'.buf (t.data + (e * d.kvSize + j) * t.nb0 + st * t.nb2 + x)
          = t.buf (t.data + (e * d.kvSize + j) * t.nb0 + st * t.nb2 + x)

lemma getV_buf (d : LayerDims) (v : Tensor) (nKv : ℕ) (si : SlotInfo) :
    (d.getV v nKv si).buf = v.buf := by
  unfold getV
  split <;> rfl

lemma getV_addr (d : LayerDims) (htrans : d.vTrans = true) (data : ℕ) (buf : ℕ → UInt8) (nKv : ℕ) (si : SlotInfo)
    (cell h e rest : ℕ) :
    (d.getV (.new d.vType d.nEmbdVMax d.kvSize d.nStream 1 data buf) nKv si).addr cell h e rest
      = data + (((si.s0 + rest) * d.nEmbdVMax + (h * d.nEmbdHeadV + e)) * d.kvSize + cell)
        * d.vType.typeSize := by
  have hblck := d.vElements htrans
  unfold getV
  rw [if_pos htrans]
  unfold Tensor.addr Tensor.view4d Tensor.new
  simp only [TypeTraits.rowSize_of_blckSize_one hblck]
  ring

lemma columnsReadBack_of_recorded (hfit : SlotFits d.kvSize si u) (hin : si.InStreams d.nStream)
    (htrans : d.vTrans = true) {own : ℕ → ℕ → ℕ → UInt8} {buf' : ℕ → UInt8}
    {bytes : ℕ → ℕ → UInt8} {t : Tensor}
    (ht : t = .new d.vType d.nEmbdVMax d.kvSize d.nStream 1 data buf)
    (hrec : Recorded data d.vType.typeSize (· < u.nTokens * d.nEmbdVMax) (d.elementOf si) bytes
      buf buf')
    (hown : ∀ tok < u.nTokens, ∀ e < d.nEmbdV, ∀ x < d.vType.typeSize,
      bytes (tok * d.nEmbdVMax + e) x = own tok e x) :
    d.ColumnsReadBack si u own t { t with buf := buf' }
      fun nKv => d.getV { t with buf := buf' } nKv si := by
  subst ht
  have hblck := d.vElements htrans
  refine ⟨fun nKv tok htok hcell h hh e he => ?_, fun nKv tok htok h hh e he x hx => ?_,
    fun st hst j hj hother e he x hx => ?_⟩
  · have hlow := hin.s0_le _ (hfit.div_lt htok).1
    have hhigh := hin.le_s1 _ (hfit.div_lt htok).1
    simp only [getV, if_pos htrans]
    exact ⟨hcell, hh, he, Nat.lt_succ_of_le (Nat.sub_le_sub_right hhigh _)⟩
  · have hstream : si.s0 + (si.streamOf tok - si.s0) = si.streamOf tok :=
      Nat.add_sub_cancel' (hin.s0_le _ (hfit.div_lt htok).1)
    have hlt : h * d.nEmbdHeadV + e < d.nEmbdV := by
      calc h * d.nEmbdHeadV + e < h * d.nEmbdHeadV + d.nEmbdHeadV := Nat.add_lt_add_left he _
        _ = (h + 1) * d.nEmbdHeadV := (Nat.succ_mul _ _).symm
        _ ≤ d.nHeadKv * d.nEmbdHeadV := Nat.mul_le_mul_right _ hh
        _ = d.nEmbdV := Nat.mul_comm _ _
    have hmax := hlt.trans_le d.le_max
    obtain ⟨hdiv, hmod⟩ := mul_add_div_mod (a := tok) hmax
    have hbound : tok * d.nEmbdVMax + (h * d.nEmbdHeadV + e) < u.nTokens * d.nEmbdVMax := by
      calc tok * d.nEmbdVMax + (h * d.nEmbdHeadV + e)
          < tok * d.nEmbdVMax + d.nEmbdVMax := Nat.add_lt_add_left hmax _
        _ = (tok + 1) * d.nEmbdVMax := (Nat.succ_mul _ _).symm
        _ ≤ u.nTokens * d.nEmbdVMax := Nat.mul_le_mul_right _ htok
    have haddr := d.getV_addr htrans data buf' nKv si (si.cellOf tok) h e
      (si.streamOf tok - si.s0)
    rw [hstream] at haddr
    refine Eq.trans ?_ ((hrec.read _ hbound x hx).trans (hown tok htok _ hlt x hx))
    rw [getV_buf]
    refine congrArg (fun y => buf' (y + x)) (haddr.trans ?_)
    unfold elementOf
    rw [hdiv, hmod]
  · have haddr : data + (e * d.kvSize + j) * d.vType.typeSize
        + st * (d.vType.typeSize * (d.nEmbdVMax / d.vType.blckSize) * d.kvSize)
        = data + ((st * d.nEmbdVMax + e) * d.kvSize + j) * d.vType.typeSize := by
      rw [hblck, Nat.div_one]
      ring
    change buf' (data + (e * d.kvSize + j) * d.vType.typeSize
      + st * (d.vType.typeSize * (d.nEmbdVMax / d.vType.blckSize) * d.kvSize) + x)
      = buf (data + (e * d.kvSize + j) * d.vType.typeSize
        + st * (d.vType.typeSize * (d.nEmbdVMax / d.vType.blckSize) * d.kvSize) + x)
    rw [haddr]
    refine hrec.frame _ (fun e' he' heq => ?_) x hx
    obtain ⟨htok, hmod⟩ := div_nEmbdVMax_lt he'
    obtain ⟨hrow, hcell⟩ := mul_add_inj (hfit.cellOf_lt htok) hj heq
    exact hother _ htok ⟨(mul_add_inj hmod he hrow).1, hcell⟩

/-! ## The writes of a layer -/

/-- A write returns a tensor whose rows read back. -/
def RowsStored (d : LayerDims) (si : SlotInfo) (u : UBatch) (nEmbdHead : ℕ) (own : ℕ → ℕ → UInt8)
    (t : Tensor) (view : Tensor → ℕ → SlotInfo → Tensor) (result : Option Tensor) : Prop :=
  ∃ t', result = some t' ∧ d.RowsReadBack si u nEmbdHead own t t' fun nKv => view t' nKv si

/-- A write returns a transposed tensor whose columns read back. -/
def ColumnsStored (d : LayerDims) (si : SlotInfo) (u : UBatch) (own : ℕ → ℕ → ℕ → UInt8) (t : Tensor)
    (result : Option Tensor) : Prop :=
  ∃ t', result = some t' ∧ d.ColumnsReadBack si u own t t' fun nKv => d.getV t' nKv si

variable (th) (data) (buf) {kCur vCur : Tensor} {kIdxs vIdxs : Indices}

lemma cpyK_rowsStored (hfit : SlotFits d.kvSize si u) (hin : si.InStreams d.nStream)
    (hc : d.NamesRows si u kIdxs) (h : kCur.IsCur d.kType d.nEmbdHeadK d.nHeadKv u.nTokens) :
    d.RowsStored si u d.nEmbdHeadK (fun tok => kCur.tokenBytes d.kType tok (List.range d.nEmbdK))
      (d.kTensor data buf) d.getK (d.cpyK th (d.kTensor data buf) kCur kIdxs si) := by
  obtain ⟨buf', heq, hrec⟩ := storeRows_recorded th hfit hin hc h d.kBlocks rfl
  have htokens : kCur.ne2 % si.nStream = 0 := by
    rw [h.ne2, ← hfit.tokens, Nat.mul_mod_right]
  exact ⟨_, (if_pos ⟨htokens, h.nb1.symm⟩).trans heq,
    rowsReadBack_of_recorded hfit hin d.kBlocks rfl hrec⟩

lemma cpyKBf16Carrier_rowsStored (hfit : SlotFits d.kvSize si u) (hin : si.InStreams d.nStream)
    (hc : d.NamesRows si u kIdxs) (h : kCur.IsCur d.kType d.nEmbdHeadK d.nHeadKv u.nTokens)
    (htype : d.kType.IsBf16 ∧ kCur.type.IsF32) :
    d.RowsStored si u d.nEmbdHeadK
      (fun tok x => carrierPayload (kCur.tokenFloat tok (x / 2)) (x % 2))
      (d.kTensor data buf) d.getK (d.cpyKBf16Carrier th (d.kTensor data buf) kCur kIdxs) := by
  obtain ⟨buf', heq, hrec⟩ := storeCarrierRows_recorded th hfit hin hc h htype rfl
  exact ⟨_, (if_pos ⟨htype, h.nb1.symm⟩).trans heq,
    rowsReadBack_of_recorded hfit hin d.kBlocks rfl hrec⟩

lemma vTensor_plain (hplain : ¬ d.vTrans = true) (data : ℕ) (buf : ℕ → UInt8) :
    d.vTensor data buf
      = .new d.vType (d.nEmbdHeadV * d.nHeadKv) d.kvSize d.nStream 1 data buf := by
  unfold vTensor vWidth
  rw [if_neg hplain]
  rfl

lemma vTensor_trans (htrans : d.vTrans = true) (data : ℕ) (buf : ℕ → UInt8) :
    d.vTensor data buf = .new d.vType d.nEmbdVMax d.kvSize d.nStream 1 data buf := by
  unfold vTensor vWidth
  rw [if_pos htrans]

lemma getV_plain (hplain : ¬ d.vTrans = true) (v : Tensor) (nKv : ℕ) (si : SlotInfo) :
    d.getV v nKv si = d.rowView v d.nEmbdHeadV nKv si := if_neg hplain

lemma cpyV_rowsStored (hfit : SlotFits d.kvSize si u) (hin : si.InStreams d.nStream)
    (hplain : ¬ d.vTrans = true) (hc : d.NamesRows si u vIdxs)
    (h : vCur.IsCur d.vType d.nEmbdHeadV d.nHeadKv u.nTokens) :
    d.RowsStored si u d.nEmbdHeadV (fun tok => vCur.tokenBytes d.vType tok (List.range d.nEmbdV))
      (d.vTensor data buf) d.getV (d.cpyV th (d.vTensor data buf) vCur vIdxs) := by
  have ht := d.vTensor_plain hplain data buf
  obtain ⟨buf', heq, hrec⟩ := storeRows_recorded th hfit hin hc h d.vBlocks ht
  refine ⟨_, ((if_pos h.nb1.symm).trans (if_neg hplain)).trans heq, ?_⟩
  simp only [d.getV_plain hplain]
  exact rowsReadBack_of_recorded hfit hin d.vBlocks ht hrec

lemma cpyVBf16Carrier_rowsStored (hfit : SlotFits d.kvSize si u) (hin : si.InStreams d.nStream)
    (hplain : ¬ d.vTrans = true) (hc : d.NamesRows si u vIdxs)
    (h : vCur.IsCur d.vType d.nEmbdHeadV d.nHeadKv u.nTokens)
    (htype : d.vType.IsBf16 ∧ vCur.type.IsF32) :
    d.RowsStored si u d.nEmbdHeadV
      (fun tok x => carrierPayload (vCur.tokenFloat tok (x / 2)) (x % 2))
      (d.vTensor data buf) d.getV (d.cpyVBf16Carrier th (d.vTensor data buf) vCur vIdxs) := by
  have ht := d.vTensor_plain hplain data buf
  obtain ⟨buf', heq, hrec⟩ := storeCarrierRows_recorded th hfit hin hc h htype ht
  refine ⟨_, ((if_pos ⟨htype, h.nb1.symm⟩).trans (if_neg hplain)).trans heq, ?_⟩
  simp only [d.getV_plain hplain]
  exact rowsReadBack_of_recorded hfit hin d.vBlocks ht hrec

lemma cpyV_columnsStored (hfit : SlotFits d.kvSize si u) (hin : si.InStreams d.nStream)
    (htrans : d.vTrans = true) (hc : d.NamesElements si u vIdxs)
    (h : vCur.IsCur d.vType d.nEmbdHeadV d.nHeadKv u.nTokens)
    (hpad : d.nEmbdV < d.nEmbdVMax → vCur.type.IsF32) :
    d.ColumnsStored si u (fun tok e => vCur.tokenBytes d.vType tok [e]) (d.vTensor data buf)
      (d.cpyV th (d.vTensor data buf) vCur vIdxs) := by
  have ht := d.vTensor_trans htrans data buf
  obtain ⟨buf', bytes, heq, hrec, hown⟩ := cpyV_recorded th hfit hin htrans hc h hpad ht
  exact ⟨_, heq, columnsReadBack_of_recorded hfit hin htrans ht hrec hown⟩

lemma cpyVBf16Carrier_columnsStored (hfit : SlotFits d.kvSize si u) (hin : si.InStreams d.nStream)
    (htrans : d.vTrans = true) (hc : d.NamesElements si u vIdxs)
    (h : vCur.IsCur d.vType d.nEmbdHeadV d.nHeadKv u.nTokens)
    (htype : d.vType.IsBf16 ∧ vCur.type.IsF32) (hmax : d.nEmbdV = d.nEmbdVMax) :
    d.ColumnsStored si u (fun tok e => carrierPayload (vCur.tokenFloat tok e)) (d.vTensor data buf)
      (d.cpyVBf16Carrier th (d.vTensor data buf) vCur vIdxs) := by
  have ht := d.vTensor_trans htrans data buf
  obtain ⟨buf', bytes, heq, hrec, hown⟩ :=
    cpyVBf16Carrier_recorded th hfit hin htrans hc h htype hmax ht
  exact ⟨_, heq, columnsReadBack_of_recorded hfit hin htrans ht hrec hown⟩

/-- With the indices that are set for an ubatch and its slot, every write of K and V reads back: every
token finds its own values, converted by the type of the cache or cut to their upper halves, at its
cell of its stream, and all other cells of all streams are as before. -/
theorem write_read_back (d : LayerDims) (th : Threads) (hfit : SlotFits d.kvSize si u)
    (hin : si.InStreams d.nStream)
    (hk : kCur.IsCur d.kType d.nEmbdHeadK d.nHeadKv u.nTokens)
    (hv : vCur.IsCur d.vType d.nEmbdHeadV d.nHeadKv u.nTokens) (kData vData : ℕ)
    (kBuf vBuf : ℕ → UInt8) :
    ∃ kIdxs vIdxs, d.setInputKIdxs u si = some kIdxs ∧ d.setInputVIdxs u si = some vIdxs ∧
      d.RowsStored si u d.nEmbdHeadK (fun tok => kCur.tokenBytes d.kType tok (List.range d.nEmbdK))
        (d.kTensor kData kBuf) d.getK (d.cpyK th (d.kTensor kData kBuf) kCur kIdxs si) ∧
      (d.kType.IsBf16 ∧ kCur.type.IsF32 → d.RowsStored si u d.nEmbdHeadK
        (fun tok x => carrierPayload (kCur.tokenFloat tok (x / 2)) (x % 2))
        (d.kTensor kData kBuf) d.getK (d.cpyKBf16Carrier th (d.kTensor kData kBuf) kCur kIdxs)) ∧
      (¬ d.vTrans = true →
        d.RowsStored si u d.nEmbdHeadV (fun tok => vCur.tokenBytes d.vType tok (List.range d.nEmbdV))
          (d.vTensor vData vBuf) d.getV (d.cpyV th (d.vTensor vData vBuf) vCur vIdxs) ∧
        (d.vType.IsBf16 ∧ vCur.type.IsF32 → d.RowsStored si u d.nEmbdHeadV
          (fun tok x => carrierPayload (vCur.tokenFloat tok (x / 2)) (x % 2))
          (d.vTensor vData vBuf) d.getV
          (d.cpyVBf16Carrier th (d.vTensor vData vBuf) vCur vIdxs))) ∧
      (d.vTrans = true →
        ((d.nEmbdV < d.nEmbdVMax → vCur.type.IsF32) →
          d.ColumnsStored si u (fun tok e => vCur.tokenBytes d.vType tok [e])
            (d.vTensor vData vBuf) (d.cpyV th (d.vTensor vData vBuf) vCur vIdxs)) ∧
        (d.vType.IsBf16 ∧ vCur.type.IsF32 → d.nEmbdV = d.nEmbdVMax →
          d.ColumnsStored si u (fun tok e => carrierPayload (vCur.tokenFloat tok e))
            (d.vTensor vData vBuf) (d.cpyVBf16Carrier th (d.vTensor vData vBuf) vCur vIdxs))) := by
  obtain ⟨kIdxs, hkset, hkc⟩ := setInputKIdxs_names (d := d) hfit hin
  have hK := cpyK_rowsStored th kData kBuf hfit hin hkc hk
  have hKCarrier := cpyKBf16Carrier_rowsStored th kData kBuf hfit hin hkc hk
  by_cases htrans : d.vTrans = true
  · obtain ⟨vIdxs, hvset, hvc⟩ := setInputVIdxs_elements hfit htrans
    refine ⟨kIdxs, vIdxs, hkset, hvset, hK, hKCarrier, fun hplain => absurd htrans hplain, fun _ =>
      ⟨cpyV_columnsStored th vData vBuf hfit hin htrans hvc hv,
        cpyVBf16Carrier_columnsStored th vData vBuf hfit hin htrans hvc hv⟩⟩
  · obtain ⟨vIdxs, hvset, hvc⟩ := setInputVIdxs_rows hfit hin (Bool.eq_false_iff.2 htrans)
    refine ⟨kIdxs, vIdxs, hkset, hvset, hK, hKCarrier, fun _ =>
      ⟨cpyV_rowsStored th vData vBuf hfit hin htrans hvc hv,
        cpyVBf16Carrier_rowsStored th vData vBuf hfit hin htrans hvc hv⟩, fun h => absurd h htrans⟩

/-! ## A transposed V of two streams -/

/-- Two streams of two cells, in a model with a wider layer. -/
def twoStreams : LayerDims where
  kvSize := 2
  nStream := 2
  nHeadKv := 1
  nEmbdHeadK := 1
  nEmbdHeadV := 1
  nEmbdVMax := 2
  kType := ggmlF32
  vType := ggmlF32
  vTrans := true
  nStream_pos := Nat.two_pos
  kBlocks := one_dvd _
  vBlocks := one_dvd _
  vElements _ := rfl
  le_max := of_decide_eq_true rfl
  offset_lt := of_decide_eq_true rfl

/-- One token for each of the first two sequences. -/
def twoTokens : UBatch where
  equalSeqs := true
  nTokens := 2
  nSeqTokens := 1
  nSeqs := 2
  token := some fun _ => 0
  embd := none
  pos _ := 0
  seqId i := ⟨Fin.ofNat llamaMaxSeq i, []⟩
  seqIdUnq := [0, 1]
  output _ := true

/-- The last cell of the first stream and the first cell of the second one. -/
def twoCells : SlotInfo := ⟨0, 1, [0, 1], [[1], [0]]⟩

/-- One float for each token, at address `0`. -/
def twoFloats : Tensor := .new ggmlF32 1 1 2 1 0 fun x => UInt8.ofNat x

def oneThread : Threads where
  nth := 1
  schedule _ l := l
  nth_pos := Nat.one_pos
  perm _ l := List.Perm.refl l

lemma twoCells_fits : SlotFits twoStreams.kvSize twoCells twoTokens where
  tokens := rfl
  length := by decide
  lt := by decide
  nodup := by decide
  stream_inj := by decide

lemma twoCells_inStreams : twoCells.InStreams twoStreams.nStream where
  lt := by decide
  s0_le := by decide
  le_s1 := by decide

lemma twoFloats_isCur : twoFloats.IsCur ggmlF32 1 1 2 := ⟨rfl, rfl, rfl, rfl, rfl, rfl, .inl rfl⟩

/-- The value of the second token is the first one of the second stream. -/
theorem write_read_back_twoStreams :
    ∃ vIdxs, twoStreams.setInputVIdxs twoTokens twoCells = some vIdxs ∧
      twoStreams.ColumnsStored twoCells twoTokens (fun tok e => twoFloats.tokenBytes ggmlF32 tok [e])
        (twoStreams.vTensor 0 fun _ => 0)
        (twoStreams.cpyV oneThread (twoStreams.vTensor 0 fun _ => 0) twoFloats vIdxs) := by
  obtain ⟨-, vIdxs, -, hset, -, -, -, hcolumns⟩ := write_read_back twoStreams oneThread
    twoCells_fits twoCells_inStreams twoFloats_isCur twoFloats_isCur 0 0 (fun _ => 0) fun _ => 0
  exact ⟨vIdxs, hset, (hcolumns rfl).1 fun _ => rfl⟩

end LayerDims

end IFairy
