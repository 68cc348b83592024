import IFairy.Context.DecodeOutputs

/-!
# The getters after a decode

`getRow_*` say which row a getter returns.  After a decode that computed every ubatch, whatever
getters have been called since, the getters return for every output token the row that was computed
for it, they fail for the other tokens, and negative indices count the outputs from the end
(`getters_decode`).
-/

namespace IFairy

namespace OutputCtx

variable {α : Type*} {p : OutputParams} {c c' : OutputCtx α} {nMax w off : ℕ} {missing : String}
  {i : Int32} {b : Batch}

/-! ## The row of a getter -/

lemma toInt_bounds (i : Int32) : -2 ^ 31 ≤ i.toInt ∧ i.toInt < 2 ^ 31 :=
  ⟨i.le_toInt, i.toInt_lt⟩

lemma neg_iff_toInt : i < 0 ↔ i.toInt < 0 := by
  rw [Int32.lt_iff_toInt_lt, Int32.toInt_zero]

/-- A token that is mapped to row `r`. -/
lemma getRow_of_mapped {t r : ℕ} (hi : i.toInt = t) (ht : t < c.nIds)
    (hid : c.outputIds t = r) (hr : r < c.nOutputs) :
    getRow missing (some off) w i c = .ok (row c.buf off w r) := by
  have hneg : ¬ i < 0 := by
    rw [neg_iff_toInt]
    omega
  have hin : ¬ (c.nIds : ℤ) ≤ i.toInt := by omega
  unfold getRow
  dsimp only
  rw [if_neg hneg, if_neg hin, hi, Int.toNat_natCast, hid, if_neg (by omega), if_neg (by omega),
    Int.toNat_natCast]

lemma getRow_of_not_mapped (hi : 0 ≤ i.toInt)
    (hid : ∀ t : ℕ, i.toInt = t → t < c.nIds → c.outputIds t < 0) :
    ∃ e, getRow missing (some off) w i c = .error e := by
  have hneg : ¬ i < 0 := by
    rw [neg_iff_toInt]
    omega
  unfold getRow
  dsimp only
  rw [if_neg hneg]
  split_ifs with h₁ h₂
  · exact ⟨_, rfl⟩
  · exact ⟨_, rfl⟩
  · exact ⟨_, rfl⟩
  · have hlt := hid i.toInt.toNat (Int.toNat_of_nonneg hi).symm (by omega)
    exact absurd hlt h₂

lemma getRow_of_neg {r : ℕ} (hi : i.toInt = r - c.nOutputs) (hr : r < c.nOutputs)
    (hn : c.nOutputs < 2 ^ 32) :
    getRow missing (some off) w i c = .ok (row c.buf off w r) := by
  have hneg : i < 0 := by
    rw [neg_iff_toInt]
    omega
  have hj : ((c.nOutputs : ℤ) + i.toInt) % 2 ^ 32 = r := by
    rw [hi, add_sub_cancel, Int.emod_eq_of_lt (by omega) (by omega)]
  unfold getRow
  dsimp only
  rw [if_pos hneg, hj, if_neg (by omega), if_neg (by omega), if_neg (by omega), Int.toNat_natCast]

lemma getRow_of_lt (hi : i.toInt < -c.nOutputs) (hn : c.nOutputs < 2 ^ 32) :
    ∃ e, getRow missing (some off) w i c = .error e := by
  have hneg : i < 0 := by
    rw [neg_iff_toInt]
    omega
  have hbound := (toInt_bounds i).1
  have hj : ((c.nOutputs : ℤ) + i.toInt) % 2 ^ 32 = c.nOutputs + i.toInt + 2 ^ 32 := by
    rw [← Int.add_emod_right, Int.emod_eq_of_lt (by omega) (by omega)]
  unfold getRow
  dsimp only
  rw [if_pos hneg, hj, if_neg (by omega), if_neg (by omega), if_pos (by omega)]
  exact ⟨_, rfl⟩

/-! ## The rows after the swaps -/

variable {swaps : List (ℕ × ℕ)} {us : List UBatch} {outIds : List ℕ} {parts : List (List ℕ)}
  {res : ℕ → GraphResult α}

lemma keysOf_eq {q t : ℕ} (h : outIds[q]? = some t) : keysOf outIds q = t := by
  rw [keysOf, List.getD_eq_getElem?_getD, h, Option.getD_some]

lemma exists_sorted_eq (hsplit : SplitInto b us outIds parts)
    (hsorted : Sorted (keysOf outIds) b.nOutputs swaps) {t : ℕ} (ht : t < b.nTokens)
    (hlogits : b.logits t = true) :
    ∃ s < b.nOutputs, applySwaps swaps (keysOf outIds) s = t := by
  obtain ⟨q, hq⟩ := List.mem_iff_getElem?.1 (hsplit.mem_outIds.2 ⟨ht, hlogits⟩)
  have hlt : q < b.nOutputs := hsplit.length_outIds ▸ (List.getElem?_eq_some_iff.1 hq).1
  obtain ⟨s, hs, heq⟩ := hsorted.below.exists_applySwaps_eq (keysOf outIds) hlt
  exact ⟨s, hs, heq.trans (keysOf_eq hq)⟩

lemma sorted_mem (hsplit : SplitInto b us outIds parts)
    (hsorted : Sorted (keysOf outIds) b.nOutputs swaps) {s : ℕ} (hs : s < b.nOutputs) :
    applySwaps swaps (keysOf outIds) s < b.nTokens ∧
      b.logits (applySwaps swaps (keysOf outIds) s) = true := by
  rw [applySwaps_eq, Function.comp_apply]
  have hlt := hsorted.below.perm_lt hs
  rw [← hsplit.length_outIds] at hlt
  rw [keysOf, List.getD_eq_getElem _ _ hlt]
  exact hsplit.mem_outIds.1 (List.getElem_mem hlt)

lemma sorted_place (hsplit : SplitInto b us outIds parts)
    (hsorted : Sorted (keysOf outIds) b.nOutputs swaps) {s : ℕ} (hs : s < b.nOutputs) :
    (List.range (applySwaps swaps (keysOf outIds) s)).countP b.logits = s := by
  set K := applySwaps swaps (keysOf outIds) with hK
  have hmono : ∀ a < b.nOutputs, K a < K s → a < s := by
    intro a ha hlt
    rcases Nat.lt_trichotomy a s with h | rfl | h
    · exact h
    · exact absurd hlt (lt_irrefl _)
    · exact absurd hlt (lt_asymm (hsorted.lt s a h ha))
  have hperm : ((List.range (K s)).filter b.logits).Perm ((List.range s).map K) := by
    refine (List.perm_ext_iff_of_nodup (List.nodup_range.filter _) ?_).2 fun t => ?_
    · refine List.nodup_range.map_on fun a ha a' ha' heq => ?_
      rw [List.mem_range] at ha ha'
      exact hsorted.inj a (ha.trans hs) a' (ha'.trans hs) heq
    · rw [List.mem_filter, List.mem_range, List.mem_map]
      constructor
      · rintro ⟨hlt, hlogits⟩
        obtain ⟨a, ha, rfl⟩ := exists_sorted_eq hsplit hsorted
          (hlt.trans (sorted_mem hsplit hsorted hs).1) hlogits
        exact ⟨a, List.mem_range.2 (hmono a ha hlt), rfl⟩
      · rintro ⟨a, ha, rfl⟩
        rw [List.mem_range] at ha
        exact ⟨hsorted.lt a s ha hs, (sorted_mem hsplit hsorted (ha.trans hs)).2⟩
  rw [List.countP_eq_length_filter, hperm.length_eq, List.length_map, List.length_range]

/-- Rows that were stored in the order of `outIds` stand in the order of the batch after the
swaps. -/
lemma swapped_row {β : Type*} (hsplit : SplitInto b us outIds parts)
    (hsorted : Sorted (keysOf outIds) b.nOutputs swaps) (rows : ℕ → β) {s q t : ℕ}
    (hs : s < b.nOutputs) (hst : applySwaps swaps (keysOf outIds) s = t)
    (hq : outIds[q]? = some t) : applySwaps swaps rows s = rows q := by
  have hidx : ∀ r t, outIds[r]? = some t → outIds.idxOf t = r := by
    intro r t hr
    obtain ⟨hlt, rfl⟩ := List.getElem?_eq_some_iff.1 hr
    exact hsplit.nodup_outIds.idxOf_getElem r hlt
  let f : ℕ → β := fun t => rows (outIds.idxOf t)
  have hrows : ∀ r < b.nOutputs, rows r = f (keysOf outIds r) := by
    intro r hr
    rw [← hsplit.length_outIds] at hr
    have hget := List.getElem?_eq_getElem hr
    rw [keysOf_eq hget]
    exact congrArg rows (hidx r _ hget).symm
  rw [SwapsBelow.applySwaps_of_keys hsorted.below hrows hs, hst]
  exact congrArg rows (hidx q t hq)

/-! ## The getters of a decoded batch -/

/-- Both getters return for `i` the rows that were computed for token `t`: its ubatch is the `k`-th
and it is token `j` there, and the rows of a ubatch are those of its outputs in order. -/
def GivesRows (p : OutputParams) (b : Batch) (parts : List (List ℕ)) (res : ℕ → GraphResult α)
    (i : Int32) (t : ℕ) (c : OutputCtx α) : Prop :=
  ∃ (k : ℕ) (idxs : List ℕ) (j : ℕ), parts[k]? = some idxs ∧ idxs[j]? = some t ∧
    (∀ src ∈ (res k).tLogits, (c.getLogitsIth p i).1 =
      .ok (row src 0 p.nVocab ((idxs.take j).countP b.logits))) ∧
    ∀ src ∈ tokenEmbd p (res k), (c.getEmbeddingsIth p i).1 =
      .ok (row src 0 p.nEmbd ((idxs.take j).countP b.logits))

def Fails (p : OutputParams) (i : Int32) (c : OutputCtx α) : Prop :=
  (∃ e, (c.getLogitsIth p i).1 = .error e) ∧ ∃ e, (c.getEmbeddingsIth p i).1 = .error e

/-- A getter of a decoded batch that looks up row `s` returns what was computed for the token that
is sorted to place `s`. -/
lemma Decoded.givesRows (h : Decoded p nMax swaps b us outIds res c)
    (hsplit : SplitInto b us outIds parts) {t s : ℕ} (ht : t < b.nTokens)
    (hlogits : b.logits t = true) (hs : s < b.nOutputs)
    (hst : applySwaps swaps (keysOf outIds) s = t)
    (hget : ∀ (missing : String) (off w : ℕ),
      getRow missing (some off) w i (c.outputReorder p) =
        .ok (row (c.outputReorder p).buf off w s)) :
    GivesRows p b parts res i t c := by
  obtain ⟨idxs, hidxs, hmem⟩ := List.mem_flatten.1 (hsplit.perm.mem_iff.2 (List.mem_range.2 ht))
  obtain ⟨k, hk⟩ := List.mem_iff_getElem?.1 hidxs
  obtain ⟨j, hj⟩ := List.mem_iff_getElem?.1 hmem
  obtain ⟨hlt, hq⟩ := hsplit.getElem?_outIds hk hj hlogits
  have hk' : k < us.length := hsplit.length_eq ▸ (List.getElem?_eq_some_iff.1 hk).1
  have hu := List.getElem?_eq_getElem hk'
  have hnew := hsplit.counts k _ idxs hu hk
  rw [← hnew] at hlt
  have hswap := Placed.reorder (h.sorted.below.mono h.nOutputs_le) c h.placed
  have hbuf : (c.outputReorder p).buf = (swaps.foldl (OutputCtx.reorderStep p) c).buf := by
    rw [outputReorder, h.outputSwaps]
  refine ⟨k, idxs, j, hk, hj, fun src hsrc => ?_, fun src hsrc => ?_⟩
  · have hrow : row (c.outputReorder p).buf 0 p.nVocab s =
        row src 0 p.nVocab ((idxs.take j).countP b.logits) := by
      rw [hbuf]
      calc logitsRow p (swaps.foldl (OutputCtx.reorderStep p) c) s
          = applySwaps swaps (logitsRow p c) s := hswap.logits s (hs.trans_le h.nOutputs_le)
        _ = logitsRow p c _ := swapped_row hsplit h.sorted _ hs hst hq
        _ = _ := h.logits k _ hu src hsrc _ hlt
    unfold getLogitsIth
    dsimp only
    rw [outputReorder_logits, h.placed.logits, hget, hrow]
  · have hembd := hasEmbd_of_tokenEmbd (Option.isSome_of_mem hsrc)
    have hrow : row (c.outputReorder p).buf (p.nVocab * nMax) p.nEmbd s =
        row src 0 p.nEmbd ((idxs.take j).countP b.logits) := by
      rw [hbuf]
      calc embdRow p nMax (swaps.foldl (OutputCtx.reorderStep p) c) s
          = applySwaps swaps (embdRow p nMax c) s := hswap.embd hembd s (hs.trans_le h.nOutputs_le)
        _ = embdRow p nMax c _ := swapped_row hsplit h.sorted _ hs hst hq
        _ = _ := h.embd k _ hu src hsrc _ hlt
    unfold getEmbeddingsIth
    dsimp only
    rw [outputReorder_embd, h.placed.embd, if_pos hembd, hget, hrow]

/-- What the getters return on a decoded batch. -/
structure Getters (p : OutputParams) (b : Batch) (parts : List (List ℕ)) (res : ℕ → GraphResult α)
    (c : OutputCtx α) : Prop where
  output : ∀ t < b.nTokens, b.logits t = true → ∀ i : Int32, i.toInt = t →
    GivesRows p b parts res i t c
  other : ∀ i : Int32, 0 ≤ i.toInt → (∀ t < b.nTokens, b.logits t = true → i.toInt ≠ t) →
    Fails p i c
  fromEnd : ∀ t < b.nTokens, b.logits t = true →
    ∀ i : Int32, i.toInt = (List.range t).countP b.logits - b.nOutputs → GivesRows p b parts res i t c
  beforeStart : ∀ i : Int32, i.toInt < -b.nOutputs → Fails p i c

lemma Decoded.fails (h : Decoded p nMax swaps b us outIds res c)
    (hget : ∀ (missing : String) (off w : ℕ),
      ∃ e, getRow missing (some off) w i (c.outputReorder p) = .error e) : Fails p i c := by
  constructor
  · obtain ⟨e, he⟩ := hget "no logits" 0 p.nVocab
    refine ⟨e, ?_⟩
    unfold getLogitsIth
    dsimp only
    rw [outputReorder_logits, h.placed.logits, he]
  · unfold getEmbeddingsIth
    dsimp only
    rw [outputReorder_embd, h.placed.embd]
    split_ifs
    · exact hget _ _ _
    · exact ⟨_, rfl⟩

theorem Decoded.getters (h : Decoded p nMax swaps b us outIds res c)
    (hsplit : SplitInto b us outIds parts) (hbatch : b.nTokens ≤ p.nBatch) :
    Getters p b parts res c := by
  have hcount : b.nOutputs ≤ b.nTokens := by
    have hle := List.countP_le_length (p := b.logits) (l := List.range b.nTokens)
    rwa [List.length_range] at hle
  have hbound : (c.outputReorder p).nOutputs < 2 ^ 32 := by
    rw [outputReorder_nOutputs, h.nOutputs]
    exact (hcount.trans hbatch).trans_lt p.nBatch_lt
  have hinj := h.sorted.inj
  refine ⟨fun t ht hlogits i hi => ?_, fun i hi hother => ?_, fun t ht hlogits i hi => ?_,
    fun i hi => ?_⟩
  · obtain ⟨s, hs, hst⟩ := exists_sorted_eq hsplit h.sorted ht hlogits
    refine h.givesRows hsplit ht hlogits hs hst fun missing off w => getRow_of_mapped hi ?_ ?_ ?_
    · rw [outputReorder_nIds, h.nIds]
      exact ht.trans_le hbatch
    · rw [outputReorder_outputIds, h.outputIds, ← hst]
      exact mapIds_of_mem hinj hs
    · rwa [outputReorder_nOutputs, h.nOutputs]
  · refine h.fails fun missing off w => getRow_of_not_mapped hi fun t hit _ => ?_
    rw [outputReorder_outputIds, h.outputIds]
    rcases mapIds_eq_or hinj t with ⟨s, hs, rfl, -⟩ | ⟨-, heq⟩
    · obtain ⟨hlt, hlogits⟩ := sorted_mem hsplit h.sorted hs
      exact absurd hit (hother _ hlt hlogits)
    · rw [heq]
      omega
  · obtain ⟨s, hs, hst⟩ := exists_sorted_eq hsplit h.sorted ht hlogits
    have hplace := sorted_place hsplit h.sorted hs
    rw [hst] at hplace
    rw [hplace] at hi
    refine h.givesRows hsplit ht hlogits hs hst fun missing off w => getRow_of_neg ?_ ?_ hbound
    · rw [outputReorder_nOutputs, h.nOutputs, hi]
    · rwa [outputReorder_nOutputs, h.nOutputs]
  · refine h.fails fun missing off w => getRow_of_lt ?_ hbound
    rwa [outputReorder_nOutputs, h.nOutputs]

/-! ## After a decode -/

lemma outputReorder_idem (p : OutputParams) (c : OutputCtx α) :
    (c.outputReorder p).outputReorder p = c.outputReorder p :=
  outputReorder_of_nil (outputReorder_outputSwaps p c)

lemma outputReorder_of_reads {c₀ : OutputCtx α}
    (h : Reaches (OutputAction.step p) (fun _ a => a.IsRead) c₀ c) :
    c.outputReorder p = c₀.outputReorder p := by
  induction h with
  | start => rfl
  | snoc a _ hread hstep ih =>
    cases a with
    | decode env inp => exact hread.elim
    | getLogitsIth i =>
      obtain rfl := Option.some.inj hstep
      exact (outputReorder_idem p _).trans ih
    | getEmbeddingsIth i =>
      obtain rfl := Option.some.inj hstep
      exact (outputReorder_idem p _).trans ih

lemma Getters.of_reorder {c₀ : OutputCtx α} (h : Getters p b parts res c₀)
    (heq : c.outputReorder p = c₀.outputReorder p) : Getters p b parts res c := by
  have hlogits : ∀ i, c.getLogitsIth p i = c₀.getLogitsIth p i := by
    intro i
    unfold getLogitsIth
    rw [heq]
  have hembd : ∀ i, c.getEmbeddingsIth p i = c₀.getEmbeddingsIth p i := by
    intro i
    unfold getEmbeddingsIth
    rw [heq]
  have hgives : ∀ {i t}, GivesRows p b parts res i t c₀ → GivesRows p b parts res i t c := by
    intro i t hg
    unfold GivesRows at hg ⊢
    rwa [hlogits, hembd]
  have hfails : ∀ {i}, Fails p i c₀ → Fails p i c := by
    intro i hf
    unfold Fails at hf ⊢
    rwa [hlogits, hembd]
  exact ⟨fun t ht hl i hi => hgives (h.output t ht hl i hi),
    fun i hi ho => hfails (h.other i hi ho), fun t ht hl i hi => hgives (h.fromEnd t ht hl i hi),
    fun i hi => hfails (h.beforeStart i hi)⟩

/-- When every token is an output, `init` counts as many outputs as tokens. -/
lemma nOutputs_of_outputAll {inp : BatchInp} {mem : MemBounds} {nVocab nSeqMax : ℕ}
    (h : inp.init mem nVocab nSeqMax true = some b) : b.nOutputs = b.nTokens := by
  unfold BatchInp.init at h
  obtain ⟨-, h⟩ := Option.ite_none_right_eq_some.1 h
  obtain ⟨-, h⟩ := Option.ite_none_right_eq_some.1 h
  obtain rfl := Option.some.inj h
  have hcount : (List.range inp.nTokens).countP (fun _ => true) = (List.range inp.nTokens).length :=
    List.countP_eq_length.2 fun _ _ => rfl
  exact hcount.trans List.length_range

/-- The tokens of the ubatches into which a batch is split. -/
def partsFor (p : OutputParams) (sp : Splitter) (b : Batch) : List (List ℕ) :=
  BatchAllocr.rounds sp p.nUbatch (b.nTokens + 1) (.reset b p.nSeqs p.nEmbd p.nPosPerEmbd)

/-- A decode of an accepted batch whose ubatches are all computed succeeds, and from then on the
getters return the rows of the output tokens and nothing else. -/
theorem getters_decode {buf fresh : ℕ → α} {env : DecodeEnv α} {inp : BatchInp} {sp : Splitter}
    (hc : Reaches (OutputAction.step p) (fun _ _ => True) (constructed p buf) c)
    (hkind : inp.token.isSome ≠ inp.embd.isSome) (hn : inp.nTokens ≠ 0)
    (hinit : inp.init env.mem p.nVocab p.nSeqs p.embeddings = some b)
    (hbatch : b.nTokens ≤ p.nBatch) (hsp : env.initBatch b = .ok sp)
    (hused : b.nTokens ≤ (splitFor p sp b).2.nUsed) (halloc : env.alloc = some fresh)
    (hres : ∀ k u, (splitFor p sp b).1[k]? = some u → env.processUbatch k u = .ok (res k)) :
    (c.decode p env inp).1 = .code 0 ∧
      ∀ c', Reaches (OutputAction.step p) (fun _ a => a.IsRead) (c.decode p env inp).2 c' →
        Getters p b (partsFor p sp b) res c' := by
  have hinv := outputInv_of_reaches hc
  have hsplit := splitInto_splitFor (p := p) hused
  have hall : ¬ (p.embeddings = true ∧ b.nOutputs ≠ b.nTokens) := by
    rintro ⟨hembd, hne⟩
    rw [hembd] at hinit
    exact hne (nOutputs_of_outputAll hinit)
  have hdecode : c.decode p env inp =
      computeBatch p env b (splitFor p sp b) { c with outputSwaps := [] } := by
    unfold decode
    rw [if_neg hkind, if_neg hn, hinit]
    dsimp only
    rw [if_neg hall, if_neg (not_lt.2 hbatch), hsp]
    dsimp only
    rw [if_neg (not_lt.2 hused)]
  obtain ⟨c₁, nMax, swaps, hcompute, hdone⟩ := computeBatch_decoded halloc hsplit hres
    hinv.dropSwaps.nIds rfl
  rw [hdecode, hcompute]
  exact ⟨rfl, fun c' hreads =>
    (hdone.getters hsplit hbatch).of_reorder (outputReorder_of_reads hreads)⟩

/-! ## One token -/

/-- A model with one logit and one embedding, and mean pooling. -/
def meanPooled : OutputParams where
  nVocab := 1
  nEmbd := 1
  nPosPerEmbd := 1
  arch := "bert"
  nBatch := 4
  nUbatch := 4
  nSeqMax := 1
  kvUnified := false
  embeddings := true
  poolingType := .mean
  nBatch_lt := by decide
  nBatch_pos := by decide
  poolingType_ne := by decide

def oneToken : BatchInp where
  nTokens := 1
  token := some fun _ => 0
  embd := none
  pos := none
  seqId := none
  logits := none

/-- Every ubatch has logit `7` and embedding `8`. -/
def sevenEight : GraphResult ℕ := ⟨some fun _ => 7, some fun _ => 8, some fun _ => 9⟩

/-- An empty memory that splits batches simply. -/
def simpleEnv : DecodeEnv ℕ where
  mem := ⟨fun _ => -1, fun _ => -1⟩
  initBatch _ := .ok .simple
  alloc := some fun _ => 0
  processUbatch _ _ := .ok sevenEight

lemma oneToken_init : oneToken.init simpleEnv.mem 1 1 true =
    some (oneToken.completed simpleEnv.mem true) :=
  BatchInp.init_of_checked (by decide) (by decide +kernel)

theorem getters_decode_oneToken :
    ((constructed meanPooled fun _ => 0).decode meanPooled simpleEnv oneToken).1 = .code 0 ∧
      ∀ c', Reaches (OutputAction.step meanPooled) (fun _ a => a.IsRead)
          ((constructed meanPooled fun _ => 0).decode meanPooled simpleEnv oneToken).2 c' →
        Getters meanPooled (oneToken.completed simpleEnv.mem true)
          (partsFor meanPooled .simple (oneToken.completed simpleEnv.mem true))
          (fun _ => sevenEight) c' :=
  getters_decode .start (by decide) (by decide) oneToken_init (by decide) rfl
    (by decide +kernel) rfl fun _ _ _ => rfl

/-- The index `-1` belongs to no token, and the logits getter returns the last row for it; the
embeddings of tokens are not stored when they are pooled, and their getter returns what is in the
buffer. -/
theorem not_fails_negative :
    let r := (constructed meanPooled fun _ => 0).decode meanPooled simpleEnv oneToken
    r.1 = .code 0 ∧ (∀ t < oneToken.nTokens, (-1 : Int32).toInt ≠ t) ∧
      ¬ Fails meanPooled (-1) r.2 ∧ (r.2.getEmbeddingsIth meanPooled 0).1 ≠ .ok fun _ => 8 := by
  intro r
  have hlogits : ((r.2.getLogitsIth meanPooled (-1)).1.toOption.map fun f => f ⟨0, by decide⟩) = some 7 := by
    decide +kernel
  have hembd : ((r.2.getEmbeddingsIth meanPooled 0).1.toOption.map fun f => f ⟨0, by decide⟩) = some 0 := by
    decide +kernel
  refine ⟨by decide +kernel, by decide, ?_, fun heq => ?_⟩
  · rintro ⟨⟨e, he⟩, -⟩
    rw [he] at hlogits
    cases hlogits
  · rw [heq] at hembd
    cases hembd

end OutputCtx

end IFairy
