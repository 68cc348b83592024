import IFairy.Context.OutputRows
import IFairy.Framework.Runs
import Mathlib.Algebra.Order.BigOperators.Group.List

/-!
# What `decode` leaves in a context

The loop over the ubatches stores the outputs of one ubatch behind those of the earlier ones
(`ubatchLoop_spec`), `setMappings_spec` describes the sorted mapping and the recorded swaps, and
`decode_done` puts the two together for a batch whose ubatches are all computed.  `OutputInv` is
kept by every call, also by a `decode` that fails on the way.
-/

namespace IFairy

namespace OutputCtx

variable {α : Type*} {p : OutputParams} {c c' : OutputCtx α} {nMax n : ℕ} {b : Batch}

/-! ## The loop over the ubatches -/

/-- The number of outputs of the ubatches before the `k`-th. -/
def newBefore (b : Batch) (us : List UBatch) (k : ℕ) : ℕ := ((us.take k).map (newOutputs b)).sum

lemma newBefore_succ (u : UBatch) (us : List UBatch) (k : ℕ) :
    newBefore b (u :: us) (k + 1) = newOutputs b u + newBefore b us k := rfl

lemma ubatchLoop_frame (process : ℕ → UBatch → Except ℤ (GraphResult α)) (us : List UBatch) :
    ∀ (k prev : ℕ) (c : OutputCtx α), (∀ u ∈ us, newOutputs b u ≤ n) → c.nOutputs ≤ n →
      ∃ buf m, m ≤ n ∧
        (ubatchLoop p process b us k prev c).2 = { c with buf := buf, nOutputs := m } := by
  induction us with
  | nil => exact fun k prev c _ hn => ⟨c.buf, c.nOutputs, hn, rfl⟩
  | cons u us ih =>
    intro k prev c hle _
    obtain ⟨hu, hus⟩ := List.forall_mem_cons.1 hle
    unfold ubatchLoop
    dsimp only
    cases process k u with
    | error code => exact ⟨c.buf, newOutputs b u, hu, rfl⟩
    | ok res =>
      dsimp only
      cases hstore : OutputCtx.store p b.nOutputs prev res { c with nOutputs := newOutputs b u } with
      | none => exact ⟨c.buf, newOutputs b u, hu, rfl⟩
      | some c₂ =>
        obtain ⟨buf₂, rfl⟩ := store_frame hstore
        obtain ⟨buf, m, hm, heq⟩ := ih (k + 1) (prev + newOutputs b u)
          { c with nOutputs := newOutputs b u, buf := buf₂ } hus hu
        exact ⟨buf, m, hm, heq⟩

/-- The rows that the loop over the ubatches `us`, the first of which is the `k`-th, stores behind
`prev` rows. -/
structure LoopStored (p : OutputParams) (nMax : ℕ) (b : Batch) (res : ℕ → GraphResult α)
    (us : List UBatch) (k prev : ℕ) (c c' : OutputCtx α) : Prop where
  eq : ∃ n, c' = { c with buf := c'.buf, nOutputs := n }
  earlier : ∀ r < prev, logitsRow p c' r = logitsRow p c r ∧ embdRow p nMax c' r = embdRow p nMax c r
  logits : ∀ j u, us[j]? = some u → ∀ src ∈ (res (k + j)).tLogits, ∀ r < newOutputs b u,
    logitsRow p c' (prev + newBefore b us j + r) = row src 0 p.nVocab r
  embd : ∀ j u, us[j]? = some u → ∀ src ∈ tokenEmbd p (res (k + j)), ∀ r < newOutputs b u,
    embdRow p nMax c' (prev + newBefore b us j + r) = row src 0 p.nEmbd r

lemma LoopStored.placed {res : ℕ → GraphResult α} {us : List UBatch} {k prev : ℕ}
    (h : LoopStored p nMax b res us k prev c c') (hc : Placed p nMax c) : Placed p nMax c' := by
  obtain ⟨n, heq⟩ := h.eq
  rw [heq]
  exact ⟨hc.logitsSize, hc.embdSize, hc.logits, hc.embd⟩

theorem ubatchLoop_spec {process : ℕ → UBatch → Except ℤ (GraphResult α)}
    {res : ℕ → GraphResult α} (us : List UBatch) :
    ∀ (k prev : ℕ) (c : OutputCtx α), Placed p nMax c → b.nOutputs ≤ nMax →
      prev + (us.map (newOutputs b)).sum ≤ b.nOutputs →
      (∀ j u, us[j]? = some u → process (k + j) u = .ok (res (k + j))) →
      ∃ c', ubatchLoop p process b us k prev c = (none, c') ∧
        LoopStored p nMax b res us k prev c c' := by
  induction us with
  | nil =>
    intro k prev c _ _ _ _
    exact ⟨c, rfl, ⟨_, rfl⟩, fun _ _ => ⟨rfl, rfl⟩, fun j u h => by simp at h,
      fun j u h => by simp at h⟩
  | cons u us ih =>
    intro k prev c hc hmax hle hprocess
    rw [List.map_cons, List.sum_cons] at hle
    obtain ⟨c₂, hstore, hst⟩ := @store_spec _ p _ nMax _ prev (res k)
      (hc.withOutputs (newOutputs b u)) (by dsimp only; omega) hmax
    have hhead : process k u = .ok (res k) := hprocess 0 u rfl
    obtain ⟨c', hloop, hrest⟩ := ih (k + 1) (prev + newOutputs b u) c₂
      ((hc.withOutputs _).of_eq hst.eq) hmax (by omega) fun j v hj => by
        rw [Nat.add_right_comm k 1 j]
        exact hprocess (j + 1) v hj
    refine ⟨c', ?_, ?_, fun r hr => ?_, fun j v hj src hsrc r hr => ?_,
      fun j v hj src hsrc r hr => ?_⟩
    · unfold ubatchLoop
      dsimp only
      rw [hhead]
      dsimp only
      rw [hstore]
      exact hloop
    · obtain ⟨n, heq⟩ := hrest.eq
      exact ⟨n, by rw [heq, hst.eq]⟩
    · obtain ⟨hl, he⟩ := hrest.earlier r (by omega)
      obtain ⟨hl₂, he₂⟩ := hst.earlier r hr
      exact ⟨hl.trans hl₂, he.trans he₂⟩
    · cases j with
      | zero =>
        obtain rfl : u = v := by simpa using hj
        exact (hrest.earlier _ (by simp only [newBefore, List.take_zero]; simp; omega)).1.trans
          (hst.logits src hsrc r hr)
      | succ j =>
        have hrow := hrest.logits j v hj src (by rwa [Nat.add_right_comm k 1 j]) r hr
        rwa [newBefore_succ, ← Nat.add_assoc prev]
    · cases j with
      | zero =>
        obtain rfl : u = v := by simpa using hj
        exact (hrest.earlier _ (by simp only [newBefore, List.take_zero]; simp; omega)).2.trans
          (hst.embd src hsrc r hr)
      | succ j =>
        have hrow := hrest.embd j v hj src (by rwa [Nat.add_right_comm k 1 j]) r hr
        rwa [newBefore_succ, ← Nat.add_assoc prev]

/-! ## The rows of the ubatches and the outputs -/

/-- The output tokens of a ubatch with the rows `idxs`. -/
def outputsOf (b : Batch) (idxs : List ℕ) : List ℕ := idxs.filter fun i => b.logits i

lemma all_outputs (h : b.nOutputs = b.nTokens) {t : ℕ} (ht : t < b.nTokens) : b.logits t = true := by
  have hcount : (List.range b.nTokens).countP b.logits = (List.range b.nTokens).length :=
    h.trans List.length_range.symm
  exact List.countP_eq_length.1 hcount t (List.mem_range.2 ht)

lemma newOutputs_eq {nEmbd : ℕ} {idxs : List ℕ} {u : UBatch} (h : RowsOf b nEmbd idxs u)
    (hlt : ∀ i ∈ idxs, i < b.nTokens) : newOutputs b u = (outputsOf b idxs).length := by
  unfold newOutputs outputsOf
  split
  · rename_i hall
    rw [h.nTokens, List.filter_eq_self.2 fun i hi => all_outputs hall (hlt i hi)]
  · rw [← List.countP_eq_length_filter, h.nTokens]
    -- the flags of the ubatch are those of its tokens
    have hmap : idxs.map b.logits = (List.range idxs.length).map u.output := by
      refine List.ext_getElem? fun i => ?_
      rw [List.getElem?_map, List.getElem?_map]
      rcases Nat.lt_or_ge i idxs.length with hi | hi
      · have hrow := List.getElem?_eq_getElem hi
        rw [hrow, List.getElem?_range hi, Option.map_some, Option.map_some, h.output i _ hrow]
      · rw [List.getElem?_eq_none hi, List.getElem?_eq_none (by simpa using hi)]
        rfl
    have hcount := congrArg (List.countP id) hmap
    rw [List.countP_map, List.countP_map] at hcount
    exact hcount.symm

/-- The tokens of the ubatches are the tokens of the batch. -/
structure SplitInto (b : Batch) (us : List UBatch) (outIds : List ℕ) (parts : List (List ℕ)) :
    Prop where
  length_eq : us.length = parts.length
  counts : ∀ (k : ℕ) u idxs, us[k]? = some u → parts[k]? = some idxs →
    newOutputs b u = (outputsOf b idxs).length
  perm : parts.flatten.Perm (List.range b.nTokens)
  outIds : outIds = parts.flatten.filter fun i => b.logits i

lemma splitInto_splitFor {sp : Splitter} (hall : b.nTokens ≤ (splitFor p sp b).2.nUsed) :
    SplitInto b (splitFor p sp b).1 (splitFor p sp b).2.outIds
      (BatchAllocr.rounds sp p.nUbatch (b.nTokens + 1)
        (.reset b p.nSeqs p.nEmbd p.nPosPerEmbd)) := by
  have hparts := BatchAllocr.splitLoop_parts sp p.nUbatch (b.nTokens + 1) _
    (BatchAllocr.splitterInv_reset sp b p.nSeqs p.nEmbd p.nPosPerEmbd)
  have hperm := hparts.perm rfl hall
  refine ⟨hparts.rows.length_eq.symm, fun k u idxs hu hidxs => ?_, hperm, hparts.outIds⟩
  obtain ⟨hk, rfl⟩ := List.getElem?_eq_some_iff.1 hu
  obtain ⟨hk', rfl⟩ := List.getElem?_eq_some_iff.1 hidxs
  refine newOutputs_eq (hparts.rows.get hk' hk) fun i hi => ?_
  exact List.mem_range.1 (hperm.subset (List.mem_flatten.2 ⟨_, List.getElem_mem hk', hi⟩))

namespace SplitInto

variable {us : List UBatch} {outIds : List ℕ} {parts : List (List ℕ)}

lemma map_newOutputs (h : SplitInto b us outIds parts) :
    us.map (newOutputs b) = parts.map fun idxs => (outputsOf b idxs).length := by
  refine List.ext_getElem (by simpa using h.length_eq) fun k hk hk' => ?_
  rw [List.length_map] at hk hk'
  rw [List.getElem_map, List.getElem_map]
  exact h.counts k _ _ (List.getElem?_eq_getElem hk) (List.getElem?_eq_getElem hk')

lemma outIds_eq (h : SplitInto b us outIds parts) :
    outIds = (parts.map (outputsOf b)).flatten := by
  rw [h.outIds, List.filter_flatten]
  rfl

lemma newBefore_eq (h : SplitInto b us outIds parts) (k : ℕ) :
    newBefore b us k = (((parts.map (outputsOf b)).take k).map List.length).sum := by
  rw [newBefore, List.map_take, h.map_newOutputs, ← List.map_take, ← List.map_take, List.map_map]
  rfl

lemma length_outIds (h : SplitInto b us outIds parts) : outIds.length = b.nOutputs := by
  rw [h.outIds, (h.perm.filter _).length_eq, ← List.countP_eq_length_filter]
  rfl

lemma nodup_outIds (h : SplitInto b us outIds parts) : outIds.Nodup := by
  rw [h.outIds]
  exact (h.perm.nodup_iff.2 List.nodup_range).filter _

lemma mem_outIds (h : SplitInto b us outIds parts) {t : ℕ} :
    t ∈ outIds ↔ t < b.nTokens ∧ b.logits t = true := by
  rw [h.outIds, List.mem_filter, h.perm.mem_iff, List.mem_range]

lemma sum_newOutputs (h : SplitInto b us outIds parts) :
    (us.map (newOutputs b)).sum = b.nOutputs := by
  rw [← h.length_outIds, h.outIds_eq, h.map_newOutputs, List.length_flatten, List.map_map]
  rfl

lemma getElem?_outIds (h : SplitInto b us outIds parts) {k j t : ℕ} {idxs : List ℕ}
    (hk : parts[k]? = some idxs) (hj : idxs[j]? = some t) (ht : b.logits t = true) :
    (idxs.take j).countP b.logits < (outputsOf b idxs).length ∧
      outIds[newBefore b us k + (idxs.take j).countP b.logits]? = some t := by
  have hrow := getElem?_filter_countP (p := b.logits) ht idxs j hj
  have hlt := (List.getElem?_eq_some_iff.1 hrow).1
  refine ⟨hlt, ?_⟩
  rw [h.outIds_eq, h.newBefore_eq, getElem?_flatten_of_getElem? (l := outputsOf b idxs) _ k
    (by rw [List.getElem?_map, hk]; rfl) hlt]
  exact hrow

end SplitInto

/-! ## The mapping -/

lemma mapIds_of_mem {ids : ℕ → ℤ} {outIds : ℕ → ℕ}
    (hinj : ∀ a < n, ∀ b < n, outIds a = outIds b → a = b) {r : ℕ} (hr : r < n) :
    mapIds ids outIds n (outIds r) = r := by
  induction n with
  | zero => exact absurd hr r.not_lt_zero
  | succ n ih =>
    unfold mapIds at ih ⊢
    rw [List.range_succ, List.foldl_append, List.foldl_cons, List.foldl_nil]
    rcases Nat.lt_succ_iff_lt_or_eq.1 hr with hlt | rfl
    · have hne : outIds r ≠ outIds n := fun heq => hlt.ne (hinj r hr n n.lt_succ_self heq)
      rw [Function.update_of_ne hne]
      exact ih (fun a ha b hb => hinj a (Nat.lt_succ_of_lt ha) b (Nat.lt_succ_of_lt hb)) hlt
    · rw [Function.update_self]

lemma mapIds_of_not_mem {ids : ℕ → ℤ} {outIds : ℕ → ℕ} {t : ℕ} (h : ∀ r < n, outIds r ≠ t) :
    mapIds ids outIds n t = ids t :=
  foldl_update_of_not_mem outIds (fun i => (i : ℤ)) ids fun ⟨r, hr, hrt⟩ =>
    h r (List.mem_range.1 hr) hrt

/-- The recorded swaps put the batch indices of the rows in increasing order. -/
structure Sorted (keys : ℕ → ℕ) (n : ℕ) (swaps : List (ℕ × ℕ)) : Prop where
  below : SwapsBelow n swaps
  lt : ∀ a b, a < b → b < n → applySwaps swaps keys a < applySwaps swaps keys b

lemma Sorted.inj {keys : ℕ → ℕ} {swaps : List (ℕ × ℕ)} (h : Sorted keys n swaps) :
    ∀ a < n, ∀ b < n, applySwaps swaps keys a = applySwaps swaps keys b → a = b := by
  intro a ha b hb heq
  rcases Nat.lt_trichotomy a b with hab | hab | hab
  · exact absurd heq (h.lt a b hab hb).ne
  · exact hab
  · exact absurd heq (h.lt b a hab ha).ne'

/-- The batch index of each stored row. -/
def keysOf (outIds : List ℕ) : ℕ → ℕ := fun i => outIds.getD i 0

lemma keysOf_inj {outIds : List ℕ} (hnodup : outIds.Nodup) :
    ∀ a < outIds.length, ∀ b < outIds.length, keysOf outIds a = keysOf outIds b → a = b := by
  intro a ha b hb heq
  rw [keysOf, keysOf, List.getD_eq_getElem _ _ ha, List.getD_eq_getElem _ _ hb] at heq
  exact (hnodup.getElem_inj_iff).1 heq

theorem setMappings_spec {outIds : List ℕ} (hlen : outIds.length = c.nOutputs)
    (hnodup : outIds.Nodup) (hids : c.outputIds = fun _ => -1) (hswaps : c.outputSwaps = []) :
    ∃ swaps, Sorted (keysOf outIds) c.nOutputs swaps ∧
      c.setMappings outIds = some { c with
        outputIds := mapIds (fun _ => -1) (applySwaps swaps (keysOf outIds)) c.nOutputs
        outputSwaps := swaps } := by
  unfold setMappings
  by_cases hzero : c.nOutputs = 0
  · have heq : c = { c with outputIds := fun _ => -1, outputSwaps := [] } := by
      rw [← hids, ← hswaps]
    rw [if_pos hzero]
    refine ⟨[], ⟨List.forall_mem_nil _, fun a b _ hb => ?_⟩, ?_⟩
    · rw [hzero] at hb
      exact absurd hb b.not_lt_zero
    · rw [show mapIds (fun _ => -1) (applySwaps [] (keysOf outIds)) c.nOutputs = fun _ => -1 by
        rw [hzero]; rfl]
      exact congrArg some heq
  · rw [if_neg hzero, if_neg (not_not.2 hlen)]
    dsimp only
    rw [hids, hswaps, List.nil_append]
    change ∃ swaps, _ ∧ (if ∀ i < c.nOutputs, keysOf outIds i = i then _ else _) = _
    by_cases hsorted : ∀ i < c.nOutputs, keysOf outIds i = i
    · rw [if_pos hsorted]
      refine ⟨[], ⟨List.forall_mem_nil _, fun a b hab hb => ?_⟩, ?_⟩
      · rw [applySwaps_nil, hsorted a (hab.trans hb), hsorted b hb]
        exact hab
      · rw [applySwaps_nil]
        rfl
    · rw [if_neg hsorted]
      refine ⟨(swapSort c.nOutputs (keysOf outIds)).2, ⟨swapSort_below _ _, fun a b hab hb => ?_⟩, ?_⟩
      · rw [← swapSort_eq_applySwaps]
        exact swapSort_lt (hlen ▸ keysOf_inj hnodup) hab hb
      · rw [← swapSort_eq_applySwaps]
        rfl

/-! ## The whole decode -/

/-- The context after a decode that computed every ubatch. -/
structure Decoded (p : OutputParams) (nMax : ℕ) (swaps : List (ℕ × ℕ)) (b : Batch)
    (us : List UBatch) (outIds : List ℕ) (res : ℕ → GraphResult α) (c : OutputCtx α) : Prop where
  placed : Placed p nMax c
  nOutputs : c.nOutputs = b.nOutputs
  nOutputs_le : b.nOutputs ≤ nMax
  nIds : c.nIds = p.nBatch
  sorted : Sorted (keysOf outIds) b.nOutputs swaps
  outputIds : c.outputIds = mapIds (fun _ => -1) (applySwaps swaps (keysOf outIds)) b.nOutputs
  outputSwaps : c.outputSwaps = swaps
  logits : ∀ k u, us[k]? = some u → ∀ src ∈ (res k).tLogits, ∀ r < newOutputs b u,
    logitsRow p c (newBefore b us k + r) = row src 0 p.nVocab r
  embd : ∀ k u, us[k]? = some u → ∀ src ∈ tokenEmbd p (res k), ∀ r < newOutputs b u,
    embdRow p nMax c (newBefore b us k + r) = row src 0 p.nEmbd r

theorem computeBatch_decoded {env : DecodeEnv α} {s : List UBatch × BatchAllocr} {fresh : ℕ → α}
    {res : ℕ → GraphResult α} {parts : List (List ℕ)} (halloc : env.alloc = some fresh)
    (hsplit : SplitInto b s.1 s.2.outIds parts)
    (hres : ∀ k u, s.1[k]? = some u → env.processUbatch k u = .ok (res k))
    (hids : c.nIds = p.nBatch) (hswaps : c.outputSwaps = []) :
    ∃ c' nMax swaps, c.computeBatch p env b s = (.code 0, c') ∧
      Decoded p nMax swaps b s.1 s.2.outIds res c' := by
  have hr := outputReserve_reserved p fresh b.nOutputs c
  have hnot : ¬ (c.outputReserve p env.alloc b.nOutputs).1 < b.nOutputs := by
    rw [halloc, hr.size]
    exact not_lt.2 (le_max_left _ _)
  have hsum := hsplit.sum_newOutputs
  have hprocess : ∀ j u, s.1[j]? = some u → env.processUbatch (0 + j) u = .ok (res (0 + j)) := by
    intro j u hj
    rw [Nat.zero_add]
    exact hres j u hj
  obtain ⟨c₁, hloop, hst⟩ := ubatchLoop_spec s.1 0 0 _ hr.placed (le_max_left _ _) (by omega) hprocess
  obtain ⟨n, heq⟩ := hst.eq
  have hids₁ : c₁.nIds = p.nBatch := by
    rw [heq]
    exact (outputReserve_nIds ..).trans (by rw [hids, if_neg p.nBatch_pos.ne'])
  have hnone₁ : c₁.outputIds = fun _ => -1 := by rw [heq, ← hr.outputIds]
  have hswaps₁ : c₁.outputSwaps = [] := by rw [heq, ← hswaps, ← hr.outputSwaps]
  obtain ⟨swaps, hsorted, hset⟩ := setMappings_spec (c := { c₁ with nOutputs := b.nOutputs })
    hsplit.length_outIds hsplit.nodup_outIds hnone₁ hswaps₁
  have hplaced₁ := hst.placed hr.placed
  refine ⟨{ c₁ with
      nOutputs := b.nOutputs
      outputIds := mapIds (fun _ => -1) (applySwaps swaps (keysOf s.2.outIds)) b.nOutputs
      outputSwaps := swaps }, max b.nOutputs p.nSeqMax, swaps, ?_, ?_⟩
  · unfold computeBatch
    dsimp only
    rw [if_neg hnot, halloc, hloop]
    dsimp only
    rw [hset]
  · refine ⟨⟨hplaced₁.logitsSize, hplaced₁.embdSize, hplaced₁.logits, hplaced₁.embd⟩, rfl,
      le_max_left _ _, hids₁, hsorted, rfl, rfl,
      fun k u hk src hsrc r hr => ?_, fun k u hk src hsrc r hr => ?_⟩
    · have hrow := hst.logits k u hk src (by rwa [Nat.zero_add]) r hr
      rwa [Nat.zero_add] at hrow
    · have hrow := hst.embd k u hk src (by rwa [Nat.zero_add]) r hr
      rwa [Nat.zero_add] at hrow

/-! ## What every call keeps -/

/-- The outputs of a context whose buffer is there. -/
structure Usable (p : OutputParams) (nMax : ℕ) (c : OutputCtx α) : Prop where
  placed : Placed p nMax c
  nOutputs_le : c.nOutputs ≤ nMax
  ids_lt : ∀ t, c.outputIds t < c.nOutputs
  ids_inj : ∀ t t', 0 ≤ c.outputIds t → c.outputIds t = c.outputIds t' → t = t'
  swaps : SwapsBelow c.nOutputs c.outputSwaps

/-- What every call keeps. -/
structure OutputInv (p : OutputParams) (c : OutputCtx α) : Prop where
  nIds : c.nIds = p.nBatch
  noBuffer : c.bufSize = none → c.logits = none
  usable : c.logits.isSome → ∃ nMax, Usable p nMax c

lemma mapIds_eq_or {keys : ℕ → ℕ} (hinj : ∀ a < n, ∀ b < n, keys a = keys b → a = b) (t : ℕ) :
    (∃ r < n, keys r = t ∧ mapIds (fun _ => -1) keys n t = r) ∨
      (∀ r < n, keys r ≠ t) ∧ mapIds (fun _ => -1) keys n t = -1 := by
  by_cases h : ∃ r < n, keys r = t
  · obtain ⟨r, hr, rfl⟩ := h
    exact Or.inl ⟨r, hr, rfl, mapIds_of_mem hinj hr⟩
  · push Not at h
    exact Or.inr ⟨h, mapIds_of_not_mem h⟩

lemma Placed.usable_unmapped (h : Placed p nMax c) (hn : c.nOutputs ≤ nMax)
    (hids : c.outputIds = fun _ => -1) (hswaps : c.outputSwaps = []) : Usable p nMax c := by
  refine ⟨h, hn, fun t => ?_, fun t t' ht => ?_, ?_⟩
  · rw [congrFun hids t]
    omega
  · rw [congrFun hids t] at ht
    omega
  · rw [hswaps]
    exact List.forall_mem_nil _

lemma Sorted.usable {keys : ℕ → ℕ} {swaps : List (ℕ × ℕ)} (h : Sorted keys c.nOutputs swaps)
    (hplaced : Placed p nMax c) (hn : c.nOutputs ≤ nMax)
    (hids : c.outputIds = mapIds (fun _ => -1) (applySwaps swaps keys) c.nOutputs)
    (hswaps : c.outputSwaps = swaps) : Usable p nMax c := by
  refine ⟨hplaced, hn, fun t => ?_, fun t t' ht htt => ?_, hswaps ▸ h.below⟩
  · rw [hids]
    rcases mapIds_eq_or h.inj t with ⟨r, hr, -, heq⟩ | ⟨-, heq⟩
    · rw [heq]
      exact_mod_cast hr
    · rw [heq]
      omega
  · rw [hids] at ht htt
    rcases mapIds_eq_or h.inj t with ⟨r, -, hrt, heq⟩ | ⟨-, heq⟩
    · rcases mapIds_eq_or h.inj t' with ⟨r', -, hrt', heq'⟩ | ⟨-, heq'⟩
      · rw [heq, heq'] at htt
        obtain rfl : r = r' := by exact_mod_cast htt
        exact hrt.symm.trans hrt'
      · rw [heq, heq'] at htt
        omega
    · omega

lemma SplitInto.newOutputs_le {us : List UBatch} {outIds : List ℕ} {parts : List (List ℕ)}
    (h : SplitInto b us outIds parts) : ∀ u ∈ us, newOutputs b u ≤ b.nOutputs := by
  intro u hu
  rw [← h.sum_newOutputs]
  exact List.le_sum_of_mem (List.mem_map_of_mem hu)

lemma setMappings_frame {outIds : List ℕ} (h : c.setMappings outIds = some c') :
    ∃ ids swaps, c' = { c with outputIds := ids, outputSwaps := swaps } := by
  unfold setMappings at h
  split_ifs at h
  · exact ⟨c.outputIds, c.outputSwaps, (Option.some.inj h).symm⟩
  · dsimp only at h
    split_ifs at h
    · exact ⟨_, c.outputSwaps, (Option.some.inj h).symm⟩
    · exact ⟨_, _, (Option.some.inj h).symm⟩

theorem computeBatch_inv {env : DecodeEnv α} {s : List UBatch × BatchAllocr}
    {parts : List (List ℕ)} (hsplit : SplitInto b s.1 s.2.outIds parts) (hc : OutputInv p c)
    (hswaps : c.outputSwaps = []) (hend : (c.computeBatch p env b s).1 ≠ .abort) :
    OutputInv p (c.computeBatch p env b s).2 := by
  have hids : (c.outputReserve p env.alloc b.nOutputs).2.nIds = p.nBatch := by
    rw [outputReserve_nIds, hc.nIds, if_neg p.nBatch_pos.ne']
  have hcases : Reserved p b.nOutputs c (c.outputReserve p env.alloc b.nOutputs) ∨
      (c.outputReserve p env.alloc b.nOutputs).2.logits = none ∧
        (c.outputReserve p env.alloc b.nOutputs).2.bufSize = none := by
    cases env.alloc with
    | none => exact outputReserve_none p b.nOutputs hc.noBuffer
    | some fresh => exact Or.inl (outputReserve_reserved p fresh b.nOutputs c)
  unfold computeBatch at hend ⊢
  set r := c.outputReserve p env.alloc b.nOutputs with hr
  dsimp only at hend ⊢
  have hlost : ∀ c' : OutputCtx α, c'.nIds = r.2.nIds → c'.logits = none → OutputInv p c' :=
    fun c' hn hl => ⟨hn.trans hids, fun _ => hl, fun hsome => by simp [hl] at hsome⟩
  obtain ⟨buf, m, hm, hloop⟩ := ubatchLoop_frame (p := p) env.processUbatch s.1 0 0 r.2
    (fun u hu => (hsplit.newOutputs_le u hu).trans (le_max_left _ _)) (le_max_right b.nOutputs _)
  by_cases hlt : r.1 < b.nOutputs
  · rw [if_pos hlt]
    rcases hcases with hres | ⟨hl, -⟩
    · rw [hres.size] at hlt
      exact absurd (le_max_left _ _) (not_le.2 hlt)
    · exact hlost r.2 rfl hl
  · rw [if_neg hlt] at hend ⊢
    generalize hrun : ubatchLoop p env.processUbatch b s.1 0 0 r.2 = run at hend hloop ⊢
    obtain ⟨e, c₁⟩ := run
    dsimp only at hloop
    subst hloop
    rcases hcases with hres | ⟨hl, -⟩
    · have hle : m ≤ b.nOutputs := by
        rw [hres.nOutputs] at hm
        omega
      have hbuf : ∀ c' : OutputCtx α, c'.bufSize = r.2.bufSize → c'.bufSize = none →
          c'.logits = none := by
        intro c' heq hnone
        have hsome := hres.bufSize
        rw [← heq, hnone] at hsome
        cases hsome
      have hplaced := hres.placed
      cases e with
      | some e =>
        refine ⟨hids, hbuf _ rfl, fun _ => ⟨_, Placed.usable_unmapped ⟨hplaced.logitsSize,
          hplaced.embdSize, hplaced.logits, hplaced.embd⟩ (hle.trans (le_max_left _ _))
          hres.outputIds (hres.outputSwaps.trans hswaps)⟩⟩
      | none =>
        dsimp only
        obtain ⟨swaps, hsorted, hset⟩ := setMappings_spec
          (c := { r.2 with buf := buf, nOutputs := b.nOutputs })
          hsplit.length_outIds hsplit.nodup_outIds hres.outputIds (hres.outputSwaps.trans hswaps)
        rw [hset]
        refine ⟨hids, hbuf _ rfl, fun _ => ⟨max b.nOutputs p.nSeqMax, ?_⟩⟩
        exact Sorted.usable (c := { r.2 with
          buf := buf
          nOutputs := b.nOutputs
          outputIds := mapIds (fun _ => -1) (applySwaps swaps (keysOf s.2.outIds)) b.nOutputs
          outputSwaps := swaps }) hsorted
          ⟨hplaced.logitsSize, hplaced.embdSize, hplaced.logits, hplaced.embd⟩
          (le_max_left _ _) rfl rfl
    · cases e with
      | some e => exact hlost _ rfl hl
      | none =>
        dsimp only at hend ⊢
        generalize hset : setMappings s.2.outIds
          { r.2 with buf := buf, nOutputs := b.nOutputs } = mapped at hend ⊢
        cases mapped with
        | none => exact absurd rfl hend
        | some c₂ =>
          obtain ⟨ids, swaps, rfl⟩ := setMappings_frame hset
          exact hlost _ rfl hl

/-- What a call of `decode` can do to a context. -/
lemma decode_cases (p : OutputParams) (env : DecodeEnv α) (inp : BatchInp) (c : OutputCtx α) :
    (c.decode p env inp).2 = c ∨ (c.decode p env inp).2 = { c with outputSwaps := [] } ∨
      ∃ b sp, inp.init env.mem p.nVocab p.nSeqs p.embeddings = some b ∧ b.nTokens ≤ p.nBatch ∧
        b.nTokens ≤ (splitFor p sp b).2.nUsed ∧
        c.decode p env inp = computeBatch p env b (splitFor p sp b) { c with outputSwaps := [] } := by
  unfold decode
  split_ifs
  · exact Or.inl rfl
  · exact Or.inl rfl
  · cases hinit : inp.init env.mem p.nVocab p.nSeqs p.embeddings with
    | none => exact Or.inl rfl
    | some b =>
      dsimp only
      split_ifs with hembd hbatch
      · exact Or.inl rfl
      · exact Or.inl rfl
      · cases hprep : env.initBatch b with
        | error code => exact Or.inr (Or.inl rfl)
        | ok sp =>
          dsimp only
          split_ifs with hused
          · exact Or.inr (Or.inl rfl)
          · exact Or.inr (Or.inr ⟨b, sp, rfl, not_lt.1 hbatch, not_lt.1 hused, rfl⟩)

lemma OutputInv.dropSwaps (h : OutputInv p c) : OutputInv p { c with outputSwaps := [] } := by
  refine ⟨h.nIds, h.noBuffer, fun hsome => ?_⟩
  obtain ⟨nMax, hu⟩ := h.usable hsome
  exact ⟨nMax, ⟨hu.placed.logitsSize, hu.placed.embdSize, hu.placed.logits, hu.placed.embd⟩,
    hu.nOutputs_le, hu.ids_lt, hu.ids_inj, List.forall_mem_nil _⟩

theorem OutputInv.decode {env : DecodeEnv α} {inp : BatchInp} (h : OutputInv p c)
    (hend : (c.decode p env inp).1 ≠ .abort) : OutputInv p (c.decode p env inp).2 := by
  rcases decode_cases p env inp c with heq | heq | ⟨b, sp, -, -, hused, heq⟩
  · rw [heq]
    exact h
  · rw [heq]
    exact h.dropSwaps
  · rw [heq] at hend ⊢
    exact computeBatch_inv (splitInto_splitFor hused) h.dropSwaps rfl hend

lemma OutputInv.outputReorder (h : OutputInv p c) : OutputInv p (c.outputReorder p) := by
  obtain ⟨buf, heq⟩ := outputReorder_frame p c
  rw [heq]
  refine ⟨h.nIds, h.noBuffer, fun hsome => ?_⟩
  obtain ⟨nMax, hu⟩ := h.usable hsome
  exact ⟨nMax, ⟨hu.placed.logitsSize, hu.placed.embdSize, hu.placed.logits, hu.placed.embd⟩,
    hu.nOutputs_le, hu.ids_lt, hu.ids_inj, List.forall_mem_nil _⟩

theorem OutputInv.step {a : OutputAction α} (h : OutputInv p c) (hstep : a.step p c = some c') :
    OutputInv p c' := by
  cases a with
  | decode env inp =>
    obtain ⟨hend, heq⟩ := Option.ite_none_left_eq_some.1 hstep
    obtain rfl := Option.some.inj heq
    exact h.decode hend
  | getLogitsIth i =>
    obtain rfl := Option.some.inj hstep
    exact h.outputReorder
  | getEmbeddingsIth i =>
    obtain rfl := Option.some.inj hstep
    exact h.outputReorder

lemma outputInv_constructed (p : OutputParams) (fresh : ℕ → α) :
    OutputInv p (constructed p fresh) := by
  have hr := outputReserve_reserved p fresh p.nSeqMax (unreserved fresh)
  refine ⟨outputReserve_nIds p (some fresh) p.nSeqMax (unreserved fresh), fun hnone => ?_,
    fun _ => ⟨_, hr.placed.usable_unmapped ?_ hr.outputIds hr.outputSwaps⟩⟩
  · have hsome := hr.bufSize
    rw [show (outputReserve p (some fresh) p.nSeqMax (unreserved fresh)).2.bufSize = none from
      hnone] at hsome
    cases hsome
  · rw [hr.nOutputs]
    exact Nat.zero_le _

theorem outputInv_of_reaches {fresh : ℕ → α} {ok : OutputCtx α → OutputAction α → Prop}
    (h : Reaches (fun c a => OutputAction.step p c a) ok (constructed p fresh) c) :
    OutputInv p c :=
  h.invariant (outputInv_constructed p fresh) fun _ _ _ hinv _ hstep => hinv.step hstep

end OutputCtx

end IFairy
