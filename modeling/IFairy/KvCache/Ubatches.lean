import IFairy.KvCache.Slot
import IFairy.KvCache.SplitSpec

/-!
# The ubatches of a batch

Two properties of the list of ubatches that a memory module prepares.

`SplitsBatch`: the ubatches partition the batch, no ubatch is longer than `n_ubatch`, an equal split
treats the sequence sets alike and `out_ids` lists the outputs.  All of it holds whenever the
splitting ends with all tokens used, except that a round of `split_equal` compares the number of
sets with `n_ubatch` only after it has added one (`splitsBatch_iff`).

`UBatch.Grouped`: the tokens are grouped by sequence in the order of `seq_id_unq`, which
`find_slot` of a cache with several streams asserts.  The splitters of the plain and of the iSWA
cache guarantee it; those of the hybrid memory do for some batches only (`grouped_iff`).
-/

namespace IFairy

open BatchAllocr

/-! ## The partition -/

/-- The ubatches `us` and the output indices are a split of the batch. -/
structure SplitParts (b : Batch) (nEmbd nUbatch : ℕ) (sp : Splitter) (us : List UBatch)
    (outIds : List ℕ) (parts : List (List ℕ)) : Prop where
  /-- Every token is in one part. -/
  perm : parts.flatten.Perm (List.range b.nTokens)
  rows : List.Forall₂ (RowsOf b nEmbd) parts us
  bound : ∀ u ∈ us, u.nTokens ≤ nUbatch
  /-- In an equal split the sequence sets of a part have equally many tokens. -/
  equal : ∀ sequential, sp = .equal sequential → ∀ p ∈ parts, EqualShares b p
  outIds : outIds = parts.flatten.filter fun i => b.logits i

def SplitsBatch (b : Batch) (nEmbd nUbatch : ℕ) (sp : Splitter) (us : List UBatch)
    (outIds : List ℕ) : Prop :=
  ∃ parts, SplitParts b nEmbd nUbatch sp us outIds parts

/-- No round of an equal split leaves the picking loop through
`if (cur_seq_set.size() > n_ubatch) break`. -/
def PicksFit (sp : Splitter) (nUbatch : ℕ) (a : BatchAllocr) : Prop :=
  match sp with
  | .equal sequential => EveryRound (splitEqual nUbatch sequential)
      (fun a => (a.curSeqSets nUbatch sequential).length ≤ nUbatch) (a.batch.nTokens + 1) a
  | _ => True

variable {b : Batch} {a : BatchAllocr} {sp : Splitter} {nUbatch nSeqMax nEmbd nPosPerEmbd : ℕ}

/-- Only a round that picks too many sets exceeds `n_ubatch`. -/
lemma bound_iff_picksFit (hn : 0 < nUbatch) (ha : SplitterInv sp a) :
    (∀ u ∈ (splitAll (sp.split nUbatch) a).1, u.nTokens ≤ nUbatch) ↔ PicksFit sp nUbatch a := by
  cases sp with
  | simple =>
    refine iff_of_true (forall_splitLoop (SplitterInv .simple) (fun a u a' ha h => ?_) _ ha) trivial
    obtain ⟨idxs, -, hbound, heq, hinv, -⟩ := splitSimple_spec ha h
    obtain rfl : u = (a.take idxs idxs.length false).1 := congrArg Prod.fst heq
    refine ⟨hinv, ?_⟩
    rw [take_nTokens]
    omega
  | seq =>
    refine iff_of_true (forall_splitLoop (SplitterInv .seq) (fun a u a' _ h => ?_) _ ha) trivial
    obtain ⟨cur, l, -, -, hbound, -, heq, -⟩ := splitSeq_spec h
    obtain rfl : u = (a.take (cur :: l) 1 true).1 := congrArg Prod.fst heq
    refine ⟨trivial, ?_⟩
    rw [take_nTokens]
    rcases hbound with rfl | hbound
    · exact hn
    · exact hbound
  | equal sequential =>
    unfold PicksFit splitAll Splitter.split
    refine forall_splitLoop_iff (SplitterInv (.equal sequential)) (fun a u a' ha h => ?_) _ a ha
    obtain ⟨js, m, idxs, hparts, -, heq, -⟩ := splitEqual_spec ha h
    obtain rfl : u = (a.take idxs js.length true).1 := congrArg Prod.fst heq
    obtain rfl : a' = (a.take idxs js.length true).2 := congrArg Prod.snd heq
    refine ⟨hparts.usedInOrder ha _ _, ?_⟩
    rw [take_nTokens, hparts.length_eq, hparts.sets, List.length_map]
    have hpos := hparts.pos
    constructor
    · exact fun h => (Nat.le_mul_of_pos_right _ hpos).trans h
    · intro h
      rcases hparts.bound with rfl | hbound
      · rwa [Nat.mul_one]
      · rwa [Nat.mul_comm]

/-- A loop that ends with all tokens used splits the batch, exactly when no round picks too many
sequence sets. -/
theorem splitsBatch_iff (hn : 0 < nUbatch)
    (hall : b.nTokens ≤ (splitRun sp nUbatch nSeqMax nEmbd nPosPerEmbd b).2.nUsed) :
    SplitsBatch b nEmbd nUbatch sp (splitRun sp nUbatch nSeqMax nEmbd nPosPerEmbd b).1
        (splitRun sp nUbatch nSeqMax nEmbd nPosPerEmbd b).2.outIds ↔
      PicksFit sp nUbatch (.reset b nSeqMax nEmbd nPosPerEmbd) := by
  obtain ⟨parts, hparts⟩ := splitRun_parts sp nUbatch nSeqMax nEmbd nPosPerEmbd b
  rw [← bound_iff_picksFit hn (splitterInv_reset sp b nSeqMax nEmbd nPosPerEmbd)]
  constructor
  · rintro ⟨_, hsplit⟩
    exact hsplit.bound
  · intro hle
    exact ⟨parts, hparts.perm rfl hall, hparts.rows, hle, hparts.equal, hparts.outIds⟩

/-- One token of sequence `0` and one of sequence `1`. -/
def twoSequences : BatchInp where
  nTokens := 2
  token := some fun _ => 0
  embd := none
  pos := none
  seqId := some fun i => ⟨i, []⟩
  logits := none

/-- The bounds of a memory without tokens. -/
def MemBounds.empty : MemBounds := ⟨fun _ => -1, fun _ => -1⟩

lemma twoSequences_init :
    twoSequences.init .empty 1 2 false = some (twoSequences.completed .empty false) :=
  BatchInp.init_of_checked (by decide) (by decide +kernel)

theorem splitsBatch_twoSequences :
    ∃ b, twoSequences.init .empty 1 2 false = some b ∧
      SplitsBatch b 0 2 .simple (splitRun .simple 2 2 0 1 b).1
        (splitRun .simple 2 2 0 1 b).2.outIds := by
  have hall : (twoSequences.completed .empty false).nTokens
      ≤ (splitRun .simple 2 2 0 1 (twoSequences.completed .empty false)).2.nUsed := by
    decide +kernel
  exact ⟨_, twoSequences_init, (splitsBatch_iff Nat.two_pos hall).2 trivial⟩

/-- An equal split with `n_ubatch = 1` makes one ubatch of both tokens. -/
theorem not_splitsBatch_twoSequences :
    ∃ b, twoSequences.init .empty 1 2 false = some b ∧
      b.nTokens ≤ (splitRun (.equal true) 1 2 0 1 b).2.nUsed ∧
      ¬ SplitsBatch b 0 1 (.equal true) (splitRun (.equal true) 1 2 0 1 b).1
        (splitRun (.equal true) 1 2 0 1 b).2.outIds := by
  refine ⟨_, twoSequences_init, by decide +kernel, fun ⟨parts, h⟩ => ?_⟩
  have hcount : (splitRun (.equal true) 1 2 0 1
      (twoSequences.completed .empty false)).1.map UBatch.nTokens = [2] := by decide +kernel
  have hmem := hcount ▸ List.mem_singleton_self 2
  obtain ⟨u, hu, htwo⟩ := List.mem_map.1 hmem
  have := h.bound u hu
  omega

/-! ## The order of the sequences -/

/-- The tokens come sequence by sequence in the order of `seq_id_unq`, one sequence each and
equally many of every sequence. -/
def UBatch.Grouped (u : UBatch) : Prop :=
  ∃ m, u.nTokens = u.nSeqsUnq * m ∧
    ∀ s < u.nSeqsUnq, ∀ i < m, u.seqId (s * m + i) = ⟨u.seqIdUnq.getD s 0, []⟩

/-- A grouped ubatch passes the assertions of `find_slot`. -/
lemma UBatch.Grouped.slotAsserts {u : UBatch} (h : u.Grouped) (hn : 0 < u.nTokens)
    (cfg : KvConfig) : KvCache.SlotAsserts cfg u := by
  intro hmany
  obtain ⟨m, hm, hrow⟩ := h
  have hpos : 0 < u.nSeqsUnq := Nat.pos_of_mul_pos_right (hm ▸ hn)
  have htok : KvCache.slotTokens cfg u = m := by
    rw [KvCache.slotTokens, if_pos hmany, hm, Nat.mul_div_cancel_left _ hpos]
  have hmpos : 0 < m := Nat.pos_of_mul_pos_left (hm ▸ hn)
  refine ⟨by rw [hm, Nat.mul_mod_right], fun s hs => ?_⟩
  have hfirst := hrow s hs 0 hmpos
  rw [Nat.add_zero] at hfirst
  rw [htok, hfirst]
  exact ⟨rfl, rfl⟩

/-- Sets that are single sequences in increasing order. -/
def InOrder (sets : List (Finset SeqId)) : Prop :=
  ∃ ids : List SeqId, ids.Pairwise (· < ·) ∧ sets = ids.map fun s => {s}

section Take

variable {idxs js : List ℕ} {nSeqs m : ℕ} {equalSeqs sequential : Bool}

lemma seqSet_of_tail {b : Batch} {i : ℕ} (h : (b.seqId i).tail = []) :
    b.seqSet i = {(b.seqId i).head} := by
  rw [Batch.seqSet, SeqIds.toList, h]
  rfl

lemma inOrder_map_singleton {ids : List SeqId} :
    InOrder (ids.map fun s => {s}) ↔ ids.Pairwise (· < ·) := by
  constructor
  · rintro ⟨ids', hids', heq⟩
    rwa [(List.map_injective_iff.2 Finset.singleton_injective) heq]
  · exact fun h => ⟨ids, h, rfl⟩

section Equal

variable (ha : a.UsedInOrder) (hone : ∀ i < a.batch.nTokens, (a.batch.seqId i).tail = [])
  (hmax : ∀ i < a.batch.nTokens, (a.batch.seqId i).head.val < a.nSeqMax)
  (h : a.EqualParts nUbatch sequential js m idxs)

include ha hone h

lemma equalParts_seqId {s i j : ℕ} (hi : i < m) (hs : js[s]? = some j) :
    (a.take idxs nSeqs equalSeqs).1.seqId (s * m + i) = ⟨(a.batch.seqId j).head, []⟩ := by
  have hj := List.mem_of_getElem? hs
  have hlen : i < (a.chunk m j).length := (h.length_chunk j hj).symm ▸ hi
  have hrow : idxs[s * m + i]? = some (a.chunk m j)[i] := by
    rw [h.eq, getElem?_flatMap_of_length hi js h.length_chunk, hs]
    exact List.getElem?_eq_getElem hlen
  obtain ⟨hlt, hset, -⟩ := mem_chunk ha (List.getElem_mem hlen)
  have htail := hone _ hlt
  rw [seqSet_of_tail htail, seqSet_of_tail (hone j (h.picked.unused j hj).1),
    Finset.singleton_inj] at hset
  rw [(take_rows a idxs nSeqs equalSeqs).seqId _ _ hrow, ← hset, ← htail]

include hmax

lemma equalParts_mem_seqIdUnq {s : SeqId} :
    s ∈ (a.take idxs nSeqs equalSeqs).1.seqIdUnq ↔ s ∈ js.map fun j => (a.batch.seqId j).head := by
  have hset : ∀ {i j}, j ∈ js → i ∈ a.chunk m j →
      a.batch.seqSet i = {(a.batch.seqId j).head} := fun hj hi =>
    (mem_chunk ha hi).2.1.trans (seqSet_of_tail (hone _ (h.picked.unused _ hj).1))
  rw [mem_take_seqIdUnq, h.eq, List.mem_map]
  constructor
  · rintro ⟨-, i, hi, hs⟩
    obtain ⟨j, hj, hij⟩ := List.mem_flatMap.1 hi
    rw [hset hj hij, Finset.mem_singleton] at hs
    exact ⟨j, hj, hs.symm⟩
  · rintro ⟨j, hj, rfl⟩
    obtain ⟨i, hi⟩ := List.exists_mem_of_length_pos (h.length_chunk j hj ▸ h.pos)
    refine ⟨hmax j (h.picked.unused j hj).1, i, List.mem_flatMap_of_mem hj hi, ?_⟩
    rw [hset hj hi]
    exact Finset.mem_singleton_self _

/-- An equal split of tokens of one sequence each is grouped when the sequences are picked in
increasing order. -/
lemma equalParts_grouped_iff :
    (a.take idxs js.length equalSeqs).1.Grouped ↔ InOrder (a.curSeqSets nUbatch sequential) := by
  set u := (a.take idxs js.length equalSeqs).1 with hu
  set ids := js.map fun j => (a.batch.seqId j).head with hids
  have hsets : a.curSeqSets nUbatch sequential = ids.map fun s => {s} := by
    rw [h.sets, hids, List.map_map]
    exact List.map_congr_left fun j hj => seqSet_of_tail (hone j (h.picked.unused j hj).1)
  have hmem : ∀ s, s ∈ u.seqIdUnq ↔ s ∈ ids := fun s => equalParts_mem_seqIdUnq ha hone hmax h
  have hunq : u.seqIdUnq.Pairwise (· < ·) := take_seqIdUnq_increasing ..
  have htokens : u.nTokens = js.length * m := h.length_eq
  have hrow : ∀ s i, i < m → s < js.length → u.seqId (s * m + i) = ⟨ids.getD s 0, []⟩ := by
    intro s i hi hs
    rw [hu, equalParts_seqId ha hone h hi (List.getElem?_eq_getElem hs), hids,
      List.getD_eq_getElem _ _ (by simpa using hs), List.getElem_map]
  have hlen : ids.length = js.length := List.length_map _
  rw [hsets, inOrder_map_singleton]
  constructor
  · rintro ⟨m', hm', hrow'⟩
    have hnodup : ids.Nodup := by
      refine List.Nodup.map_on (fun i hi j hj heq => ?_)
        (h.picked.increasing.imp fun hij => Nat.ne_of_lt hij)
      refine h.picked.seqSet_inj hi hj ?_
      rw [seqSet_of_tail (hone i (h.picked.unused i hi).1),
        seqSet_of_tail (hone j (h.picked.unused j hj).1), heq]
    have hcount : u.nSeqsUnq = js.length := by
      rw [← hlen]
      exact ((List.perm_ext_iff_of_nodup (hunq.imp fun hij => hij.ne) hnodup).2 hmem).length_eq
    have hpos : 0 < js.length := List.length_pos_of_ne_nil h.ne_nil
    obtain rfl : m = m' := by
      rw [htokens, hcount] at hm'
      exact Nat.eq_of_mul_eq_mul_left hpos hm'
    have heq : u.seqIdUnq = ids := by
      refine List.ext_getElem (hcount.trans hlen.symm) fun s hs hs' => ?_
      have hsjs : s < js.length := hlen ▸ hs'
      have := (hrow' s hs 0 h.pos).symm.trans (hrow s 0 h.pos hsjs)
      rw [List.getD_eq_getElem _ _ hs, List.getD_eq_getElem _ _ hs'] at this
      exact congrArg SeqIds.head this
    rwa [← heq]
  · intro hsorted
    have heq : u.seqIdUnq = ids := hunq.eq_of_mem_iff hsorted hmem
    have hcount : u.nSeqsUnq = js.length := by rw [UBatch.nSeqsUnq, heq, hlen]
    refine ⟨m, hcount ▸ htokens, fun s hs i hi => ?_⟩
    rw [heq, hrow s i hi (hcount ▸ hs)]

end Equal

end Take

/-! ## The memory modules -/

/-- The memory modules with an attention cache; `init_batch` of the hybrid memory is told whether
all tokens are outputs. -/
inductive MemoryKind
  | kvCache
  | kvCacheIswa
  | hybrid (embdAll : Bool)

/-- The splitters that `init_batch` tries, in order. -/
def MemoryKind.splitters (cfg : KvConfig) : MemoryKind → List Splitter
  | .kvCache => [if cfg.nStream = 1 then .simple else .equal true]
  | .kvCacheIswa => if cfg.unified then [.simple, .equal false] else [.equal true]
  | .hybrid embdAll => [if embdAll then .seq else .equal false]

/-- The batches for which `init_batch` hands out the sequences in order: every batch, and for the
hybrid memory those without coupled sequences of which every round of `split_equal` picks the
sequences in increasing order. -/
def SequencesInOrder (kind : MemoryKind) (nUbatch : ℕ) (a : BatchAllocr) : Prop :=
  match kind with
  | .hybrid embdAll => ¬ a.batch.HasCpl ∧ (embdAll = false →
      EveryRound (splitEqual nUbatch false) (fun a => InOrder (a.curSeqSets nUbatch false))
        (a.batch.nTokens + 1) a)
  | _ => True

lemma UBatch.Grouped.tail {u : UBatch} (h : u.Grouped) {i : ℕ} (hi : i < u.nTokens) :
    (u.seqId i).tail = [] := by
  obtain ⟨m, hm, hrow⟩ := h
  rw [hm] at hi
  have hmpos : 0 < m := Nat.pos_of_mul_pos_left (Nat.zero_lt_of_lt hi)
  have := hrow (i / m) (Nat.div_lt_of_lt_mul (by rwa [Nat.mul_comm])) (i % m) (Nat.mod_lt _ hmpos)
  rw [Nat.div_add_mod'] at this
  rw [this]

lemma tail_of_not_hasCpl {b : Batch} (h : ¬ b.HasCpl) {i : ℕ} (hi : i < b.nTokens) :
    (b.seqId i).tail = [] :=
  by_contra fun htail => h ⟨i, hi, htail⟩

lemma not_hasCpl_of_grouped
    (hall : b.nTokens ≤ (splitRun sp nUbatch nSeqMax nEmbd nPosPerEmbd b).2.nUsed)
    (h : ∀ u ∈ (splitRun sp nUbatch nSeqMax nEmbd nPosPerEmbd b).1, u.Grouped) :
    ¬ b.HasCpl := by
  rintro ⟨i, hi, htail⟩
  obtain ⟨parts, hparts⟩ := splitRun_parts sp nUbatch nSeqMax nEmbd nPosPerEmbd b
  have hmem : i ∈ parts.flatten := (hparts.perm rfl hall).mem_iff.2 (List.mem_range.2 hi)
  obtain ⟨u, hu, idxs, hrows, hmem'⟩ := hparts.exists_ubatch hmem
  obtain ⟨t, ht⟩ := List.getElem?_of_mem hmem'
  obtain ⟨hlt, -⟩ := List.getElem?_eq_some_iff.1 ht
  have hseq : u.seqId t = b.seqId i := hrows.seqId t i ht
  exact htail (hseq ▸ (h u hu).tail (hrows.nTokens.symm ▸ hlt))

/-- The allocator while batch `b` is split. -/
def Splitting (b : Batch) (nSeqMax : ℕ) (sp : Splitter) (a : BatchAllocr) : Prop :=
  SplitterInv sp a ∧ a.batch = b ∧ a.nSeqMax = nSeqMax

section Accepted

variable {mem : MemBounds} {u : UBatch} {a' : BatchAllocr}

/-- The ubatches of `split_equal` of a batch without coupled sequences. -/
lemma grouped_iff_of_splitEqual (hacc : b.Accepted mem nSeqMax) (hcpl : ¬ b.HasCpl)
    {sequential : Bool} (ha : Splitting b nSeqMax (.equal sequential) a)
    (h : a.splitEqual nUbatch sequential = some (u, a')) :
    Splitting b nSeqMax (.equal sequential) a' ∧
      (u.Grouped ↔ InOrder (a.curSeqSets nUbatch sequential)) := by
  obtain ⟨hinv, rfl, rfl⟩ := ha
  obtain ⟨js, m, idxs, hparts, -, heq, -⟩ := splitEqual_spec hinv h
  obtain rfl : u = (a.take idxs js.length true).1 := congrArg Prod.fst heq
  obtain rfl : a' = (a.take idxs js.length true).2 := congrArg Prod.snd heq
  refine ⟨⟨hparts.usedInOrder hinv _ _, rfl, rfl⟩, ?_⟩
  exact equalParts_grouped_iff hinv (fun i hi => tail_of_not_hasCpl hcpl hi)
    (fun i hi => hacc.seqId_lt i hi _ (a.batch.seqId i).head_mem) hparts

lemma inOrder_of_sequential (hcpl : ¬ a.batch.HasCpl) : InOrder (a.curSeqSets nUbatch true) := by
  obtain ⟨js, hpicked, hsets, -, -⟩ := curSeqSets_spec a nUbatch true
  obtain ⟨s, hs⟩ := hpicked.consecutive rfl
  refine ⟨js.map fun j => (a.batch.seqId j).head, ?_, ?_⟩
  · rw [List.pairwise_map]
    have hlt := List.pairwise_lt_range' (s := s) (n := js.length)
    rw [← hs, List.pairwise_map] at hlt
    exact hlt
  · rw [hsets, List.map_map]
    exact List.map_congr_left fun j hj =>
      seqSet_of_tail (tail_of_not_hasCpl hcpl (hpicked.unused j hj).1)

/-- `split_seq` of a batch without coupled sequences follows one sequence. -/
lemma grouped_of_splitSeq (hacc : b.Accepted mem nSeqMax) (hcpl : ¬ b.HasCpl)
    (ha : Splitting b nSeqMax .seq a) (h : a.splitSeq nUbatch = some (u, a')) :
    Splitting b nSeqMax .seq a' ∧ u.Grouped := by
  obtain ⟨-, rfl, rfl⟩ := ha
  obtain ⟨cur, l, -, hchosen, -, hsub, heq, -⟩ := splitSeq_spec h
  obtain rfl : u = (a.take (cur :: l) 1 true).1 := congrArg Prod.fst heq
  obtain rfl : a' = (a.take (cur :: l) 1 true).2 := congrArg Prod.snd heq
  refine ⟨⟨trivial, rfl, rfl⟩, ?_⟩
  set s := (a.batch.seqId cur).head with hs
  have htail : ∀ j ∈ cur :: l, (a.batch.seqId j).tail = [] := fun j hj =>
    tail_of_not_hasCpl hcpl (hchosen.unused j hj).1
  have hcur : a.batch.seqSet cur = {s} := seqSet_of_tail (htail cur List.mem_cons_self)
  have hhead : ∀ j ∈ cur :: l, (a.batch.seqId j).head = s := by
    intro j hj
    rcases List.mem_cons.1 hj with rfl | hj
    · rfl
    · exact Finset.mem_singleton.1 (hcur ▸ hsub j hj (head_mem_seqSet a.batch j))
  have hunq : (a.take (cur :: l) 1 true).1.seqIdUnq = [s] := by
    refine (take_seqIdUnq_increasing ..).eq_of_mem_iff (List.pairwise_singleton _ _) fun t => ?_
    rw [mem_take_seqIdUnq, List.mem_singleton]
    constructor
    · rintro ⟨-, j, hj, ht⟩
      rw [seqSet_of_tail (htail j hj), hhead j hj] at ht
      exact Finset.mem_singleton.1 ht
    · rintro rfl
      refine ⟨?_, cur, List.mem_cons_self, head_mem_seqSet a.batch cur⟩
      exact hacc.seqId_lt cur (hchosen.unused cur List.mem_cons_self).1 _
        (a.batch.seqId cur).head_mem
  refine ⟨(cur :: l).length, ?_, fun t ht i hi => ?_⟩
  · rw [UBatch.nSeqsUnq, hunq, List.length_singleton, Nat.one_mul, take_nTokens]
  · rw [UBatch.nSeqsUnq, hunq, List.length_singleton, Nat.lt_one_iff] at ht
    have hrow := (take_rows a (cur :: l) 1 true).seqId i _ (List.getElem?_eq_getElem hi)
    have hmem : (cur :: l)[i] ∈ cur :: l := List.getElem_mem hi
    rw [ht, Nat.zero_mul, Nat.zero_add, hrow, hunq, ← htail _ hmem]
    change _ = SeqIds.mk s _
    rw [← hhead _ hmem]

lemma splitting_reset (sp : Splitter) (b : Batch) (nSeqMax nEmbd nPosPerEmbd : ℕ) :
    Splitting b nSeqMax sp (.reset b nSeqMax nEmbd nPosPerEmbd) :=
  ⟨splitterInv_reset sp b nSeqMax nEmbd nPosPerEmbd, rfl, rfl⟩

lemma grouped_splitRun_sequential (hacc : b.Accepted mem nSeqMax) :
    ∀ u ∈ (splitRun (.equal true) nUbatch nSeqMax nEmbd nPosPerEmbd b).1, u.Grouped := by
  refine forall_splitLoop (Splitting b nSeqMax (.equal true)) (fun a u a' ha h => ?_) _
    (splitting_reset ..)
  obtain ⟨-, -, -, -, hcpl, -⟩ := splitEqual_spec ha.1 h
  have hcpl' : ¬ a.batch.HasCpl := fun hc => hcpl ⟨rfl, hc⟩
  obtain ⟨ha', hiff⟩ := grouped_iff_of_splitEqual hacc (ha.2.1 ▸ hcpl') ha h
  exact ⟨ha', hiff.2 (inOrder_of_sequential hcpl')⟩

lemma grouped_splitRun_seq (hacc : b.Accepted mem nSeqMax) (hcpl : ¬ b.HasCpl) :
    ∀ u ∈ (splitRun .seq nUbatch nSeqMax nEmbd nPosPerEmbd b).1, u.Grouped :=
  forall_splitLoop (Splitting b nSeqMax .seq)
    (fun _ _ _ ha h => grouped_of_splitSeq hacc hcpl ha h) _ (splitting_reset ..)

lemma grouped_splitRun_equal_iff (hacc : b.Accepted mem nSeqMax) (hcpl : ¬ b.HasCpl) :
    (∀ u ∈ (splitRun (.equal false) nUbatch nSeqMax nEmbd nPosPerEmbd b).1, u.Grouped) ↔
      EveryRound (splitEqual nUbatch false) (fun a => InOrder (a.curSeqSets nUbatch false))
        (b.nTokens + 1) (.reset b nSeqMax nEmbd nPosPerEmbd) := by
  exact forall_splitLoop_iff (Splitting b nSeqMax (.equal false))
    (fun a u a' ha h => grouped_iff_of_splitEqual hacc hcpl ha h) _ _ (splitting_reset ..)

/-- The ubatches that `init_batch` prepares for a cache with several streams are grouped, and so
pass the assertions of `find_slot`, exactly when the memory hands out the sequences in order. -/
theorem grouped_iff_sequencesInOrder (kind : MemoryKind) {cfg : KvConfig} (hmany : 1 < cfg.nStream)
    (hacc : b.Accepted mem cfg.nSeqMax) (hsp : sp ∈ kind.splitters cfg) {us : List UBatch}
    (h : splitBatch sp nUbatch cfg.nSeqMax nEmbd nPosPerEmbd b = some us) :
    (∀ u ∈ us, u.Grouped ∧ KvCache.SlotAsserts cfg u) ↔
      SequencesInOrder kind nUbatch (.reset b cfg.nSeqMax nEmbd nPosPerEmbd) := by
  obtain ⟨hall, rfl⟩ := splitBatch_eq_some_iff.1 h
  set us := (splitRun sp nUbatch cfg.nSeqMax nEmbd nPosPerEmbd b).1 with hus
  have hpos : ∀ u ∈ us, 0 < u.nTokens := splitRun_nTokens_pos _ _ _ _ _ _
  have hasserts : (∀ u ∈ us, u.Grouped ∧ KvCache.SlotAsserts cfg u) ↔ ∀ u ∈ us, u.Grouped :=
    ⟨fun h u hu => (h u hu).1, fun h u hu => ⟨h u hu, (h u hu).slotAsserts (hpos u hu) cfg⟩⟩
  have hunified : cfg.unified = false := by
    by_contra hu
    rw [KvConfig.nStream, if_pos (by simpa using hu)] at hmany
    exact lt_irrefl 1 hmany
  rw [hasserts]
  cases kind with
  | kvCache =>
    obtain rfl : sp = .equal true := by
      rw [MemoryKind.splitters, if_neg hmany.ne'] at hsp
      exact List.mem_singleton.1 hsp
    exact iff_of_true (grouped_splitRun_sequential hacc) trivial
  | kvCacheIswa =>
    obtain rfl : sp = .equal true := by
      rw [MemoryKind.splitters, hunified] at hsp
      exact List.mem_singleton.1 hsp
    exact iff_of_true (grouped_splitRun_sequential hacc) trivial
  | hybrid embdAll =>
    have hcpl : (∀ u ∈ us, u.Grouped) → ¬ b.HasCpl := not_hasCpl_of_grouped hall
    cases embdAll with
    | false =>
      obtain rfl : sp = .equal false := List.mem_singleton.1 hsp
      constructor
      · intro hgrouped
        exact ⟨hcpl hgrouped, fun _ =>
          (grouped_splitRun_equal_iff hacc (hcpl hgrouped)).1 hgrouped⟩
      · rintro ⟨hno, hround⟩
        exact (grouped_splitRun_equal_iff hacc hno).2 (hround rfl)
    | true =>
      obtain rfl : sp = .seq := List.mem_singleton.1 hsp
      constructor
      · intro hgrouped
        exact ⟨hcpl hgrouped, fun h => by cases h⟩
      · rintro ⟨hno, -⟩
        exact grouped_splitRun_seq hacc hno

end Accepted

/-- A cache with one stream for each of two sequences. -/
def twoStreams : KvConfig := .basic false 2 4 Nat.two_pos two_le_llamaMaxSeq

lemma twoSequences_accepted : (twoSequences.completed .empty false).Accepted .empty 2 :=
  (BatchInp.init_eq_some Nat.two_pos twoSequences_init).1

theorem grouped_twoSequences :
    ∃ us, splitBatch (.equal true) 4 2 0 1 (twoSequences.completed .empty false) = some us ∧
      ∀ u ∈ us, u.Grouped ∧ KvCache.SlotAsserts twoStreams u := by
  have hsplit := splitBatch_eq_some_iff.2 ⟨(by decide +kernel :
    (twoSequences.completed .empty false).nTokens
      ≤ (splitRun (.equal true) 4 2 0 1 (twoSequences.completed .empty false)).2.nUsed), rfl⟩
  have hsp : Splitter.equal true ∈ MemoryKind.kvCache.splitters twoStreams :=
    List.mem_singleton_self _
  have hmany : 1 < twoStreams.nStream := by decide
  exact ⟨_, hsplit,
    (grouped_iff_sequencesInOrder .kvCache hmany twoSequences_accepted hsp hsplit).2 trivial⟩

/-- A token of sequence `1` before one of sequence `0`. -/
def reversedSequences : BatchInp := { twoSequences with seqId := some fun i => ⟨1 - i, []⟩ }

/-- The hybrid memory hands the sequences out in the order of the batch. -/
theorem not_grouped_reversedSequences :
    ∃ b us, reversedSequences.init .empty 1 2 false = some b ∧
      .equal false ∈ (MemoryKind.hybrid false).splitters twoStreams ∧
      splitBatch (.equal false) 4 2 0 1 b = some us ∧
      ¬ ∀ u ∈ us, KvCache.SlotAsserts twoStreams u := by
  have hinit : reversedSequences.init .empty 1 2 false
      = some (reversedSequences.completed .empty false) :=
    BatchInp.init_of_checked (by decide) (by decide +kernel)
  have hsplit := splitBatch_eq_some_iff.2 ⟨(by decide +kernel :
    (reversedSequences.completed .empty false).nTokens
      ≤ (splitRun (.equal false) 4 2 0 1 (reversedSequences.completed .empty false)).2.nUsed), rfl⟩
  refine ⟨_, _, hinit, List.mem_singleton_self _, hsplit, ?_⟩
  decide +kernel

end IFairy
