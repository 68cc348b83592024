import IFairy.Framework.Loops
import IFairy.KvCache.Split
import Mathlib.Data.List.GetD

/-!
# What the splitters choose

Each splitter chooses unused tokens of the batch and none twice (`Chosen`).  For two of them this
rests on the order in which earlier rounds have used the tokens: `split_simple` uses a prefix of the
batch, `split_equal` a prefix of the tokens of every sequence set (`SplitterInv`).  The rule for
the loop over a splitter is `forall_splitLoop_iff`; the tokens that a whole loop uses are collected
by `splitLoop_parts`.
-/

namespace IFairy

/-- Row `row` of the batch is row `i` of the ubatch for every entry `row` of `idxs` at `i`. -/
structure RowsOf (b : Batch) (nEmbd : ℕ) (idxs : List ℕ) (u : UBatch) : Prop where
  nTokens : u.nTokens = idxs.length
  token : ∀ i row, idxs[i]? = some row → u.token.map (· i) = b.token.map (· row)
  embd : ∀ i row, idxs[i]? = some row → ∀ e < nEmbd,
    u.embd.map (· (i * nEmbd + e)) = b.embd.map (· (row * nEmbd + e))
  pos : ∀ i row, idxs[i]? = some row → ∀ j,
    u.pos (j * u.nTokens + i) = b.pos (j * b.nTokens + row)
  seqId : ∀ i row, idxs[i]? = some row → u.seqId i = b.seqId row
  output : ∀ i row, idxs[i]? = some row → u.output i = b.logits row

/-- The sequence sets of the tokens `idxs` have equally many tokens. -/
def EqualShares (b : Batch) (idxs : List ℕ) : Prop :=
  ∀ i ∈ idxs, ∀ i' ∈ idxs, (idxs.filter fun j => b.seqSet j = b.seqSet i).length
    = (idxs.filter fun j => b.seqSet j = b.seqSet i').length

namespace BatchAllocr

variable {a a' : BatchAllocr} {u : UBatch} {idxs : List ℕ} {nUbatch n fuel : ℕ}

/-- Some unused tokens, none of them twice. -/
structure Chosen (a : BatchAllocr) (idxs : List ℕ) : Prop where
  ne_nil : idxs ≠ []
  nodup : idxs.Nodup
  unused : ∀ i ∈ idxs, i < a.batch.nTokens ∧ i ∉ a.used

/-- The ubatch and the allocator after the tokens `idxs` were chosen. -/
def take (a : BatchAllocr) (idxs : List ℕ) (nSeqs : ℕ) (equalSeqs : Bool) : UBatch × BatchAllocr :=
  (a.markUsed idxs).ubatchAdd idxs nSeqs equalSeqs

section Take

variable (a idxs) (nSeqs : ℕ) (equalSeqs : Bool)

@[simp] lemma take_batch : (a.take idxs nSeqs equalSeqs).2.batch = a.batch := rfl

@[simp] lemma take_nEmbd : (a.take idxs nSeqs equalSeqs).2.nEmbd = a.nEmbd := rfl

@[simp] lemma take_nSeqMax : (a.take idxs nSeqs equalSeqs).2.nSeqMax = a.nSeqMax := rfl

@[simp] lemma take_used : (a.take idxs nSeqs equalSeqs).2.used = a.used ∪ idxs.toFinset := rfl

@[simp] lemma take_nUsed : (a.take idxs nSeqs equalSeqs).2.nUsed = a.nUsed + idxs.length := rfl

@[simp] lemma take_outIds :
    (a.take idxs nSeqs equalSeqs).2.outIds = a.outIds ++ idxs.filter fun i => a.batch.logits i := rfl

@[simp] lemma take_nTokens : (a.take idxs nSeqs equalSeqs).1.nTokens = idxs.length := rfl

lemma take_seqIdUnq :
    (a.take idxs nSeqs equalSeqs).1.seqIdUnq = (List.finRange llamaMaxSeq).filter fun s =>
      s.val < a.nSeqMax ∧ ∃ i ∈ idxs, s ∈ a.batch.seqSet i := by
  simp only [take, ubatchAdd, markUsed]
  exact List.filter_congr fun s _ => decide_eq_decide.2 Iff.rfl

lemma take_seqIdUnq_increasing : (a.take idxs nSeqs equalSeqs).1.seqIdUnq.Pairwise (· < ·) := by
  rw [take_seqIdUnq]
  exact (List.pairwise_lt_finRange llamaMaxSeq).filter _

lemma mem_take_seqIdUnq {s : SeqId} : s ∈ (a.take idxs nSeqs equalSeqs).1.seqIdUnq ↔
    s.val < a.nSeqMax ∧ ∃ i ∈ idxs, s ∈ a.batch.seqSet i := by
  rw [take_seqIdUnq, List.mem_filter, decide_eq_true_iff]
  exact and_iff_right (List.mem_finRange s)

lemma take_rows : RowsOf a.batch a.nEmbd idxs (a.take idxs nSeqs equalSeqs).1 := by
  have hrow : ∀ i row, idxs[i]? = some row → i < idxs.length ∧ idxs.getD i 0 = row := by
    intro i row h
    obtain ⟨hi, rfl⟩ := List.getElem?_eq_some_iff.1 h
    exact ⟨hi, List.getD_eq_getElem _ _ hi⟩
  refine ⟨rfl, fun i row h => ?_, fun i row h e he => ?_, fun i row h j => ?_, fun i row h => ?_,
    fun i row h => ?_⟩
  all_goals obtain ⟨hi, hget⟩ := hrow i row h
  · change (a.batch.token.map fun token i => token (idxs.getD i 0)).map (· i) = _
    rw [Option.map_map, ← hget]
    rfl
  · change (a.batch.embd.map fun embd q =>
      embd (idxs.getD (q / a.nEmbd) 0 * a.nEmbd + q % a.nEmbd)).map (· (i * a.nEmbd + e)) = _
    obtain ⟨hdiv, hmod⟩ := mul_add_div_mod (a := i) he
    rw [Option.map_map, ← hget]
    simp only [Function.comp_def, hdiv, hmod]
  · obtain ⟨hdiv, hmod⟩ := mul_add_div_mod (a := j) hi
    change a.batch.pos ((j * idxs.length + i) / idxs.length * a.batch.nTokens
      + idxs.getD ((j * idxs.length + i) % idxs.length) 0) = _
    rw [hdiv, hmod, hget]
  · exact congrArg a.batch.seqId hget
  · exact congrArg a.batch.logits hget

end Take

lemma firstUnused_eq_some {cur : ℕ} (h : a.firstUnused = some cur) :
    cur < a.batch.nTokens ∧ cur ∉ a.used ∧ ∀ i < cur, i ∈ a.used := by
  obtain ⟨hcur, hlt, hbefore⟩ := List.find?_range_eq_some.1 h
  rw [List.mem_range] at hlt
  exact ⟨hlt, of_decide_eq_true hcur, fun i hi => by simpa using hbefore i hi⟩

lemma simpleLoop_eq (n nUbatch fuel : ℕ) : ∀ (cur : ℕ) (idxs : List ℕ), cur < n → n ≤ cur + fuel →
    ∃ m, 0 < m ∧ cur + m ≤ n ∧ (m = 1 ∨ idxs.length + m ≤ nUbatch) ∧
      simpleLoop n nUbatch fuel cur idxs = idxs ++ List.range' cur m := by
  induction fuel with
  | zero =>
    intro cur idxs hcur hfuel
    omega
  | succ fuel ih =>
    intro cur idxs hcur hfuel
    simp only [simpleLoop]
    by_cases hend : n ≤ cur + 1
    · rw [if_pos hend]
      exact ⟨1, Nat.one_pos, hcur, .inl rfl, rfl⟩
    · rw [if_neg hend]
      by_cases hfull : nUbatch ≤ (idxs ++ [cur]).length
      · rw [if_pos hfull]
        exact ⟨1, Nat.one_pos, hcur, .inl rfl, rfl⟩
      · rw [if_neg hfull]
        obtain ⟨m, hm, hle, hbound, heq⟩ := ih (cur + 1) (idxs ++ [cur]) (by omega) (by omega)
        rw [List.length_append, List.length_singleton] at hbound hfull
        refine ⟨m + 1, m.succ_pos, by omega, .inr (by omega), heq.trans ?_⟩
        rw [List.range'_succ, List.append_assoc]
        rfl

/-- Only a prefix of the batch has been used. -/
def UsedPrefix (a : BatchAllocr) : Prop := ∃ k, a.used = Finset.range k

lemma splitSimple_eq {k : ℕ} (hk : a.used = Finset.range k) {r : UBatch × BatchAllocr}
    (h : a.splitSimple nUbatch = some r) :
    ∃ m, 0 < m ∧ k + m ≤ a.batch.nTokens ∧ (m = 1 ∨ m ≤ nUbatch) ∧
      Splitter.simple.picks nUbatch a = List.range' k m ∧
      r = a.take (List.range' k m) (List.range' k m).length false := by
  obtain ⟨cur, hcur, rfl⟩ := Option.map_eq_some_iff.1 h
  obtain ⟨hlt, hfree, hbefore⟩ := firstUnused_eq_some hcur
  obtain rfl : k = cur := by
    refine le_antisymm (not_lt.1 fun hlt' => hfree ?_) (not_lt.1 fun hlt' => ?_)
    · rw [hk, Finset.mem_range]
      exact hlt'
    · have := hbefore k hlt'
      rw [hk, Finset.mem_range] at this
      exact lt_irrefl k this
  obtain ⟨m, hm, hle, hbound, heq⟩ :=
    simpleLoop_eq a.batch.nTokens nUbatch a.batch.nTokens k [] hlt (by omega)
  rw [List.nil_append] at heq
  rw [List.length_nil, Nat.zero_add] at hbound
  refine ⟨m, hm, hle, hbound, ?_, ?_⟩
  · simp only [Splitter.picks, hcur, heq]
  · rw [heq]
    rfl

lemma used_take_range {k : ℕ} (hk : a.used = Finset.range k) (m nSeqs : ℕ) (equalSeqs : Bool) :
    (a.take (List.range' k m) nSeqs equalSeqs).2.used = Finset.range (k + m) := by
  rw [take_used, hk]
  ext i
  rw [Finset.mem_union, Finset.mem_range, List.mem_toFinset, List.mem_range'_1, Finset.mem_range]
  omega

lemma splitSimple_spec (ha : a.UsedPrefix) {r : UBatch × BatchAllocr}
    (h : a.splitSimple nUbatch = some r) :
    ∃ idxs, a.Chosen idxs ∧ (idxs.length = 1 ∨ idxs.length ≤ nUbatch) ∧
      r = a.take idxs idxs.length false ∧ r.2.UsedPrefix ∧
      Splitter.simple.picks nUbatch a = idxs ∧ idxs.Pairwise (· < ·) := by
  obtain ⟨k, hk⟩ := ha
  obtain ⟨m, hm, hle, hbound, hpicks, rfl⟩ := splitSimple_eq hk h
  refine ⟨List.range' k m, ⟨?_, List.nodup_range', fun i hi => ?_⟩, ?_, rfl,
    ⟨k + m, used_take_range hk ..⟩, hpicks, List.pairwise_lt_range'⟩
  · rw [ne_eq, List.range'_eq_nil_iff]
    omega
  · rw [List.mem_range'_1] at hi
    rw [hk, Finset.mem_range]
    omega
  · rw [List.length_range']
    exact hbound

/-! ## `split_seq` -/

lemma nextSeq_eq_some {cur j : ℕ} {S : Finset SeqId} (h : a.nextSeq cur S = some j) :
    cur < j ∧ j < a.batch.nTokens ∧ j ∉ a.used ∧ a.batch.seqSet j ⊆ S := by
  have hmem := List.mem_of_find?_eq_some h
  have hcond := List.find?_some h
  rw [List.mem_range'_1] at hmem
  obtain ⟨hfree, hsub⟩ := of_decide_eq_true hcond
  exact ⟨by omega, by omega, hfree, Finset.inter_eq_right.1 hsub⟩

lemma seqLoop_eq (a : BatchAllocr) (nUbatch fuel : ℕ) : ∀ (cur : ℕ) (idxs : List ℕ), cur < a.batch.nTokens →
    cur ∉ a.used → a.batch.nTokens ≤ cur + fuel →
    ∃ l, (∀ j ∈ cur :: l, j < a.batch.nTokens ∧ j ∉ a.used) ∧
      (cur :: l).Pairwise (fun i j => i < j ∧ a.batch.seqSet j ⊆ a.batch.seqSet i) ∧
      (l = [] ∨ idxs.length + (l.length + 1) ≤ nUbatch) ∧
      a.seqLoop nUbatch fuel cur idxs = idxs ++ cur :: l := by
  induction fuel with
  | zero =>
    intro cur idxs hcur _ hfuel
    omega
  | succ fuel ih =>
    intro cur idxs hcur hfree hfuel
    have hone : ∀ j ∈ [cur], j < a.batch.nTokens ∧ j ∉ a.used := by
      intro j hj
      rw [List.mem_singleton.1 hj]
      exact ⟨hcur, hfree⟩
    simp only [seqLoop]
    by_cases hfull : nUbatch ≤ (idxs ++ [cur]).length
    · rw [if_pos hfull]
      exact ⟨[], hone, List.pairwise_singleton _ _, .inl rfl, rfl⟩
    · rw [if_neg hfull]
      cases hnext : a.nextSeq cur (a.batch.seqSet cur) with
      | none => exact ⟨[], hone, List.pairwise_singleton _ _, .inl rfl, rfl⟩
      | some j =>
        obtain ⟨hlt, hj, hjfree, hsub⟩ := nextSeq_eq_some hnext
        obtain ⟨l, hl, hpair, hbound, heq⟩ := ih j (idxs ++ [cur]) hj hjfree (by omega)
        rw [List.length_append, List.length_singleton] at hbound hfull
        refine ⟨j :: l, ?_, List.pairwise_cons.2 ⟨?_, hpair⟩, .inr ?_, ?_⟩
        · exact List.forall_mem_cons.2 ⟨⟨hcur, hfree⟩, hl⟩
        · intro i hi
          rcases List.mem_cons.1 hi with rfl | hi
          · exact ⟨hlt, hsub⟩
          · obtain ⟨hji, hsub'⟩ := (List.pairwise_cons.1 hpair).1 i hi
            exact ⟨hlt.trans hji, hsub'.trans hsub⟩
        · rw [List.length_cons]
          rcases hbound with rfl | hbound
          · rw [List.length_nil]
            omega
          · omega
        · simpa using heq

lemma splitSeq_spec {r : UBatch × BatchAllocr} (h : a.splitSeq nUbatch = some r) :
    ∃ cur l, a.firstUnused = some cur ∧ a.Chosen (cur :: l) ∧
      (l = [] ∨ (cur :: l).length ≤ nUbatch) ∧
      (∀ j ∈ l, a.batch.seqSet j ⊆ a.batch.seqSet cur) ∧ r = a.take (cur :: l) 1 true ∧
      Splitter.seq.picks nUbatch a = cur :: l ∧ (cur :: l).Pairwise (· < ·) := by
  obtain ⟨cur, hcur, rfl⟩ := Option.map_eq_some_iff.1 h
  obtain ⟨hlt, hfree, -⟩ := firstUnused_eq_some hcur
  obtain ⟨l, hl, hpair, hbound, heq⟩ :=
    seqLoop_eq a nUbatch a.batch.nTokens cur [] hlt hfree (by omega)
  rw [List.nil_append] at heq
  rw [List.length_nil, Nat.zero_add] at hbound
  refine ⟨cur, l, hcur, ⟨List.cons_ne_nil _ _, ?_, hl⟩, hbound, ?_, ?_, ?_,
    hpair.imp fun hij => hij.1⟩
  · exact hpair.imp fun hij => hij.1.ne
  · exact fun j hj => ((List.pairwise_cons.1 hpair).1 j hj).2
  · rw [heq]
    rfl
  · simp only [Splitter.picks, hcur, heq]

/-! ## `split_equal` -/

/-- The tokens whose sequence sets take part in an equal split. -/
structure Picked (a : BatchAllocr) (sequential : Bool) (js : List ℕ) : Prop where
  increasing : js.Pairwise (· < ·)
  unused : ∀ j ∈ js, j < a.batch.nTokens ∧ j ∉ a.used
  disjoint : js.Pairwise fun i j => Disjoint (a.batch.seqSet i) (a.batch.seqSet j)
  consecutive : sequential = true →
    ∃ s, (js.map fun j => (a.batch.seqId j).head.val) = List.range' s js.length

/-- What the picking loop has found before token `i`. -/
structure PickedTo (a : BatchAllocr) (nUbatch : ℕ) (sequential : Bool) (i : ℕ)
    (r : List (Finset SeqId) × ℤ × Bool) (js : List ℕ) : Prop where
  picked : a.Picked sequential js
  lt : ∀ j ∈ js, j < i
  sets : r.1 = js.map a.batch.seqSet
  last : js ≠ [] → ∃ j, js.getLast? = some j ∧ r.2.1 = (a.batch.seqId j).head.val
  left : r.2.2 = decide (nUbatch < js.length)
  length : js.length ≤ nUbatch + 1
  ne_nil : ∀ j < i, j ∉ a.used → js ≠ []

lemma head_mem_seqSet (b : Batch) (i : ℕ) : (b.seqId i).head ∈ b.seqSet i :=
  b.mem_seqSet.2 (b.seqId i).head_mem

lemma consecutive_concat {b : Batch} {js : List ℕ} {s i : ℕ} {last : ℤ}
    (hs : (js.map fun j => (b.seqId j).head.val) = List.range' s js.length)
    (hlast : js ≠ [] → ∃ j, js.getLast? = some j ∧ last = (b.seqId j).head.val)
    (hi : js = [] ∨ ((b.seqId i).head.val : ℤ) = last + 1) :
    ∃ s, ((js ++ [i]).map fun j => (b.seqId j).head.val) = List.range' s (js ++ [i]).length := by
  rcases js.eq_nil_or_concat with rfl | ⟨l, j, rfl⟩
  · exact ⟨(b.seqId i).head.val, rfl⟩
  · rw [List.concat_eq_append] at hs hlast hi ⊢
    obtain ⟨j', hj', hval⟩ := hlast (List.concat_ne_nil _ _)
    have hnext := hi.resolve_left (List.concat_ne_nil _ _)
    obtain rfl : j = j' := by simpa using hj'
    rw [List.length_append, List.length_singleton, List.range'_concat, List.map_append,
      List.map_singleton] at hs
    have hjval := (List.append_inj' hs rfl).2
    rw [List.singleton_inj] at hjval
    have hlen : (l ++ [j] ++ [i]).length = l.length + 1 + 1 := by simp
    refine ⟨s, ?_⟩
    rw [hlen, List.range'_concat, List.range'_concat, ← hs, List.map_append, List.map_append,
      List.map_singleton, List.map_singleton]
    congr 2
    omega

lemma pickStep_spec {sequential : Bool} {i : ℕ} {r : List (Finset SeqId) × ℤ × Bool} {js : List ℕ}
    (hi : i < a.batch.nTokens) (h : a.PickedTo nUbatch sequential i r js) :
    ∃ js', a.PickedTo nUbatch sequential (i + 1) (a.pickStep nUbatch sequential r i) js' := by
  have hskip : ∀ {r'}, r' = r → (i ∈ a.used ∨ js ≠ []) →
      a.PickedTo nUbatch sequential (i + 1) r' js := by
    rintro r' rfl hne
    refine ⟨h.picked, fun j hj => (h.lt j hj).trans i.lt_succ_self, h.sets, h.last, h.left,
      h.length, fun j hj hfree => ?_⟩
    rcases Nat.lt_succ_iff_lt_or_eq.1 hj with hj | rfl
    · exact h.ne_nil j hj hfree
    · exact hne.resolve_left hfree
  unfold pickStep
  by_cases hstop : r.2.2 = true ∨ i ∈ a.used
  · rw [if_pos hstop]
    refine ⟨js, hskip rfl (hstop.symm.imp_right fun hleft => ?_)⟩
    rw [h.left, decide_eq_true_iff] at hleft
    exact List.ne_nil_of_length_pos (Nat.zero_lt_of_lt hleft)
  · rw [if_neg hstop]
    obtain ⟨hleft, hfree⟩ := not_or.1 hstop
    rw [h.left, decide_eq_true_iff, not_lt] at hleft
    by_cases hadd : (∀ T ∈ r.1, T ∩ a.batch.seqSet i = ∅) ∧ (sequential = true →
        r.1 = [] ∨ ((a.batch.seqId i).head.val : ℤ) = r.2.1 + 1)
    · simp only [if_pos hadd]
      refine ⟨js ++ [i], ⟨⟨?_, ?_, ?_, fun hseq => ?_⟩, ?_, ?_, fun _ => ?_, ?_, ?_, ?_⟩⟩
      · refine List.pairwise_append.2 ⟨h.picked.increasing, List.pairwise_singleton _ _, ?_⟩
        intro j hj j' hj'
        rw [List.mem_singleton.1 hj']
        exact h.lt j hj
      · intro j hj
        rcases List.mem_append.1 hj with hj | hj
        · exact h.picked.unused j hj
        · rw [List.mem_singleton.1 hj]
          exact ⟨hi, hfree⟩
      · refine List.pairwise_append.2 ⟨h.picked.disjoint, List.pairwise_singleton _ _, ?_⟩
        intro j hj j' hj'
        rw [List.mem_singleton.1 hj', Finset.disjoint_iff_inter_eq_empty]
        exact hadd.1 _ (h.sets ▸ List.mem_map_of_mem hj)
      · obtain ⟨s, hs⟩ := h.picked.consecutive hseq
        refine consecutive_concat hs h.last ((hadd.2 hseq).imp_left fun hnil => ?_)
        rw [h.sets] at hnil
        exact List.map_eq_nil_iff.1 hnil
      · intro j hj
        rcases List.mem_append.1 hj with hj | hj
        · exact (h.lt j hj).trans i.lt_succ_self
        · rw [List.mem_singleton.1 hj]
          exact i.lt_succ_self
      · rw [h.sets, List.map_append, List.map_singleton]
      · exact ⟨i, List.getLast?_concat, rfl⟩
      · simp [h.sets]
      · rw [List.length_append, List.length_singleton]
        omega
      · exact fun _ _ _ => List.append_ne_nil_of_right_ne_nil _ (List.cons_ne_nil _ _)
    · simp only [if_neg hadd]
      refine ⟨js, hskip rfl (.inr fun hnil => hadd ?_)⟩
      have hsets : r.1 = [] := by rw [h.sets, hnil, List.map_nil]
      rw [hsets]
      exact ⟨fun T hT => absurd hT List.not_mem_nil, fun _ => .inl rfl⟩

lemma curSeqSets_spec (a : BatchAllocr) (nUbatch : ℕ) (sequential : Bool) :
    ∃ js, a.Picked sequential js ∧ a.curSeqSets nUbatch sequential = js.map a.batch.seqSet ∧
      js.length ≤ nUbatch + 1 ∧ ∀ j < a.batch.nTokens, j ∉ a.used → js ≠ [] := by
  have hrun : ∀ m ≤ a.batch.nTokens, ∃ js, a.PickedTo nUbatch sequential m
      ((List.range m).foldl (a.pickStep nUbatch sequential) ([], -1, false)) js := by
    intro m
    induction m with
    | zero =>
      intro _
      refine ⟨[], ⟨⟨.nil, ?_, .nil, fun _ => ⟨0, rfl⟩⟩, ?_, rfl, ?_, rfl, Nat.zero_le _, ?_⟩⟩
      · exact fun _ h => absurd h List.not_mem_nil
      · exact fun _ h => absurd h List.not_mem_nil
      · exact fun h => absurd rfl h
      · exact fun j hj => absurd hj (Nat.not_lt_zero j)
    | succ m ih =>
      intro hm
      obtain ⟨js, hjs⟩ := ih (Nat.le_of_succ_le hm)
      rw [List.range_succ, List.foldl_append]
      exact pickStep_spec hm hjs
  obtain ⟨js, hjs⟩ := hrun _ le_rfl
  exact ⟨js, hjs.picked, hjs.sets, hjs.length, hjs.ne_nil⟩

/-- The loop takes the same number of tokens of every set: at least one, as many as every set has
and as fit, and it stops because a set is exhausted or the next round does not fit. -/
lemma equalLoop_eq (nUbatch : ℕ) {lists : List (List ℕ)} (hne : lists ≠ []) (fuel : ℕ) :
    ∀ t, (∀ l ∈ lists, t ≤ l.length) →
      ∃ m, t ≤ m ∧ (∀ l ∈ lists, m ≤ l.length) ∧
        (m ≤ t + 1 ∨ m * lists.length ≤ nUbatch) ∧
        (0 < fuel → (∀ l ∈ lists, t < l.length) → t < m) ∧
        ((∃ l ∈ lists, l.length ≤ t + fuel) →
          (∃ l ∈ lists, l.length ≤ m) ∨ nUbatch < (m + 1) * lists.length) ∧
        equalLoop nUbatch lists.length fuel (lists.map (·.drop t)) (lists.map (·.take t))
          = lists.map (·.take m) := by
  induction fuel with
  | zero =>
    intro t ht
    exact ⟨t, le_rfl, ht, .inl t.le_succ, fun h => absurd h (lt_irrefl 0), .inl, rfl⟩
  | succ fuel ih =>
    intro t ht
    rw [equalLoop]
    by_cases hempty : ∃ l ∈ lists, l.length ≤ t
    · obtain ⟨l, hl, hlen⟩ := hempty
      have hany : (lists.map (·.drop t)).any List.isEmpty = true := by
        rw [List.any_map, List.any_eq_true]
        exact ⟨l, hl, by simpa using hlen⟩
      rw [if_pos hany]
      refine ⟨t, le_rfl, ht, .inl t.le_succ, fun _ h => ?_, fun _ => .inl ⟨l, hl, hlen⟩, rfl⟩
      exact absurd (h l hl) (not_lt.2 hlen)
    · have hlong : ∀ l ∈ lists, t + 1 ≤ l.length := fun l hl =>
        not_le.1 fun hlen => hempty ⟨l, hl, hlen⟩
      have hany : ¬ (lists.map (·.drop t)).any List.isEmpty = true := by
        rw [List.any_map, List.any_eq_true]
        rintro ⟨l, hl, hnil⟩
        have := hlong l hl
        have hlen : l.length ≤ t := by simpa using hnil
        omega
      have htaken : List.zipWith (fun t r => t ++ r.take 1) (lists.map (·.take t))
          (lists.map (·.drop t)) = lists.map (·.take (t + 1)) := by
        rw [List.zipWith_map, List.zipWith_self]
        exact List.map_congr_left fun l _ => List.take_add.symm
      have hhead : ((lists.map (·.take (t + 1))).headD []).length = t + 1 := by
        cases lists with
        | nil => exact absurd rfl hne
        | cons l ls => exact List.length_take_of_le (hlong l List.mem_cons_self)
      have hrest : (lists.map (·.drop t)).map List.tail = lists.map (·.drop (t + 1)) := by
        rw [List.map_map]
        exact List.map_congr_left fun l _ => List.tail_drop
      rw [if_neg hany]
      simp only [htaken, hhead, hrest]
      by_cases hfull : nUbatch < (t + 1 + 1) * lists.length
      · rw [if_pos hfull]
        exact ⟨t + 1, t.le_succ, hlong, .inl le_rfl, fun _ _ => t.lt_succ_self,
          fun _ => .inr hfull, rfl⟩
      · rw [if_neg hfull]
        obtain ⟨m, hm, hle, hbound, -, hstop, heq⟩ := ih (t + 1) hlong
        refine ⟨m, by omega, hle, .inr ?_, fun _ _ => hm, fun hfuel => hstop ?_, heq⟩
        · rcases hbound with hm' | hbound
          · exact (Nat.mul_le_mul_right _ hm').trans (not_lt.1 hfull)
          · exact hbound
        · obtain ⟨l, hl, hlen⟩ := hfuel
          exact ⟨l, hl, by omega⟩

/-- The tokens of a sequence set have been used in order. -/
def UsedInOrder (a : BatchAllocr) : Prop :=
  ∀ i j, j < a.batch.nTokens → i < j → a.batch.seqSet i = a.batch.seqSet j → j ∈ a.used → i ∈ a.used

lemma unusedOf_eq (ha : a.UsedInOrder) (S : Finset SeqId) :
    a.unusedOf S = (List.range a.batch.nTokens).filter
      fun i => a.batch.seqSet i = S ∧ i ∉ a.used := by
  have horder : ((List.range a.batch.nTokens).filter fun i => a.batch.seqSet i = S).Pairwise
      fun i j => decide (j ∈ a.used) = true → decide (i ∈ a.used) = true := by
    refine (List.pairwise_lt_range.filter _).imp_of_mem fun {i j} hi hj hij hused => ?_
    simp only [List.mem_filter, List.mem_range, decide_eq_true_eq] at hi hj hused ⊢
    exact ha i j hj.1 hij (hi.2.trans hj.2.symm) hused
  rw [unusedOf, dropWhile_eq_filter horder, List.filter_filter]
  refine List.filter_congr fun i _ => ?_
  simp [Bool.and_comm]

lemma mem_unusedOf (ha : a.UsedInOrder) {S : Finset SeqId} {i : ℕ} :
    i ∈ a.unusedOf S ↔ i < a.batch.nTokens ∧ a.batch.seqSet i = S ∧ i ∉ a.used := by
  rw [unusedOf_eq ha, List.mem_filter, List.mem_range, decide_eq_true_iff]

lemma increasing_unusedOf (ha : a.UsedInOrder) (S : Finset SeqId) :
    (a.unusedOf S).Pairwise (· < ·) := by
  rw [unusedOf_eq ha]
  exact List.pairwise_lt_range.filter _

/-- The first `m` unused tokens of the sequence set of token `j`. -/
def chunk (a : BatchAllocr) (m j : ℕ) : List ℕ := (a.unusedOf (a.batch.seqSet j)).take m

/-- The tokens of an equal split: `m` of every picked set. -/
structure EqualParts (a : BatchAllocr) (nUbatch : ℕ) (sequential : Bool) (js : List ℕ) (m : ℕ)
    (idxs : List ℕ) : Prop where
  picked : a.Picked sequential js
  sets : a.curSeqSets nUbatch sequential = js.map a.batch.seqSet
  ne_nil : js ≠ []
  pos : 0 < m
  eq : idxs = js.flatMap (a.chunk m)
  length_chunk : ∀ j ∈ js, (a.chunk m j).length = m
  bound : m = 1 ∨ m * js.length ≤ nUbatch
  count : js.length ≤ nUbatch + 1

lemma splitEqual_spec {sequential : Bool} (ha : a.UsedInOrder) {r : UBatch × BatchAllocr}
    (h : a.splitEqual nUbatch sequential = some r) :
    ∃ js m idxs, a.EqualParts nUbatch sequential js m idxs ∧
      ¬ (sequential = true ∧ a.batch.HasCpl) ∧ r = a.take idxs js.length true ∧
      (Splitter.equal sequential).picks nUbatch a = idxs := by
  obtain ⟨js, hpicked, hsets, hcount, -⟩ := curSeqSets_spec a nUbatch sequential
  simp only [splitEqual, hsets, List.length_map] at h
  obtain ⟨hcpl, h⟩ := Option.ite_none_left_eq_some.1 h
  obtain ⟨hne, h⟩ := Option.ite_none_left_eq_some.1 h
  have hjs : js ≠ [] := fun h0 => hne (by rw [h0, List.length_nil])
  set lists := (js.map a.batch.seqSet).map a.unusedOf with hlists
  have hlen : lists.length = js.length := by rw [hlists, List.length_map, List.length_map]
  have hnonempty : ∀ l ∈ lists, 0 < l.length := by
    intro l hl
    obtain ⟨S, hS, rfl⟩ := List.mem_map.1 hl
    obtain ⟨j, hj, rfl⟩ := List.mem_map.1 hS
    obtain ⟨hlt, hfree⟩ := hpicked.unused j hj
    exact List.length_pos_of_mem ((mem_unusedOf ha).2 ⟨hlt, rfl, hfree⟩)
  have hlists_ne : lists ≠ [] := fun h0 => hjs (List.length_eq_zero_iff.1 (by
    rw [← hlen, h0, List.length_nil]))
  obtain ⟨m, -, hle, hbound, hpos, -, heq⟩ :=
    equalLoop_eq nUbatch hlists_ne a.batch.nTokens 0 fun _ _ => Nat.zero_le _
  have htokens : 0 < a.batch.nTokens := by
    obtain ⟨j, hj⟩ := List.exists_mem_of_ne_nil js hjs
    exact Nat.zero_lt_of_lt (hpicked.unused j hj).1
  have hstart : lists.map (·.take 0) = List.replicate js.length [] := by
    rw [← hlen]
    exact List.map_const' ..
  have hdrop : lists.map (·.drop 0) = lists := List.map_id' lists
  rw [hstart, hdrop, hlen] at heq
  have hparts : (lists.map (·.take m)).flatten = js.flatMap (a.chunk m) := by
    rw [hlists, List.map_map, List.map_map, ← List.flatMap_def]
    rfl
  rw [heq, hparts] at h
  refine ⟨js, m, js.flatMap (a.chunk m), ⟨hpicked, hsets, hjs, hpos htokens hnonempty, rfl,
    fun j hj => ?_, ?_, hcount⟩, hcpl, (Option.some.inj h).symm, ?_⟩
  · refine List.length_take_of_le (hle _ ?_)
    exact List.mem_map_of_mem (List.mem_map_of_mem hj)
  · have hm := hpos htokens hnonempty
    rw [hlen] at hbound
    exact hbound.imp_left fun hle' => by omega
  · simp only [Splitter.picks, hsets, List.length_map]
    rw [heq, hparts]

section EqualParts

variable {sequential : Bool} {js : List ℕ} {m : ℕ}

lemma mem_chunk (ha : a.UsedInOrder) {i j : ℕ} (h : i ∈ a.chunk m j) :
    i < a.batch.nTokens ∧ a.batch.seqSet i = a.batch.seqSet j ∧ i ∉ a.used :=
  (mem_unusedOf ha).1 (List.mem_of_mem_take h)

lemma Picked.seqSet_inj (h : a.Picked sequential js) {i j : ℕ} (hi : i ∈ js) (hj : j ∈ js)
    (heq : a.batch.seqSet i = a.batch.seqSet j) : i = j := by
  by_contra hne
  have hsymm : Std.Symm fun i j => Disjoint (a.batch.seqSet i) (a.batch.seqSet j) :=
    ⟨fun _ _ h => h.symm⟩
  have hmem := head_mem_seqSet a.batch i
  exact Finset.disjoint_left.1 (h.disjoint.forall hi hj hne) hmem (heq ▸ hmem)

lemma EqualParts.chosen (ha : a.UsedInOrder) (h : a.EqualParts nUbatch sequential js m idxs) :
    a.Chosen idxs := by
  refine ⟨fun hnil => ?_, ?_, fun i hi => ?_⟩
  · obtain ⟨j, hj⟩ := List.exists_mem_of_ne_nil js h.ne_nil
    have hchunk : a.chunk m j ⊆ [] := by
      rw [← hnil, h.eq]
      exact fun i hi => List.mem_flatMap_of_mem hj hi
    have := h.length_chunk j hj
    rw [List.eq_nil_of_subset_nil hchunk, List.length_nil] at this
    exact absurd h.pos (by omega)
  · rw [h.eq, List.nodup_flatMap]
    refine ⟨fun j _ => ?_, ?_⟩
    · have hnd := (increasing_unusedOf ha (a.batch.seqSet j)).imp fun hij => Nat.ne_of_lt hij
      exact (List.take_sublist _ _).nodup hnd
    · refine h.picked.increasing.imp_of_mem fun {j j'} hj hj' hlt i hi hi' => ?_
      have heq : a.batch.seqSet j = a.batch.seqSet j' :=
        (mem_chunk ha hi).2.1.symm.trans (mem_chunk ha hi').2.1
      exact hlt.ne (h.picked.seqSet_inj hj hj' heq)
  · rw [h.eq, List.mem_flatMap] at hi
    obtain ⟨j, -, hij⟩ := hi
    obtain ⟨hlt, -, hfree⟩ := mem_chunk ha hij
    exact ⟨hlt, hfree⟩

lemma EqualParts.length_eq (h : a.EqualParts nUbatch sequential js m idxs) :
    idxs.length = js.length * m := by
  rw [h.eq, List.length_flatMap, List.map_congr_left h.length_chunk, List.map_const',
    List.sum_replicate_nat]

lemma EqualParts.usedInOrder (ha : a.UsedInOrder) (h : a.EqualParts nUbatch sequential js m idxs)
    (nSeqs : ℕ) (equalSeqs : Bool) : (a.take idxs nSeqs equalSeqs).2.UsedInOrder := by
  intro i j hj hij hset hused
  rw [take_batch] at hj hset
  rw [take_used, Finset.mem_union, List.mem_toFinset] at hused ⊢
  rcases hused with hused | hnew
  · exact .inl (ha i j hj hij hset hused)
  · by_cases hi : i ∈ a.used
    · exact .inl hi
    · rw [h.eq, List.mem_flatMap] at hnew ⊢
      obtain ⟨p, hp, hjp⟩ := hnew
      have hjset := (mem_chunk ha hjp).2.1
      have hmem : i ∈ a.unusedOf (a.batch.seqSet p) :=
        (mem_unusedOf ha).2 ⟨hij.trans hj, hset.trans hjset, hi⟩
      exact .inr ⟨p, hp, mem_take_of_lt (increasing_unusedOf ha _) hjp hmem hij⟩

lemma EqualParts.count_eq (ha : a.UsedInOrder) (h : a.EqualParts nUbatch sequential js m idxs)
    {i : ℕ} (hi : i ∈ idxs) :
    (idxs.filter fun i' => a.batch.seqSet i' = a.batch.seqSet i).length = m := by
  rw [h.eq, List.mem_flatMap] at hi
  obtain ⟨p, hp, hip⟩ := hi
  have hset := (mem_chunk ha hip).2.1
  rw [← h.length_chunk p hp]
  apply List.Perm.length_eq
  refine (List.perm_ext_iff_of_nodup ((h.chosen ha).nodup.filter _) ?_).2 fun i' => ?_
  · exact (List.take_sublist _ _).nodup
      ((increasing_unusedOf ha (a.batch.seqSet p)).imp fun hij => Nat.ne_of_lt hij)
  · rw [List.mem_filter, decide_eq_true_iff, h.eq, List.mem_flatMap]
    constructor
    · rintro ⟨⟨p', hp', hi'⟩, hset'⟩
      have heq : a.batch.seqSet p' = a.batch.seqSet p :=
        (mem_chunk ha hi').2.1.symm.trans (hset'.trans hset)
      rwa [h.picked.seqSet_inj hp' hp heq] at hi'
    · exact fun hi' => ⟨⟨p, hp, hi'⟩, (mem_chunk ha hi').2.1.trans hset.symm⟩

end EqualParts

/-! ## Any splitter -/

section Splitter

variable {sp : Splitter} {r : UBatch × BatchAllocr}

/-- The order in which a splitter has used the tokens. -/
def SplitterInv : Splitter → BatchAllocr → Prop
  | .simple, a => a.UsedPrefix
  | .equal _, a => a.UsedInOrder
  | .seq, _ => True

lemma splitterInv_reset (sp : Splitter) (b : Batch) (nSeqMax nEmbd nPosPerEmbd : ℕ) :
    SplitterInv sp (.reset b nSeqMax nEmbd nPosPerEmbd) := by
  cases sp with
  | simple => exact ⟨0, rfl⟩
  | equal _ => exact fun _ _ _ _ _ hused => absurd hused (Finset.notMem_empty _)
  | seq => trivial

/-- The rows of a part that share a sequence are in the order of the batch. -/
def RowsInOrder (b : Batch) (idxs : List ℕ) : Prop :=
  idxs.Pairwise fun i j => ¬ Disjoint (b.seqSet i) (b.seqSet j) → i < j

lemma rowsInOrder_of_increasing {b : Batch} (h : idxs.Pairwise (· < ·)) : RowsInOrder b idxs := by
  refine h.imp ?_
  intro i j hlt _
  exact hlt

lemma EqualParts.rowsInOrder {sequential : Bool} {js : List ℕ} {m : ℕ} (ha : a.UsedInOrder)
    (h : a.EqualParts nUbatch sequential js m idxs) : RowsInOrder a.batch idxs := by
  unfold RowsInOrder
  rw [h.eq, List.pairwise_flatMap]
  refine ⟨fun j _ => ?_, h.picked.disjoint.imp fun {j j'} hdisj i hi i' hi' hmeet => ?_⟩
  · have hchunk : (a.chunk m j).Pairwise (· < ·) :=
      (increasing_unusedOf ha _).sublist (List.take_sublist _ _)
    exact rowsInOrder_of_increasing hchunk
  · rw [(mem_chunk ha hi).2.1, (mem_chunk ha hi').2.1] at hmeet
    exact absurd hdisj hmeet

/-- A splitter takes the tokens that it picks, which are unused and in order, and keeps its order;
an equal split takes equally many of every sequence set. -/
theorem split_spec (ha : SplitterInv sp a) (h : sp.split nUbatch a = some r) :
    ∃ idxs nSeqs equalSeqs, a.Chosen idxs ∧ r = a.take idxs nSeqs equalSeqs ∧
      SplitterInv sp r.2 ∧ (∀ sequential, sp = .equal sequential → EqualShares a.batch idxs) ∧
      sp.picks nUbatch a = idxs ∧ RowsInOrder a.batch idxs := by
  cases sp with
  | simple =>
    obtain ⟨idxs, hchosen, -, heq, hinv, hpicks, hlt⟩ := splitSimple_spec ha h
    exact ⟨idxs, _, _, hchosen, heq, hinv, (fun _ h => by cases h), hpicks, rowsInOrder_of_increasing hlt⟩
  | equal sequential =>
    obtain ⟨js, m, idxs, hparts, -, rfl, hpicks⟩ := splitEqual_spec ha h
    refine ⟨idxs, _, _, hparts.chosen ha, rfl, hparts.usedInOrder ha _ _, fun _ _ => ?_, hpicks,
      hparts.rowsInOrder ha⟩
    intro i hi i' hi'
    exact (hparts.count_eq ha hi).trans (hparts.count_eq ha hi').symm
  | seq =>
    obtain ⟨cur, l, -, hchosen, -, -, heq, hpicks, hlt⟩ := splitSeq_spec h
    exact ⟨cur :: l, _, _, hchosen, heq, trivial, (fun _ h => by cases h), hpicks,
      rowsInOrder_of_increasing hlt⟩

end Splitter

/-! ## The loop over a splitter -/

section Loop

variable {split : BatchAllocr → Option (UBatch × BatchAllocr)} {P : BatchAllocr → Prop}
  {Q : UBatch → Prop}

/-- The allocator satisfies `P` before every round of the loop that yields an ubatch. -/
def EveryRound (split : BatchAllocr → Option (UBatch × BatchAllocr)) (P : BatchAllocr → Prop) :
    ℕ → BatchAllocr → Prop
  | 0, _ => True
  | fuel + 1, a => ∀ r ∈ split a, P a ∧ EveryRound split P fuel r.2

/-- What one round decides about its ubatch, the rounds decide about all ubatches. -/
theorem forall_splitLoop_iff (Inv : BatchAllocr → Prop)
    (hstep : ∀ a u a', Inv a → split a = some (u, a') → Inv a' ∧ (Q u ↔ P a)) :
    ∀ (fuel : ℕ) (a : BatchAllocr), Inv a →
      ((∀ u ∈ (splitLoop split fuel a).1, Q u) ↔ EveryRound split P fuel a) := by
  intro fuel
  induction fuel with
  | zero => exact fun a _ => iff_of_true (fun u hu => absurd hu List.not_mem_nil) trivial
  | succ fuel ih =>
    intro a ha
    rw [splitLoop, EveryRound]
    cases hsplit : split a with
    | none =>
      exact iff_of_true (fun u hu => absurd hu List.not_mem_nil) fun r hr => by cases hr
    | some r =>
      obtain ⟨u, a'⟩ := r
      obtain ⟨ha', hQ⟩ := hstep a u a' ha hsplit
      have hall : (∀ r ∈ some (u, a'), P a ∧ EveryRound split P fuel r.2) ↔
          P a ∧ EveryRound split P fuel a' := by
        constructor
        · exact fun h => h _ rfl
        · rintro h r ⟨⟩
          exact h
      rw [hall, ← hQ, ← ih a' ha']
      exact List.forall_mem_cons

lemma forall_splitLoop (Inv : BatchAllocr → Prop)
    (hstep : ∀ a u a', Inv a → split a = some (u, a') → Inv a' ∧ Q u)
    (fuel : ℕ) {a : BatchAllocr} (ha : Inv a) : ∀ u ∈ (splitLoop split fuel a).1, Q u := by
  induction fuel generalizing a with
  | zero => exact fun u hu => absurd hu List.not_mem_nil
  | succ fuel ih =>
    rw [splitLoop]
    cases hsplit : split a with
    | none => exact fun u hu => absurd hu List.not_mem_nil
    | some r =>
      obtain ⟨ha', hQ⟩ := hstep a r.1 r.2 ha hsplit
      exact List.forall_mem_cons.2 ⟨hQ, ih ha'⟩

end Loop

/-- The tokens that the ubatches `us` of a loop from `a` to `a'` have used. -/
structure Parts (sp : Splitter) (a : BatchAllocr) (us : List UBatch) (a' : BatchAllocr)
    (parts : List (List ℕ)) : Prop where
  rows : List.Forall₂ (RowsOf a.batch a.nEmbd) parts us
  batch : a'.batch = a.batch
  nodup : parts.flatten.Nodup
  unused : ∀ i ∈ parts.flatten, i < a.batch.nTokens ∧ i ∉ a.used
  used : a'.used = a.used ∪ parts.flatten.toFinset
  nUsed : a'.nUsed = a.nUsed + parts.flatten.length
  outIds : a'.outIds = a.outIds ++ parts.flatten.filter fun i => a.batch.logits i
  equal : ∀ sequential, sp = .equal sequential → ∀ p ∈ parts, EqualShares a.batch p

/-- The tokens that the rounds of a loop take. -/
def rounds (sp : Splitter) (nUbatch : ℕ) : ℕ → BatchAllocr → List (List ℕ)
  | 0, _ => []
  | fuel + 1, a =>
    match sp.split nUbatch a with
    | none => []
    | some r => sp.picks nUbatch a :: rounds sp nUbatch fuel r.2

theorem splitLoop_parts (sp : Splitter) (nUbatch fuel : ℕ) : ∀ a, SplitterInv sp a →
    Parts sp a (splitLoop (sp.split nUbatch) fuel a).1 (splitLoop (sp.split nUbatch) fuel a).2
      (rounds sp nUbatch fuel a) := by
  have hdone : ∀ a : BatchAllocr, Parts sp a [] a [] := fun a =>
    ⟨.nil, rfl, List.nodup_nil, fun _ hi => absurd hi List.not_mem_nil, by simp, rfl, by simp,
      fun _ _ _ hp => absurd hp List.not_mem_nil⟩
  induction fuel with
  | zero => exact fun a _ => hdone a
  | succ fuel ih =>
    intro a ha
    rw [splitLoop, rounds]
    cases hsplit : sp.split nUbatch a with
    | none => exact hdone a
    | some r =>
      obtain ⟨idxs, nSeqs, equalSeqs, hchosen, rfl, ha', hequal, rfl, -⟩ := split_spec ha hsplit
      have hparts := ih _ ha'
      set idxs := sp.picks nUbatch a with hidxs
      set parts := rounds sp nUbatch fuel (a.take idxs nSeqs equalSeqs).2 with hrounds
      have hfresh : ∀ i ∈ parts.flatten, i < a.batch.nTokens ∧ i ∉ a.used ∧ i ∉ idxs := by
        intro i hi
        obtain ⟨hlt, hfree⟩ := hparts.unused i hi
        rw [take_used, Finset.mem_union, List.mem_toFinset, not_or] at hfree
        exact ⟨hlt, hfree⟩
      refine ⟨.cons (take_rows ..) hparts.rows, hparts.batch, ?_, ?_, ?_, ?_, ?_,
        fun sequential hsp => ?_⟩
      · rw [List.flatten_cons]
        exact hchosen.nodup.append hparts.nodup fun i hi hi' => (hfresh i hi').2.2 hi
      · rw [List.flatten_cons]
        intro i hi
        rcases List.mem_append.1 hi with hi | hi
        · exact hchosen.unused i hi
        · exact ⟨(hfresh i hi).1, (hfresh i hi).2.1⟩
      · rw [hparts.used, take_used, List.flatten_cons, List.toFinset_append, Finset.union_assoc]
      · rw [hparts.nUsed, take_nUsed, List.flatten_cons, List.length_append, Nat.add_assoc]
      · rw [hparts.outIds, take_outIds, List.flatten_cons, List.filter_append, List.append_assoc]
        rfl
      · exact List.forall_mem_cons.2 ⟨hequal sequential hsp, hparts.equal sequential hsp⟩

lemma Parts.perm {sp : Splitter} {us : List UBatch} {parts : List (List ℕ)} (h : Parts sp a us a' parts)
    (hstart : a.nUsed = 0) (hall : a.batch.nTokens ≤ a'.nUsed) :
    parts.flatten.Perm (List.range a.batch.nTokens) := by
  refine (List.subperm_of_subset h.nodup fun i hi => ?_).perm_of_length_le ?_
  · exact List.mem_range.2 (h.unused i hi).1
  · have := h.nUsed
    rw [List.length_range]
    omega

lemma Parts.exists_ubatch {sp : Splitter} {us : List UBatch} {parts : List (List ℕ)}
    (h : Parts sp a us a' parts) {i : ℕ} (hi : i ∈ parts.flatten) :
    ∃ u ∈ us, ∃ idxs, RowsOf a.batch a.nEmbd idxs u ∧ i ∈ idxs := by
  obtain ⟨p, hp, hip⟩ := List.mem_flatten.1 hi
  obtain ⟨n, hn, rfl⟩ := List.getElem_of_mem hp
  have hn' : n < us.length := h.rows.length_eq ▸ hn
  exact ⟨us[n], List.getElem_mem hn', parts[n], h.rows.get hn hn', hip⟩

lemma splitBatch_eq_some_iff {sp : Splitter} {nSeqMax nEmbd nPosPerEmbd : ℕ} {b : Batch}
    {us : List UBatch} : splitBatch sp nUbatch nSeqMax nEmbd nPosPerEmbd b = some us ↔
      b.nTokens ≤ (splitRun sp nUbatch nSeqMax nEmbd nPosPerEmbd b).2.nUsed ∧
        (splitRun sp nUbatch nSeqMax nEmbd nPosPerEmbd b).1 = us := by
  unfold splitBatch
  simp only [Option.ite_none_left_eq_some, not_lt, Option.some.injEq]

lemma forall_splitRun (sp : Splitter) (nUbatch nSeqMax nEmbd nPosPerEmbd : ℕ) (b : Batch)
    {Q : UBatch → Prop}
    (hQ : ∀ (a : BatchAllocr) (idxs : List ℕ) nSeqs equalSeqs, a.batch = b →
      a.nSeqMax = nSeqMax → a.Chosen idxs → Q (a.take idxs nSeqs equalSeqs).1) :
    ∀ u ∈ (splitRun sp nUbatch nSeqMax nEmbd nPosPerEmbd b).1, Q u := by
  refine forall_splitLoop (fun a => SplitterInv sp a ∧ a.batch = b ∧ a.nSeqMax = nSeqMax)
    (fun a u a' ha h => ?_) _ ⟨splitterInv_reset sp b nSeqMax nEmbd nPosPerEmbd, rfl, rfl⟩
  obtain ⟨hinv, rfl, rfl⟩ := ha
  obtain ⟨idxs, nSeqs, equalSeqs, hchosen, heq, hinv', -⟩ := split_spec hinv h
  obtain rfl : u = (a.take idxs nSeqs equalSeqs).1 := congrArg Prod.fst heq
  obtain rfl : a' = (a.take idxs nSeqs equalSeqs).2 := congrArg Prod.snd heq
  exact ⟨⟨hinv', rfl, rfl⟩, hQ a idxs nSeqs equalSeqs rfl rfl hchosen⟩

lemma splitRun_nTokens_pos (sp : Splitter) (nUbatch nSeqMax nEmbd nPosPerEmbd : ℕ) (b : Batch) :
    ∀ u ∈ (splitRun sp nUbatch nSeqMax nEmbd nPosPerEmbd b).1, 0 < u.nTokens :=
  forall_splitRun sp nUbatch nSeqMax nEmbd nPosPerEmbd b fun _ _ _ _ _ _ hchosen =>
    List.length_pos_of_ne_nil hchosen.ne_nil

lemma splitRun_parts (sp : Splitter) (nUbatch nSeqMax nEmbd nPosPerEmbd : ℕ) (b : Batch) :
    ∃ parts, Parts sp (.reset b nSeqMax nEmbd nPosPerEmbd)
      (splitRun sp nUbatch nSeqMax nEmbd nPosPerEmbd b).1
      (splitRun sp nUbatch nSeqMax nEmbd nPosPerEmbd b).2 parts :=
  ⟨_, splitLoop_parts sp nUbatch _ _ (splitterInv_reset sp b nSeqMax nEmbd nPosPerEmbd)⟩

end BatchAllocr

end IFairy
