import IFairy.Framework.Loops
import IFairy.KvCache.CellArray
import Mathlib.Data.List.GetD

/-!
# What `find_slot` finds

The search for single cells visits every usable cell once, from the start head to the end of the
usable part and then from its beginning to the start head (`scanOrder`); it returns the first
`n_tokens` cells of that order that can be used, or fails when there are fewer
(`slotLoop_eq_pick`).  In particular the fuel of `slotLoop` does not run out.

A slot fits an ubatch when it names one cell for every token and none twice (`SlotFits`).  What
`find_slot` returns for an ubatch that passes its assertions fits, and each of its cells can be
used (`findSlot_fits`, `FoundSeq.canUse`).
-/

namespace IFairy

namespace KvCache

/-- The order in which the cells of a ring of `usable` cells are tested. -/
def scanOrder (usable head : ℕ) : List ℕ := List.range' head (usable - head) ++ List.range head

lemma mem_scanOrder {usable head x : ℕ} (hh : head ≤ usable) :
    x ∈ scanOrder usable head ↔ x < usable := by
  rw [scanOrder, List.mem_append, List.mem_range'_1, List.mem_range]
  omega

lemma nodup_scanOrder (usable head : ℕ) : (scanOrder usable head).Nodup := by
  refine List.Nodup.append List.nodup_range' List.nodup_range ?_
  intro x hx hx'
  rw [List.mem_range'_1] at hx
  rw [List.mem_range] at hx'
  omega

/-- The first `n` elements of a list, if there are that many. -/
def pick (n : ℕ) (l : List ℕ) : Option (List ℕ) := if n ≤ l.length then some (l.take n) else none

lemma pick_of_length {n : ℕ} {l : List ℕ} (h : l.length = n) (l' : List ℕ) :
    pick n (l ++ l') = some l := by
  rw [pick, if_pos (by simp [h]), List.take_left' h]

lemma pick_of_short {n : ℕ} {l : List ℕ} (h : l.length < n) : pick n l = none :=
  if_neg (not_le.2 h)

lemma pick_eq_some {n : ℕ} {l r : List ℕ} :
    pick n l = some r ↔ n ≤ l.length ∧ l.take n = r := by
  rw [pick, Option.ite_none_right_eq_some, Option.some.injEq]

section Loop

variable {canUse : ℕ → Prop} [DecidablePred canUse] {usable n : ℕ}

/-- The cells found after one more test. -/
private def tested1 (canUse : ℕ → Prop) [DecidablePred canUse] (head : ℕ) (idxs : List ℕ) :
    List ℕ :=
  idxs ++ [head].filter canUse

private lemma length_tested1 (canUse : ℕ → Prop) [DecidablePred canUse] (head : ℕ) (idxs : List ℕ) :
    (tested1 canUse head idxs).length ≤ idxs.length + 1 := by
  unfold tested1
  rw [List.length_append]
  exact Nat.add_le_add_left (List.length_filter_le _ _) _

private lemma slotLoop_test {fuel head tested : ℕ} {idxs : List ℕ} (hhead : head < usable) :
    slotLoop canUse false usable n (fuel + 1) head tested idxs =
      if (tested1 canUse head idxs).length = n then some (tested1 canUse head idxs)
      else if usable ≤ tested + 1 then none
      else slotLoop canUse false usable n fuel (head + 1) (tested + 1)
        (tested1 canUse head idxs) := by
  have hfit : ¬ usable < head + 1 := by omega
  by_cases hc : canUse head
  · simp [slotLoop, testRun, tested1, hfit, hc]
  · simp [slotLoop, testRun, tested1, hfit, hc]

/-- The second lap, from `head` up to the cell before the start head `m`. -/
private lemma slotLoop_second {m : ℕ} (hm : m ≤ usable) (fuel : ℕ) :
    ∀ (head tested : ℕ) (idxs : List ℕ), head < m → tested + (m - head) = usable →
      m - head ≤ fuel → idxs.length < n →
      slotLoop canUse false usable n fuel head tested idxs
        = pick n (idxs ++ (List.range' head (m - head)).filter canUse) := by
  induction fuel with
  | zero =>
    intro head tested idxs hhead _ hfuel
    omega
  | succ fuel ih =>
    intro head tested idxs hhead htested hfuel hlen
    obtain ⟨r, hr⟩ : ∃ r, m - head = r + 1 := ⟨m - head - 1, by omega⟩
    have hsplit : idxs ++ (List.range' head (m - head)).filter canUse
        = tested1 canUse head idxs ++ (List.range' (head + 1) r).filter canUse := by
      rw [hr, List.range'_succ, tested1, List.append_assoc, ← List.filter_append]
      rfl
    rw [slotLoop_test (by omega), hsplit]
    by_cases hfull : (tested1 canUse head idxs).length = n
    · rw [if_pos hfull, pick_of_length hfull]
    · have hshort : (tested1 canUse head idxs).length < n := by
        have := length_tested1 canUse head idxs
        omega
      rw [if_neg hfull]
      by_cases hend : usable ≤ tested + 1
      · obtain rfl : r = 0 := by omega
        rw [if_pos hend, pick_of_short (by simpa using hshort)]
      · rw [if_neg hend, ih (head + 1) (tested + 1) _ (by omega) (by omega) (by omega) hshort]
        have hr' : m - (head + 1) = r := by omega
        rw [hr']

/-- The first lap, from `head` to the end of the usable part, and the second lap after it. -/
private lemma slotLoop_first {m : ℕ} (fuel : ℕ) :
    ∀ (head tested : ℕ) (idxs : List ℕ), m ≤ head → head ≤ usable → 0 < usable - head + m →
      tested + (usable - head + m) = usable → usable - head + m < fuel → idxs.length < n →
      slotLoop canUse false usable n fuel head tested idxs
        = pick n (idxs ++ (List.range' head (usable - head) ++ List.range m).filter canUse) := by
  induction fuel with
  | zero =>
    intro head tested idxs _ _ _ _ hfuel
    omega
  | succ fuel ih =>
    intro head tested idxs hm hle hpos htested hfuel hlen
    by_cases hwrap : head = usable
    · subst hwrap
      have hround : slotLoop canUse false head n (fuel + 1) head tested idxs
          = slotLoop canUse false head n fuel 0 (tested + (head - head)) idxs := by
        simp [slotLoop]
      rw [hround, slotLoop_second (m := m) hm fuel 0 _ idxs (by omega) (by omega) (by omega) hlen]
      simp [List.range_eq_range']
    · obtain ⟨r, hr⟩ : ∃ r, usable - head = r + 1 := ⟨usable - head - 1, by omega⟩
      have hsplit : idxs ++ (List.range' head (usable - head) ++ List.range m).filter canUse
          = tested1 canUse head idxs
            ++ (List.range' (head + 1) r ++ List.range m).filter canUse := by
        rw [hr, List.range'_succ, tested1, List.append_assoc, ← List.filter_append]
        rfl
      rw [slotLoop_test (by omega), hsplit]
      by_cases hfull : (tested1 canUse head idxs).length = n
      · rw [if_pos hfull, pick_of_length hfull]
      · have hshort : (tested1 canUse head idxs).length < n := by
          have := length_tested1 canUse head idxs
          omega
        rw [if_neg hfull]
        by_cases hend : usable ≤ tested + 1
        · obtain rfl : r = 0 := by omega
          obtain rfl : m = 0 := by omega
          rw [if_pos hend, pick_of_short (by simpa using hshort)]
        · rw [if_neg hend, ih (head + 1) (tested + 1) _ (by omega) (by omega) (by omega)
            (by omega) (by omega) hshort]
          have hr' : usable - (head + 1) = r := by omega
          rw [hr']

/-- The search for single cells takes the first usable cells in scan order, or fails when there
are not enough. -/
theorem slotLoop_eq_pick {head : ℕ} (hhead : head < usable) (hn : 0 < n) :
    slotLoop canUse false usable n (2 * usable + 2) head 0 []
      = pick n ((scanOrder usable head).filter canUse) := by
  rw [slotLoop_first (m := head) _ head 0 [] le_rfl (by omega) (by omega) (by omega) (by omega)
    (by simpa using hn)]
  rfl

end Loop

/-! ## The slot of one sequence -/

section Seq

variable {cfg : KvConfig} {k : KvCache} {u : UBatch} {n s : ℕ} {l : List ℕ}

lemma usableSize_le (hsize : k.Sized cfg) (t : SeqId) : k.usableSize cfg t ≤ cfg.kvSize := by
  unfold usableSize
  split
  · exact min_le_left _ _
  · exact (hsize _).le

lemma startHead_lt {usable : ℕ} (h : 0 < usable) (head used n : ℕ) :
    startHead head usable used n < usable := by
  unfold startHead
  by_cases hwrap : usable ≤ head
  · simp only [if_pos hwrap, ite_self]
    exact h
  · simp only [if_neg hwrap]
    split
    · exact h
    · exact not_le.1 hwrap

/-- The test `can_use` for the `s`-th sequence of the ubatch. -/
def SeqCanUse (cfg : KvConfig) (k : KvCache) (u : UBatch) (n s idx : ℕ) : Prop :=
  CanUse cfg (k.cells (cfg.seqToStream (u.seqIdUnq.getD s 0))) (u.seqIdUnq.getD s 0)
    (if cfg.PrefixSliding then k.prefixEnd (u.seqIdUnq.getD s 0) else -1) (minIncoming u n s) idx

instance : DecidablePred (SeqCanUse cfg k u n s) := fun _ => by
  unfold SeqCanUse
  infer_instance

/-- The cells that are tested for the `s`-th sequence, in order. -/
def seqScan (cfg : KvConfig) (k : KvCache) (u : UBatch) (n s : ℕ) : List ℕ :=
  scanOrder (k.usableSize cfg (u.seqIdUnq.getD s 0))
    (startHead (k.heads (cfg.seqToStream (u.seqIdUnq.getD s 0)))
      (k.usableSize cfg (u.seqIdUnq.getD s 0))
      (k.cells (cfg.seqToStream (u.seqIdUnq.getD s 0))).getUsed n)

/-- The slot of a sequence: the first usable cells of the scan, unless there are fewer than
tokens or the sequence has no prefix boundary. -/
theorem findSeqSlot_eq (hn : 0 < n) :
    findSeqSlot cfg k u false n s =
      if cfg.PrefixSliding ∧ k.prefixEnd (u.seqIdUnq.getD s 0) < 0 ∨
          k.usableSize cfg (u.seqIdUnq.getD s 0) < n then none
      else pick n ((seqScan cfg k u n s).filter (SeqCanUse cfg k u n s)) := by
  by_cases hno : cfg.PrefixSliding ∧ k.prefixEnd (u.seqIdUnq.getD s 0) < 0
  · rw [if_pos (.inl hno)]
    refine if_pos ⟨hno.1, ?_⟩
    rw [if_pos hno.1]
    exact hno.2
  · have hno' : ¬ (cfg.PrefixSliding ∧
        (if cfg.PrefixSliding then k.prefixEnd (u.seqIdUnq.getD s 0) else -1) < 0) := by
      rintro ⟨hp, hneg⟩
      rw [if_pos hp] at hneg
      exact hno ⟨hp, hneg⟩
    by_cases hfew : k.usableSize cfg (u.seqIdUnq.getD s 0) < n
    · rw [if_pos (.inr hfew)]
      exact (if_neg hno').trans (if_pos hfew)
    · rw [if_neg (not_or.2 ⟨hno, hfew⟩)]
      refine (if_neg hno').trans ((if_neg hfew).trans ?_)
      have hloop : ∀ head < k.usableSize cfg (u.seqIdUnq.getD s 0),
          slotLoop (SeqCanUse cfg k u n s) false (k.usableSize cfg (u.seqIdUnq.getD s 0)) n
            (2 * k.usableSize cfg (u.seqIdUnq.getD s 0) + 2) head 0 []
          = pick n ((scanOrder (k.usableSize cfg (u.seqIdUnq.getD s 0)) head).filter
            (SeqCanUse cfg k u n s)) := fun head hhead => slotLoop_eq_pick hhead hn
      exact hloop _ (startHead_lt (hn.trans_le (not_lt.1 hfew)) _ _ _)

/-- What the slot of a sequence consists of. -/
structure FoundSeq (cfg : KvConfig) (k : KvCache) (u : UBatch) (n s : ℕ) (l : List ℕ) : Prop where
  length : l.length = n
  nodup : l.Nodup
  lt : ∀ x ∈ l, x < k.usableSize cfg (u.seqIdUnq.getD s 0)
  canUse : ∀ x ∈ l, SeqCanUse cfg k u n s x
  prefixEnd : cfg.PrefixSliding → 0 ≤ k.prefixEnd (u.seqIdUnq.getD s 0)

lemma findSeqSlot_found (hn : 0 < n) (h : findSeqSlot cfg k u false n s = some l) :
    FoundSeq cfg k u n s l := by
  rw [findSeqSlot_eq hn] at h
  obtain ⟨hcond, hpick⟩ := Option.ite_none_left_eq_some.1 h
  obtain ⟨hle, rfl⟩ := pick_eq_some.1 hpick
  rw [not_or, not_lt] at hcond
  have hsub := List.take_subset n ((seqScan cfg k u n s).filter (SeqCanUse cfg k u n s))
  refine ⟨List.length_take_of_le hle, ?_, fun x hx => ?_, fun x hx => ?_, fun hp => ?_⟩
  · exact (List.take_sublist _ _).nodup ((nodup_scanOrder _ _).filter _)
  · have hx' := List.mem_of_mem_filter (hsub hx)
    exact (mem_scanOrder (startHead_lt (lt_of_lt_of_le hn hcond.2) _ _ _).le).1 hx'
  · have hx' := (List.mem_filter.1 (hsub hx)).2
    exact of_decide_eq_true hx'
  · exact not_lt.1 fun hneg => hcond.1 ⟨hp, hneg⟩

end Seq

/-! ## The slot of an ubatch -/

end KvCache

/-- The slot names one cell of `n` for every token of the ubatch, and none twice. -/
structure SlotFits (n : ℕ) (si : SlotInfo) (u : UBatch) : Prop where
  tokens : si.nStream * si.size = u.nTokens
  length : ∀ s < si.nStream, (si.cellIdxs s).length = si.size
  lt : ∀ s < si.nStream, ∀ x ∈ si.cellIdxs s, x < n
  nodup : ∀ s < si.nStream, (si.cellIdxs s).Nodup
  stream_inj : ∀ s < si.nStream, ∀ s' < si.nStream, si.stream s = si.stream s' → s = s'

namespace KvCache

section UBatch

variable {cfg : KvConfig} {k : KvCache} {u : UBatch} {si : SlotInfo}

/-- The parts of a slot that `find_slot` returns. -/
lemma findSlot_parts (h : findSlot cfg k u false = some si) :
    si.nStream = slotSeqs cfg u ∧
      (∀ s < slotSeqs cfg u, si.stream s = cfg.seqToStream (u.seqIdUnq.getD s 0)) ∧
      ∀ s < slotSeqs cfg u,
        findSeqSlot cfg k u false (slotTokens cfg u) s = some (si.cellIdxs s) := by
  obtain ⟨idxs, hidxs, rfl⟩ := Option.map_eq_some_iff.1 h
  have hstream : ∀ s < slotSeqs cfg u,
      ((List.range (slotSeqs cfg u)).map fun s => cfg.seqToStream (u.seqIdUnq.getD s 0)).getD s 0
        = cfg.seqToStream (u.seqIdUnq.getD s 0) := fun s hs => by
    rw [List.getD_eq_getElem _ _ (by simpa using hs), List.getElem_map, List.getElem_range]
  exact ⟨by simp [SlotInfo.nStream], hstream, fun s hs => (mapM_range_getD hidxs).2 s hs []⟩

lemma slotTokens_pos (hn : 0 < u.nTokens) (hassert : SlotAsserts cfg u) :
    0 < slotTokens cfg u ∧ 0 < slotSeqs cfg u ∧ slotSeqs cfg u * slotTokens cfg u = u.nTokens := by
  unfold slotTokens slotSeqs
  by_cases hmany : 1 < cfg.nStream
  · obtain ⟨hmod, -⟩ := hassert hmany
    have hmul := Nat.div_add_mod u.nTokens u.nSeqsUnq
    rw [hmod, Nat.add_zero] at hmul
    simp only [if_pos hmany]
    refine ⟨Nat.pos_of_ne_zero fun h0 => ?_, Nat.pos_of_ne_zero fun h0 => ?_, hmul⟩
    · rw [h0, Nat.mul_zero] at hmul
      omega
    · rw [h0, Nat.zero_mul] at hmul
      omega
  · simp only [if_neg hmany]
    exact ⟨hn, Nat.one_pos, Nat.one_mul _⟩

lemma seqToStream_getD_inj (hunq : u.seqIdUnq.Nodup) {s s' : ℕ} (hs : s < slotSeqs cfg u)
    (hs' : s' < slotSeqs cfg u)
    (heq : cfg.seqToStream (u.seqIdUnq.getD s 0) = cfg.seqToStream (u.seqIdUnq.getD s' 0)) :
    s = s' := by
  unfold slotSeqs at hs hs'
  by_cases hmany : 1 < cfg.nStream
  · rw [if_pos hmany] at hs hs'
    simp only [KvConfig.seqToStream, if_pos hmany] at heq
    rw [List.getD_eq_getElem _ _ hs, List.getD_eq_getElem _ _ hs'] at heq
    exact (List.Nodup.getElem_inj_iff hunq).1 (Fin.val_injective heq)
  · rw [if_neg hmany] at hs hs'
    omega

/-- The slot of an ubatch, sequence by sequence. -/
structure FoundSlot (cfg : KvConfig) (k : KvCache) (u : UBatch) (si : SlotInfo) : Prop where
  nStream : si.nStream = slotSeqs cfg u
  size : si.size = slotTokens cfg u
  stream : ∀ s < slotSeqs cfg u, si.stream s = cfg.seqToStream (u.seqIdUnq.getD s 0)
  seq : ∀ s < slotSeqs cfg u, FoundSeq cfg k u (slotTokens cfg u) s (si.cellIdxs s)

lemma findSlot_found (hn : 0 < u.nTokens) (hassert : SlotAsserts cfg u)
    (h : findSlot cfg k u false = some si) : FoundSlot cfg k u si := by
  obtain ⟨hcount, hstream, hcells⟩ := findSlot_parts h
  obtain ⟨htok, hseqs, -⟩ := slotTokens_pos hn hassert
  have hseq : ∀ s < slotSeqs cfg u, FoundSeq cfg k u (slotTokens cfg u) s (si.cellIdxs s) :=
    fun s hs => findSeqSlot_found htok (hcells s hs)
  refine ⟨hcount, ?_, hstream, hseq⟩
  have hfirst : si.idxs.headD [] = si.cellIdxs 0 := by
    unfold SlotInfo.cellIdxs
    cases si.idxs <;> rfl
  rw [SlotInfo.size, hfirst, (hseq 0 hseqs).length]

/-- What `find_slot` returns fits the ubatch. -/
theorem FoundSlot.fits (h : FoundSlot cfg k u si) (hsize : k.Sized cfg) (hn : 0 < u.nTokens)
    (hassert : SlotAsserts cfg u) (hunq : u.seqIdUnq.Nodup) : SlotFits cfg.kvSize si u where
  tokens := by rw [h.nStream, h.size, (slotTokens_pos hn hassert).2.2]
  length s hs := by rw [h.size, (h.seq s (h.nStream ▸ hs)).length]
  lt s hs x hx := ((h.seq s (h.nStream ▸ hs)).lt x hx).trans_le (usableSize_le hsize _)
  nodup s hs := (h.seq s (h.nStream ▸ hs)).nodup
  stream_inj s hs s' hs' heq := by
    rw [h.nStream] at hs hs'
    rw [h.stream s hs, h.stream s' hs'] at heq
    exact seqToStream_getD_inj hunq hs hs' heq

end UBatch

end KvCache

end IFairy
