import IFairy.KvCache.Entries

/-!
# The memory API on positions

`clear`, `seq_rm` and `seq_keep` keep the entries of the cells that satisfy a condition on sequence
and position (`KvCache.Filtered`), and `seq_cp` of a whole sequence gives the positions of one
sequence to another.  The positions of the sequences change accordingly.
-/

namespace IFairy

namespace Cell

variable {x : Cell} {s t : SeqId} {p0 p1 : ℤ}

@[simp] lemma entries_empty : empty.entries = ∅ :=
  Set.eq_empty_iff_forall_notMem.2 fun e he => absurd he.1 (Finset.notMem_empty e.1)

lemma entries_rmSeq (x : Cell) (s : SeqId) : (x.rmSeq s).entries = {e ∈ x.entries | e.1 ≠ s} := by
  by_cases hs : s ∈ x.seq
  · rw [rmSeq_eq_keepOnly hs, entries_keepOnly]
  · have herase : x.seq.erase s = x.seq := Finset.erase_eq_of_notMem hs
    have hsame : {e ∈ x.entries | e.1 ≠ s} = x.entries :=
      Set.sep_eq_self_iff_mem_true.2 fun e he heq => hs (heq ▸ he.1)
    rw [hsame, rmSeq, herase]
    split
    · rename_i hempty
      refine (entries_empty.trans ?_)
      exact (Set.eq_empty_iff_forall_notMem.2 fun e he =>
        absurd (hempty ▸ he.1) (Finset.notMem_empty e.1)).symm
    · rfl

lemma entries_keepSeq (x : Cell) (s : SeqId) :
    (x.keepSeq s).entries = {e ∈ x.entries | e.1 = s} := by
  ext ⟨t, p⟩
  unfold keepSeq
  split_ifs with hs hany
  · constructor
    · rintro ⟨ht, hp⟩
      obtain rfl := Finset.mem_singleton.1 ht
      exact ⟨⟨hs, hp⟩, rfl⟩
    · rintro ⟨⟨-, hp⟩, rfl⟩
      exact ⟨Finset.mem_singleton_self t, hp⟩
  · rw [entries_empty]
    refine ⟨fun h => h.elim, ?_⟩
    rintro ⟨⟨ht, -⟩, rfl⟩
    exact absurd ht hs
  · rw [not_not] at hany
    refine ⟨fun h => absurd (hany ▸ h.1) (Finset.notMem_empty t), ?_⟩
    rintro ⟨⟨ht, -⟩, -⟩
    exact absurd (hany ▸ ht) (Finset.notMem_empty t)

lemma entries_onSeq_rmSeq (x : Cell) (s : SeqId) (p0 p1 : ℤ) :
    (x.onSeq s p0 p1 fun x => x.rmSeq s).entries
      = {e ∈ x.entries | ¬ (e.1 = s ∧ p0 ≤ e.2 ∧ e.2 < p1)} := by
  unfold onSeq
  split_ifs with h
  · rw [entries_rmSeq]
    ext ⟨t, p⟩
    refine and_congr_right fun he => not_congr (iff_self_and.2 fun _ => ?_)
    have hpos : x.pos = p := he.2
    exact hpos ▸ h.1
  · refine (Set.sep_eq_self_iff_mem_true.2 ?_).symm
    rintro ⟨t, p⟩ ⟨ht, hp⟩ ⟨rfl, hrange⟩
    obtain rfl : x.pos = p := hp
    exact h ⟨hrange, ht⟩

lemma mem_entries_onSeq_addSeq {e : SeqId × ℤ} :
    e ∈ (x.onSeq s p0 p1 fun x => x.addSeq t).entries ↔
      e ∈ x.entries ∨ e.1 = t ∧ (s, e.2) ∈ x.entries ∧ p0 ≤ e.2 ∧ e.2 < p1 := by
  obtain ⟨r, p⟩ := e
  unfold onSeq
  split_ifs with h
  · constructor
    · rintro ⟨hr, hp⟩
      have hpos : x.pos = p := hp
      rcases Finset.mem_insert.1 hr with heq | hr
      · exact .inr ⟨heq, ⟨h.2, hpos⟩, hpos ▸ h.1⟩
      · exact .inl ⟨hr, hpos⟩
    · rintro (⟨hr, hp⟩ | ⟨rfl, ⟨-, hp⟩, -⟩)
      · exact ⟨Finset.mem_insert_of_mem hr, hp⟩
      · exact ⟨Finset.mem_insert_self r x.seq, hp⟩
  · refine ⟨.inl, ?_⟩
    rintro (he | ⟨-, ⟨hs, hp⟩, hrange⟩)
    · exact he
    · obtain rfl : x.pos = p := hp
      exact absurd ⟨hrange, hs⟩ h

end Cell

namespace KvCache

variable {cfg : KvConfig} {k k' : KvCache} {s t : SeqId} {p0 p1 : ℤ} {Q : SeqId → ℤ → Prop}

/-- The cells of `k'` have the entries of `k` that satisfy `Q`. -/
structure Filtered (cfg : KvConfig) (Q : SeqId → ℤ → Prop) (k' k : KvCache) : Prop where
  within : Within cfg k' k
  mem_iff : ∀ st < cfg.nStream, ∀ j < cfg.kvSize, ∀ e ∈ (k.cell st j).entries,
    e ∈ (k'.cell st j).entries ↔ Q e.1 e.2

lemma Filtered.positions (h : Filtered cfg Q k' k) (s : SeqId) :
    k'.positions cfg s = {p ∈ k.positions cfg s | Q s p} := by
  ext p
  constructor
  · rintro ⟨st, hst, j, hj, he⟩
    have hmem := h.within st j hj he
    exact ⟨⟨st, hst, j, hj, hmem⟩, (h.mem_iff st hst j hj _ hmem).1 he⟩
  · rintro ⟨⟨st, hst, j, hj, he⟩, hQ⟩
    exact ⟨st, hst, j, hj, (h.mem_iff st hst j hj _ he).2 hQ⟩

lemma clear_cell (k : KvCache) (data : Bool) (st j : ℕ) :
    (k.clear cfg data).cell st j = if st < cfg.nStream then .empty else k.cell st j := by
  have hfinal : ∀ (k₁ : KvCache), (if data then { k₁ with prefixEnd := fun _ => -1, data := .zero }
      else { k₁ with prefixEnd := fun _ => -1 }).cell st j = k₁.cell st j := by
    intro k₁
    cases data <;> rfl
  have hset : ∀ (k₁ : KvCache) i, (if data then (k₁.setCells i (k₁.cells i).reset).setHead i 0
      else ((k₁.setCells i (k₁.cells i).reset).setHead i 0).resetKMean cfg i).cell st j
        = if st = i then .empty else k₁.cell st j := by
    intro k₁ i
    have hcell := cell_setCells k₁ i (k₁.cells i).reset st j
    cases data
    · exact hcell
    · exact hcell
  refine (hfinal _).trans ?_
  by_cases hst : st < cfg.nStream
  · rw [if_pos hst]
    refine foldl_read_of_cover _ (fun k₁ => k₁.cell st j) (fun i => st = i) _ (fun i _ hi k₁ => ?_)
      (fun i _ hi k₁ => ?_) ⟨st, List.mem_range.2 hst, rfl⟩ k
    · exact (hset k₁ i).trans (if_pos hi)
    · exact (hset k₁ i).trans (if_neg hi)
  · rw [if_neg hst]
    refine foldl_read_of_not_cover _ (fun k₁ => k₁.cell st j) (fun i hi k₁ => ?_) k
    have hne : st ≠ i := fun heq => hst (heq.le.trans_lt (List.mem_range.1 hi))
    exact (hset k₁ i).trans (if_neg hne)

lemma clear_filtered (cfg : KvConfig) (k : KvCache) (data : Bool) :
    Filtered cfg (fun _ _ => False) (k.clear cfg data) k where
  within st j _ := by
    rw [clear_cell]
    split
    · rw [Cell.entries_empty]
      exact Set.empty_subset _
    · exact subset_rfl
  mem_iff st hst j _ e _ := by
    rw [clear_cell, if_pos hst, Cell.entries_empty]
    exact Iff.rfl

lemma seqRm_filtered (h : k.Sized cfg) (hhome : Homed cfg k) (s : SeqId) (p0 p1 : ℤ) :
    Filtered cfg (fun t p => ¬ (t = s ∧ clampP0 p0 ≤ p ∧ p < clampP1 p1))
      (k.seqRm cfg (some s) p0 p1) k where
  within st j _ := by
    rw [seqRm_some_cell h]
    split
    · rw [Cell.entries_onSeq_rmSeq]
      exact Set.sep_subset _ _
    · exact subset_rfl
  mem_iff st _ j hj e he := by
    rw [seqRm_some_cell h]
    split
    · rw [Cell.entries_onSeq_rmSeq]
      exact and_iff_right he
    · rename_i hother
      refine iff_of_true he fun hes => hother ⟨?_, hj⟩
      rw [← hes.1, hhome st j hj e.1 he.1]

lemma seqRm_none_cell (h : k.Ok cfg) (p0 p1 : ℤ) (st j : ℕ) :
    (k.seqRm cfg none p0 p1).cell st j = if st < cfg.nStream ∧ j < cfg.kvSize then
      if (k.cell st j).PosIn (clampP0 p0) (clampP1 p1) then .empty else k.cell st j
    else k.cell st j := by
  simp only [KvCache.seqRm]
  set k₁ : KvCache := if cfg.PrefixSliding then _ else k with hk₁
  have hcells : k₁.cells = k.cells := by
    rw [hk₁]
    split <;> rfl
  have hsize : ∀ (c : KvCells) i, (if c.PosIn i (clampP0 p0) (clampP1 p1) then (c.rm i, true)
      else (c, false)).1.size = c.size := by
    intro c i
    split <;> rfl
  rw [foldl_sweepStream_cell (n := cfg.kvSize)
    (fun x => if x.PosIn (clampP0 p0) (clampP1 p1) then .empty else x) (fun c i => ?_)
    (fun k₂ st => ?_) (fun st => hcells ▸ h.sized st) (fun c hc => sweep_size hsize hc) st j,
    cell_of_cells hcells]
  · by_cases hin : c.PosIn i (clampP0 p0) (clampP1 p1)
    · have hx : (c.cell i).PosIn (clampP0 p0) (clampP1 p1) := hin
      rw [if_pos hin, if_pos hx]
      exact KvCells.rm_cell c i
    · have hx : ¬ (c.cell i).PosIn (clampP0 p0) (clampP1 p1) := hin
      rw [if_neg hin, if_neg hx]
      exact (Function.update_eq_self ..).symm
  · split <;> rfl

lemma seqRm_none_filtered (h : k.Ok cfg) (p0 p1 : ℤ) :
    Filtered cfg (fun _ p => ¬ (clampP0 p0 ≤ p ∧ p < clampP1 p1)) (k.seqRm cfg none p0 p1) k where
  within st j _ := by
    rw [seqRm_none_cell h]
    split_ifs
    · rw [Cell.entries_empty]
      exact Set.empty_subset _
    · exact subset_rfl
    · exact subset_rfl
  mem_iff st hst j hj e he := by
    rw [seqRm_none_cell h, if_pos ⟨hst, hj⟩, ← he.2]
    split
    · rename_i hin
      rw [Cell.entries_empty]
      exact iff_of_false (fun h => h.elim) fun hno => hno hin
    · rename_i hout
      exact iff_of_true he hout

lemma seqKeep_filtered (hp : ¬ cfg.PrefixSliding) (h : k.Sized cfg) (hhome : Homed cfg k)
    (s : SeqId) :
    Filtered cfg (fun t _ => cfg.seqToStream t = cfg.seqToStream s → t = s) (k.seqKeep cfg s) k where
  within st j _ := by
    rw [seqKeep_cell h]
    split
    · rw [Cell.entries_keepSeq]
      exact Set.sep_subset _ _
    · exact subset_rfl
  mem_iff st _ j hj e he := by
    have hstream := hhome st j hj e.1 he.1
    have hkeeps : KeepsStream cfg s st ↔ st = cfg.seqToStream s := by
      unfold KeepsStream
      rw [if_neg hp]
    rw [seqKeep_cell h]
    split
    · rename_i hst
      rw [Cell.entries_keepSeq, hstream, hkeeps.1 hst.1]
      exact ⟨fun h _ => h.2, fun h => ⟨hkeeps.1 hst.1 ▸ he, h rfl⟩⟩
    · rename_i hst
      exact iff_of_true he fun heq => absurd ⟨hkeeps.2 (hstream.symm.trans heq), hj⟩ hst

/-- With prefix sliding `seq_keep` goes through every stream. -/
lemma seqKeep_filtered_of_prefix (hp : cfg.PrefixSliding) (h : k.Sized cfg) (s : SeqId) :
    Filtered cfg (fun t _ => t = s) (k.seqKeep cfg s) k where
  within st j _ := by
    rw [seqKeep_cell h]
    split
    · rw [Cell.entries_keepSeq]
      exact Set.sep_subset _ _
    · exact subset_rfl
  mem_iff st hst j hj e he := by
    have hkeeps : KeepsStream cfg s st := by
      unfold KeepsStream
      rw [if_pos hp]
      exact hst
    rw [seqKeep_cell h, if_pos ⟨hkeeps, hj⟩, Cell.entries_keepSeq]
    exact and_iff_right he

/-! ## Copying a whole sequence -/

/-- The positions after `seq_cp` of a whole sequence, which empties another stream first. -/
def copyTo (cfg : KvConfig) (src dst : SeqId) (C : SeqId → Set ℤ) (t : SeqId) : Set ℤ :=
  if cfg.seqToStream src = cfg.seqToStream dst then
    if t = dst then C dst ∪ C src else C t
  else if t = dst then C src
  else if cfg.seqToStream t = cfg.seqToStream dst then ∅ else C t

lemma copyTo_subset {C : SeqId → Set ℤ} {src dst : SeqId} {p : ℤ}
    (hp : p ∈ copyTo cfg src dst C t) : ∃ s, p ∈ C s := by
  unfold copyTo at hp
  split_ifs at hp
  · exact hp.elim (fun h => ⟨dst, h⟩) fun h => ⟨src, h⟩
  · exact ⟨t, hp⟩
  · exact ⟨src, hp⟩
  · exact hp.elim
  · exact ⟨t, hp⟩

variable {src dst : SeqId}

lemma seqCp_self (heq : k.seqCp cfg s s p0 p1 = some k') : k'.cells = k.cells := by
  simp only [KvCache.seqCp] at heq
  split_ifs at heq
  · exact Option.some.inj heq ▸ rfl
  · exact Option.some.inj heq ▸ rfl
  · exact Option.some.inj heq ▸ rfl

lemma mem_seqCp_same (h : k.Ok cfg)
    (hstream : cfg.seqToStream src = cfg.seqToStream dst) (heq : k.seqCp cfg src dst p0 p1 = some k')
    (hwhole : p0 ≤ 0 ∧ p1 < 0) (hlt : ∀ p ∈ k.positions cfg src, p < posMax)
    (hsrc : cfg.seqToStream src < cfg.nStream) {st j : ℕ} (hj : j < cfg.kvSize) {e : SeqId × ℤ} :
    e ∈ (k'.cell st j).entries ↔ e ∈ (k.cell st j).entries ∨
      (st = cfg.seqToStream src ∧ e.1 = dst ∧ (src, e.2) ∈ (k.cell st j).entries) := by
  obtain ⟨t, p⟩ := e
  by_cases hne : src = dst
  · subst hne
    rw [cell_of_cells (seqCp_self heq)]
    refine (or_iff_left_of_imp ?_).symm
    rintro ⟨-, rfl, he⟩
    exact he
  rw [seqCp_same_cell h.sized hstream hne (fun hc => hc.2 hwhole) heq]
  by_cases hst : st = cfg.seqToStream src
  · rw [if_pos ⟨hst, hj⟩, Cell.mem_entries_onSeq_addSeq]
    refine or_congr_right ?_
    constructor
    · rintro ⟨hdst, he, -⟩
      exact ⟨hst, hdst, he⟩
    · rintro ⟨-, hdst, he⟩
      have hmem : p ∈ k.positions cfg src := ⟨st, hst ▸ hsrc, j, hj, he⟩
      have hnn := positions_nonneg h hmem
      refine ⟨hdst, he, ?_, ?_⟩
      · unfold clampP0
        split <;> omega
      · rw [clampP1, if_pos hwhole.2]
        exact hlt p hmem
  · rw [if_neg fun hc => hst hc.1]
    exact (or_iff_left fun hc => hst hc.1).symm

lemma mem_seqCp_cross (h : k.Ok cfg) (hstream : cfg.seqToStream src ≠ cfg.seqToStream dst)
    (heq : k.seqCp cfg src dst p0 p1 = some k') (hwhole : p0 ≤ 0 ∧ p1 < 0) {st j : ℕ}
    (hj : j < cfg.kvSize) {e : SeqId × ℤ} :
    e ∈ (k'.cell st j).entries ↔ (st ≠ cfg.seqToStream dst ∧ e ∈ (k.cell st j).entries) ∨
      (st = cfg.seqToStream dst ∧ e.1 = dst ∧
        (src, e.2) ∈ (k.cell (cfg.seqToStream src) j).entries) := by
  rw [seqCp_cross_cell h hstream (fun hc => hc.2 hwhole) heq]
  by_cases hst : st = cfg.seqToStream dst
  · simp only [hst, if_true, ne_eq, not_true_eq_false, false_and, false_or, true_and]
    split
    · rename_i hs
      constructor
      · rintro ⟨hdst, hpos⟩
        exact ⟨Finset.mem_singleton.1 hdst, hs.2, hpos⟩
      · rintro ⟨hdst, -, hpos⟩
        exact ⟨Finset.mem_singleton.2 hdst, hpos⟩
    · rename_i hs
      rw [Cell.entries_empty]
      exact iff_of_false (fun he => he.elim) fun he => hs ⟨hj, he.2.1⟩
  · simp only [hst, if_false, ne_eq, not_false_eq_true, true_and, false_and, or_false]

theorem seqCp_positions (h : k.Ok cfg) (hhome : Homed cfg k)
    (heq : k.seqCp cfg src dst p0 p1 = some k') (hwhole : p0 ≤ 0 ∧ p1 < 0)
    (hlt : ∀ p ∈ k.positions cfg src, p < posMax) (hsrc : cfg.seqToStream src < cfg.nStream)
    (hdst : cfg.seqToStream dst < cfg.nStream) :
    k'.positions cfg = copyTo cfg src dst (k.positions cfg) := by
  funext t
  ext p
  unfold copyTo
  by_cases hstream : cfg.seqToStream src = cfg.seqToStream dst
  · rw [if_pos hstream]
    have hmem : p ∈ k'.positions cfg t ↔
        p ∈ k.positions cfg t ∨ (t = dst ∧ p ∈ k.positions cfg src) := by
      constructor
      · rintro ⟨st, hst, j, hj, he⟩
        rcases (mem_seqCp_same h hstream heq hwhole hlt hsrc hj).1 he with he | ⟨-, ht, he⟩
        · exact .inl ⟨st, hst, j, hj, he⟩
        · exact .inr ⟨ht, st, hst, j, hj, he⟩
      · rintro (⟨st, hst, j, hj, he⟩ | ⟨ht, st, hst, j, hj, he⟩)
        · exact ⟨st, hst, j, hj, (mem_seqCp_same h hstream heq hwhole hlt hsrc hj).2 (.inl he)⟩
        · exact ⟨st, hst, j, hj, (mem_seqCp_same h hstream heq hwhole hlt hsrc hj).2
            (.inr ⟨(hhome st j hj src he.1).symm, ht, he⟩)⟩
    rw [hmem]
    split
    · rename_i ht
      subst ht
      simp only [true_and, Set.mem_union]
    · rename_i ht
      simp only [ht, false_and, or_false]
  · rw [if_neg hstream]
    split_ifs with ht hother
    · subst ht
      constructor
      · rintro ⟨st, hst, j, hj, he⟩
        rcases (mem_seqCp_cross h hstream heq hwhole hj).1 he with ⟨hne, he⟩ | ⟨-, -, he⟩
        · exact absurd (hhome st j hj _ he.1).symm hne
        · exact ⟨_, hsrc, j, hj, he⟩
      · rintro ⟨st, hst, j, hj, he⟩
        obtain rfl := hhome st j hj src he.1
        exact ⟨_, hdst, j, hj, (mem_seqCp_cross h hstream heq hwhole hj).2 (.inr ⟨rfl, rfl, he⟩)⟩
    · refine iff_of_false ?_ fun hc => hc.elim
      rintro ⟨st, hst, j, hj, he⟩
      rcases (mem_seqCp_cross h hstream heq hwhole hj).1 he with ⟨hne, he⟩ | ⟨-, hdst', -⟩
      · exact hne ((hhome st j hj _ he.1).symm.trans hother)
      · exact ht hdst'
    · constructor
      · rintro ⟨st, hst, j, hj, he⟩
        rcases (mem_seqCp_cross h hstream heq hwhole hj).1 he with ⟨-, he⟩ | ⟨-, hdst', -⟩
        · exact ⟨st, hst, j, hj, he⟩
        · exact absurd hdst' ht
      · rintro ⟨st, hst, j, hj, he⟩
        have hne : st ≠ cfg.seqToStream dst := fun hst' =>
          hother ((hhome st j hj _ he.1).trans hst')
        exact ⟨st, hst, j, hj, (mem_seqCp_cross h hstream heq hwhole hj).2 (.inl ⟨hne, he⟩)⟩

lemma Homed.seqCp (h : k.Ok cfg) (hhome : Homed cfg k)
    (heq : k.seqCp cfg src dst p0 p1 = some k') (hwhole : p0 ≤ 0 ∧ p1 < 0)
    (hlt : ∀ p ∈ k.positions cfg src, p < posMax) (hsrc : cfg.seqToStream src < cfg.nStream) :
    Homed cfg k' := by
  intro st j hj s hs
  obtain ⟨p, he⟩ := Cell.mem_seq_iff.1 hs
  by_cases hstream : cfg.seqToStream src = cfg.seqToStream dst
  · rcases (mem_seqCp_same h hstream heq hwhole hlt hsrc hj).1 he with he | ⟨hst, ht, -⟩
    · exact hhome st j hj s he.1
    · obtain rfl : s = dst := ht
      exact hstream.symm.trans hst.symm
  · rcases (mem_seqCp_cross h hstream heq hwhole hj).1 he with ⟨-, he⟩ | ⟨hst, ht, -⟩
    · exact hhome st j hj s he.1
    · obtain rfl : s = dst := ht
      exact hst.symm

end KvCache

end IFairy
