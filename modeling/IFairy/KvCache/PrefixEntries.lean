import IFairy.KvCache.Reuse
import IFairy.KvCache.SeqOps

/-!
# Ubatches in a cache with prefix sliding

With prefix sliding `apply_ubatch` purges nothing: it takes out of the cache what the cells of its
slot hold (`KvCache.evicted`), and `prepare` leaves every cell with its entries.  `find_slot` reuses
the cells of the sequence that it places only, and what it evicts lies a window length before the
first token of that sequence (`KvCache.Evicts`).
-/

namespace IFairy

/-- The sequences of an ubatch are those of its tokens. -/
def UBatch.Lists (u : UBatch) : Prop := ∀ s, s ∈ u.seqIdUnq ↔ ∃ i < u.nTokens, s ∈ u.seqSet i

namespace KvCache

variable {cfg : KvConfig} {k k' : KvCache} {u : UBatch} {us : List UBatch} {si : SlotInfo}
  {sis : List SlotInfo} {s : SeqId} {st j : ℕ}

/-! ## What an ubatch leaves -/

lemma applyUbatch_placed (hp : cfg.PrefixSliding) (h : k.Ok cfg) (hfit : SlotFits cfg.kvSize si u)
    (st j : ℕ) : ((k.applyUbatch cfg si u).cell st j).entries = placedEntries k si u st j := by
  have hcell : (k.applyUbatch cfg si u).cell = (emplaceAll cfg k si u).1.cell := by
    refine (cell_of_cells (moveHeads_cells _ _)).trans ?_
    rw [ purge_of_prefix hp]
  rw [hcell]
  exact emplaceAll_entries h hfit st j

lemma applyUbatch_congr (hp : cfg.PrefixSliding) (h : k.Ok cfg) (h' : k'.Ok cfg)
    (hfit : SlotFits cfg.kvSize si u)
    (hsame : ∀ st j, (k'.cell st j).entries = (k.cell st j).entries) (st j : ℕ) :
    ((k'.applyUbatch cfg si u).cell st j).entries
      = ((k.applyUbatch cfg si u).cell st j).entries := by
  rw [applyUbatch_placed hp h hfit, applyUbatch_placed hp h' hfit, placedEntries, placedEntries,
    hsame]

/-- The entries that only cells of the slot hold. -/
def evicted (cfg : KvConfig) (k : KvCache) (si : SlotInfo) : Set (SeqId × ℤ) :=
  {e ∈ k.overwritten si | ∀ st < cfg.nStream, ∀ j < cfg.kvSize, e ∈ (k.cell st j).entries →
    si.Names st j}

lemma applyUbatch_positions (hp : cfg.PrefixSliding) (h : k.Ok cfg)
    (hfit : SlotFits cfg.kvSize si u) (hslot : SlotHomes cfg si u) (s : SeqId) :
    (k.applyUbatch cfg si u).positions cfg s
      = (k.positions cfg s \ {p | (s, p) ∈ k.evicted cfg si}) ∪ tokenPositions [u] s := by
  ext p
  constructor
  · rintro ⟨st, hst, j, hj, he⟩
    rw [applyUbatch_placed hp h hfit] at he
    rcases he with ⟨hno, he⟩ | ⟨r, hr, -, -, he⟩
    · exact .inl ⟨⟨st, hst, j, hj, he⟩, fun hout => hno (hout.2 st hst j hj he)⟩
    · exact .inr ⟨u, List.mem_cons_self, r.tok, (hfit.entry_lt hr).2, he.1, he.2⟩
  · rintro (⟨⟨st, hst, j, hj, he⟩, hin⟩ | ⟨u', hu', i, hi, hs, rfl⟩)
    · -- another cell holds the position when this one is in the slot
      have hother : ∃ st' < cfg.nStream, ∃ j' < cfg.kvSize,
          (s, p) ∈ (k.cell st' j').entries ∧ ¬ si.Names st' j' := by
        by_contra hnone
        refine hin ⟨⟨st, j, ?_, he⟩, ?_⟩
        · exact not_not.1 fun hno => hnone ⟨st, hst, j, hj, he, hno⟩
        · exact fun st' hst' j' hj' he' => not_not.1 fun hno => hnone ⟨st', hst', j', hj', he', hno⟩
      obtain ⟨st', hst', j', hj', he', hno⟩ := hother
      refine ⟨st', hst', j', hj', ?_⟩
      rw [applyUbatch_placed hp h hfit]
      exact .inl ⟨hno, he'⟩
    · obtain rfl := List.mem_singleton.1 hu'
      obtain ⟨r, hr, rfl⟩ := entries_cover hfit hi
      refine ⟨r.st, (hslot r hr).1, r.idx, (hfit.entry_lt hr).1, ?_⟩
      rw [applyUbatch_placed hp h hfit]
      exact .inr ⟨r, hr, rfl, rfl, hs, rfl⟩

lemma applyUbatch_homed (hp : cfg.PrefixSliding) (h : k.Ok cfg) (hfit : SlotFits cfg.kvSize si u)
    (hhome : Homed cfg k) (hslot : SlotHomes cfg si u) : Homed cfg (k.applyUbatch cfg si u) := by
  intro st j hj s hs
  obtain ⟨p, he⟩ := Cell.mem_seq_iff.1 hs
  rw [applyUbatch_placed hp h hfit] at he
  rcases he with ⟨-, he⟩ | ⟨r, hr, rfl, -, he⟩
  · exact hhome st j hj s he.1
  · exact (hslot r hr).2 s he.1

/-- `prepare` leaves the entries of every cell. -/
theorem prepare_entries (hp : cfg.PrefixSliding) : ∀ (us : List UBatch) {k : KvCache}, k.Ok cfg →
    (∀ u ∈ us, u.Placeable cfg ∧ u.Proper) → ∀ st j,
      ((k.prepare cfg us).1.cell st j).entries = (k.cell st j).entries := by
  intro us
  induction us with
  | nil => exact fun _ _ _ _ => rfl
  | cons u us ih =>
    intro k h hus st j
    obtain ⟨⟨hu, hproper⟩, hus'⟩ := List.forall_mem_cons.1 hus
    rw [prepare_cons]
    cases hslot : findSlot cfg k u false with
    | none => rfl
    | some si =>
      have hfit := findSlot_fits h.sized hu hslot
      refine (restore_entries hfit _ k st j).trans ?_
      split
      · rfl
      · rename_i hno
        rw [ih (h.applyUbatch hfit hproper) hus', applyUbatch_placed hp h hfit]
        ext e
        constructor
        · rintro (⟨-, he⟩ | ⟨r, hr, hst, hidx, -⟩)
          · exact he
          · exact absurd ((names_iff_entry hfit).2 ⟨r, hr, hst, hidx⟩) hno
        · exact fun he => .inl ⟨hno, he⟩

/-! ## What a slot evicts -/

lemma minIncoming_le {n i : ℕ} (hi : i < n) (u : UBatch) (s : ℕ) :
    minIncoming u n s ≤ u.pos (s * n + i) :=
  (foldl_min_le _ _ _ _).2 (.inr ⟨i, List.mem_range.2 hi, le_rfl⟩)

/-- What a slot overwrites lies a window length before the first position that the ubatch has for
the sequence. -/
def Evicts (cfg : KvConfig) (k : KvCache) (si : SlotInfo) (u : UBatch) : Prop :=
  ∀ e ∈ k.overwritten si, ∃ m, IsLeast (tokenPositions [u] e.1) m ∧ e.2 + cfg.window ≤ m

lemma mem_seqIdUnq_getD (hu : u.Ready cfg) (hlists : u.Lists) {s : ℕ} (hs : s < slotSeqs cfg u) :
    u.seqIdUnq.getD s 0 ∈ u.seqIdUnq := by
  have hlt : s < u.seqIdUnq.length := by
    unfold slotSeqs at hs
    split at hs
    · exact hs
    · have hfirst := (hlists _).2 ⟨0, hu.placeable.nTokens_pos,
        List.mem_toFinset.2 (u.seqId 0).head_mem⟩
      exact hs.trans_le (List.length_pos_of_mem hfirst)
  rw [List.getD_eq_getElem _ _ hlt]
  exact List.getElem_mem hlt

/-- `find_slot` looks at every token of a sequence for which it searches. -/
lemma exists_slotToken (hu : u.Ready cfg) {s i : ℕ} (hs : s < slotSeqs cfg u) (hi : i < u.nTokens)
    (hmem : u.seqIdUnq.getD s 0 ∈ u.seqSet i) :
    ∃ ii < slotTokens cfg u, s * slotTokens cfg u + ii = i := by
  by_cases hmany : 1 < cfg.nStream
  · obtain ⟨m, hm, hrow⟩ := hu.grouped hmany
    unfold slotSeqs at hs
    rw [if_pos hmany] at hs
    have htok : slotTokens cfg u = m := by
      rw [slotTokens, if_pos hmany, hm, Nat.mul_div_cancel_left _ (Nat.zero_lt_of_lt hs)]
    rw [hm] at hi
    have hmpos : 0 < m := Nat.pos_of_mul_pos_left (Nat.zero_lt_of_lt hi)
    have hdiv : i / m < u.nSeqsUnq := Nat.div_lt_of_lt_mul (by rwa [Nat.mul_comm])
    have hseq := hrow (i / m) hdiv (i % m) (Nat.mod_lt _ hmpos)
    rw [Nat.div_add_mod'] at hseq
    have hids : u.seqIdUnq.getD s 0 = u.seqIdUnq.getD (i / m) 0 := by
      simpa [UBatch.seqSet, hseq, SeqIds.toList] using hmem
    rw [List.getD_eq_getElem _ _ hs, List.getD_eq_getElem _ _ hdiv] at hids
    obtain rfl := (List.Nodup.getElem_inj_iff hu.placeable.nodup).1 hids
    rw [htok]
    exact ⟨i % m, Nat.mod_lt _ hmpos, Nat.div_add_mod' i m⟩
  · unfold slotSeqs at hs
    unfold slotTokens
    rw [if_neg hmany] at hs ⊢
    obtain rfl := Nat.lt_one_iff.1 hs
    exact ⟨i, hi, by rw [Nat.zero_mul, Nat.zero_add]⟩

lemma FoundSlot.evicts (hfound : FoundSlot cfg k u si) (hfit : SlotFits cfg.kvSize si u)
    (hswa : cfg.swaType = .none) (h : k.Ok cfg) (hu : u.Ready cfg) (hlists : u.Lists) :
    Evicts cfg k si u := by
  rintro ⟨t, q⟩ ⟨st, j, ⟨s, hs, rfl, hj⟩, ht, rfl⟩
  have hlt := hfit.lt s hs j hj
  rw [hfound.nStream] at hs
  have huse := (hfound.seq s hs).canUse j hj
  unfold SeqCanUse at huse
  rw [← hfound.stream s hs] at huse
  have hreused : t = u.seqIdUnq.getD s 0 ∧
      (k.cell (si.stream s) j).pos + cfg.window ≤ minIncoming u (slotTokens cfg u) s := by
    rcases huse with hempty | ⟨hone, t', hget, ⟨-, rfl, -, hbefore⟩ | hmask⟩
    · have hnone : (k.cell (si.stream s) j).seq = ∅ := ((h _).cleared hlt hempty).1
      exact absurd (hnone ▸ ht) (Finset.notMem_empty t)
    · have hget' : (k.cell (si.stream s) j).seqGet = some (u.seqIdUnq.getD s 0) := hget
      refine ⟨?_, ?_⟩
      · exact Finset.card_le_one.1 hone.le t ht _ (Cell.mem_of_seqGet hget')
      · have hpos : (k.cell (si.stream s) j).pos
            < minIncoming u (slotTokens cfg u) s - cfg.window + 1 := hbefore
        omega
    · rw [KvConfig.IsMaskedSwa, hswa] at hmask
      exact hmask.elim
  obtain ⟨rfl, hle⟩ := hreused
  have hfirst : ∀ p ∈ tokenPositions [u] (u.seqIdUnq.getD s 0),
      minIncoming u (slotTokens cfg u) s ≤ p := by
    rintro p ⟨u', hu', i, hi, hmem, rfl⟩
    obtain rfl := List.mem_singleton.1 hu'
    obtain ⟨ii, hii, rfl⟩ := exists_slotToken hu hs hi hmem
    exact minIncoming_le hii u' s
  obtain ⟨i, hi, hmem⟩ := (hlists _).1 (mem_seqIdUnq_getD hu hlists hs)
  obtain ⟨m, hm, hleast⟩ := Int.exists_least_of_bdd (P := (· ∈ tokenPositions [u] _))
    ⟨_, fun p hp => hfirst p hp⟩ ⟨u.pos i, u, List.mem_cons_self, i, hi, hmem, rfl⟩
  exact ⟨m, ⟨hm, fun p hp => hleast p hp⟩, hle.trans (hfirst m hm)⟩

/-- Every slot evicts in that way when the ubatches before it have been applied. -/
def EvictsAll (cfg : KvConfig) : KvCache → List (SlotInfo × UBatch) → Prop
  | _, [] => True
  | k, e :: rest => Evicts cfg k e.1 e.2 ∧ EvictsAll cfg (k.applyUbatch cfg e.1 e.2) rest

lemma Planned.evictsAll (hswa : cfg.swaType = .none) : ∀ {us : List UBatch} {sis : List SlotInfo}
    {k : KvCache}, k.Ok cfg → Planned cfg k sis us → (∀ u ∈ us, u.Ready cfg ∧ u.Lists) →
      EvictsAll cfg k (sis.zip us) := by
  intro us
  induction us with
  | nil =>
    intro sis k _ _ _
    rw [List.zip_nil_right]
    trivial
  | cons u us ih =>
    intro sis k h hplan hus
    cases sis with
    | nil => trivial
    | cons si sis =>
      obtain ⟨hslot, hplan'⟩ := hplan
      obtain ⟨⟨hu, hlists⟩, hus'⟩ := List.forall_mem_cons.1 hus
      have hfit := findSlot_fits h.sized hu.placeable hslot
      have hfound := findSlot_found hu.placeable.nTokens_pos hu.placeable.asserts hslot
      exact ⟨hfound.evicts hfit hswa h hu hlists, ih (h.applyUbatch hfit hu.proper) hplan' hus'⟩

lemma EvictsAll.congr (hp : cfg.PrefixSliding) : ∀ {L : List (SlotInfo × UBatch)} {k k' : KvCache},
    k.Ok cfg → k'.Ok cfg → (∀ e ∈ L, SlotFits cfg.kvSize e.1 e.2 ∧ e.2.Proper) →
    (∀ st j, (k'.cell st j).entries = (k.cell st j).entries) → EvictsAll cfg k L →
      EvictsAll cfg k' L := by
  intro L
  induction L with
  | nil =>
    intros
    trivial
  | cons e L ih =>
    intro k k' h h' hL hsame hall
    obtain ⟨⟨hfit, hproper⟩, hL'⟩ := List.forall_mem_cons.1 hL
    refine ⟨?_, ih (h.applyUbatch hfit hproper) (h'.applyUbatch hfit hproper) hL'
      (applyUbatch_congr hp h h' hfit hsame) hall.2⟩
    have hover : k'.overwritten e.1 = k.overwritten e.1 :=
      SameOn.overwritten fun st j _ => hsame st j
    unfold Evicts
    rw [hover]
    exact hall.1

end KvCache

lemma UBatch.Of.lists {b : Batch} {mem : MemBounds} {nSeqMax : ℕ} {u : UBatch}
    (h : u.Of b nSeqMax) (hacc : b.Accepted mem nSeqMax) : u.Lists := by
  intro s
  rw [h.mem_seqIdUnq, and_iff_right_iff_imp]
  rintro ⟨i, hi, hs⟩
  obtain ⟨row, hrow, -, hseq⟩ := h.row i hi
  rw [UBatch.seqSet, hseq, List.mem_toFinset] at hs
  exact hacc.seqId_lt row hrow s hs

end IFairy
