import IFairy.KvCache.Reuse
import IFairy.KvCache.SeqFrame
import IFairy.KvCache.SeqOps

/-!
# A cache with one sequence

A plain cache has one stream, no window and no prefix sliding.  When only sequence `0` is in it, it
is described by the position that each cell holds (`KvCache.Holds`).  The memory API changes this
map cell by cell, and a decode of further tokens fills empty cells and leaves the others alone
(`decodeTokens_spec`).
-/

namespace IFairy

/-- One stream, without a window and without prefix sliding. -/
structure KvConfig.Plain (cfg : KvConfig) : Prop where
  nStream : cfg.nStream = 1
  swaType : cfg.swaType = .none
  noPrefix : ¬ cfg.PrefixSliding

lemma KvConfig.Plain.seqToStream {cfg : KvConfig} (h : cfg.Plain) (s : SeqId) :
    cfg.seqToStream s = 0 := by
  unfold KvConfig.seqToStream
  rw [h.nStream, if_neg (lt_irrefl 1)]

lemma Cell.mem_entries_iff_entry {x : Cell} {t : SeqId} {p : ℤ} :
    (t, p) ∈ x.entries ↔ (x.entry t).map Prod.fst = some p := by
  rw [Cell.mem_entries]
  by_cases ht : t ∈ x.seq
  · rw [Cell.entry_of_mem ht, Option.map_some, Option.some.injEq]
    exact and_iff_right ht
  · rw [Cell.entry_of_notMem ht, Option.map_none]
    exact iff_of_false (fun h => ht h.1) (Option.some_ne_none p).symm

namespace KvCache

variable {cfg : KvConfig} {k k' : KvCache} {L : ℕ → Option ℤ} {p0 p1 d : ℤ}

/-- Sequence `0` alone is in the cache, and cell `j` holds its position `L j`. -/
def Holds (cfg : KvConfig) (k : KvCache) (L : ℕ → Option ℤ) : Prop :=
  ∀ j < cfg.kvSize, (k.cell 0 j).entries = {e | e.1 = 0 ∧ L j = some e.2}

lemma holds_iff_entry : Holds cfg k L ↔
    ∀ j < cfg.kvSize, ∀ t, (k.entry t 0 j).map Prod.fst = if t = 0 then L j else none := by
  refine forall₂_congr fun j _ => ?_
  rw [Set.ext_iff]
  constructor
  · intro h t
    refine Option.ext fun p => ?_
    refine Cell.mem_entries_iff_entry.symm.trans ((h (t, p)).trans ?_)
    by_cases ht : t = 0
    · simp only [ht, Set.mem_ofPred_eq, true_and, if_true]
    · simp only [ht, Set.mem_ofPred_eq, false_and, if_false, reduceCtorEq]
  · rintro h ⟨t, p⟩
    refine Cell.mem_entries_iff_entry.trans ?_
    have hentry := h t
    rw [entry] at hentry
    rw [hentry]
    by_cases ht : t = 0
    · simp only [ht, Set.mem_ofPred_eq, true_and, if_true]
    · simp only [ht, Set.mem_ofPred_eq, false_and, if_false, reduceCtorEq]

/-! ## What the description says -/

lemma Holds.positions (hplain : cfg.Plain) (h : Holds cfg k L) :
    k.positions cfg 0 = {p | ∃ j < cfg.kvSize, L j = some p} := by
  ext p
  constructor
  · rintro ⟨st, hst, j, hj, he⟩
    rw [hplain.nStream, Nat.lt_one_iff] at hst
    subst hst
    rw [h j hj] at he
    exact ⟨j, hj, he.2⟩
  · rintro ⟨j, hj, hp⟩
    refine ⟨0, hplain.nStream ▸ Nat.one_pos, j, hj, ?_⟩
    rw [h j hj]
    exact ⟨rfl, hp⟩

lemma Holds.seqPosMax (hplain : cfg.Plain) (hk : k.Ok cfg) (h : Holds cfg k L) {n : ℤ} (hn : 0 ≤ n)
    (hmax : ∀ j < cfg.kvSize, ∀ p, L j = some p → p < n)
    (hlast : 0 < n → ∃ j < cfg.kvSize, L j = some (n - 1)) : k.seqPosMax cfg 0 = n - 1 := by
  have hpos : (k.cells 0).positions 0 = {p | ∃ j < cfg.kvSize, L j = some p} := by
    ext p
    have hcell : ∀ j < cfg.kvSize, (0 ∈ (k.cells 0).seq j ∧ (k.cells 0).pos j = p ↔ L j = some p) := by
      intro j hj
      have hmem := Set.ext_iff.1 (h j hj) (0, p)
      exact hmem.trans (and_iff_right rfl)
    constructor
    · rintro ⟨j, hj, he⟩
      rw [(hk 0).size_eq] at hj
      exact ⟨j, hj, (hcell j hj).1 he⟩
    · rintro ⟨j, hj, hp⟩
      exact ⟨j, (hk 0).lt hj, (hcell j hj).2 hp⟩
  rw [KvCache.seqPosMax, hplain.seqToStream]
  rcases hn.eq_or_lt with rfl | hn
  · refine ((hk 0).repInv.seqPos_bounds_of_empty (Set.eq_empty_iff_forall_notMem.2 ?_)).2
    rw [hpos]
    rintro p ⟨j, hj, hp⟩
    have hnn : 0 ≤ p := by
      have hmem : (0, p) ∈ (k.cell 0 j).entries := by
        rw [h j hj]
        exact ⟨rfl, hp⟩
      have hval : (k.cell 0 j).pos = p := hmem.2
      rw [← hval]
      exact (hk 0).pos_nonneg hj hmem.1
    exact absurd (hmax j hj p hp) (not_lt.2 hnn)
  · have hne : ((k.cells 0).positions 0).Nonempty := by
      rw [hpos]
      exact ⟨n - 1, hlast hn⟩
    have hgreatest := (hk 0).repInv.seqPosMax_isGreatest hne
    rw [hpos] at hgreatest
    refine hgreatest.unique ⟨hlast hn, ?_⟩
    rintro p ⟨j, hj, hp⟩
    exact Int.le_sub_one_of_lt (hmax j hj p hp)

/-! ## The memory API -/

lemma clampP0_of_nonneg (h : 0 ≤ p0) : clampP0 p0 = p0 := if_neg (not_lt.2 h)

lemma clampP1_of_nonneg (h : 0 ≤ p1) : clampP1 p1 = p1 := if_neg (not_lt.2 h)

lemma holds_new (cfg : KvConfig) : Holds cfg (new cfg) fun _ => none := by
  intro j _
  refine Set.ext fun e => iff_of_false (fun he => ?_) fun he => absurd he.2 (by simp)
  exact Finset.notMem_empty e.1 he.1

lemma Holds.seqRm (hplain : cfg.Plain) (hk : k.Sized cfg) (h : Holds cfg k L) :
    Holds cfg (k.seqRm cfg (some 0) p0 p1)
      fun j => (L j).filter fun p => ¬ (clampP0 p0 ≤ p ∧ p < clampP1 p1) := by
  intro j hj
  rw [seqRm_some_cell hk, if_pos ⟨(hplain.seqToStream 0).symm, hj⟩, Cell.entries_onSeq_rmSeq,
    h j hj]
  ext ⟨t, p⟩
  change (t = 0 ∧ L j = some p) ∧ ¬ (t = 0 ∧ clampP0 p0 ≤ p ∧ p < clampP1 p1) ↔
    t = 0 ∧ (L j).filter _ = some p
  rw [Option.filter_eq_some_iff, decide_eq_true_eq, and_assoc]
  refine and_congr_right fun ht => and_congr_right fun _ => ?_
  rw [and_iff_right ht]

lemma Holds.move (hplain : cfg.Plain) (h : Holds cfg k L) {F : ℤ → ℤ}
    (hmove : ∀ j < cfg.kvSize, ∀ t, (k'.entry t 0 j).map Prod.fst =
      if k.Touches cfg 0 p0 p1 0 j then (k.entry t 0 j).map fun e => F e.1
      else (k.entry t 0 j).map Prod.fst) :
    Holds cfg k' fun j => (L j).map fun p => if clampP0 p0 ≤ p ∧ p < clampP1 p1 then F p else p := by
  rw [holds_iff_entry] at h ⊢
  intro j hj t
  rw [hmove j hj]
  have hheld := h j hj t
  by_cases ht : t = 0
  · subst ht
    rw [if_pos rfl] at hheld ⊢
    rw [← hheld]
    by_cases hseq : 0 ∈ (k.cell 0 j).seq
    · have hentry : k.entry 0 0 j = some ((k.cell 0 j).pos, (k.cell 0 j).shift) :=
        Cell.entry_of_mem hseq
      have htouch : k.Touches cfg 0 p0 p1 0 j ↔
          clampP0 p0 ≤ (k.cell 0 j).pos ∧ (k.cell 0 j).pos < clampP1 p1 := by
        unfold Touches
        rw [and_iff_right ⟨(hplain.seqToStream 0).symm, hj⟩, and_iff_left hseq]
        exact Iff.rfl
      simp only [hentry, htouch, Option.map_some]
      split <;> rfl
    · have hentry : k.entry 0 0 j = none := Cell.entry_of_notMem hseq
      simp only [hentry, ite_self, Option.map_none]
  · rw [if_neg ht] at hheld ⊢
    rw [Option.map_eq_none_iff] at hheld
    simp only [hheld, ite_self, Option.map_none]

/-- `seq_add` of a range in which no position becomes negative. -/
lemma Holds.seqAdd (hplain : cfg.Plain) (hk : k.Sized cfg) (h : Holds cfg k L)
    (hnn : ∀ j < cfg.kvSize, ∀ p, L j = some p → clampP0 p0 ≤ p → 0 ≤ p + d) :
    Holds cfg (k.seqAdd cfg 0 p0 p1 d)
      fun j => (L j).map fun p => if clampP0 p0 ≤ p ∧ p < clampP1 p1 then p + d else p := by
  refine h.move hplain fun j hj t => ?_
  rw [seqAdd_entry hk]
  simp only [hplain.noPrefix, not_false_eq_true, true_and]
  split
  · rename_i htouch
    cases hentry : k.entry t 0 j with
    | none => rfl
    | some e =>
      have hheld := holds_iff_entry.1 h j hj t
      rw [hentry, Option.map_some] at hheld
      have hpos : (k.cell 0 j).pos = e.1 := by
        have hmem : (t, e.1) ∈ (k.cell 0 j).entries := by
          rw [Cell.mem_entries_iff_entry]
          exact congrArg (Option.map Prod.fst) hentry
        exact hmem.2
      have hL : L j = some e.1 := by
        by_cases ht : t = 0
        · rw [if_pos ht] at hheld
          exact hheld.symm
        · rw [if_neg ht] at hheld
          exact absurd hheld (Option.some_ne_none _)
      rw [Option.bind_some, if_neg (not_lt.2 (hnn j hj _ hL (hpos ▸ htouch.2.1.1)))]
      rfl
  · rfl

lemma Holds.seqDiv (hplain : cfg.Plain) (hk : k.Sized cfg) (h : Holds cfg k L) :
    Holds cfg (k.seqDiv cfg 0 p0 p1 d)
      fun j => (L j).map fun p => if clampP0 p0 ≤ p ∧ p < clampP1 p1 then p.tdiv d else p := by
  refine h.move (F := fun p => p.tdiv d) hplain fun j _ t => ?_
  rw [(seqDiv_entry hk 0 j).1]
  simp only [hplain.noPrefix, not_false_eq_true, true_and]

lemma Holds.congr (h : Holds cfg k L)
    (heq : ∀ st j, (k'.cell st j).entries = (k.cell st j).entries) : Holds cfg k' L :=
  fun j hj => (heq 0 j).trans (h j hj)

/-! ## Applying an ubatch -/

/-- The map after tokens at the positions `pos 0`, `pos 1`, … are put into the listed cells. -/
def putTokens (L : ℕ → Option ℤ) (cells : List ℕ) (pos : ℕ → ℤ) (j : ℕ) : Option ℤ :=
  if j ∈ cells then some (pos (cells.idxOf j)) else L j

section Apply

variable {si : SlotInfo} {u : UBatch}

lemma mem_entries_one (hone : si.nStream = 1) {r : SlotEntry} :
    r ∈ si.entries ↔ ∃ i < si.size, r = ⟨si.stream 0, (si.cellIdxs 0).getD i 0, i⟩ := by
  rw [SlotInfo.entries, hone, List.range_one, List.flatMap_singleton, List.mem_map]
  refine exists_congr fun i => ?_
  rw [List.mem_range, Nat.zero_mul, Nat.zero_add]
  exact and_congr_right fun _ => eq_comm

/-- An ubatch of sequence `0` goes into empty cells. -/
lemma Holds.applyUbatch (hplain : cfg.Plain) (hk : k.Ok cfg) (h : Holds cfg k L)
    (hfit : SlotFits cfg.kvSize si u) (hu : u.Proper) (hone : si.nStream = 1)
    (hstream : si.stream 0 = 0) (hseq : ∀ i < u.nTokens, u.seqId i = ⟨0, []⟩)
    (hempty : ∀ j ∈ si.cellIdxs 0, L j = none) :
    Holds cfg (k.applyUbatch cfg si u) (putTokens L (si.cellIdxs 0) u.pos) := by
  have hlen : (si.cellIdxs 0).length = si.size := hfit.length 0 (hone ▸ Nat.one_pos)
  have htokens : si.size = u.nTokens := by
    rw [← hfit.tokens, hone, Nat.one_mul]
  have hlt : ∀ j ∈ si.cellIdxs 0, j < cfg.kvSize := hfit.lt 0 (hone ▸ Nat.one_pos)
  have hnames : ∀ j, si.Names 0 j ↔ j ∈ si.cellIdxs 0 := by
    intro j
    constructor
    · rintro ⟨s, hs, -, hj⟩
      rw [hone, Nat.lt_one_iff] at hs
      exact hs ▸ hj
    · exact fun hj => ⟨0, hone ▸ Nat.one_pos, hstream, hj⟩
  have hrecorded : ∀ t, (emplaceAll cfg k si u).2 t = -1 := by
    intro t
    rcases (emplaceAll_spec cfg k hfit).max_attained t with heq | ⟨r, hr, -, hget, -⟩
    · exact heq
    · obtain ⟨i, hi, rfl⟩ := (mem_entries_one hone).1 hr
      have hmem : (si.cellIdxs 0).getD i 0 ∈ si.cellIdxs 0 := by
        rw [List.getD_eq_getElem _ _ (hlen ▸ hi)]
        exact List.getElem_mem _
      have hentries := h _ (hlt _ hmem)
      have he : (t, (k.cell (si.stream 0) ((si.cellIdxs 0).getD i 0)).pos) ∈
          (k.cell 0 ((si.cellIdxs 0).getD i 0)).entries := by
        rw [hstream] at hget ⊢
        exact ⟨Cell.mem_of_seqGet hget, rfl⟩
      rw [hentries] at he
      exact absurd ((hempty _ hmem).symm.trans he.2) (Option.some_ne_none _).symm
  intro j hj
  rw [applyUbatch_entries hplain.noPrefix hk hfit hu hj]
  ext ⟨t, p⟩
  have hkept : ∀ e ∈ placedEntries k si u 0 j, ¬ (0 = cfg.seqToStream e.1 ∧
      e.2 ≤ (emplaceAll cfg k si u).2 e.1) := by
    rintro ⟨t, p⟩ he ⟨-, hle⟩
    rw [hrecorded] at hle
    have hnn : 0 ≤ p := by
      rcases he with ⟨-, hseq, rfl⟩ | ⟨r, hr, -, -, -, rfl⟩
      · exact (hk 0).pos_nonneg hj hseq
      · exact (hu r.tok (hfit.entry_lt hr).2).2
    exact absurd (hnn.trans hle) (by decide)
  refine (and_iff_left_of_imp (hkept (t, p))).trans ?_
  by_cases hin : j ∈ si.cellIdxs 0
  · have hidx : (si.cellIdxs 0).idxOf j < si.size := hlen ▸ List.idxOf_lt_length_of_mem hin
    have hput : putTokens L (si.cellIdxs 0) u.pos j = some (u.pos ((si.cellIdxs 0).idxOf j)) :=
      if_pos hin
    have hset : u.seqSet ((si.cellIdxs 0).idxOf j) = {0} := by
      rw [UBatch.seqSet, hseq _ (htokens ▸ hidx)]
      rfl
    change _ ↔ t = 0 ∧ putTokens L (si.cellIdxs 0) u.pos j = some p
    rw [hput, Option.some.injEq]
    constructor
    · rintro (⟨hno, -⟩ | ⟨r, hr, -, hidx', ht, hp⟩)
      · exact absurd ((hnames j).2 hin) hno
      · obtain ⟨i, hi, rfl⟩ := (mem_entries_one hone).1 hr
        have hi' : i < (si.cellIdxs 0).length := hlen ▸ hi
        obtain rfl : (si.cellIdxs 0).idxOf j = i := by
          rw [← hidx', List.getD_eq_getElem _ _ hi']
          exact (hfit.nodup 0 (hone ▸ Nat.one_pos)).idxOf_getElem i hi'
        have hmem : t ∈ u.seqSet ((si.cellIdxs 0).idxOf j) := ht
        rw [hset, Finset.mem_singleton] at hmem
        exact ⟨hmem, hp⟩
    · rintro ⟨rfl, hp⟩
      refine .inr ⟨_, (mem_entries_one hone).2 ⟨_, hidx, rfl⟩, hstream, ?_, ?_, hp⟩
      · change (si.cellIdxs 0).getD ((si.cellIdxs 0).idxOf j) 0 = j
        rw [List.getD_eq_getElem _ _ (hlen ▸ hidx)]
        exact List.getElem_idxOf (hlen ▸ hidx)
      · change (0 : SeqId) ∈ u.seqSet _
        rw [hset]
        exact Finset.mem_singleton_self 0
  · have hput : putTokens L (si.cellIdxs 0) u.pos j = L j := if_neg hin
    change _ ↔ t = 0 ∧ putTokens L (si.cellIdxs 0) u.pos j = some p
    rw [hput]
    have hold := Set.ext_iff.1 (h j hj) (t, p)
    refine Iff.trans ?_ hold
    constructor
    · rintro (⟨-, he⟩ | ⟨r, hr, -, rfl, -⟩)
      · exact he
      · obtain ⟨i, hi, rfl⟩ := (mem_entries_one hone).1 hr
        refine absurd ?_ hin
        change (si.cellIdxs 0).getD i 0 ∈ si.cellIdxs 0
        rw [List.getD_eq_getElem _ _ (hlen ▸ hi)]
        exact List.getElem_mem _
    · exact fun he => .inl ⟨fun hno => hin ((hnames j).1 hno), he⟩

end Apply

/-! ## The ubatches of a decode -/

/-- The ubatches have tokens of sequence `0` only, at the positions from `p` on. -/
def Continue : ℤ → List UBatch → Prop
  | _, [] => True
  | p, u :: us => (∀ i < u.nTokens, u.pos i = p + i ∧ u.seqId i = ⟨0, []⟩) ∧
    Continue (p + u.nTokens) us

section Split

variable {b : Batch} {p : ℤ} {nUbatch nSeqMax nEmbd nPosPerEmbd : ℕ} {us : List UBatch}

lemma continue_splitLoop (nUbatch : ℕ) (hb : ∀ i < b.nTokens, b.pos i = p + i ∧ b.seqId i = ⟨0, []⟩)
    (fuel : ℕ) : ∀ (a : BatchAllocr) (n : ℕ), a.batch = b → a.used = Finset.range n → a.nUsed = n →
      n ≤ b.nTokens →
      Continue (p + n) (BatchAllocr.splitLoop (BatchAllocr.splitSimple nUbatch) fuel a).1 ∧
        n + ((BatchAllocr.splitLoop (BatchAllocr.splitSimple nUbatch) fuel a).1.map
          UBatch.nTokens).sum =
            (BatchAllocr.splitLoop (BatchAllocr.splitSimple nUbatch) fuel a).2.nUsed ∧
        (BatchAllocr.splitLoop (BatchAllocr.splitSimple nUbatch) fuel a).2.nUsed ≤ b.nTokens := by
  induction fuel with
  | zero => exact fun a n _ _ hn hle => ⟨trivial, hn.symm, hn.trans_le hle⟩
  | succ fuel ih =>
    rintro a n rfl hused hn hle
    rw [BatchAllocr.splitLoop]
    cases hsplit : a.splitSimple nUbatch with
    | none => exact ⟨trivial, hn.symm, hn.trans_le hle⟩
    | some r =>
      obtain ⟨u, a'⟩ := r
      obtain ⟨m, hm, hle', -, -, hr⟩ := BatchAllocr.splitSimple_eq hused hsplit
      obtain rfl : u = (a.take (List.range' n m) (List.range' n m).length false).1 :=
        congrArg Prod.fst hr
      have hrows := BatchAllocr.take_rows a (List.range' n m) (List.range' n m).length false
      have ha' : a' = (a.take (List.range' n m) (List.range' n m).length false).2 :=
        congrArg Prod.snd hr
      generalize (a.take (List.range' n m) (List.range' n m).length false).1 = u at hrows
      have htokens : u.nTokens = m := hrows.nTokens.trans List.length_range'
      obtain ⟨hrest, hsum, hall⟩ := ih a' (n + m) (ha' ▸ rfl)
        (ha' ▸ BatchAllocr.used_take_range hused ..)
        (by rw [ha', BatchAllocr.take_nUsed, hn, List.length_range']) hle'
      refine ⟨⟨fun i hi => ?_, ?_⟩, ?_, hall⟩
      · rw [htokens] at hi
        have hget : (List.range' n m)[i]? = some (n + i) := by
          rw [List.getElem?_range' hi, Nat.one_mul]
        have hpos := hrows.pos i _ hget 0
        rw [Nat.zero_mul, Nat.zero_add, Nat.zero_mul, Nat.zero_add] at hpos
        obtain ⟨hbpos, hbseq⟩ := hb (n + i) (by omega)
        exact ⟨by rw [hpos, hbpos, Nat.cast_add, add_assoc], (hrows.seqId i _ hget).trans hbseq⟩
      · rw [htokens, add_assoc, ← Nat.cast_add]
        exact hrest
      · rw [List.map_cons, List.sum_cons, htokens, ← add_assoc]
        exact hsum

lemma continue_splitBatch (hb : ∀ i < b.nTokens, b.pos i = p + i ∧ b.seqId i = ⟨0, []⟩)
    (h : splitBatch .simple nUbatch nSeqMax nEmbd nPosPerEmbd b = some us) :
    Continue p us ∧ (us.map UBatch.nTokens).sum = b.nTokens := by
  obtain ⟨hall, rfl⟩ := BatchAllocr.splitBatch_eq_some_iff.1 h
  obtain ⟨hcontinue, hsum, hle⟩ := continue_splitLoop nUbatch hb (b.nTokens + 1)
    (.reset b nSeqMax nEmbd nPosPerEmbd) 0 rfl rfl rfl b.nTokens.zero_le
  rw [Nat.cast_zero, add_zero] at hcontinue
  rw [Nat.zero_add] at hsum
  exact ⟨hcontinue, hsum.trans (hle.antisymm hall)⟩

end Split

/-- The cache after the ubatches are applied and computed in order; computing the `i`-th one leaves
`data i` in the tensors. -/
def computeAll (cfg : KvConfig) : KvCache → List (SlotInfo × UBatch) → (ℕ → KvData) → KvCache
  | k, [], _ => k
  | k, e :: rest, data => computeAll cfg (k.computed cfg e.1 e.2 (data 0)) rest fun i => data (i + 1)

/-- The cells of the slots, in the order of the tokens. -/
def slotCells (todo : List (SlotInfo × UBatch)) : List ℕ := todo.flatMap fun e => e.1.cellIdxs 0

lemma putTokens_append (L : ℕ → Option ℤ) (c c' : List ℕ) (pos : ℕ → ℤ) (hdisj : ∀ j ∈ c', j ∉ c) :
    putTokens (putTokens L c pos) c' (fun i => pos (c.length + i)) = putTokens L (c ++ c') pos := by
  funext j
  unfold putTokens
  by_cases hj' : j ∈ c'
  · rw [if_pos hj', if_pos (List.mem_append_right c hj'),
      List.idxOf_append_of_notMem (hdisj j hj')]
  · by_cases hj : j ∈ c
    · rw [if_neg hj', if_pos hj, if_pos (List.mem_append_left c' hj), List.idxOf_append_of_mem hj]
    · rw [if_neg hj', if_neg hj, if_neg fun h => (List.mem_append.1 h).elim hj hj']

lemma putTokens_congr {L : ℕ → Option ℤ} {c : List ℕ} {pos pos' : ℕ → ℤ}
    (h : ∀ i < c.length, pos i = pos' i) : putTokens L c pos = putTokens L c pos' := by
  funext j
  unfold putTokens
  split
  · rename_i hj
    rw [h _ (List.idxOf_lt_length_of_mem hj)]
  · rfl

lemma Holds.computeAll (hplain : cfg.Plain) : ∀ {us : List UBatch} {sis : List SlotInfo}
    {k₁ k : KvCache} {L : ℕ → Option ℤ} {p : ℤ} (data : ℕ → KvData), Planned cfg k₁ sis us →
    k₁.Ok cfg → k.Ok cfg → Holds cfg k₁ L → Holds cfg k L → (∀ u ∈ us, u.Ready cfg) →
    Continue p us →
    (computeAll cfg k (sis.zip us) data).Ok cfg ∧
      (slotCells (sis.zip us)).length = (us.map UBatch.nTokens).sum ∧
      (slotCells (sis.zip us)).Nodup ∧
      (∀ j ∈ slotCells (sis.zip us), j < cfg.kvSize ∧ L j = none) ∧
      Holds cfg (KvCache.computeAll cfg k (sis.zip us) data)
        (putTokens L (slotCells (sis.zip us)) fun i => p + i) := by
  intro us
  induction us with
  | nil =>
    intro sis k₁ k L p data hplan hk₁ hk hL₁ hL _ _
    rw [List.zip_nil_right]
    exact ⟨hk, rfl, List.nodup_nil, fun j hj => absurd hj List.not_mem_nil, hL⟩
  | cons u us ih =>
    intro sis k₁ k L p data hplan hk₁ hk hL₁ hL hready hcontinue
    cases sis with
    | nil => cases hplan
    | cons si sis =>
      obtain ⟨hslot, hplan⟩ := hplan
      obtain ⟨hu, hready⟩ := List.forall_mem_cons.1 hready
      obtain ⟨hhere, hcontinue⟩ := hcontinue
      have hfit := findSlot_fits hk₁.sized hu.placeable hslot
      have hfound := findSlot_found hu.placeable.nTokens_pos hu.placeable.asserts hslot
      have hseqs : slotSeqs cfg u = 1 := by
        rw [slotSeqs, hplain.nStream, if_neg (lt_irrefl 1)]
      have hone : si.nStream = 1 := hfound.nStream.trans hseqs
      have hstream : si.stream 0 = 0 := by
        rw [hfound.stream 0 (hseqs ▸ Nat.one_pos), hplain.seqToStream]
      have hlen : (si.cellIdxs 0).length = u.nTokens := by
        rw [hfit.length 0 (hone ▸ Nat.one_pos), ← hfit.tokens, hone, Nat.one_mul]
      have hempty : ∀ j ∈ si.cellIdxs 0, j < cfg.kvSize ∧ L j = none := by
        intro j hj
        have hlt := hfit.lt 0 (hone ▸ Nat.one_pos) j hj
        have hnames : si.Names 0 j := ⟨0, hone ▸ Nat.one_pos, hstream, hj⟩
        have hpos := hfound.empty_of_noWindow hplain.noPrefix hplain.swaType hnames
        have hseq : (k₁.cell 0 j).seq = ∅ := ((hk₁ 0).cleared hlt hpos).1
        refine ⟨hlt, Option.eq_none_iff_forall_ne_some.2 fun q hq => ?_⟩
        have hmem : (0, q) ∈ (k₁.cell 0 j).entries := by
          rw [hL₁ j hlt]
          exact ⟨rfl, hq⟩
        exact Finset.notMem_empty (0 : SeqId) (hseq ▸ hmem.1)
      have hstep : ∀ k : KvCache, k.Ok cfg → Holds cfg k L →
          Holds cfg (k.applyUbatch cfg si u) (putTokens L (si.cellIdxs 0) fun i => p + i) := by
        intro k hk hL
        have hpos : ∀ i < (si.cellIdxs 0).length, u.pos i = p + i := fun i hi =>
          (hhere i (hlen ▸ hi)).1
        rw [← putTokens_congr hpos]
        exact hL.applyUbatch hplain hk hfit hu.proper hone hstream (fun i hi => (hhere i hi).2)
          fun j hj => (hempty j hj).2
      have hok : (k.computed cfg si u (data 0)).Ok cfg :=
        (hk.applyUbatch hfit hu.proper).of_cells rfl
      have hheld : Holds cfg (k.computed cfg si u (data 0))
          (putTokens L (si.cellIdxs 0) fun i => p + i) := (hstep k hk hL).congr fun _ _ => rfl
      obtain ⟨hok', hsum, hnodup, hfree, hfinal⟩ := ih (fun i => data (i + 1)) hplan
        (hk₁.applyUbatch hfit hu.proper) hok (hstep k₁ hk₁ hL₁) hheld hready hcontinue
      have hdisj : ∀ j ∈ slotCells (sis.zip us), j ∉ si.cellIdxs 0 := by
        intro j hj hin
        have hnone := (hfree j hj).2
        rw [putTokens, if_pos hin] at hnone
        exact Option.some_ne_none _ hnone
      have hcells : slotCells ((si :: sis).zip (u :: us)) =
          si.cellIdxs 0 ++ slotCells (sis.zip us) := rfl
      rw [hcells]
      refine ⟨hok', ?_, ?_, fun j hj => ?_, ?_⟩
      · rw [List.length_append, hlen, hsum, List.map_cons, List.sum_cons]
      · exact (hfit.nodup 0 (hone ▸ Nat.one_pos)).append hnodup fun j hj hj' => hdisj j hj' hj
      · rcases List.mem_append.1 hj with hj | hj
        · exact hempty j hj
        · obtain ⟨hlt, hnone⟩ := hfree j hj
          rw [putTokens, if_neg (hdisj j hj)] at hnone
          exact ⟨hlt, hnone⟩
      · rw [← putTokens_append L _ _ _ hdisj, hlen]
        simp only [Nat.cast_add, ← add_assoc]
        exact hfinal

/-! ## Decoding tokens -/

/-- What a decode takes from the model and the context. -/
structure DecodeParams where
  nVocab : ℕ
  nUbatch : ℕ
  nEmbd : ℕ
  nPosPerEmbd : ℕ
  /-- The graph of a pending K-shift can be computed. -/
  okUpdate : Bool

/-- `llama_batch_get_one(tokens, n_tokens)`. -/
def getOne (tokens : ℕ → ℤ) (n : ℕ) : BatchInp where
  nTokens := n
  token := some tokens
  embd := none
  pos := none
  seqId := none
  logits := none

/-- The decode of a batch with a cache of one stream. -/
def DecodeParams.args (c : DecodeParams) (cfg : KvConfig) (k : KvCache) (inp : BatchInp) :
    DecodeArgs where
  inp := inp
  mem := k.bounds cfg
  nVocab := c.nVocab
  outputAll := false
  okUpdate := c.okUpdate
  sp := .simple
  nUbatch := c.nUbatch
  nEmbd := c.nEmbd
  nPosPerEmbd := c.nPosPerEmbd

/-- `llama_decode` of tokens: the cache afterwards and the cells of the tokens, or `none` where it
does not return `0`.  A second attempt after `prepare` failed finds no more cells than the first. -/
def decodeTokens (rope : KvLayer → ℤ → (ℕ → UInt8) → ℕ → UInt8) (cfg : KvConfig)
    (c : DecodeParams) (k : KvCache) (tokens : ℕ → ℤ) (n : ℕ) (data : ℕ → KvData) :
    Option (KvCache × List ℕ) :=
  (KvMachine.decode rope cfg ⟨k, []⟩ (c.args cfg k (getOne tokens n))).bind fun m =>
    if m.todo.isEmpty then none
    else some (computeAll cfg m.cache m.todo data, slotCells m.todo)

lemma foldl_autoPosStep {seqId : ℕ → SeqIds SeqId} (hseq : ∀ i, seqId i = ⟨0, []⟩) (max : SeqId → ℤ)
    (n : ℕ) : ∀ i < n, ((List.range n).foldl (BatchInp.autoPosStep seqId)
      (fun s => max s + 1, fun _ => 0)).2 i = max 0 + 1 + i := by
  have hall : ((List.range n).foldl (BatchInp.autoPosStep seqId)
      (fun s => max s + 1, fun _ => 0)).1 0 = max 0 + 1 + n ∧
      ∀ i < n, ((List.range n).foldl (BatchInp.autoPosStep seqId)
        (fun s => max s + 1, fun _ => 0)).2 i = max 0 + 1 + i := by
    induction n with
    | zero => exact ⟨(add_zero _).symm, fun i hi => absurd hi i.not_lt_zero⟩
    | succ n ih =>
      obtain ⟨hnext, hbefore⟩ := ih
      rw [List.range_succ, List.foldl_append, List.foldl_cons, List.foldl_nil]
      generalize (List.range n).foldl (BatchInp.autoPosStep seqId)
        (fun s => max s + 1, fun _ => 0) = r at hnext hbefore
      simp only [BatchInp.autoPosStep, hseq, SeqIds.toList, List.mem_singleton, if_true]
      refine ⟨by rw [hnext, Nat.cast_succ, add_assoc], fun i hi => ?_⟩
      by_cases heq : i = n
      · rw [heq, Function.update_self, hnext]
      · rw [Function.update_of_ne heq]
        exact hbefore i (by omega)
  exact hall.2

/-- A decode of `n` tokens puts them, in order and at the positions that follow, into cells that
were empty, and leaves the other cells as they are. -/
theorem decodeTokens_spec {rope : KvLayer → ℤ → (ℕ → UInt8) → ℕ → UInt8} {c : DecodeParams}
    {tokens : ℕ → ℤ} {n : ℕ} {data : ℕ → KvData} {cells : List ℕ} (hplain : cfg.Plain)
    (hk : k.Ok cfg) (h : Holds cfg k L) (hmax : -1 ≤ k.seqPosMax cfg 0)
    (heq : decodeTokens rope cfg c k tokens n data = some (k', cells)) :
    k'.Ok cfg ∧ cells.length = n ∧ cells.Nodup ∧ (∀ j ∈ cells, j < cfg.kvSize ∧ L j = none) ∧
      Holds cfg k' (putTokens L cells fun i => k.seqPosMax cfg 0 + 1 + i) := by
  obtain ⟨m, hm, hsome⟩ := Option.bind_eq_some_iff.1 heq
  obtain ⟨hne, hpair⟩ := Option.ite_none_left_eq_some.1 hsome
  obtain ⟨rfl, rfl⟩ := Prod.mk.inj (Option.some.inj hpair)
  set k₁ := k.update rope cfg c.okUpdate with hk₁
  rcases KvMachine.decode_cases hm with rfl | ⟨b, hb, rfl | ⟨us, hus, hassert, hcache, htodo⟩⟩
  · exact absurd rfl hne
  · exact absurd rfl hne
  · have hbatch : b = (getOne tokens n).completed (k.bounds cfg) false :=
      KvMachine.init_eq_completed hb
    have hseq : ∀ i, b.seqId i = ⟨0, []⟩ := fun i => by
      rw [hbatch]
      rfl
    have hrows : ∀ i < b.nTokens, b.pos i = k.seqPosMax cfg 0 + 1 + i ∧ b.seqId i = ⟨0, []⟩ := by
      refine fun i hi => ⟨?_, hseq i⟩
      rw [hbatch] at hi ⊢
      exact foldl_autoPosStep (fun _ => rfl) _ n i hi
    have hproper : b.Proper := by
      intro i hi
      obtain ⟨hpos, hid⟩ := hrows i hi
      rw [hid, hpos]
      exact ⟨List.nodup_singleton _, by omega⟩
    obtain ⟨hcontinue, hsum⟩ := continue_splitBatch hrows hus
    obtain ⟨hacc, hn, -⟩ := BatchInp.init_eq_some (batchSeqMax_pos cfg) hb
    have hok₁ : k₁.Ok cfg := hk.update c.okUpdate
    have hheld₁ : Holds cfg k₁ L := h.congr (update_entries rope k c.okUpdate)
    have hready : ∀ u ∈ KvMachine.tried cfg k₁ us, u.Ready cfg := fun u hu =>
      ready_of_split hproper hacc hus (fun hmany => absurd hmany (by rw [hplain.nStream]; decide))
        (List.mem_of_mem_take hu) (hassert u hu)
    have hsame : m.cache = k₁ :=
      hcache.trans (prepare_of_noWindow hplain.noPrefix hplain.swaType hok₁ hready)
    rcases htodo with htodo | ⟨sis, hsis, htodo⟩
    · exact absurd (by rw [htodo]; rfl) hne
    · have hsis : (k₁.prepare cfg us).2 = some sis := hsis
      have hall := (KvMachine.prepare_tried us k₁).2 (by rw [hsis]; exact Option.some_ne_none sis)
      rw [hall] at hready
      obtain ⟨hok, hlen, hnodup, hfree, hfinal⟩ := hheld₁.computeAll hplain data
        (prepare_planned us k₁ sis hsis) hok₁ hok₁ hheld₁ hready hcontinue
      rw [hsame, htodo]
      exact ⟨hok, hlen.trans (hsum.trans hn), hnodup, hfree, hfinal⟩

end KvCache

end IFairy
