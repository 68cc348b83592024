import IFairy.Framework.WindowStore
import IFairy.KvCache.FailedDecode
import IFairy.KvCache.PrepareRestore
import IFairy.KvCache.Ubatches

/-!
# The positions of the sequences

What a cell holds for attention are its entries, one pair of sequence and position for each of its
sequences.  Without prefix sliding, `apply_ubatch` reuses the cells of a slot in the sense of
`IFairy.Framework.WindowStore`: the positions of a sequence afterwards are the old and the new ones
above every overwritten one (`applyUbatch_slide`).
-/

namespace IFairy

namespace Cell

variable {x y : Cell} {P : SeqId → Prop} [DecidablePred P] {s : SeqId} {p : ℤ}

/-- The sequences of a cell with its position. -/
def entries (x : Cell) : Set (SeqId × ℤ) := {e | e.1 ∈ x.seq ∧ x.pos = e.2}

lemma mem_entries : (s, p) ∈ x.entries ↔ s ∈ x.seq ∧ x.pos = p := Iff.rfl

lemma mem_seq_iff : s ∈ x.seq ↔ ∃ p, (s, p) ∈ x.entries :=
  ⟨fun hs => ⟨x.pos, hs, rfl⟩, fun ⟨_, hs, _⟩ => hs⟩

lemma seq_eq_of_entries (h : y.entries = x.entries) : y.seq = x.seq := by
  ext s
  rw [mem_seq_iff, mem_seq_iff, h]

lemma mem_of_seqGet (h : x.seqGet = some s) : s ∈ x.seq := by
  have hfound := List.find?_some h
  exact of_decide_eq_true hfound

/-- `seq_get` of a cell with one sequence. -/
lemma seqGet_of_card_le_one (hs : s ∈ x.seq) (hone : x.seq.card ≤ 1) : x.seqGet = some s := by
  have hsome : x.seqGet.isSome := by
    rw [seqGet, List.find?_isSome]
    exact ⟨s, List.mem_finRange s, decide_eq_true hs⟩
  obtain ⟨t, ht⟩ := Option.isSome_iff_exists.1 hsome
  rw [ht, Finset.card_le_one.1 hone t (mem_of_seqGet ht) s hs]

lemma entries_keepOnly : (x.keepOnly P).entries = {e ∈ x.entries | P e.1} := by
  ext ⟨s, p⟩
  change s ∈ (x.keepOnly P).seq ∧ (x.keepOnly P).pos = p ↔ (s ∈ x.seq ∧ x.pos = p) ∧ P s
  constructor
  · rintro ⟨hs, hp⟩
    rw [keepOnly_pos hs] at hp
    rw [keepOnly_seq, Finset.mem_filter] at hs
    exact ⟨⟨hs.1, hp⟩, hs.2⟩
  · rintro ⟨⟨hs, hp⟩, hP⟩
    have hmem : s ∈ (x.keepOnly P).seq := by
      rw [keepOnly_seq]
      exact Finset.mem_filter.2 ⟨hs, hP⟩
    exact ⟨hmem, (keepOnly_pos hmem).trans hp⟩

lemma Fades.entries (h : x.Fades y) : y.entries ⊆ x.entries := by
  rintro ⟨s, p⟩ ⟨hs, hp⟩
  rcases h with rfl | ⟨hpos, -, hseq⟩
  · exact absurd hs (Finset.notMem_empty s)
  · exact ⟨hseq hs, hpos ▸ hp⟩

end Cell

namespace KvCache

variable {cfg : KvConfig} {k k' : KvCache} {u : UBatch} {us : List UBatch} {si : SlotInfo}
  {sis : List SlotInfo} {s : SeqId} {st j : ℕ}

/-- The positions of a sequence that are present in the cache. -/
def positions (cfg : KvConfig) (k : KvCache) (s : SeqId) : Set ℤ :=
  {p | ∃ st < cfg.nStream, ∃ j < cfg.kvSize, (s, p) ∈ (k.cell st j).entries}

/-- What the cells of a slot hold before they are overwritten. -/
def overwritten (k : KvCache) (si : SlotInfo) : Set (SeqId × ℤ) :=
  {e | ∃ st j, si.Names st j ∧ e ∈ (k.cell st j).entries}

/-- Every sequence is in its own stream. -/
def Homed (cfg : KvConfig) (k : KvCache) : Prop :=
  ∀ st, ∀ j < cfg.kvSize, ∀ s ∈ (k.cell st j).seq, cfg.seqToStream s = st

/-- Every token of the ubatch goes to the stream of its sequences. -/
def SlotHomes (cfg : KvConfig) (si : SlotInfo) (u : UBatch) : Prop :=
  ∀ e ∈ si.entries, e.st < cfg.nStream ∧ ∀ s ∈ u.seqSet e.tok, cfg.seqToStream s = e.st

/-- Every cell of `k'` has some of the entries of the cell of `k`. -/
def Within (cfg : KvConfig) (k' k : KvCache) : Prop :=
  ∀ st, ∀ j < cfg.kvSize, (k'.cell st j).entries ⊆ (k.cell st j).entries

/-- The cells of the slot have the same entries in both caches. -/
def SameOn (si : SlotInfo) (k' k : KvCache) : Prop :=
  ∀ st j, si.Names st j → (k'.cell st j).entries = (k.cell st j).entries

lemma nStream_pos (cfg : KvConfig) : 0 < cfg.nStream := by
  unfold KvConfig.nStream
  split
  · exact Nat.one_pos
  · exact cfg.nSeqMax_pos

lemma seqToStream_lt_of_idOk (hs : s.val < cfg.seqToStreamSize) : cfg.seqToStream s < cfg.nStream := by
  unfold KvConfig.seqToStreamSize at hs
  unfold KvConfig.seqToStream
  by_cases hmany : 1 < cfg.nStream
  · rw [if_pos hmany] at hs ⊢
    exact hs
  · rw [if_neg hmany]
    exact nStream_pos cfg

lemma finite_positions (cfg : KvConfig) (k : KvCache) (s : SeqId) : (k.positions cfg s).Finite := by
  refine ((Finset.range cfg.nStream ×ˢ Finset.range cfg.kvSize).image
    fun e => (k.cell e.1 e.2).pos).finite_toSet.subset ?_
  rintro p ⟨st, hst, j, hj, -, rfl⟩
  exact Finset.mem_coe.2 (Finset.mem_image.2 ⟨(st, j),
    Finset.mem_product.2 ⟨Finset.mem_range.2 hst, Finset.mem_range.2 hj⟩, rfl⟩)

lemma Fades.within (h : Fades k k') : Within cfg k' k := fun st j _ => (h st j).entries

lemma Within.positions (h : Within cfg k' k) (s : SeqId) :
    k'.positions cfg s ⊆ k.positions cfg s := by
  rintro p ⟨st, hst, j, hj, he⟩
  exact ⟨st, hst, j, hj, h st j hj he⟩

lemma Within.homed (h : Within cfg k' k) (hk : Homed cfg k) : Homed cfg k' := by
  intro st j hj s hs
  obtain ⟨p, hp⟩ := Cell.mem_seq_iff.1 hs
  exact hk st j hj s (h st j hj hp).1

/-- In a cache whose sequences are in their streams, the positions of a sequence are those of its
stream. -/
lemma positions_eq (hk : k.Ok cfg) (hhome : Homed cfg k) (hne : (k.positions cfg s).Nonempty) :
    k.positions cfg s = (k.cells (cfg.seqToStream s)).positions s := by
  obtain ⟨_, st, hst, j, hj, he⟩ := hne
  have hstream := hhome st j hj s he.1
  ext p
  constructor
  · rintro ⟨t, -, i, hi, hs, hp⟩
    rw [hhome t i hi s hs]
    exact ⟨i, (hk t).lt hi, hs, hp⟩
  · rintro ⟨i, hi, hs, hp⟩
    rw [(hk _).size_eq] at hi
    exact ⟨cfg.seqToStream s, hstream ▸ hst, i, hi, hs, hp⟩

lemma seqPosMax_isGreatest (hk : k.Ok cfg) (hhome : Homed cfg k)
    (hne : (k.positions cfg s).Nonempty) :
    IsGreatest (k.positions cfg s) (k.seqPosMax cfg s) := by
  have heq := positions_eq hk hhome hne
  rw [heq] at hne ⊢
  exact (hk _).repInv.seqPosMax_isGreatest hne

lemma seqPosMin_isLeast (hk : k.Ok cfg) (hhome : Homed cfg k)
    (hne : (k.positions cfg s).Nonempty) :
    IsLeast (k.positions cfg s) (k.seqPosMin cfg s) := by
  have heq := positions_eq hk hhome hne
  rw [heq] at hne ⊢
  exact (hk _).repInv.seqPosMin_isLeast hne

lemma positions_nonneg (hk : k.Ok cfg) {p : ℤ} (hp : p ∈ k.positions cfg s) : 0 ≤ p := by
  obtain ⟨st, -, j, hj, hs, rfl⟩ := hp
  exact (hk st).pos_nonneg hj hs

lemma positions_eq_empty (h : ∀ st < cfg.nStream, ∀ j < cfg.kvSize, (k.cell st j).seq = ∅)
    (s : SeqId) : k.positions cfg s = ∅ := by
  refine Set.eq_empty_iff_forall_notMem.2 ?_
  rintro p ⟨st, hst, j, hj, hs, -⟩
  exact absurd (h st hst j hj ▸ hs) (Finset.notMem_empty s)

lemma SameOn.overwritten (h : SameOn si k' k) : k'.overwritten si = k.overwritten si := by
  ext e
  constructor
  · rintro ⟨st, j, hn, he⟩
    exact ⟨st, j, hn, h st j hn ▸ he⟩
  · rintro ⟨st, j, hn, he⟩
    exact ⟨st, j, hn, (h st j hn).symm ▸ he⟩

lemma positions_congr (h : ∀ st j, (k'.cell st j).entries = (k.cell st j).entries) :
    k'.positions cfg = k.positions cfg := by
  funext s
  exact Set.Subset.antisymm (Within.positions (fun st j _ => (h st j).le) s)
    (Within.positions (fun st j _ => (h st j).ge) s)

lemma update_entries (rope : KvLayer → ℤ → (ℕ → UInt8) → ℕ → UInt8) (k : KvCache) (ok : Bool) (st j : ℕ) :
    ((k.update rope cfg ok).cell st j).entries = (k.cell st j).entries := by
  have hcells : (k.update rope cfg ok).cells st = (k.cells st).resetShift ∨
      (k.update rope cfg ok).cells st = k.cells st := by
    rw [update_eq]
    exact ite_eq_or_eq _ _ _
  rcases hcells with hcells | hcells
  · rw [KvCache.cell, hcells]
    rfl
  · rw [KvCache.cell, hcells]
    rfl

lemma tokenPositions_cons (u : UBatch) (us : List UBatch) (s : SeqId) :
    tokenPositions (u :: us) s = tokenPositions [u] s ∪ tokenPositions us s := by
  ext p
  constructor
  · rintro ⟨v, hv, hrow⟩
    rcases List.mem_cons.1 hv with rfl | hv
    · exact .inl ⟨v, List.mem_cons_self, hrow⟩
    · exact .inr ⟨v, hv, hrow⟩
  · rintro (⟨v, hv, hrow⟩ | ⟨v, hv, hrow⟩)
    · exact ⟨v, List.mem_cons.2 (.inl (List.mem_singleton.1 hv)), hrow⟩
    · exact ⟨v, List.mem_cons_of_mem _ hv, hrow⟩

lemma tokenPositions_nil (s : SeqId) : tokenPositions [] s = ∅ :=
  Set.eq_empty_iff_forall_notMem.2 fun _ ⟨_, hv, _⟩ => List.not_mem_nil hv

/-! ## Applying an ubatch -/

lemma entries_cover (hfit : SlotFits cfg.kvSize si u) {i : ℕ} (hi : i < u.nTokens) :
    ∃ e ∈ si.entries, e.tok = i := by
  rw [← hfit.tokens] at hi
  have hsize : 0 < si.size := Nat.pos_of_mul_pos_left (Nat.zero_lt_of_lt hi)
  refine ⟨⟨si.stream (i / si.size), (si.cellIdxs (i / si.size)).getD (i % si.size) 0,
    i / si.size * si.size + i % si.size⟩, ?_, Nat.div_add_mod' i si.size⟩
  exact List.mem_flatMap.2 ⟨i / si.size,
    List.mem_range.2 (Nat.div_lt_of_lt_mul (by rwa [Nat.mul_comm])),
    List.mem_map.2 ⟨i % si.size, List.mem_range.2 (Nat.mod_lt _ hsize), rfl⟩⟩

lemma emplaceAll_max_le (hp : ¬ cfg.PrefixSliding) (hfit : SlotFits cfg.kvSize si u)
    (hsame : SameOn si k' k) (t : SeqId) :
    (emplaceAll cfg k si u).2 t ≤ (emplaceAll cfg k' si u).2 t := by
  have hspec := emplaceAll_spec cfg k hfit
  have hspec' := emplaceAll_spec cfg k' hfit
  rcases hspec.max_attained t with hnone | ⟨e, he, hne, hget, hpos⟩
  · rw [hnone]
    exact hspec'.le_max t
  · have hentries := hsame _ _ ((names_iff_entry hfit).2 ⟨e, he, rfl, rfl⟩)
    have hmem : (t, (k.cell e.st e.idx).pos) ∈ (k'.cell e.st e.idx).entries := by
      rw [hentries]
      exact ⟨Cell.mem_of_seqGet hget, rfl⟩
    have hget' : (k'.cell e.st e.idx).seqGet = some t := by
      rw [Cell.seqGet, Cell.seq_eq_of_entries hentries]
      exact hget
    have hle := hspec'.pos_le_max hp e he t (hmem.2 ▸ hne) hget'
    rw [hmem.2, hpos] at hle
    exact hle

lemma emplaceAll_max_congr (hp : ¬ cfg.PrefixSliding) (hfit : SlotFits cfg.kvSize si u)
    (hsame : SameOn si k' k) : (emplaceAll cfg k' si u).2 = (emplaceAll cfg k si u).2 :=
  funext fun t => le_antisymm
    (emplaceAll_max_le hp hfit (fun st j hn => (hsame st j hn).symm) t)
    (emplaceAll_max_le hp hfit hsame t)

/-- The entries of a cell after its tokens were placed and before the purge. -/
def placedEntries (k : KvCache) (si : SlotInfo) (u : UBatch) (st j : ℕ) : Set (SeqId × ℤ) :=
  {e | (¬ si.Names st j ∧ e ∈ (k.cell st j).entries) ∨
    ∃ r ∈ si.entries, r.st = st ∧ r.idx = j ∧ e ∈ (Cell.token u r.tok).entries}

lemma emplaceAll_entries (h : k.Ok cfg) (hfit : SlotFits cfg.kvSize si u) (st j : ℕ) :
    ((emplaceAll cfg k si u).1.cell st j).entries = placedEntries k si u st j := by
  have hspec := emplaceAll_spec cfg k hfit
  ext e
  by_cases hn : si.Names st j
  · obtain ⟨r, hr, rfl, rfl⟩ := (names_iff_entry hfit).1 hn
    have hclear : (k.cell r.st r.idx).pos = -1 →
        (k.cell r.st r.idx).shift = 0 ∧ (k.cell r.st r.idx).seq = ∅ := fun hpos =>
      ((h r.st).cleared (hfit.entry_lt hr).1 hpos).symm
    rw [hspec.token r hr, Cell.place_eq_token hclear]
    constructor
    · exact fun he => .inr ⟨r, hr, rfl, rfl, he⟩
    · rintro (⟨hno, -⟩ | ⟨r', hr', hst, hidx, he⟩)
      · exact absurd hn hno
      · obtain rfl : r' = r := by
          have hinj := List.inj_on_of_nodup_map hfit.nodup_entries hr' hr
          exact hinj (Prod.ext hst hidx)
        exact he
  · have hno : ∀ r ∈ si.entries, ¬ (r.st = st ∧ r.idx = j) := fun r hr heq =>
      hn ((names_iff_entry hfit).2 ⟨r, hr, heq⟩)
    rw [hspec.frame st j hno]
    constructor
    · exact fun he => .inl ⟨hn, he⟩
    · rintro (⟨-, he⟩ | ⟨r, hr, hst, hidx, -⟩)
      · exact he
      · exact absurd ⟨hst, hidx⟩ (hno r hr)

/-- `apply_ubatch` on entries: the tokens are placed, and a sequence keeps in its stream what is
above every position recorded for it. -/
theorem applyUbatch_entries (hp : ¬ cfg.PrefixSliding) (h : k.Ok cfg)
    (hfit : SlotFits cfg.kvSize si u) (hu : u.Proper) (hj : j < cfg.kvSize) :
    ((k.applyUbatch cfg si u).cell st j).entries = {e ∈ placedEntries k si u st j |
      ¬ (st = cfg.seqToStream e.1 ∧ e.2 ≤ (emplaceAll cfg k si u).2 e.1)} := by
  have hspec := emplaceAll_spec cfg k hfit
  have hcell : (k.applyUbatch cfg si u).cell
      = (purge cfg (emplaceAll cfg k si u).2 (emplaceAll cfg k si u).1).cell :=
    cell_of_cells (moveHeads_cells _ _)
  rw [hcell, purge_cell hp hspec.le_max (emplaceAll_ok h hfit hu) hj, Cell.entries_keepOnly,
    emplaceAll_entries h hfit]
  ext ⟨s, p⟩
  refine and_congr_right fun he => ?_
  rw [← emplaceAll_entries h hfit] at he
  rw [he.2]

lemma Within.applyUbatch (hp : ¬ cfg.PrefixSliding) (hk : k.Ok cfg) (hk' : k'.Ok cfg)
    (hfit : SlotFits cfg.kvSize si u) (hu : u.Proper) (hsame : SameOn si k' k)
    (h : Within cfg k' k) :
    Within cfg (k'.applyUbatch cfg si u) (k.applyUbatch cfg si u) := by
  intro st j hj e he
  rw [applyUbatch_entries hp hk' hfit hu hj, emplaceAll_max_congr hp hfit hsame] at he
  rw [applyUbatch_entries hp hk hfit hu hj]
  refine ⟨?_, he.2⟩
  rcases he.1 with ⟨hno, hmem⟩ | htok
  · exact .inl ⟨hno, h st j hj hmem⟩
  · exact .inr htok

lemma Homed.applyUbatch (hp : ¬ cfg.PrefixSliding) (h : k.Ok cfg)
    (hfit : SlotFits cfg.kvSize si u) (hu : u.Proper) (hhome : Homed cfg k)
    (hslot : SlotHomes cfg si u) : Homed cfg (k.applyUbatch cfg si u) := by
  intro st j hj s hs
  obtain ⟨p, he⟩ := Cell.mem_seq_iff.1 hs
  rw [applyUbatch_entries hp h hfit hu hj] at he
  rcases he.1 with ⟨-, hmem⟩ | ⟨r, hr, rfl, -, hmem⟩
  · exact hhome st j hj s hmem.1
  · exact (hslot r hr).2 s hmem.1

/-- The positions of the sequences after an ubatch whose slot names no cell of several
sequences. -/
theorem applyUbatch_slide (hp : ¬ cfg.PrefixSliding) (h : k.Ok cfg)
    (hfit : SlotFits cfg.kvSize si u) (hu : u.Proper) (hhome : Homed cfg k)
    (hslot : SlotHomes cfg si u) (hone : ∀ st j, si.Names st j → (k.cell st j).seq.card ≤ 1) :
    (k.applyUbatch cfg si u).positions cfg
      = WindowStore.slide (k.positions cfg) (k.overwritten si) (tokenPositions [u]) := by
  have hspec := emplaceAll_spec cfg k hfit
  have hlt : ∀ st j, si.Names st j → j < cfg.kvSize := by
    rintro st j ⟨s, hs, -, hj⟩
    exact hfit.lt s hs j hj
  -- what is recorded for a sequence is the largest of its overwritten positions
  have hrecorded : ∀ s q, (s, q) ∈ k.overwritten si → q ≤ (emplaceAll cfg k si u).2 s := by
    rintro s q ⟨st, j, hn, hs, rfl⟩
    obtain ⟨e, he, rfl, rfl⟩ := (names_iff_entry hfit).1 hn
    refine hspec.pos_le_max hp e he s ((h e.st).repInv.pos_ne ((h e.st).lt (hlt _ _ hn)) hs) ?_
    exact Cell.seqGet_of_card_le_one hs (hone _ _ hn)
  have hattained : ∀ s p, 0 ≤ p → p ≤ (emplaceAll cfg k si u).2 s →
      ∃ q, (s, q) ∈ k.overwritten si ∧ p ≤ q := by
    intro s p hp0 hle
    rcases hspec.max_attained s with hnone | ⟨e, he, -, hget, hpos⟩
    · omega
    · exact ⟨_, ⟨e.st, e.idx, (names_iff_entry hfit).2 ⟨e, he, rfl, rfl⟩,
        Cell.mem_of_seqGet hget, hpos⟩, hle⟩
  have hmem : ∀ s p, (∃ st < cfg.nStream, ∃ j < cfg.kvSize, (s, p) ∈ placedEntries k si u st j ∧
      ¬ (st = cfg.seqToStream s ∧ p ≤ (emplaceAll cfg k si u).2 s)) ↔
      p ∈ (k.applyUbatch cfg si u).positions cfg s := by
    intro s p
    refine exists_congr fun st => and_congr_right fun _ => exists_congr fun j =>
      and_congr_right fun hj => ?_
    rw [applyUbatch_entries hp h hfit hu hj]
    exact Iff.rfl
  ext s p
  rw [← hmem]
  constructor
  · rintro ⟨st, hst, j, hj, hplaced, hkept⟩
    have hhomed : st = cfg.seqToStream s := by
      rcases hplaced with ⟨-, he⟩ | ⟨r, hr, rfl, -, he⟩
      · exact (hhome st j hj s he.1).symm
      · exact ((hslot r hr).2 s he.1).symm
    refine ⟨?_, fun q hq => (hrecorded s q hq).trans_lt (not_le.1 fun hle => hkept ⟨hhomed, hle⟩)⟩
    rcases hplaced with ⟨-, he⟩ | ⟨r, hr, -, -, he⟩
    · exact .inl ⟨st, hst, j, hj, he⟩
    · exact .inr ⟨u, List.mem_cons_self, r.tok, (hfit.entry_lt hr).2, he.1, he.2⟩
  · rintro ⟨⟨st, hst, j, hj, he⟩ | ⟨u', hu', i, hi, hs, rfl⟩, hkept⟩
    · refine ⟨st, hst, j, hj, .inl ⟨fun hn => lt_irrefl p (hkept p ⟨st, j, hn, he⟩), he⟩, ?_⟩
      rintro ⟨-, hle⟩
      obtain ⟨q, hq, hpq⟩ := hattained s p (positions_nonneg h ⟨st, hst, j, hj, he⟩) hle
      exact absurd (hkept q hq) (not_lt.2 hpq)
    · obtain rfl := List.mem_singleton.1 hu'
      obtain ⟨r, hr, rfl⟩ := entries_cover hfit hi
      refine ⟨r.st, (hslot r hr).1, r.idx, (hfit.entry_lt hr).1, .inr ⟨r, hr, rfl, rfl, hs, rfl⟩, ?_⟩
      rintro ⟨-, hle⟩
      obtain ⟨q, hq, hpq⟩ := hattained s _ (hu r.tok hi).2 hle
      exact absurd (hkept q hq) (not_lt.2 hpq)

end KvCache

end IFairy
