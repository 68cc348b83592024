import IFairy.KvCache.Entries

/-!
# The slots that a decode reuses

What `prepare` loses changes nothing for the slots that it returns: when they are applied, every
named cell has the entries it had in the plan (`prepare_follows`).  A cell that `find_slot` reuses
holds one sequence, and is outside the window of the next token of that sequence (`Reuses`).  Both
together say what the pending slots of a decode overwrite, as long as `prepare` takes the newest
position of no sequence (`reuses_of_follows`).
-/

namespace IFairy

/-- What the splitting of a batch makes sure of for `find_slot`. -/
structure UBatch.Ready (cfg : KvConfig) (u : UBatch) : Prop where
  placeable : u.Placeable cfg
  proper : u.Proper
  grouped : 1 < cfg.nStream → u.Grouped
  seqIdUnq_lt : ∀ s ∈ u.seqIdUnq, s.val < cfg.batchSeqMax

namespace KvCache

variable {cfg : KvConfig} {k k' : KvCache} {u : UBatch} {us : List UBatch} {si : SlotInfo}
  {sis : List SlotInfo} {s : SeqId} {st j : ℕ}

/-! ## What `prepare` loses -/

/-- The slots of a plan made for the cache `k`, applied to `k'`: every slot finds the entries that
it found in the plan. -/
def Follows (cfg : KvConfig) : KvCache → KvCache → List SlotInfo → List UBatch → Prop
  | k, k', si :: sis, u :: us =>
    SameOn si k' k ∧ Follows cfg (k.applyUbatch cfg si u) (k'.applyUbatch cfg si u) sis us
  | _, _, _, _ => True

lemma Follows.between (hp : ¬ cfg.PrefixSliding) : ∀ {sis : List SlotInfo} {us : List UBatch}
    {k k' r : KvCache}, k.Ok cfg → k'.Ok cfg → r.Ok cfg → Planned cfg k sis us →
    (∀ u ∈ us, u.Placeable cfg ∧ u.Proper) → Within cfg k' k → Within cfg r k' →
    Follows cfg k r sis us → Follows cfg k k' sis us := by
  intro sis
  induction sis with
  | nil =>
    intros
    trivial
  | cons si sis ih =>
    intro us k k' r hk hk' hr hplan hus hin hin' hfollow
    cases us with
    | nil => trivial
    | cons u us =>
      obtain ⟨hslot, hplan'⟩ := hplan
      obtain ⟨hsame, hrest⟩ := hfollow
      obtain ⟨⟨hu, hproper⟩, hus'⟩ := List.forall_mem_cons.1 hus
      have hfit := findSlot_fits hk.sized hu hslot
      have hlt : ∀ st j, si.Names st j → j < cfg.kvSize := by
        rintro st j ⟨s, hs, -, hj⟩
        exact hfit.lt s hs j hj
      have hsame₁ : SameOn si k' k := fun st j hn =>
        (hin st j (hlt st j hn)).antisymm ((hsame st j hn).ge.trans (hin' st j (hlt st j hn)))
      have hsame₂ : SameOn si r k' := fun st j hn => (hsame st j hn).trans (hsame₁ st j hn).symm
      exact ⟨hsame₁, ih (hk.applyUbatch hfit hproper) (hk'.applyUbatch hfit hproper)
        (hr.applyUbatch hfit hproper) hplan' hus' (hin.applyUbatch hp hk hk' hfit hproper hsame₁)
        (hin'.applyUbatch hp hk' hr hfit hproper hsame₂) hrest⟩

lemma restore_entries (hfit : SlotFits cfg.kvSize si u) (k k₀ : KvCache) (st j : ℕ) :
    ((restore k (k₀.save si)).cell st j).entries =
      if si.Names st j then (k₀.cell st j).entries else (k.cell st j).entries := by
  rw [restore_cell hfit]
  split <;> rfl

/-- The slots that `prepare` returns find in the cache that it leaves what they found in the
plan. -/
theorem prepare_follows (hp : ¬ cfg.PrefixSliding) : ∀ (us : List UBatch) {k : KvCache}
    {sis : List SlotInfo}, k.Ok cfg → (∀ u ∈ us, u.Placeable cfg ∧ u.Proper) →
    (k.prepare cfg us).2 = some sis → Follows cfg k (k.prepare cfg us).1 sis us := by
  intro us
  induction us with
  | nil =>
    rintro k sis - - ⟨⟩
    trivial
  | cons u us ih =>
    intro k sis h hus heq
    obtain ⟨⟨hu, hproper⟩, hus'⟩ := List.forall_mem_cons.1 hus
    have hall := h.prepare (u :: us) hus
    have hplan := prepare_planned (u :: us) k sis heq
    have hfades := (prepare_fades (u :: us) k h.sized fun u hu => (hus u hu).1).2
    rw [prepare_cons] at heq hall hfades ⊢
    cases hslot : findSlot cfg k u false with
    | none =>
      rw [hslot] at heq
      cases heq
    | some si =>
      simp only [hslot] at heq hall hfades ⊢
      obtain ⟨rest, hrest, rfl⟩ := Option.map_eq_some_iff.1 heq
      have hfit := findSlot_fits h.sized hu hslot
      have hok := h.applyUbatch hfit hproper
      set k₁ := k.applyUbatch cfg si u with hk₁
      set r := (k₁.prepare cfg us).1 with hr
      set k' := restore r (k.save si) with hk'
      have hsame : SameOn si k' k := by
        intro st j hn
        rw [hk', restore_entries hfit, if_pos hn]
      have hin : Within cfg _ _ := hfades.within
      have hrin : Within cfg r k₁ :=
        ((prepare_fades us k₁ hok.sized fun u hu => (hus' u hu).1).2).within
      refine ⟨hsame, Follows.between hp hok (hall.applyUbatch hfit hproper) (hok.prepare us hus')
        hplan.2 hus' (hin.applyUbatch hp h hall hfit hproper hsame) ?_ (ih hok hus' hrest)⟩
      -- what the later ubatches left is there again when this one is applied
      intro st j hj e he
      have he₁ := hrin st j hj he
      rw [hk₁, applyUbatch_entries hp h hfit hproper hj] at he₁
      rw [applyUbatch_entries hp hall hfit hproper hj, emplaceAll_max_congr hp hfit hsame]
      refine ⟨?_, he₁.2⟩
      rcases he₁.1 with ⟨hno, -⟩ | htok
      · refine .inl ⟨hno, ?_⟩
        rw [hk', restore_entries hfit, if_neg hno]
        exact he
      · exact .inr htok

/-! ## The slot of an ubatch -/

lemma seqToStream_lt (hs : s.val < cfg.batchSeqMax) : cfg.seqToStream s < cfg.nStream := by
  unfold KvConfig.seqToStream
  by_cases hmany : 1 < cfg.nStream
  · have hunified : ¬ cfg.unified = true := fun h => by
      rw [KvConfig.nStream, if_pos h] at hmany
      exact lt_irrefl 1 hmany
    rw [KvConfig.batchSeqMax, if_neg hunified] at hs
    rw [if_pos hmany, KvConfig.nStream, if_neg hunified]
    exact hs
  · rw [if_neg hmany]
    exact nStream_pos cfg

lemma FoundSlot.homes (hfound : FoundSlot cfg k u si) (hu : u.Ready cfg) :
    SlotHomes cfg si u := by
  intro e he
  obtain ⟨s, hs, he⟩ := List.mem_flatMap.1 he
  obtain ⟨ii, hii, rfl⟩ := List.mem_map.1 he
  rw [List.mem_range] at hs hii
  rw [hfound.nStream] at hs
  rw [hfound.size] at hii ⊢
  change si.stream s < cfg.nStream ∧ ∀ t ∈ u.seqSet (s * slotTokens cfg u + ii),
    cfg.seqToStream t = si.stream s
  rw [hfound.stream s hs]
  by_cases hmany : 1 < cfg.nStream
  · obtain ⟨m, hm, hrow⟩ := hu.grouped hmany
    unfold slotSeqs at hs
    rw [if_pos hmany] at hs
    have htok : slotTokens cfg u = m := by
      rw [slotTokens, if_pos hmany, hm, Nat.mul_div_cancel_left _ (Nat.zero_lt_of_lt hs)]
    rw [htok] at hii ⊢
    refine ⟨seqToStream_lt (hu.seqIdUnq_lt _ ?_), fun t ht => ?_⟩
    · rw [List.getD_eq_getElem _ _ hs]
      exact List.getElem_mem hs
    · rw [UBatch.seqSet, hrow s hs ii hii] at ht
      obtain rfl : t = u.seqIdUnq.getD s 0 := by simpa [SeqIds.toList] using ht
      rfl
  · simp only [KvConfig.seqToStream, if_neg hmany]
    exact ⟨nStream_pos cfg, fun _ _ => trivial⟩

/-- The cells that a slot reuses hold one sequence, and are outside the window of the next position
of that sequence. -/
def Reuses (cfg : KvConfig) (k : KvCache) (si : SlotInfo) : Prop :=
  (∀ st j, si.Names st j → (k.cell st j).seq.card ≤ 1) ∧
    ∀ e ∈ k.overwritten si, e.2 ∈ k.positions cfg e.1 ∧
      ∀ M, IsGreatest (k.positions cfg e.1) M → cfg.IsMaskedSwa e.2 (M + 1)

/-- A cell of a slot is empty or holds one sequence, and is outside the window of the next position
of that sequence. -/
lemma FoundSlot.seq_cases (hfound : FoundSlot cfg k u si) (hfit : SlotFits cfg.kvSize si u)
    (hp : ¬ cfg.PrefixSliding) (h : k.Ok cfg) (hn : si.Names st j) :
    (k.cell st j).seq = ∅ ∨ ∃ t, (k.cell st j).seq = {t} ∧
      cfg.IsMaskedSwa (k.cell st j).pos ((k.cells st).seqPosMax t + 1) := by
  have hlt : j < cfg.kvSize := by
    obtain ⟨s, hs, -, hj⟩ := hn
    exact hfit.lt s hs j hj
  obtain ⟨s, -, hst, huse⟩ := hfound.canUse hn
  unfold SeqCanUse at huse
  rw [hst] at huse
  rcases huse with hempty | ⟨hcard, t, hget, hpre | hmask⟩
  · exact .inl ((h st).cleared hlt hempty).1
  · exact absurd hpre.1 hp
  · obtain ⟨t', ht'⟩ := Finset.card_eq_one.1 hcard
    have hseq : (k.cell st j).seq = {t'} := ht'
    have ht : t ∈ (k.cell st j).seq := Cell.mem_of_seqGet hget
    rw [hseq, Finset.mem_singleton] at ht
    exact .inr ⟨t', hseq, ht ▸ hmask⟩

lemma FoundSlot.card_le_one (hfound : FoundSlot cfg k u si) (hfit : SlotFits cfg.kvSize si u)
    (hp : ¬ cfg.PrefixSliding) (h : k.Ok cfg) (hn : si.Names st j) :
    (k.cell st j).seq.card ≤ 1 := by
  rcases hfound.seq_cases hfit hp h hn with hempty | ⟨t, ht, -⟩
  · rw [hempty, Finset.card_empty]
    exact Nat.zero_le 1
  · rw [ht, Finset.card_singleton]

/-- `find_slot` reuses cells only when they are outside the window. -/
lemma FoundSlot.reuses (hfound : FoundSlot cfg k u si) (hslot : SlotHomes cfg si u)
    (hfit : SlotFits cfg.kvSize si u) (hp : ¬ cfg.PrefixSliding) (h : k.Ok cfg)
    (hhome : Homed cfg k) : Reuses cfg k si := by
  refine ⟨fun st j hn => hfound.card_le_one hfit hp h hn, ?_⟩
  rintro ⟨s, q⟩ ⟨st, j, hn, hs, rfl⟩
  obtain ⟨e, he, rfl, rfl⟩ := (names_iff_entry hfit).1 hn
  have hmem : (k.cell e.st e.idx).pos ∈ k.positions cfg s :=
    ⟨e.st, (hslot e he).1, e.idx, (hfit.entry_lt he).1, hs, rfl⟩
  refine ⟨hmem, fun M hM => ?_⟩
  obtain rfl := (seqPosMax_isGreatest h hhome ⟨_, hmem⟩).unique hM
  have hstream : cfg.seqToStream s = e.st := hhome e.st e.idx (hfit.entry_lt he).1 s hs
  change cfg.IsMaskedSwa _ ((k.cells (cfg.seqToStream s)).seqPosMax s + 1)
  rw [hstream]
  rcases hfound.seq_cases hfit hp h hn with hempty | ⟨t, ht, hmask⟩
  · exact absurd (hempty ▸ hs) (Finset.notMem_empty s)
  · obtain rfl : s = t := Finset.mem_singleton.1 (ht ▸ hs)
    exact hmask

/-- Every slot reuses cells when the ubatches before it have been applied. -/
def ReusesAll (cfg : KvConfig) : KvCache → List (SlotInfo × UBatch) → Prop
  | _, [] => True
  | k, e :: rest => Reuses cfg k e.1 ∧ ReusesAll cfg (k.applyUbatch cfg e.1 e.2) rest

lemma Planned.homes : ∀ {us : List UBatch} {sis : List SlotInfo} {k : KvCache},
    Planned cfg k sis us → (∀ u ∈ us, u.Ready cfg) → ∀ e ∈ sis.zip us, SlotHomes cfg e.1 e.2 := by
  intro us
  induction us with
  | nil =>
    intro sis k _ _ e he
    rw [List.zip_nil_right] at he
    exact absurd he List.not_mem_nil
  | cons u us ih =>
    intro sis k hplan hus e he
    cases sis with
    | nil => exact absurd he List.not_mem_nil
    | cons si sis =>
      obtain ⟨hslot, hplan'⟩ := hplan
      obtain ⟨hu, hus'⟩ := List.forall_mem_cons.1 hus
      rcases List.mem_cons.1 he with rfl | he
      · exact (findSlot_found hu.placeable.nTokens_pos hu.placeable.asserts hslot).homes hu
      · exact ih hplan' hus' e he

/-- The slots of a plan reuse cells in a cache that follows the plan and still has the newest
position of every sequence. -/
theorem reuses_of_follows (hp : ¬ cfg.PrefixSliding) :
    ∀ {us : List UBatch} {sis : List SlotInfo} {k k' : KvCache}, k.Ok cfg → k'.Ok cfg →
      Homed cfg k → Homed cfg k' → Planned cfg k sis us → Follows cfg k k' sis us →
      (∀ u ∈ us, u.Ready cfg) →
      (∀ s, WindowStore.SameNewest (k.positions cfg s) (k'.positions cfg s)) →
      ReusesAll cfg k' (sis.zip us) := by
  intro us
  induction us with
  | nil =>
    intro sis k k' _ _ _ _ _ _ _ _
    rw [List.zip_nil_right]
    trivial
  | cons u us ih =>
    intro sis k k' hk hk' hhome hhome' hplan hfollow hus hsame
    cases sis with
    | nil => trivial
    | cons si sis =>
      obtain ⟨hslot, hplan'⟩ := hplan
      obtain ⟨hon, hfollow'⟩ := hfollow
      obtain ⟨hu, hus'⟩ := List.forall_mem_cons.1 hus
      have hfit := findSlot_fits hk.sized hu.placeable hslot
      have hfound := findSlot_found hu.placeable.nTokens_pos hu.placeable.asserts hslot
      have hhomes := hfound.homes hu
      obtain ⟨hone, hreuse⟩ := hfound.reuses hhomes hfit hp hk hhome
      -- the cells of the slot are the same in both caches, and so is the newest position
      have hone' : ∀ st j, si.Names st j → (k'.cell st j).seq.card ≤ 1 := fun st j hn =>
        Cell.seq_eq_of_entries (hon st j hn) ▸ hone st j hn
      have hreuse' : Reuses cfg k' si := by
        refine ⟨hone', ?_⟩
        rintro ⟨s, q⟩ ⟨st, j, hn, he⟩
        obtain ⟨e, hentry, rfl, rfl⟩ := (names_iff_entry hfit).1 hn
        refine ⟨⟨e.st, (hhomes e hentry).1, e.idx, (hfit.entry_lt hentry).1, he⟩, fun M hM => ?_⟩
        exact (hreuse (s, q) (hon.overwritten ▸ ⟨e.st, e.idx, hn, he⟩)).2 M
          (((hsame s).isGreatest_iff (finite_positions cfg k s)).1 hM)
      refine ⟨hreuse', ih (hk.applyUbatch hfit hu.proper) (hk'.applyUbatch hfit hu.proper)
        (hhome.applyUbatch hp hk hfit hu.proper hhomes)
        (hhome'.applyUbatch hp hk' hfit hu.proper hhomes) hplan' hfollow' hus' fun s => ?_⟩
      rw [applyUbatch_slide hp hk hfit hu.proper hhome hhomes hone,
        applyUbatch_slide hp hk' hfit hu.proper hhome' hhomes hone', hon.overwritten]
      exact WindowStore.SameNewest.slide hsame s

lemma ReusesAll.congr (hp : ¬ cfg.PrefixSliding) : ∀ {L : List (SlotInfo × UBatch)} {k k' : KvCache},
    k.Ok cfg → k'.Ok cfg → (∀ e ∈ L, SlotFits cfg.kvSize e.1 e.2 ∧ e.2.Proper) →
    Within cfg k' k → Within cfg k k' → ReusesAll cfg k L → ReusesAll cfg k' L := by
  intro L
  induction L with
  | nil =>
    intros
    trivial
  | cons e L ih =>
    intro k k' hk hk' hL hin hin' hu
    obtain ⟨⟨hfit, hproper⟩, hL'⟩ := List.forall_mem_cons.1 hL
    obtain ⟨⟨hone, hreuse⟩, hrest⟩ := hu
    have hsame : SameOn e.1 k' k := by
      rintro st j ⟨s, hs, hst, hj⟩
      have hlt := hfit.lt s hs j hj
      exact (hin st j hlt).antisymm (hin' st j hlt)
    have hpos : k'.positions cfg = k.positions cfg :=
      funext fun s => (hin.positions s).antisymm (hin'.positions s)
    refine ⟨⟨fun st j hn => ?_, ?_⟩, ih (hk.applyUbatch hfit hproper) (hk'.applyUbatch hfit hproper)
      hL' (hin.applyUbatch hp hk hk' hfit hproper hsame)
      (hin'.applyUbatch hp hk' hk hfit hproper fun st j hn => (hsame st j hn).symm) hrest⟩
    · rw [Cell.seq_eq_of_entries (hsame st j hn)]
      exact hone st j hn
    · rw [hpos, hsame.overwritten]
      exact hreuse

/-! ## What slots take -/

/-- What the slots that `prepare` tries hold when they are filled. -/
def takes (cfg : KvConfig) : KvCache → List UBatch → Set (SeqId × ℤ)
  | _, [] => ∅
  | k, u :: us =>
    match findSlot cfg k u false with
    | none => ∅
    | some si => k.overwritten si ∪ takes cfg (k.applyUbatch cfg si u) us

lemma takes_cons (k : KvCache) (u : UBatch) (us : List UBatch) :
    takes cfg k (u :: us) = match findSlot cfg k u false with
      | none => ∅
      | some si => k.overwritten si ∪ takes cfg (k.applyUbatch cfg si u) us := rfl

lemma takes_tried : ∀ (us : List UBatch) (k : KvCache),
    takes cfg k (KvMachine.tried cfg k us) = takes cfg k us := by
  intro us
  induction us with
  | nil => exact fun _ => rfl
  | cons u us ih =>
    intro k
    rw [KvMachine.tried_cons, takes_cons, takes_cons]
    cases hslot : findSlot cfg k u false with
    | none => rfl
    | some si =>
      change k.overwritten si ∪ _ = _
      rw [ih]

/-- `prepare` keeps what is newer than everything that the slots take of its sequence. -/
theorem mem_prepare (hp : ¬ cfg.PrefixSliding) {e : SeqId × ℤ} (he0 : 0 ≤ e.2) :
    ∀ (us : List UBatch) {k : KvCache}, k.Ok cfg → (∀ u ∈ us, u.Placeable cfg ∧ u.Proper) →
      (∀ q, (e.1, q) ∈ takes cfg k us → q < e.2) → j < cfg.kvSize →
      e ∈ (k.cell st j).entries → e ∈ ((k.prepare cfg us).1.cell st j).entries := by
  intro us
  induction us with
  | nil => exact fun _ _ _ _ he => he
  | cons u us ih =>
    intro k h hus htaken hj he
    obtain ⟨⟨hu, hproper⟩, hus'⟩ := List.forall_mem_cons.1 hus
    rw [prepare_cons]
    rw [takes_cons] at htaken
    cases hslot : findSlot cfg k u false with
    | none => exact he
    | some si =>
      rw [hslot] at htaken
      have hfit := findSlot_fits h.sized hu hslot
      change e ∈ ((restore _ (k.save si)).cell st j).entries
      rw [restore_entries hfit]
      by_cases hn : si.Names st j
      · rw [if_pos hn]
        exact he
      · rw [if_neg hn]
        refine ih (h.applyUbatch hfit hproper) hus' (fun q hq => htaken q (.inr hq)) hj ?_
        rw [applyUbatch_entries hp h hfit hproper hj]
        refine ⟨.inl ⟨hn, he⟩, fun hpurged => ?_⟩
        -- a recorded position is one that the slot took
        rcases (emplaceAll_spec cfg k hfit).max_attained e.1 with hnone | ⟨r, hr, -, hget, hpos⟩
        · omega
        · have := htaken (k.cell r.st r.idx).pos (.inl ⟨r.st, r.idx, (names_iff_entry hfit).2 ⟨r, hr, rfl, rfl⟩,
            Cell.mem_of_seqGet hget, rfl⟩)
          omega

lemma takes_of_noWindow (hp : ¬ cfg.PrefixSliding) (hswa : cfg.swaType = .none) :
    ∀ (us : List UBatch) {k : KvCache}, k.Ok cfg → (∀ u ∈ us, u.Placeable cfg ∧ u.Proper) →
      takes cfg k us = ∅ := by
  intro us
  induction us with
  | nil => exact fun _ _ => rfl
  | cons u us ih =>
    intro k h hus
    obtain ⟨⟨hu, hproper⟩, hus'⟩ := List.forall_mem_cons.1 hus
    rw [takes_cons]
    cases hslot : findSlot cfg k u false with
    | none => rfl
    | some si =>
      have hfit := findSlot_fits h.sized hu hslot
      have hfound := findSlot_found hu.nTokens_pos hu.asserts hslot
      change k.overwritten si ∪ _ = ∅
      rw [ih (h.applyUbatch hfit hproper) hus', Set.union_empty]
      refine Set.eq_empty_iff_forall_notMem.2 ?_
      rintro e ⟨st, j, hn, hs, -⟩
      have hempty := hfound.empty_of_noWindow hp hswa hn
      obtain ⟨i, hi, -, hj⟩ := hn
      have hseq : (k.cell st j).seq = ∅ := ((h st).cleared (hfit.lt i hi j hj) hempty).1
      exact Finset.notMem_empty e.1 (hseq ▸ hs)

/-- Without a window `prepare` leaves the cache as it was. -/
lemma prepare_of_noWindow (hp : ¬ cfg.PrefixSliding) (hswa : cfg.swaType = .none) (h : k.Ok cfg)
    (hready : ∀ u ∈ KvMachine.tried cfg k us, u.Ready cfg) : (k.prepare cfg us).1 = k := by
  have hus : ∀ u ∈ KvMachine.tried cfg k us, u.Placeable cfg ∧ u.Proper := fun u hu =>
    ⟨(hready u hu).placeable, (hready u hu).proper⟩
  rw [← (KvMachine.prepare_tried us k).1]
  exact (prepare_eq_iff h hus).2 (undone_of_noWindow hp hswa _ _ h hus)

/-- Every slot satisfies `P` in the cache to which the ubatches before it have been applied. -/
def AllSlots (cfg : KvConfig) (P : KvCache → SlotInfo → Prop) :
    KvCache → List (SlotInfo × UBatch) → Prop
  | _, [] => True
  | k, e :: rest => P k e.1 ∧ AllSlots cfg P (k.applyUbatch cfg e.1 e.2) rest

/-- A slot takes only entries of `T`, and no cell of several sequences. -/
def TakesOnly (T : Set (SeqId × ℤ)) (k : KvCache) (si : SlotInfo) : Prop :=
  (∀ st j, si.Names st j → (k.cell st j).seq.card ≤ 1) ∧ k.overwritten si ⊆ T

lemma TakesOnly.congr {T : Set (SeqId × ℤ)} (k k' : KvCache) (si : SlotInfo) (hsame : SameOn si k' k)
    (h : TakesOnly T k si) : TakesOnly T k' si := by
  refine ⟨fun st j hn => ?_, hsame.overwritten ▸ h.2⟩
  rw [Cell.seq_eq_of_entries (hsame st j hn)]
  exact h.1 st j hn

/-- The slots of a plan take what `prepare` takes. -/
lemma Planned.allSlots (hp : ¬ cfg.PrefixSliding) {T : Set (SeqId × ℤ)} :
    ∀ {us : List UBatch} {sis : List SlotInfo} {k : KvCache}, k.Ok cfg → Planned cfg k sis us →
      (∀ u ∈ us, u.Placeable cfg ∧ u.Proper) → takes cfg k us ⊆ T →
      AllSlots cfg (TakesOnly T) k (sis.zip us) := by
  intro us
  induction us with
  | nil =>
    intro sis k _ _ _ _
    rw [List.zip_nil_right]
    trivial
  | cons u us ih =>
    intro sis k h hplan hus hT
    cases sis with
    | nil => trivial
    | cons si sis =>
      obtain ⟨hslot, hplan'⟩ := hplan
      obtain ⟨⟨hu, hproper⟩, hus'⟩ := List.forall_mem_cons.1 hus
      have hfit := findSlot_fits h.sized hu hslot
      have hfound := findSlot_found hu.nTokens_pos hu.asserts hslot
      rw [takes_cons, hslot] at hT
      obtain ⟨hfirst, hrest⟩ := Set.union_subset_iff.1 hT
      exact ⟨⟨fun st j hn => hfound.card_le_one hfit hp h hn, hfirst⟩,
        ih (h.applyUbatch hfit hproper) hplan' hus' hrest⟩

lemma AllSlots.follows {P : KvCache → SlotInfo → Prop}
    (hP : ∀ k k' si, SameOn si k' k → P k si → P k' si) :
    ∀ {us : List UBatch} {sis : List SlotInfo} {k k' : KvCache}, Follows cfg k k' sis us →
      AllSlots cfg P k (sis.zip us) → AllSlots cfg P k' (sis.zip us) := by
  intro us
  induction us with
  | nil =>
    intro sis k k' _ _
    rw [List.zip_nil_right]
    trivial
  | cons u us ih =>
    intro sis k k' hfollow hall
    cases sis with
    | nil => trivial
    | cons si sis =>
      obtain ⟨hsame, hfollow'⟩ := hfollow
      obtain ⟨hfirst, hrest⟩ := hall
      exact ⟨hP k k' si hsame hfirst, ih hfollow' hrest⟩

lemma follows_of_within (hp : ¬ cfg.PrefixSliding) : ∀ {us : List UBatch} {sis : List SlotInfo}
    {k k' : KvCache}, k.Ok cfg → k'.Ok cfg →
      (∀ e ∈ sis.zip us, SlotFits cfg.kvSize e.1 e.2 ∧ e.2.Proper) → Within cfg k' k →
      Within cfg k k' → Follows cfg k k' sis us := by
  intro us
  induction us with
  | nil =>
    intro sis k k' _ _ _ _ _
    cases sis <;> trivial
  | cons u us ih =>
    intro sis k k' hk hk' hfits hin hin'
    cases sis with
    | nil => trivial
    | cons si sis =>
      obtain ⟨⟨hfit, hproper⟩, hfits'⟩ := List.forall_mem_cons.1 hfits
      have hsame : SameOn si k' k := by
        rintro st j ⟨s, hs, hst, hj⟩
        have hlt := hfit.lt s hs j hj
        exact (hin st j hlt).antisymm (hin' st j hlt)
      exact ⟨hsame, ih (hk.applyUbatch hfit hproper) (hk'.applyUbatch hfit hproper) hfits'
        (hin.applyUbatch hp hk hk' hfit hproper hsame)
        (hin'.applyUbatch hp hk' hk hfit hproper fun st j hn => (hsame st j hn).symm)⟩

lemma AllSlots.congr (hp : ¬ cfg.PrefixSliding) {P : KvCache → SlotInfo → Prop}
    (hP : ∀ k k' si, SameOn si k' k → P k si → P k' si) {L : List (SlotInfo × UBatch)} (hk : k.Ok cfg)
    (hk' : k'.Ok cfg) (hL : ∀ e ∈ L, SlotFits cfg.kvSize e.1 e.2 ∧ e.2.Proper)
    (hin : Within cfg k' k) (hin' : Within cfg k k') (h : AllSlots cfg P k L) :
    AllSlots cfg P k' L := by
  rw [← List.zip_unzip L] at h hL ⊢
  exact h.follows hP (follows_of_within hp hk hk' hL hin hin')

/-! ## The ubatches of a batch -/

lemma mem_seqPos {b : Batch} {s : SeqId} {p : ℤ} :
    p ∈ b.seqPos s ↔ ∃ i < b.nTokens, s ∈ b.seqSet i ∧ b.pos i = p := by
  simp only [Batch.seqPos, Finset.mem_image, Finset.mem_filter, Finset.mem_range, and_assoc]

lemma tokenPositions_splitBatch
    (h : splitBatch sp nUbatch nSeqMax nEmbd nPosPerEmbd b = some us) (s : SeqId) :
    tokenPositions us s = (b.seqPos s : Set ℤ) := by
  ext p
  rw [Finset.mem_coe, mem_seqPos]
  constructor
  · rintro ⟨u, hu, i, hi, hs, rfl⟩
    obtain ⟨row, hrow, hpos, hseq⟩ := (splitBatch_of h u hu).row i hi
    rw [UBatch.seqSet, hseq] at hs
    exact ⟨row, hrow, hs, hpos.symm⟩
  · rintro ⟨i, hi, hs, rfl⟩
    obtain ⟨hall, rfl⟩ := BatchAllocr.splitBatch_eq_some_iff.1 h
    obtain ⟨parts, hparts⟩ := BatchAllocr.splitRun_parts sp nUbatch nSeqMax nEmbd nPosPerEmbd b
    have hmem : i ∈ parts.flatten := (hparts.perm rfl hall).mem_iff.2 (List.mem_range.2 hi)
    obtain ⟨u, hu, idxs, hrows, hmem'⟩ := hparts.exists_ubatch hmem
    obtain ⟨n, hn⟩ := List.getElem?_of_mem hmem'
    obtain ⟨hlt, -⟩ := List.getElem?_eq_some_iff.1 hn
    have hpos := hrows.pos n i hn 0
    rw [Nat.zero_mul, Nat.zero_add, Nat.zero_mul, Nat.zero_add] at hpos
    refine ⟨u, hu, n, hrows.nTokens.symm ▸ hlt, ?_, hpos⟩
    rw [UBatch.seqSet, hrows.seqId n i hn]
    exact hs

lemma batchSeqMax_pos (cfg : KvConfig) : 0 < cfg.batchSeqMax := by
  unfold KvConfig.batchSeqMax
  split
  · decide
  · exact cfg.nSeqMax_pos

lemma ready_of_split {b : Batch} {mem : MemBounds} {sp : Splitter} {nUbatch nEmbd nPosPerEmbd : ℕ}
    (hb : b.Proper) (hacc : b.Accepted mem cfg.batchSeqMax)
    (hsplit : splitBatch sp nUbatch cfg.batchSeqMax nEmbd nPosPerEmbd b = some us)
    (hsp : 1 < cfg.nStream → sp = .equal true) (hu : u ∈ us) (hassert : SlotAsserts cfg u) :
    u.Ready cfg := by
  have hof := splitBatch_of hsplit u hu
  refine ⟨hof.placeable hassert, hof.proper hb, fun hmany => ?_,
    fun s hs => ((hof.mem_seqIdUnq s).1 hs).1⟩
  rw [hsp hmany] at hsplit
  obtain ⟨-, rfl⟩ := BatchAllocr.splitBatch_eq_some_iff.1 hsplit
  exact grouped_splitRun_sequential hacc u hu

end KvCache

end IFairy
