import IFairy.KvCache.MachineInv

/-!
# When `prepare` restores the cache

`prepare` undoes the placing of every ubatch by restoring the cells that its slot names.  What the
purge takes out of other cells is not saved, and neither is the pending shift of a saved cell.  So
the cache is as before exactly when the purge of each ubatch stays within the slots found so far
and no cell of a slot had a pending shift (`Undone`, `prepare_restores_iff`).  The slots that
`prepare` returns are those that applying the ubatches in order finds (`prepare_planned`).
-/

namespace IFairy

namespace Cell

variable {x y z : Cell}

lemma Fades.eq_empty (h : empty.Fades x) : x = empty := by
  rcases h with h | ⟨hpos, hshift, hseq⟩
  · exact h
  · exact Cell.ext hpos (hshift.elim (fun h => h) fun h => h) (Finset.subset_empty.1 hseq)

lemma Fades.antisymm (h : x.Fades y) (h' : y.Fades x) : y = x := by
  rcases h with rfl | ⟨hpos, hshift, hseq⟩
  · exact h'.eq_empty.symm
  · rcases h' with rfl | ⟨-, hshift', hseq'⟩
    · exact Fades.eq_empty (.inr ⟨hpos, hshift, hseq⟩)
    · refine Cell.ext hpos ?_ (hseq.antisymm hseq')
      rcases hshift with hshift | hshift
      · exact hshift
      · rw [hshift] at hshift' ⊢
        exact (hshift'.elim (fun h => h) fun h => h).symm

lemma Fades.eq_of_trans (h : x.Fades y) (h' : y.Fades z) (heq : z = x) : y = x ∧ z = y := by
  rw [heq] at h'
  have hxy := h.antisymm h'
  exact ⟨hxy, heq.trans hxy.symm⟩

end Cell

namespace KvCache

variable {cfg : KvConfig} {n : ℕ} {k : KvCache} {u : UBatch} {si : SlotInfo} {us : List UBatch}

/-! ## The heads -/

lemma sweep_freed {c : KvCells} {body : KvCells → ℕ → KvCells × Bool} (F : Cell → Cell)
    (hbody : ∀ c i, (body c i).1.cell = Function.update c.cell i (F (c.cell i)))
    (hflag : ∀ c i, (body c i).2 = true → F (c.cell i) ≠ c.cell i) (hsize : c.size = n)
    (hfreed : (sweep body c).2 ≠ n) : ∃ j < n, F (c.cell j) ≠ c.cell j := by
  have hrun : ∀ m ≤ n, ∃ r, (List.range m).foldl (fun r i => ((body r.1 i).1,
      if (body r.1 i).2 ∧ r.2 = n then i else r.2)) (c, n) = r ∧
      (∀ j ≥ m, r.1.cell j = c.cell j) ∧ (r.2 ≠ n → ∃ j < n, F (c.cell j) ≠ c.cell j) := by
    intro m
    induction m with
    | zero => exact fun _ => ⟨(c, n), rfl, fun _ _ => rfl, fun h => absurd rfl h⟩
    | succ m ih =>
      intro hm
      obtain ⟨r, hr, hrest, hex⟩ := ih (Nat.le_of_succ_le hm)
      rw [List.range_succ, List.foldl_append, hr]
      refine ⟨_, rfl, fun j hj => ?_, fun hne => ?_⟩
      · have hjm : j ≠ m := by omega
        rw [List.foldl_cons, List.foldl_nil, hbody, Function.update_of_ne hjm]
        exact hrest j (by omega)
      · rw [List.foldl_cons, List.foldl_nil] at hne
        by_cases hflagged : (body r.1 m).2 = true ∧ r.2 = n
        · refine ⟨m, hm, ?_⟩
          rw [← hrest m le_rfl]
          exact hflag r.1 m hflagged.1
        · simp only [if_neg hflagged] at hne
          exact hex hne
  obtain ⟨r, hr, -, hex⟩ := hrun n le_rfl
  have hsweep : sweep body c = r := by
    unfold sweep
    rw [hsize]
    exact hr
  exact hex (hsweep ▸ hfreed)

/-- `seq_rm` of a sequence reports a cell only when it frees it. -/
lemma seqRm_flag (s : SeqId) (p0 p1 : ℤ) (c : KvCells) (i : ℕ)
    (hflag : (if c.PosIn i p0 p1 ∧ s ∈ c.seq i then c.seqRm i s else (c, false)).2 = true) :
    ((c.cell i).onSeq s p0 p1 fun x => x.rmSeq s) ≠ c.cell i := by
  by_cases hin : c.PosIn i p0 p1 ∧ s ∈ c.seq i
  · have hon : ((c.cell i).onSeq s p0 p1 fun x => x.rmSeq s) = (c.cell i).rmSeq s := if_pos hin
    rw [hon]
    intro heq
    have hseq : (c.cell i).seq.erase s = (c.cell i).seq :=
      (Cell.rmSeq_seq ..).symm.trans (congrArg Cell.seq heq)
    have hs : s ∈ (c.cell i).seq.erase s := by
      rw [hseq]
      exact hin.2
    exact Finset.notMem_erase s _ hs
  · rw [if_neg hin] at hflag
    cases hflag

lemma sweepStream_heads {st t : ℕ} {body : KvCells → ℕ → KvCells × Bool}
    (hsize : (sweep body (k.cells st)).1.size = n)
    (h : t = st → (sweep body (k.cells st)).2 = n) : (k.sweepStream st body).heads t = k.heads t := by
  unfold sweepStream
  by_cases ht : t = st
  · have hnone : ¬ ((sweep body (k.cells st)).2 ≠ (sweep body (k.cells st)).1.size ∧
        (sweep body (k.cells st)).2 < k.heads st) := fun hc => hc.1 ((h ht).trans hsize.symm)
    exact congrFun (congrArg KvCache.heads (if_neg hnone)) t
  · have hother : ∀ (k' : KvCache) (x : ℕ), (k'.setHead st x).heads t = k'.heads t :=
      fun _ _ => Function.update_of_ne ht ..
    simp only [apply_ite KvCache.heads, ite_apply, hother]
    exact ite_self _

/-- The head of a stream moves in `seq_rm` only when one of its cells is changed. -/
lemma seqRm_heads (hp : ¬ cfg.PrefixSliding) (h : k.Sized cfg) (s : SeqId) (p0 : ℤ) {p1 : ℤ}
    (hp1 : 0 ≤ p1) {st : ℕ} (hsame : ∀ j, (k.seqRm cfg (some s) p0 p1).cell st j = k.cell st j) :
    (k.seqRm cfg (some s) p0 p1).heads st = k.heads st := by
  have hall : ¬ (p0 ≤ 0 ∧ p1 < 0) := fun h => absurd h.2 (not_lt.2 hp1)
  have heads : (k.seqRm cfg (some s) p0 p1).heads = (k.sweepStream (cfg.seqToStream s) fun c i =>
      if c.PosIn i (clampP0 p0) (clampP1 p1) ∧ s ∈ c.seq i then c.seqRm i s
        else (c, false)).heads := by
    simp only [KvCache.seqRm, hp, hall, if_false, false_and]
  rw [heads]
  refine sweepStream_heads (n := cfg.kvSize) (sweep_size (fun c i => ?_) (h _)) fun hst => ?_
  · split
    · exact KvCells.seqRm_size ..
    · rfl
  · by_contra hfreed
    obtain ⟨j, hj, hne⟩ := sweep_freed (fun x => x.onSeq s (clampP0 p0) (clampP1 p1) fun x => x.rmSeq s)
      (onSeq_body _ (fun c i => KvCells.seqRm_cell c i s) s _ _)
      (fun c i => seqRm_flag s _ _ c i) (h _) hfreed
    refine hne ?_
    have hj' := hsame j
    rw [seqRm_some_cell h, if_pos ⟨hst, hj⟩, hst] at hj'
    exact hj'

lemma purge_heads (h : k.Sized cfg) {maxRm : SeqId → ℤ} (hmax : ∀ s, -1 ≤ maxRm s) {st : ℕ}
    (hsame : ∀ j, (purge cfg maxRm k).cell st j = k.cell st j) :
    (purge cfg maxRm k).heads st = k.heads st := by
  by_cases hp : cfg.PrefixSliding
  · rw [ purge_of_prefix hp]
  rw [purge, if_neg hp] at hsame ⊢
  -- over any part of the sequences: as long as no cell has changed, the head has not moved
  have hrun : ∀ (L : List SeqId) (k : KvCache), k.Sized cfg →
      Fades k (L.foldl (purgeSeq cfg maxRm) k) ∧
        ((∀ j, (L.foldl (purgeSeq cfg maxRm) k).cell st j = k.cell st j) →
          (L.foldl (purgeSeq cfg maxRm) k).heads st = k.heads st) := by
    intro L
    induction L with
    | nil => exact fun k _ => ⟨.refl k, fun _ => rfl⟩
    | cons s L ih =>
      intro k h
      have hone : (purgeSeq cfg maxRm k s).Sized cfg ∧ Fades k (purgeSeq cfg maxRm k s) ∧
          ((∀ j, (purgeSeq cfg maxRm k s).cell st j = k.cell st j) →
            (purgeSeq cfg maxRm k s).heads st = k.heads st) := by
        simp only [purgeSeq]
        split
        · exact ⟨h, .refl k, fun _ => rfl⟩
        · split
          · have := hmax s
            exact ⟨h.seqRm (some _) _ _, seqRm_fades h _ _ _, seqRm_heads hp h s _ (by omega)⟩
          · exact ⟨h, .refl k, fun _ => rfl⟩
      obtain ⟨hsize, hfades, hheads⟩ := hone
      obtain ⟨hfades', hheads'⟩ := ih _ hsize
      refine ⟨fun t j => (hfades t j).trans (hfades' t j), fun hall => ?_⟩
      have hsplit : ∀ j, _ := fun j => (hfades st j).eq_of_trans (hfades' st j) (hall j)
      exact (hheads' fun j => (hsplit j).2).trans (hheads fun j => (hsplit j).1)
  exact (hrun _ k h).2 hsame

/-- The head of a stream that is not in the slot moves in `apply_ubatch` only when one of its cells
is changed. -/
lemma applyUbatch_heads (h : k.Sized cfg) (hfit : SlotFits cfg.kvSize si u) {st : ℕ}
    (hst : ∀ s < si.nStream, si.stream s ≠ st)
    (hsame : ∀ j, (k.applyUbatch cfg si u).cell st j = k.cell st j) :
    (k.applyUbatch cfg si u).heads st = k.heads st := by
  have hspec := emplaceAll_spec cfg k hfit
  have hmoved : (k.applyUbatch cfg si u).heads st
      = (purge cfg (emplaceAll cfg k si u).2 (emplaceAll cfg k si u).1).heads st := by
    unfold applyUbatch moveHeads
    refine foldl_read_of_not_cover _ (fun k : KvCache => k.heads st) (fun s hs k' => ?_) _
    exact Function.update_of_ne (hst s (List.mem_range.1 hs)).symm ..
  have hcell : (k.applyUbatch cfg si u).cell
      = (purge cfg (emplaceAll cfg k si u).2 (emplaceAll cfg k si u).1).cell :=
    cell_of_cells (moveHeads_cells _ _)
  have hplaced : ∀ j, (emplaceAll cfg k si u).1.cell st j = k.cell st j := by
    refine fun j => hspec.frame st j fun e he heq => ?_
    obtain ⟨s, hs, hstream, -⟩ := (names_iff_entry hfit).2 ⟨e, he, heq⟩
    exact hst s hs hstream
  rw [hmoved, purge_heads (emplaceAll_sized h si u) hspec.le_max fun j => ?_, hspec.rest]
  rw [← hcell, hsame, hplaced]

/-! ## The condition -/

/-- The slots that the ubatches get when they are applied in order. -/
def Planned (cfg : KvConfig) : KvCache → List SlotInfo → List UBatch → Prop
  | _, [], us => us = []
  | _, _ :: _, [] => False
  | k, si :: sis, u :: us =>
    findSlot cfg k u false = some si ∧ Planned cfg (k.applyUbatch cfg si u) sis us

/-- `prepare` returns the slots that applying the ubatches in order finds. -/
lemma prepare_planned : ∀ (us : List UBatch) (k : KvCache) (sis : List SlotInfo),
    (k.prepare cfg us).2 = some sis → Planned cfg k sis us := by
  intro us
  induction us with
  | nil =>
    rintro k sis ⟨⟩
    rfl
  | cons u us ih =>
    intro k sis heq
    rw [prepare_cons] at heq
    cases hslot : findSlot cfg k u false with
    | none =>
      rw [hslot] at heq
      cases heq
    | some si =>
      rw [hslot] at heq
      obtain ⟨rest, hrest, rfl⟩ := Option.map_eq_some_iff.1 heq
      exact ⟨hslot, ih _ rest hrest⟩

/-- The ubatches can be placed and taken back: no cell of a slot has a pending shift, and outside
the slots found so far (`N` at first) nothing changes. -/
def Undone (cfg : KvConfig) : KvCache → (ℕ → ℕ → Prop) → List UBatch → Prop
  | _, _, [] => True
  | k, N, u :: us => ∀ si ∈ findSlot cfg k u false,
    (∀ st j, si.Names st j → ¬ N st j → (k.cell st j).shift = 0) ∧
    (∀ st j, ¬ (N st j ∨ si.Names st j) → (k.applyUbatch cfg si u).cell st j = k.cell st j) ∧
    Undone cfg (k.applyUbatch cfg si u) (fun st j => N st j ∨ si.Names st j) us

/-- The cells outside `N` are as before. -/
lemma prepare_cells_iff : ∀ (us : List UBatch) {k : KvCache} (N : ℕ → ℕ → Prop), k.Ok cfg →
    (∀ u ∈ us, u.Placeable cfg ∧ u.Proper) →
    ((∀ st j, ¬ N st j → (k.prepare cfg us).1.cell st j = k.cell st j) ↔ Undone cfg k N us) := by
  intro us
  induction us with
  | nil => exact fun N _ _ => iff_of_true (fun _ _ _ => rfl) trivial
  | cons u us ih =>
    intro k N h hus
    obtain ⟨⟨hu, hproper⟩, hus'⟩ := List.forall_mem_cons.1 hus
    rw [prepare_cons, Undone]
    cases hslot : findSlot cfg k u false with
    | none => exact iff_of_true (fun _ _ _ => rfl) fun si hsi => by cases hsi
    | some si =>
      have hfit := findSlot_fits h.sized hu hslot
      have hok := h.applyUbatch hfit hproper
      have hfades := (prepare_fades us _ hok.sized fun u hu => (hus' u hu).1).2
      have hih := ih (fun st j => N st j ∨ si.Names st j) hok hus'
      set k₁ := k.applyUbatch cfg si u with hk₁
      set r := (k₁.prepare cfg us).1 with hr
      -- a cell of the slot gets back all but its pending shift, which is gone
      have hnamed : ∀ st j, si.Names st j →
          ((restore r (k.save si)).cell st j = k.cell st j ↔ (k.cell st j).shift = 0) := by
        intro st j hn
        have hzero : (r.cell st j).shift = 0 :=
          (hfades st j).shift.elim (fun hs => hs.trans (applyUbatch_shift h hfit hn)) fun hs => hs
        rw [restore_cell hfit, if_pos hn]
        constructor
        · exact fun heq => (congrArg Cell.shift heq).symm.trans hzero
        · exact fun hs => Cell.ext rfl (hzero.trans hs.symm) rfl
      -- another cell only loses something, so it is as before when both steps leave it alone
      have hother : ∀ st j, ¬ si.Names st j →
          ((restore r (k.save si)).cell st j = k.cell st j ↔
            k₁.cell st j = k.cell st j ∧ r.cell st j = k₁.cell st j) := by
        intro st j hn
        rw [restore_cell hfit, if_neg hn]
        rcases applyUbatch_cell h.sized hfit st j with ⟨-, -, hnames, -⟩ | ⟨-, happly⟩
        · exact absurd hnames hn
        · exact ⟨happly.eq_of_trans (hfades st j), fun heq => heq.2.trans heq.1⟩
      constructor
      · intro hall si' hsi'
        obtain rfl := Option.some.inj hsi'
        refine ⟨fun st j hn hN => (hnamed st j hn).1 (hall st j hN), fun st j hno => ?_,
          hih.1 fun st j hno => ?_⟩
        all_goals
          rw [not_or] at hno
          have hboth := (hother st j hno.2).1 (hall st j hno.1)
        · exact hboth.1
        · exact hboth.2
      · intro hundone st j hN
        obtain ⟨hshift, hsame, hrest⟩ := hundone si rfl
        by_cases hn : si.Names st j
        · exact (hnamed st j hn).2 (hshift st j hn hN)
        · have hno : ¬ (N st j ∨ si.Names st j) := not_or.2 ⟨hN, hn⟩
          exact (hother st j hn).2 ⟨hsame st j hno, hih.2 hrest st j hno⟩

/-- The heads of streams without a cell in `N` are as before. -/
lemma prepare_heads : ∀ (us : List UBatch) {k : KvCache} (N : ℕ → ℕ → Prop), k.Ok cfg →
    (∀ u ∈ us, u.Placeable cfg ∧ u.Proper) → Undone cfg k N us →
    ∀ st, (∀ j, ¬ N st j) → (k.prepare cfg us).1.heads st = k.heads st := by
  intro us
  induction us with
  | nil => exact fun N _ _ _ _ _ => rfl
  | cons u us ih =>
    intro k N h hus hundone st hN
    obtain ⟨⟨hu, hproper⟩, hus'⟩ := List.forall_mem_cons.1 hus
    rw [prepare_cons]
    cases hslot : findSlot cfg k u false with
    | none => rfl
    | some si =>
      obtain ⟨-, hsame, hrest⟩ := hundone si hslot
      have hfit := findSlot_fits h.sized hu hslot
      have hok := h.applyUbatch hfit hproper
      have hset := restore_streams hfit ((k.applyUbatch cfg si u).prepare cfg us).1 k
      by_cases hst : ∃ s < si.nStream, si.stream s = st
      · obtain ⟨s, hs, rfl⟩ := hst
        exact hset.heads s hs
      · have hne : ∀ s < si.nStream, si.stream s ≠ st := fun s hs heq => hst ⟨s, hs, heq⟩
        have hno : ∀ j, ¬ (N st j ∨ si.Names st j) := fun j => not_or.2
          ⟨hN j, not_names_iff.2 fun s hs heq => absurd heq (hne s hs)⟩
        exact (hset.otherHeads st hne).trans ((ih _ hok hus' hrest st hno).trans
          (applyUbatch_heads h.sized hfit hne fun j => hsame st j (hno j)))

/-- `prepare` leaves everything but cells and heads alone. -/
lemma prepare_sameRest : ∀ (us : List UBatch) {k : KvCache}, k.Ok cfg →
    (∀ u ∈ us, u.Placeable cfg ∧ u.Proper) → SameRest k (k.prepare cfg us).1 := by
  intro us
  induction us with
  | nil => exact fun _ _ => .refl _
  | cons u us ih =>
    intro k h hus
    obtain ⟨⟨hu, hproper⟩, hus'⟩ := List.forall_mem_cons.1 hus
    rw [prepare_cons]
    cases hslot : findSlot cfg k u false with
    | none => exact .refl k
    | some si =>
      have hfit := findSlot_fits h.sized hu hslot
      have hspec := emplaceAll_spec cfg k hfit
      have hplaced : SameRest k (emplaceAll cfg k si u).1 := by
        refine ⟨?_, ?_, ?_, hspec.hasShift⟩
        all_goals rw [hspec.rest]
      have happly : SameRest k (k.applyUbatch cfg si u) :=
        (hplaced.trans (purge_sameRest hspec.le_max (emplaceAll_ok h hfit hproper))).trans
          (moveHeads_sameRest si _)
      have hrest := happly.trans (ih (h.applyUbatch hfit hproper) hus')
      have hset := restore_streams hfit ((k.applyUbatch cfg si u).prepare cfg us).1 k
      refine hrest.trans ⟨hset.prefixEnd, hset.scInfo, hset.data, fun st => ?_⟩
      by_cases hst : ∃ s < si.nStream, si.stream s = st
      · obtain ⟨s, hs, rfl⟩ := hst
        rw [hset.cells s hs]
        exact KvCells.set_cp_hasShift ..
      · rw [hset.other st fun s hs heq => hst ⟨s, hs, heq⟩]

/-- `prepare` leaves a good cache as it was exactly when the ubatches can be taken back. -/
theorem prepare_eq_iff (h : k.Ok cfg) (hus : ∀ u ∈ us, u.Placeable cfg ∧ u.Proper) :
    (k.prepare cfg us).1 = k ↔ Undone cfg k (fun _ _ => False) us := by
  rw [← prepare_cells_iff us (fun _ _ => False) h hus]
  constructor
  · intro heq st j _
    rw [heq]
  · intro hcells
    have hundone := (prepare_cells_iff us _ h hus).1 hcells
    have hrest := prepare_sameRest us h hus
    have hok := h.prepare us hus
    refine KvCache.ext (funext fun st => ?_) (funext fun st => ?_) hrest.prefixEnd hrest.scInfo
      hrest.data
    · exact (hok st).repInv.ext_cell (h st).repInv ((hok st).size_eq.trans (h st).size_eq.symm)
        (hrest.hasShift st) (funext fun j => hcells st j not_false)
    · exact prepare_heads us _ h hus hundone st fun _ => not_false

/-! ## Caches without a window -/

lemma FoundSlot.canUse (hfound : FoundSlot cfg k u si) {st j : ℕ} (hn : si.Names st j) :
    ∃ s, si.stream s = st ∧ cfg.seqToStream (u.seqIdUnq.getD s 0) = st ∧
      SeqCanUse cfg k u (slotTokens cfg u) s j := by
  obtain ⟨s, hs, hst, hj⟩ := hn
  rw [hfound.nStream] at hs
  exact ⟨s, hst, (hfound.stream s hs).symm.trans hst, (hfound.seq s hs).canUse j hj⟩

lemma FoundSlot.empty_of_noWindow (hfound : FoundSlot cfg k u si) (hp : ¬ cfg.PrefixSliding)
    (hswa : cfg.swaType = .none) {st j : ℕ} (hn : si.Names st j) : (k.cell st j).pos = -1 := by
  obtain ⟨s, -, hst, huse⟩ := hfound.canUse hn
  unfold SeqCanUse at huse
  rw [hst] at huse
  rcases huse with hempty | ⟨-, t, -, hpre | hmask⟩
  · exact hempty
  · exact absurd hpre.1 hp
  · rw [KvConfig.IsMaskedSwa, hswa] at hmask
    exact hmask.elim

lemma purge_of_none {maxRm : SeqId → ℤ} (hmax : ∀ s, maxRm s = -1) (k : KvCache) :
    purge cfg maxRm k = k := by
  unfold purge
  split
  · rfl
  · refine foldl_inv (P := fun k' => k' = k) (fun k' hk' s _ => ?_) rfl
    rw [purgeSeq, if_pos (hmax s), hk']

theorem undone_of_noWindow (hp : ¬ cfg.PrefixSliding) (hswa : cfg.swaType = .none) :
    ∀ (us : List UBatch) {k : KvCache} (N : ℕ → ℕ → Prop), k.Ok cfg →
      (∀ u ∈ us, u.Placeable cfg ∧ u.Proper) → Undone cfg k N us := by
  intro us
  induction us with
  | nil => exact fun _ _ _ => trivial
  | cons u us ih =>
    intro k N h hus si hsi
    obtain ⟨⟨hu, hproper⟩, hus'⟩ := List.forall_mem_cons.1 hus
    have hslot : findSlot cfg k u false = some si := hsi
    have hfit := findSlot_fits h.sized hu hslot
    have hempty : ∀ st j, si.Names st j → (k.cell st j).pos = -1 := fun st j =>
      (findSlot_found hu.nTokens_pos hu.asserts hslot).empty_of_noWindow hp hswa
    refine ⟨fun st j hn _ => ?_, fun st j hno => ?_, ih _ (h.applyUbatch hfit hproper) hus'⟩
    · have hpos := hempty st j hn
      obtain ⟨s, hs, -, hj⟩ := hn
      exact ((h st).cleared (hfit.lt s hs j hj) hpos).2
    · have hspec := emplaceAll_spec cfg k hfit
      have hnone : ∀ t, (emplaceAll cfg k si u).2 t = -1 := by
        intro t
        rcases hspec.max_attained t with heq | ⟨e, he, hne, -, -⟩
        · exact heq
        · exact absurd (hempty _ _ ((names_iff_entry hfit).2 ⟨e, he, rfl, rfl⟩)) hne
      have hcell : (k.applyUbatch cfg si u).cell = (emplaceAll cfg k si u).1.cell := by
        have hmoved : (k.applyUbatch cfg si u).cell
            = (purge cfg (emplaceAll cfg k si u).2 (emplaceAll cfg k si u).1).cell :=
          cell_of_cells (moveHeads_cells _ _)
        rw [hmoved, purge_of_none hnone]
      rw [hcell]
      refine hspec.frame st j fun e he heq => ?_
      exact (not_or.1 hno).2 ((names_iff_entry hfit).2 ⟨e, he, heq⟩)

end KvCache

namespace KvMachine

open KvCache

variable {cfg : KvConfig} {k : KvCache} {m : KvMachine}
  {rope : KvLayer → ℤ → (ℕ → UInt8) → ℕ → UInt8}

lemma undone_tried : ∀ (us : List UBatch) (k : KvCache) (N : ℕ → ℕ → Prop),
    Undone cfg k N (tried cfg k us) ↔ Undone cfg k N us := by
  intro us
  induction us with
  | nil => exact fun _ _ => Iff.rfl
  | cons u us ih =>
    intro k N
    rw [tried_cons, Undone, Undone]
    refine forall₂_congr fun si hsi => ?_
    have hslot : findSlot cfg k u false = some si := hsi
    simp only [hslot, ih]

/-- In a run that keeps the representation invariant, `prepare` leaves the cache as it was and
returns the slots that applying the ubatches in order finds, exactly when the ubatches can be taken
back. -/
theorem prepare_restores_iff (h : Reaches (step rope cfg) (Keeps cfg) (start cfg) m)
    {us : List UBatch} (hus : ∀ u ∈ tried cfg m.cache us, u.Placeable cfg ∧ u.Proper) :
    ((m.cache.prepare cfg us).1 = m.cache ∧
        ∀ sis, (m.cache.prepare cfg us).2 = some sis → Planned cfg m.cache sis us) ↔
      Undone cfg m.cache (fun _ _ => False) us := by
  rw [and_iff_left fun sis => prepare_planned us m.cache sis, ← (prepare_tried us m.cache).1,
    ← undone_tried us]
  exact prepare_eq_iff (good_of_reaches h).ok hus

/-- A token of sequence `0` at position `p`, as an ubatch. -/
def tokenAt (p : ℤ) : UBatch where
  equalSeqs := false
  nTokens := 1
  nSeqTokens := 1
  nSeqs := 1
  token := some fun _ => 0
  embd := none
  pos _ := p
  seqId _ := ⟨0, []⟩
  seqIdUnq := [0]
  output _ := true

lemma tokenAt_placeable {p : ℤ} (hp : 0 ≤ p) (hone : cfg.nStream = 1) :
    (tokenAt p).Placeable cfg ∧ (tokenAt p).Proper :=
  ⟨⟨Nat.one_pos, fun hmany => absurd hmany (by omega), List.nodup_singleton _⟩,
    fun _ _ => ⟨List.nodup_singleton _, hp⟩⟩

theorem prepare_restores_decodedOnce : ∃ m,
    perform (step noRope oneStream) (start oneStream) decodedOnce = some m ∧
      (m.cache.prepare oneStream [tokenAt 1]).1 = m.cache := by
  obtain ⟨m, hm, hreach⟩ := reaches_decodedOnce
  have hus : ∀ u ∈ [tokenAt 1], u.Placeable oneStream ∧ u.Proper :=
    List.forall_mem_singleton.2 (tokenAt_placeable (by decide) (by decide))
  have hundone := undone_of_noWindow (by decide) rfl [tokenAt 1] (fun _ _ => False)
    (good_of_reaches hreach).ok hus
  exact ⟨m, hm, ((prepare_restores_iff hreach fun u hu => hus u (List.mem_of_mem_take hu)).2
    hundone).1⟩

/-- One cache for two sequences with a window of three positions. -/
def swaStream : KvConfig := { oneStream with nSwa := 3, swaType := .standard }

/-- Sequence `1` and sequence `0` with one token each. -/
def bothFirst : BatchInp where
  nTokens := 2
  token := some fun _ => 0
  embd := none
  pos := some fun _ => 0
  seqId := some fun i => ⟨1 - i, []⟩
  logits := none

/-- The positions `1`, `2` and `3` of sequence `0`. -/
def threeMore : BatchInp where
  nTokens := 3
  token := some fun _ => 0
  embd := none
  pos := some fun i => i + 1
  seqId := none
  logits := none

/-- Position `1` of sequence `0` goes to the cell that sequence `1` leaves, before position `0`. -/
def crossedPositions : List KvOp :=
  [.decode (bothFirst.firstDecode .simple 2), .apply .zero true, .seqRm (some 1) (-1) (-1),
    .decode { threeMore.firstDecode .simple 3 with
      mem := ⟨fun s => if s = 0 then 0 else -1, fun s => if s = 0 then 0 else -1⟩ },
    .apply .zero true]

/-- The cell of position `1` is reused, so the purge also takes position `0`, which is not saved. -/
theorem not_prepare_restores_crossedPositions : ∃ m,
    Reaches (step noRope swaStream) (fun _ _ => True) (start swaStream) m ∧
      ((tokenAt 4).Placeable swaStream ∧ (tokenAt 4).Proper) ∧
        (m.cache.prepare swaStream [tokenAt 4]).1 ≠ m.cache := by
  obtain ⟨m, hreach, hread⟩ := exists_reached_of_perform (by decide +kernel :
    (perform (step noRope swaStream) (start swaStream) crossedPositions).map (fun m =>
      (m.cache.cell 0 1, (m.cache.prepare swaStream [tokenAt 4]).1.cell 0 1))
        = some (⟨0, 0, {0}⟩, .empty))
  obtain ⟨hbefore, hafter⟩ := Prod.mk.inj hread
  refine ⟨m, hreach, tokenAt_placeable (by decide) (by decide), fun heq => ?_⟩
  rw [heq, hbefore] at hafter
  exact absurd (congrArg Cell.pos hafter) (by decide)

end KvMachine

end IFairy
