import IFairy.KvCache.Place

/-!
# What `prepare` restores

`prepare` places an ubatch, prepares the rest of the list and then restores the cells of the slot
and the heads of its streams (`prepare_cons`).  Restored are the position and the sequences of a
cell (`restore_cell`); its pending shift and the cells outside the slot are not.  So `prepare` only
ever takes something out of a cell (`Fades`), and it keeps the invariant of the cells.
-/

namespace IFairy

namespace KvCells

variable {n : ℕ} {c d : KvCells} {idxs : List ℕ}

/-- Cells that were saved from `d` get back the positions and sequences they had there. -/
lemma set_cp_cell (c d : KvCells) (idxs : List ℕ) (j : ℕ) :
    (c.set idxs (d.cp idxs)).cell j =
      if j ∈ idxs then { c.cell j with pos := d.pos j, seq := d.seq j } else c.cell j := by
  have hrun : ∀ m ≤ idxs.length, ∀ j, ((List.range m).foldl (fun c i =>
      c.setCell (idxs.getD i 0) ((d.cp idxs).pos i) ((d.cp idxs).seq i)) c).cell j =
      if j ∈ idxs.take m then { c.cell j with pos := d.pos j, seq := d.seq j } else c.cell j := by
    intro m
    induction m with
    | zero => exact fun _ j => rfl
    | succ m ih =>
      intro hm j
      have htake : idxs.take (m + 1) = idxs.take m ++ [idxs.getD m 0] := by
        rw [List.take_add_one, List.getElem?_eq_getElem hm, List.getD_eq_getElem _ _ hm]
        rfl
      rw [List.range_succ, List.foldl_append, List.foldl_cons, List.foldl_nil, setCell_cell, htake]
      by_cases hj : j = idxs.getD m 0
      · have hin : j ∈ idxs.take m ++ [idxs.getD m 0] :=
          List.mem_append_right _ (List.mem_singleton.2 hj)
        have hpos : (d.cp idxs).pos m = d.pos j := congrArg d.pos hj.symm
        have hseq : (d.cp idxs).seq m = d.seq j := congrArg d.seq hj.symm
        rw [if_pos hin, hpos, hseq, ← hj, Function.update_self, ih (Nat.le_of_succ_le hm)]
        split <;> rfl
      · rw [Function.update_of_ne hj, ih (Nat.le_of_succ_le hm)]
        have hiff : j ∈ idxs.take m ++ [idxs.getD m 0] ↔ j ∈ idxs.take m := by
          rw [List.mem_append, List.mem_singleton, or_iff_left hj]
        simp only [hiff]
  have hall := hrun idxs.length le_rfl j
  rw [List.take_length] at hall
  exact hall

lemma set_cp_hasShift (c d : KvCells) (idxs : List ℕ) :
    (c.set idxs (d.cp idxs)).hasShift = c.hasShift :=
  foldl_read_of_not_cover _ KvCells.hasShift (fun _ _ _ => setCell_hasShift ..) c

lemma set_cp_size (c d : KvCells) (idxs : List ℕ) : (c.set idxs (d.cp idxs)).size = c.size :=
  foldl_read_of_not_cover _ KvCells.size (fun _ _ _ => setCell_size ..) c

lemma Ok.set_cp (hc : c.Ok n) (hd : d.Ok n) (hlt : ∀ x ∈ idxs, x < n)
    (hshift : ∀ x ∈ idxs, c.shift x = 0) : (c.set idxs (d.cp idxs)).Ok n := by
  have hrun : ∀ m ≤ idxs.length, ∃ c', (List.range m).foldl (fun c i =>
      c.setCell (idxs.getD i 0) ((d.cp idxs).pos i) ((d.cp idxs).seq i)) c = c' ∧
      c'.Ok n ∧ c'.shift = c.shift := by
    intro m
    induction m with
    | zero => exact fun _ => ⟨c, rfl, hc, rfl⟩
    | succ m ih =>
      intro hm
      obtain ⟨c', heq, hok, hsame⟩ := ih (Nat.le_of_succ_le hm)
      have hmem : idxs.getD m 0 ∈ idxs := by
        rw [List.getD_eq_getElem _ _ hm]
        exact List.getElem_mem hm
      rw [List.range_succ, List.foldl_append, heq]
      refine ⟨_, rfl, ?_, (setCell_shift ..).trans hsame⟩
      refine hok.setCell (hlt _ hmem) (hd.nonneg _ (hlt _ hmem)) fun hempty => ?_
      rw [hsame]
      exact ⟨(hd.cleared (hlt _ hmem) hempty).1, hshift _ hmem⟩
  obtain ⟨c', heq, hok, -⟩ := hrun idxs.length le_rfl
  have hset : c.set idxs (d.cp idxs) = c' := heq
  rw [hset]
  exact hok

end KvCells

/-- The slot names cell `j` of stream `st`. -/
def SlotInfo.Names (si : SlotInfo) (st j : ℕ) : Prop :=
  ∃ s < si.nStream, si.stream s = st ∧ j ∈ si.cellIdxs s

instance (si : SlotInfo) (st j : ℕ) : Decidable (si.Names st j) :=
  inferInstanceAs (Decidable (∃ s, s < si.nStream ∧ _))

namespace KvCache

variable {cfg : KvConfig} {n : ℕ} {k k' : KvCache} {u : UBatch} {us : List UBatch} {si : SlotInfo}

/-! ## One entry of the recovery stack -/

/-- What a loop over the streams of a slot does, when it changes the cells and the head of each. -/
structure StreamsSet (si : SlotInfo) (F : ℕ → KvCells → KvCells) (H : ℕ → ℕ) (m : ℕ)
    (k r : KvCache) : Prop where
  cells : ∀ s < m, r.cells (si.stream s) = F s (k.cells (si.stream s))
  other : ∀ st, (∀ s < m, si.stream s ≠ st) → r.cells st = k.cells st
  heads : ∀ s < m, r.heads (si.stream s) = H (si.stream s)
  otherHeads : ∀ st, (∀ s < m, si.stream s ≠ st) → r.heads st = k.heads st
  prefixEnd : r.prefixEnd = k.prefixEnd
  scInfo : r.scInfo = k.scInfo
  data : r.data = k.data

lemma foldl_streams (F : ℕ → KvCells → KvCells) (H : ℕ → ℕ)
    (hinj : ∀ s < si.nStream, ∀ s' < si.nStream, si.stream s = si.stream s' → s = s')
    (k : KvCache) : ∀ m ≤ si.nStream, StreamsSet si F H m k
      ((List.range m).foldl (fun k s => (k.setCells (si.stream s)
        (F s (k.cells (si.stream s)))).setHead (si.stream s) (H (si.stream s))) k) := by
  intro m
  induction m with
  | zero =>
    intro _
    exact ⟨fun _ h => absurd h (Nat.not_lt_zero _), fun _ _ => rfl,
      fun _ h => absurd h (Nat.not_lt_zero _), fun _ _ => rfl, rfl, rfl, rfl⟩
  | succ m ih =>
    intro hm
    have h := ih (Nat.le_of_succ_le hm)
    rw [List.range_succ, List.foldl_append, List.foldl_cons, List.foldl_nil]
    set r := (List.range m).foldl _ k with hr
    have hne : ∀ s < m, si.stream s ≠ si.stream m := fun s hs heq =>
      absurd (hinj s (by omega) m hm heq) hs.ne
    have hcells : ∀ st, ((r.setCells (si.stream m) (F m (r.cells (si.stream m)))).setHead
        (si.stream m) (H (si.stream m))).cells st =
        if st = si.stream m then F m (r.cells (si.stream m)) else r.cells st := by
      intro st
      split
      · rename_i hst
        rw [hst]
        exact setCells_self ..
      · rename_i hst
        exact setCells_of_ne hst ..
    have hheads : ∀ st, ((r.setCells (si.stream m) (F m (r.cells (si.stream m)))).setHead
        (si.stream m) (H (si.stream m))).heads st =
        if st = si.stream m then H (si.stream m) else r.heads st := fun st =>
      Function.update_apply ..
    refine ⟨fun s hs => ?_, fun st hst => ?_, fun s hs => ?_, fun st hst => ?_, h.prefixEnd,
      h.scInfo, h.data⟩
    · rw [hcells]
      rcases Nat.lt_succ_iff_lt_or_eq.1 hs with hs | rfl
      · rw [if_neg (hne s hs), h.cells s hs]
      · rw [if_pos rfl, h.other _ hne]
    · rw [hcells, if_neg (hst m m.lt_succ_self).symm]
      exact h.other st fun s hs => hst s (hs.trans m.lt_succ_self)
    · rw [hheads]
      rcases Nat.lt_succ_iff_lt_or_eq.1 hs with hs | rfl
      · rw [if_neg (hne s hs), h.heads s hs]
      · rw [if_pos rfl]
    · rw [hheads, if_neg (hst m m.lt_succ_self).symm]
      exact h.otherHeads st fun s hs => hst s (hs.trans m.lt_succ_self)

lemma restore_streams (hfit : SlotFits n si u) (k k₀ : KvCache) :
    StreamsSet si (fun s c => c.set (si.cellIdxs s) ((k₀.cells (si.stream s)).cp (si.cellIdxs s)))
      k₀.heads si.nStream k (restore k (k₀.save si)) := by
  have h := foldl_streams
    (fun s c => c.set (si.cellIdxs s) ((k₀.cells (si.stream s)).cp (si.cellIdxs s))) k₀.heads
    hfit.stream_inj k si.nStream le_rfl
  have heq : restore k (k₀.save si) = (List.range si.nStream).foldl (fun k s =>
      (k.setCells (si.stream s) ((k.cells (si.stream s)).set (si.cellIdxs s)
        ((k₀.cells (si.stream s)).cp (si.cellIdxs s)))).setHead (si.stream s)
        (k₀.heads (si.stream s))) k := by
    refine List.foldl_ext _ _ _ fun k s hs => ?_
    have hs' : s < si.nStream := List.mem_range.1 hs
    have hold : (k₀.save si).cells.getD s (.resize 0)
        = (k₀.cells (si.stream s)).cp (si.cellIdxs s) := by
      have hlen : s < ((List.range si.nStream).map fun s =>
          (k₀.cells (si.stream s)).cp (si.cellIdxs s)).length := by
        rwa [List.length_map, List.length_range]
      exact (List.getD_eq_getElem _ _ hlen).trans (by simp)
    change (k.setCells (si.stream s) ((k.cells (si.stream s)).set (si.cellIdxs s)
      ((k₀.save si).cells.getD s (.resize 0)))).setHead (si.stream s) (k₀.heads (si.stream s)) = _
    rw [hold]
  rw [heq]
  exact h

lemma not_names_iff {st j : ℕ} :
    ¬ si.Names st j ↔ ∀ s < si.nStream, si.stream s = st → j ∉ si.cellIdxs s := by
  simp only [SlotInfo.Names, not_exists, not_and]

lemma restore_cell (hfit : SlotFits n si u) (k k₀ : KvCache) (st j : ℕ) :
    (restore k (k₀.save si)).cell st j =
      if si.Names st j then
        { k.cell st j with pos := (k₀.cell st j).pos, seq := (k₀.cell st j).seq }
      else k.cell st j := by
  have h := restore_streams hfit k k₀
  by_cases hst : ∃ s < si.nStream, si.stream s = st
  · obtain ⟨s, hs, rfl⟩ := hst
    have hnames : si.Names (si.stream s) j ↔ j ∈ si.cellIdxs s := by
      constructor
      · rintro ⟨s', hs', heq, hj⟩
        rwa [← hfit.stream_inj s' hs' s hs heq]
      · exact fun hj => ⟨s, hs, rfl, hj⟩
    rw [cell, h.cells s hs, KvCells.set_cp_cell]
    simp only [hnames]
    rfl
  · have hne : ∀ s < si.nStream, si.stream s ≠ st := fun s hs heq => hst ⟨s, hs, heq⟩
    rw [cell, h.other st hne, if_neg]
    · rfl
    · exact not_names_iff.2 fun s hs heq => absurd heq (hne s hs)

lemma restore_ok (hfit : SlotFits cfg.kvSize si u) (hk : k.Ok cfg) (hk' : k'.Ok cfg)
    (hshift : ∀ st j, si.Names st j → (k.cell st j).shift = 0) :
    (restore k (k'.save si)).Ok cfg := by
  intro st
  have h := restore_streams hfit k k'
  by_cases hst : ∃ s < si.nStream, si.stream s = st
  · obtain ⟨s, hs, rfl⟩ := hst
    rw [h.cells s hs]
    exact (hk _).set_cp (hk' _) (hfit.lt s hs) fun x hx => hshift _ _ ⟨s, hs, rfl, hx⟩
  · rw [h.other st fun s hs heq => hst ⟨s, hs, heq⟩]
    exact hk st

/-! ## The recursion of `prepare` -/

/-- `prepare` places the first ubatch, prepares the others and restores what it saved. -/
lemma prepare_cons (k : KvCache) (u : UBatch) (us : List UBatch) :
    k.prepare cfg (u :: us) =
      match findSlot cfg k u false with
      | none => (k, none)
      | some si =>
        let r := (k.applyUbatch cfg si u).prepare cfg us
        (restore r.1 (k.save si), r.2.map (si :: ·)) := by
  unfold prepare
  cases hslot : findSlot cfg k u false with
  | none => simp [prepareLoop, hslot]
  | some si =>
    simp only [prepareLoop, hslot, List.reverse_cons, List.foldl_append, List.foldl_cons,
      List.foldl_nil, List.map_cons]
    split <;> rfl

/-! ## What `prepare` takes out of the cells -/

end KvCache

/-- Nothing was added to the cell: it is empty, or it has its position, some of its sequences, and
its pending shift or none. -/
def Cell.Fades (x y : Cell) : Prop :=
  y = .empty ∨ y.pos = x.pos ∧ (y.shift = x.shift ∨ y.shift = 0) ∧ y.seq ⊆ x.seq

namespace Cell

variable {x y z : Cell}

lemma Fades.refl (x : Cell) : x.Fades x := .inr ⟨rfl, .inl rfl, Finset.Subset.refl _⟩

lemma Fades.trans (h : x.Fades y) (h' : y.Fades z) : x.Fades z := by
  rcases h' with rfl | ⟨hpos', hshift', hseq'⟩
  · exact .inl rfl
  · rcases h with rfl | ⟨hpos, hshift, hseq⟩
    · have hnone : z.seq = ∅ := Finset.subset_empty.1 hseq'
      have hzero : z.shift = 0 := hshift'.elim (fun h => h) fun h => h
      exact .inl (Cell.ext hpos' hzero hnone)
    · refine .inr ⟨hpos'.trans hpos, ?_, hseq'.trans hseq⟩
      rcases hshift' with hshift' | hshift'
      · exact hshift.imp hshift'.trans hshift'.trans
      · exact .inr hshift'

lemma Fades.shift (h : x.Fades y) : y.shift = x.shift ∨ y.shift = 0 := by
  rcases h with rfl | ⟨-, hshift, -⟩
  · exact .inr rfl
  · exact hshift

lemma fades_rmSeq (x : Cell) (s : SeqId) : x.Fades (x.rmSeq s) := by
  unfold rmSeq
  split
  · exact .inl rfl
  · exact .inr ⟨rfl, .inl rfl, Finset.erase_subset _ _⟩

lemma fades_onSeq (x : Cell) (s : SeqId) (p0 p1 : ℤ) :
    x.Fades (x.onSeq s p0 p1 fun x => x.rmSeq s) := by
  unfold onSeq
  split
  · exact fades_rmSeq x s
  · exact .refl x

end Cell

/-- What `prepare` is given: a non-empty ubatch that passes the assertions of `find_slot`. -/
structure UBatch.Placeable (cfg : KvConfig) (u : UBatch) : Prop where
  nTokens_pos : 0 < u.nTokens
  asserts : KvCache.SlotAsserts cfg u
  nodup : u.seqIdUnq.Nodup

namespace KvCache

variable {cfg : KvConfig} {n : ℕ} {k : KvCache} {u : UBatch} {si : SlotInfo}

/-- Every cell of `k'` is what is left of the cell of `k`. -/
def Fades (k k' : KvCache) : Prop := ∀ st j, (k.cell st j).Fades (k'.cell st j)

lemma Fades.refl (k : KvCache) : Fades k k := fun _ _ => .refl _

lemma findSlot_fits (hsize : k.Sized cfg) (hu : u.Placeable cfg)
    (h : findSlot cfg k u false = some si) : SlotFits cfg.kvSize si u :=
  (findSlot_found hu.nTokens_pos hu.asserts h).fits hsize hu.nTokens_pos hu.asserts hu.nodup

lemma seqRm_fades (h : k.Sized cfg) (s : SeqId) (p0 p1 : ℤ) :
    Fades k (k.seqRm cfg (some s) p0 p1) := by
  intro st j
  rw [seqRm_some_cell h]
  split
  · exact Cell.fades_onSeq ..
  · exact .refl _

lemma purge_fades (h : k.Sized cfg) (maxRm : SeqId → ℤ) :
    (purge cfg maxRm k).Sized cfg ∧ Fades k (purge cfg maxRm k) := by
  unfold purge
  split
  · exact ⟨h, .refl k⟩
  · refine foldl_inv (P := fun k' => k'.Sized cfg ∧ Fades k k') (fun k' hk' s _ => ?_)
      ⟨h, .refl k⟩
    obtain ⟨hsize, hfades⟩ := hk'
    simp only [purgeSeq]
    split
    · exact ⟨hsize, hfades⟩
    · split
      · exact ⟨Sized.seqRm hsize (some _) _ _, fun st j => (hfades st j).trans (seqRm_fades hsize _ _ _ st j)⟩
      · exact ⟨hsize, hfades⟩

lemma placeToken_size (u : UBatch) (idx i : ℕ) (c : KvCells) :
    (placeToken u idx i c).size = c.size := by
  unfold placeToken
  have hfold : ∀ (l : List SeqId) (c : KvCells),
      (l.foldl (fun c s => c.seqAdd idx s) c).size = c.size := fun l =>
    foldl_read_of_not_cover (fun (c : KvCells) s => c.seqAdd idx s) KvCells.size
      (l := l) fun _ _ _ => rfl
  refine (hfold _ _).trans ?_
  change (if c.IsEmpty idx then c else c.rm idx).size = c.size
  split <;> rfl

lemma emplaceAll_sized (h : k.Sized cfg) (si : SlotInfo) (u : UBatch) :
    (emplaceAll cfg k si u).1.Sized cfg := by
  rw [emplaceAll_eq]
  refine List.foldlRecOn si.entries _
    (motive := fun r : KvCache × (SeqId → ℤ) => r.1.Sized cfg) h fun r hr e _ => ?_
  intro st
  by_cases hst : st = e.st
  · rw [hst]
    exact (congrArg KvCells.size (setCells_self ..)).trans ((placeToken_size ..).trans (hr _))
  · exact (congrArg KvCells.size (setCells_of_ne hst ..)).trans (hr st)

lemma names_iff_entry (hfit : SlotFits n si u) {st j : ℕ} :
    si.Names st j ↔ ∃ e ∈ si.entries, e.st = st ∧ e.idx = j := by
  constructor
  · rintro ⟨s, hs, rfl, hj⟩
    obtain ⟨ii, hii, rfl⟩ := List.getElem_of_mem hj
    have hlt : ii < si.size := hfit.length s hs ▸ hii
    refine ⟨⟨si.stream s, (si.cellIdxs s).getD ii 0, s * si.size + ii⟩, ?_, rfl,
      List.getD_eq_getElem _ _ hii⟩
    exact List.mem_flatMap.2 ⟨s, List.mem_range.2 hs,
      List.mem_map.2 ⟨ii, List.mem_range.2 hlt, rfl⟩⟩
  · rintro ⟨e, he, rfl, rfl⟩
    obtain ⟨s, hs, he⟩ := List.mem_flatMap.1 he
    obtain ⟨ii, hii, rfl⟩ := List.mem_map.1 he
    rw [List.mem_range] at hs hii
    obtain ⟨hlt, heq⟩ := hfit.getD_eq hs hii
    exact ⟨s, hs, rfl, heq ▸ List.getElem_mem hlt⟩

/-- `apply_ubatch`: a cell of the slot holds what is left of its token, another cell what is left
of it. -/
lemma applyUbatch_cell (h : k.Sized cfg) (hfit : SlotFits cfg.kvSize si u) (st j : ℕ) :
    (∃ i < u.nTokens, si.Names st j ∧
      ((k.cell st j).place u i).Fades ((k.applyUbatch cfg si u).cell st j)) ∨
    ¬ si.Names st j ∧ (k.cell st j).Fades ((k.applyUbatch cfg si u).cell st j) := by
  have hspec := emplaceAll_spec cfg k hfit
  have hfades := (purge_fades (emplaceAll_sized h si u) (emplaceAll cfg k si u).2).2 st j
  have hcell : (k.applyUbatch cfg si u).cell
      = (purge cfg (emplaceAll cfg k si u).2 (emplaceAll cfg k si u).1).cell :=
    cell_of_cells (moveHeads_cells _ _)
  rw [hcell]
  by_cases hnames : si.Names st j
  · obtain ⟨e, he, rfl, rfl⟩ := (names_iff_entry hfit).1 hnames
    rw [hspec.token e he] at hfades
    exact .inl ⟨e.tok, (hfit.entry_lt he).2, hnames, hfades⟩
  · rw [hspec.frame st j fun e he heq => hnames ((names_iff_entry hfit).2 ⟨e, he, heq⟩)] at hfades
    exact .inr ⟨hnames, hfades⟩

lemma applyUbatch_sized (h : k.Sized cfg) (si : SlotInfo) (u : UBatch) :
    (k.applyUbatch cfg si u).Sized cfg := by
  intro st
  have hcells : (k.applyUbatch cfg si u).cells
      = (purge cfg (emplaceAll cfg k si u).2 (emplaceAll cfg k si u).1).cells :=
    moveHeads_cells _ _
  rw [hcells]
  exact (purge_fades (emplaceAll_sized h si u) _).1 st

lemma restore_sized (hfit : SlotFits n si u) (h : k.Sized cfg) (k₀ : KvCache) :
    (restore k (k₀.save si)).Sized cfg := by
  intro st
  have hset := restore_streams hfit k k₀
  by_cases hst : ∃ s < si.nStream, si.stream s = st
  · obtain ⟨s, hs, rfl⟩ := hst
    rw [hset.cells s hs]
    exact (KvCells.set_cp_size ..).trans (h _)
  · rw [hset.other st fun s hs heq => hst ⟨s, hs, heq⟩]
    exact h st

/-- `prepare` only takes something out of cells. -/
theorem prepare_fades : ∀ (us : List UBatch) (k : KvCache), k.Sized cfg →
    (∀ u ∈ us, u.Placeable cfg) →
    (k.prepare cfg us).1.Sized cfg ∧ Fades k (k.prepare cfg us).1 := by
  intro us
  induction us with
  | nil => exact fun k h _ => ⟨h, .refl k⟩
  | cons u us ih =>
    intro k h hus
    obtain ⟨hu, hus'⟩ := List.forall_mem_cons.1 hus
    rw [prepare_cons]
    cases hslot : findSlot cfg k u false with
    | none => exact ⟨h, .refl k⟩
    | some si =>
      have hfit := findSlot_fits h hu hslot
      obtain ⟨hsize, hfades⟩ := ih _ (applyUbatch_sized h si u) hus'
      refine ⟨restore_sized hfit hsize k, fun st j => ?_⟩
      rw [restore_cell hfit]
      rcases applyUbatch_cell h hfit st j with ⟨i, -, hnames, happly⟩ | ⟨hnames, happly⟩
      · rw [if_pos hnames]
        refine .inr ⟨rfl, ?_, Finset.Subset.refl _⟩
        have hplace : ((k.cell st j).place u i).shift = (k.cell st j).shift ∨
            ((k.cell st j).place u i).shift = 0 := by
          unfold Cell.place
          split
          · exact .inl rfl
          · exact .inr rfl
        rcases (happly.trans (hfades st j)).shift with hshift | hshift
        · exact hplace.imp hshift.trans hshift.trans
        · exact .inr hshift
      · rw [if_neg hnames]
        exact happly.trans (hfades st j)

/-! ## What `prepare` keeps -/

lemma applyUbatch_shift (h : k.Ok cfg) (hfit : SlotFits cfg.kvSize si u) {st j : ℕ}
    (hnames : si.Names st j) : ((k.applyUbatch cfg si u).cell st j).shift = 0 := by
  rcases applyUbatch_cell h.sized hfit st j with ⟨i, -, -, hfades⟩ | ⟨hno, -⟩
  · obtain ⟨s, hs, -, hj⟩ := hnames
    have hempty : (k.cell st j).pos = -1 → (k.cell st j).shift = 0 ∧ (k.cell st j).seq = ∅ :=
      fun hpos => ((h st).cleared (hfit.lt s hs j hj) hpos).symm
    rw [Cell.place_eq_token hempty] at hfades
    exact hfades.shift.elim (fun h => h) fun h => h
  · exact absurd hnames hno

/-- `prepare` keeps the invariant of the cells. -/
theorem Ok.prepare : ∀ (us : List UBatch) {k : KvCache}, k.Ok cfg →
    (∀ u ∈ us, u.Placeable cfg ∧ u.Proper) → (k.prepare cfg us).1.Ok cfg := by
  intro us
  induction us with
  | nil => exact fun h _ => h
  | cons u us ih =>
    intro k h hus
    obtain ⟨⟨hu, hproper⟩, hus'⟩ := List.forall_mem_cons.1 hus
    rw [prepare_cons]
    cases hslot : findSlot cfg k u false with
    | none => exact h
    | some si =>
      have hfit := findSlot_fits h.sized hu hslot
      have hok := h.applyUbatch hfit hproper
      refine restore_ok hfit (ih hok hus') h fun st j hnames => ?_
      have hfades := (prepare_fades us _ hok.sized fun u hu => (hus' u hu).1).2 st j
      rcases hfades.shift with hshift | hshift
      · exact hshift.trans (applyUbatch_shift h hfit hnames)
      · exact hshift

/-- The slots that `prepare` returns fit their ubatches. -/
theorem prepare_fits : ∀ (us : List UBatch) {k : KvCache} {sis : List SlotInfo}, k.Sized cfg →
    (∀ u ∈ us, u.Placeable cfg) → (k.prepare cfg us).2 = some sis →
    List.Forall₂ (fun si u => SlotFits cfg.kvSize si u) sis us := by
  intro us
  induction us with
  | nil =>
    rintro k sis _ _ ⟨⟩
    exact .nil
  | cons u us ih =>
    intro k sis h hus heq
    obtain ⟨hu, hus'⟩ := List.forall_mem_cons.1 hus
    rw [prepare_cons] at heq
    cases hslot : findSlot cfg k u false with
    | none =>
      rw [hslot] at heq
      cases heq
    | some si =>
      rw [hslot] at heq
      obtain ⟨rest, hrest, rfl⟩ := Option.map_eq_some_iff.1 heq
      exact .cons (findSlot_fits h hu hslot) (ih (applyUbatch_sized h si u) hus' hrest)

end KvCache

end IFairy
