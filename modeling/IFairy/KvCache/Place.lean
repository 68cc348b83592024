import IFairy.KvCache.SlotSpec

/-!
# What `apply_ubatch` does

Placing the tokens of an ubatch overwrites exactly the cells of a slot that fits
(`emplaceAll_spec`) and records for every sequence the largest position that was overwritten.  The
purge then takes a sequence out of every cell of its stream whose position is at or below that
record (`purge_cell`), and the heads move behind the slot.  The invariant of the cells is kept for
ubatches whose tokens have a position and list no sequence twice (`UBatch.Proper`).
-/

namespace IFairy

/-- Tokens have a position and no token lists a sequence twice. -/
def UBatch.Proper (u : UBatch) : Prop :=
  ∀ i < u.nTokens, (u.seqId i).toList.Nodup ∧ 0 ≤ u.pos i

/-- The sequences of token `i`. -/
def UBatch.seqSet (u : UBatch) (i : ℕ) : Finset SeqId := (u.seqId i).toList.toFinset

/-- The cell of token `i`. -/
def Cell.token (u : UBatch) (i : ℕ) : Cell := ⟨u.pos i, 0, u.seqSet i⟩

/-- The cell after token `i` was put into it; a cell without a position is not cleared before. -/
def Cell.place (x : Cell) (u : UBatch) (i : ℕ) : Cell :=
  if x.pos = -1 then ⟨u.pos i, x.shift, x.seq ∪ u.seqSet i⟩ else .token u i

lemma Cell.place_eq_token {x : Cell} (h : x.pos = -1 → x.shift = 0 ∧ x.seq = ∅) (u : UBatch)
    (i : ℕ) : x.place u i = .token u i := by
  unfold place
  split
  · rename_i hempty
    obtain ⟨hshift, hseq⟩ := h hempty
    rw [hshift, hseq, Finset.empty_union]
    rfl
  · rfl

/-- `seq_get`: the lowest sequence of a cell. -/
def Cell.seqGet (x : Cell) : Option SeqId := (List.finRange llamaMaxSeq).find? (· ∈ x.seq)

/-- Stream, cell and token of one round of the placing loop. -/
structure SlotEntry where
  st : ℕ
  idx : ℕ
  tok : ℕ

/-- The rounds of the placing loop. -/
def SlotInfo.entries (si : SlotInfo) : List SlotEntry :=
  (List.range si.nStream).flatMap fun s => (List.range si.size).map fun ii =>
    ⟨si.stream s, (si.cellIdxs s).getD ii 0, s * si.size + ii⟩

namespace SlotFits

variable {n : ℕ} {si : SlotInfo} {u : UBatch}

lemma getD_eq (h : SlotFits n si u) {s ii : ℕ} (hs : s < si.nStream) (hii : ii < si.size) :
    ∃ hlt : ii < (si.cellIdxs s).length, (si.cellIdxs s).getD ii 0 = (si.cellIdxs s)[ii] := by
  have hlt : ii < (si.cellIdxs s).length := (h.length s hs).symm ▸ hii
  exact ⟨hlt, List.getD_eq_getElem _ _ hlt⟩

lemma entry_lt (h : SlotFits n si u) {e : SlotEntry} (he : e ∈ si.entries) :
    e.idx < n ∧ e.tok < u.nTokens := by
  rw [SlotInfo.entries, List.mem_flatMap] at he
  obtain ⟨s, hs, he⟩ := he
  obtain ⟨ii, hii, rfl⟩ := List.mem_map.1 he
  rw [List.mem_range] at hs hii
  obtain ⟨hlt, heq⟩ := h.getD_eq hs hii
  refine ⟨heq ▸ h.lt s hs _ (List.getElem_mem hlt), ?_⟩
  calc s * si.size + ii < s * si.size + si.size := by omega
    _ = (s + 1) * si.size := (Nat.succ_mul s si.size).symm
    _ ≤ si.nStream * si.size := Nat.mul_le_mul_right _ hs
    _ = u.nTokens := h.tokens

lemma nodup_entries (h : SlotFits n si u) :
    (si.entries.map fun e => (e.st, e.idx)).Nodup := by
  rw [SlotInfo.entries, List.map_flatMap, List.nodup_flatMap]
  constructor
  · intro s hs
    rw [List.mem_range] at hs
    rw [List.map_map]
    refine List.Nodup.map_on (fun a ha b hb hab => ?_) List.nodup_range
    rw [List.mem_range] at ha hb
    obtain ⟨hla, hea⟩ := h.getD_eq hs ha
    obtain ⟨hlb, heb⟩ := h.getD_eq hs hb
    have hidx : (si.cellIdxs s)[a] = (si.cellIdxs s)[b] := by
      rw [← hea, ← heb]
      exact (Prod.mk.inj hab).2
    exact (List.Nodup.getElem_inj_iff (h.nodup s hs)).1 hidx
  · refine List.nodup_range.imp_of_mem fun {s s'} hs hs' hne p hp hp' => ?_
    rw [List.mem_range] at hs hs'
    simp only [List.map_map, List.mem_map] at hp hp'
    obtain ⟨a, -, rfl⟩ := hp
    obtain ⟨b, -, hb⟩ := hp'
    exact hne (h.stream_inj s hs s' hs' (Prod.mk.inj hb).1.symm)

end SlotFits

namespace KvCache

variable {cfg : KvConfig} {n : ℕ} {k : KvCache} {u : UBatch} {si : SlotInfo} {c : KvCells}

/-! ## One token -/

/-- The `seq_add` loop of a token. -/
lemma seqAdd_foldl_cell (idx : ℕ) : ∀ (l : List SeqId) (c : KvCells),
    (l.foldl (fun c s => c.seqAdd idx s) c).cell
      = Function.update c.cell idx { c.cell idx with seq := c.seq idx ∪ l.toFinset } := by
  intro l
  induction l with
  | nil =>
    intro c
    rw [List.foldl_nil, List.toFinset_nil, Finset.union_empty]
    exact (Function.update_eq_self ..).symm
  | cons s l ih =>
    intro c
    have hseq : (c.seqAdd idx s).seq idx = insert s (c.seq idx) := Function.update_self ..
    rw [List.foldl_cons, ih, KvCells.seqAdd_cell, Function.update_idem, Function.update_self, hseq,
      List.toFinset_cons, Finset.insert_union, Finset.union_insert]
    rfl

lemma seqAdd_foldl_ok {idx : ℕ} (hidx : idx < n) :
    ∀ (l : List SeqId) (c : KvCells), l.Nodup → c.Ok n → c.pos idx ≠ -1 →
      (∀ s ∈ l, s ∉ c.seq idx) → (l.foldl (fun c s => c.seqAdd idx s) c).Ok n := by
  intro l
  induction l with
  | nil => exact fun c _ hok _ _ => hok
  | cons s l ih =>
    intro c hnd hok hpos hfresh
    obtain ⟨hs, hl⟩ := List.nodup_cons.1 hnd
    have hok' := hok.seqAdd hidx hpos (hfresh s List.mem_cons_self)
    have hseq : (c.seqAdd idx s).seq idx = insert s (c.seq idx) := Function.update_self ..
    refine ih (c.seqAdd idx s) hl hok' hpos fun t ht => ?_
    rw [hseq, Finset.mem_insert, not_or]
    exact ⟨fun hts => hs (hts ▸ ht), hfresh t (List.mem_cons_of_mem _ ht)⟩

lemma placeToken_cell (u : UBatch) (idx i : ℕ) (c : KvCells) :
    (placeToken u idx i c).cell = Function.update c.cell idx ((c.cell idx).place u i) := by
  unfold placeToken
  refine (seqAdd_foldl_cell idx _ _).trans ?_
  rw [KvCells.posSet_cell, Function.update_idem, Function.update_self]
  by_cases hempty : c.IsEmpty idx
  · rw [if_pos hempty, Cell.place, if_pos (show (c.cell idx).pos = -1 from hempty)]
    rfl
  · rw [if_neg hempty, Cell.place, if_neg (show ¬ (c.cell idx).pos = -1 from hempty),
      KvCells.rm_cell, Function.update_idem, Function.update_self]
    congr 1
    change Cell.mk (u.pos i) 0 ((c.rm idx).seq idx ∪ _) = _
    rw [KvCells.rm_seq, Function.update_self, Finset.empty_union]
    rfl

lemma placeToken_ok {idx i : ℕ} (h : c.Ok n) (hidx : idx < n) (hnd : (u.seqId i).toList.Nodup)
    (hpos : 0 ≤ u.pos i) : (placeToken u idx i c).Ok n := by
  unfold placeToken
  obtain ⟨d, hd, hok, hempty⟩ : ∃ d, (if c.IsEmpty idx then c else c.rm idx) = d ∧ d.Ok n ∧
      d.pos idx = -1 := by
    by_cases hempty : c.IsEmpty idx
    · exact ⟨c, if_pos hempty, h, hempty⟩
    · exact ⟨c.rm idx, if_neg hempty, h.rm hidx, Function.update_self ..⟩
  rw [hd]
  have hp : (d.posSet idx (u.pos i)).pos idx = u.pos i := Function.update_self ..
  refine seqAdd_foldl_ok hidx _ _ hnd (hok.posSet hidx hempty hpos) (by omega) fun s _ hs => ?_
  rw [KvCells.posSet_seq, (hok.cleared hidx hempty).1] at hs
  exact Finset.notMem_empty s hs

/-! ## All tokens -/

/-- What placing the tokens of the rounds `L` does to the cache and to `seq_pos_max_rm`. -/
structure Emplaced (cfg : KvConfig) (u : UBatch) (L : List SlotEntry) (k : KvCache)
    (max0 : SeqId → ℤ) (r : KvCache × (SeqId → ℤ)) : Prop where
  rest : r.1 = { k with cells := r.1.cells }
  hasShift : ∀ st, (r.1.cells st).hasShift = (k.cells st).hasShift
  token : ∀ e ∈ L, r.1.cell e.st e.idx = (k.cell e.st e.idx).place u e.tok
  frame : ∀ st j, (∀ e ∈ L, ¬ (e.st = st ∧ e.idx = j)) → r.1.cell st j = k.cell st j
  le_max : ∀ t, max0 t ≤ r.2 t
  pos_le_max : ¬ cfg.PrefixSliding → ∀ e ∈ L, ∀ t, (k.cell e.st e.idx).pos ≠ -1 →
    (k.cell e.st e.idx).seqGet = some t → (k.cell e.st e.idx).pos ≤ r.2 t
  max_attained : ∀ t, r.2 t = max0 t ∨ ∃ e ∈ L, (k.cell e.st e.idx).pos ≠ -1 ∧
    (k.cell e.st e.idx).seqGet = some t ∧ (k.cell e.st e.idx).pos = r.2 t

lemma placeToken_hasShift (u : UBatch) (idx i : ℕ) (c : KvCells) :
    (placeToken u idx i c).hasShift = c.hasShift := by
  unfold placeToken
  have hfold : ∀ (l : List SeqId) (c : KvCells),
      (l.foldl (fun c s => c.seqAdd idx s) c).hasShift = c.hasShift := fun l =>
    foldl_read_of_not_cover (fun (c : KvCells) s => c.seqAdd idx s) KvCells.hasShift
      (l := l) fun _ _ _ => rfl
  refine (hfold _ _).trans ?_
  change (if c.IsEmpty idx then c else c.rm idx).hasShift = c.hasShift
  split <;> rfl

lemma notePurge_of_prefix (h : cfg.PrefixSliding) (c : KvCells) (idx : ℕ) (m : SeqId → ℤ) :
    notePurge cfg c idx m = m := by
  unfold notePurge
  split
  · rfl
  · rw [if_pos h]

lemma notePurge_of_seqGet (h : ¬ cfg.PrefixSliding) {c : KvCells} {idx : ℕ} {t : SeqId}
    (hget : (c.cell idx).seqGet = some t) (m : SeqId → ℤ) :
    notePurge cfg c idx m = Function.update m t (max (m t) (c.pos idx)) := by
  have hget' : c.seqGet idx = some t := hget
  rw [notePurge, hget']
  exact if_neg h

lemma notePurge_cases (cfg : KvConfig) (c : KvCells) (idx : ℕ) (m : SeqId → ℤ) (t : SeqId) :
    notePurge cfg c idx m t = m t ∨
      (c.cell idx).seqGet = some t ∧ notePurge cfg c idx m t = max (m t) (c.pos idx) := by
  by_cases hp : cfg.PrefixSliding
  · exact .inl (congrFun ( notePurge_of_prefix hp c idx m) t)
  · cases hget : (c.cell idx).seqGet with
    | none =>
      have hget' : c.seqGet idx = none := hget
      refine .inl ?_
      rw [notePurge, hget']
    | some t' =>
      rw [notePurge_of_seqGet hp hget]
      by_cases ht : t = t'
      · subst ht
        exact .inr ⟨rfl, Function.update_self ..⟩
      · exact .inl (Function.update_of_ne ht ..)

lemma emplace_spec (cfg : KvConfig) (u : UBatch) (k : KvCache) (e : SlotEntry)
    (m : SeqId → ℤ) : Emplaced cfg u [e] k m (emplace cfg u e.st e.idx e.tok (k, m)) := by
  have hcell := placeToken_cell u e.idx e.tok (k.cells e.st)
  have hget : ∀ st j, (emplace cfg u e.st e.idx e.tok (k, m)).1.cell st j
      = if st = e.st then (placeToken u e.idx e.tok (k.cells e.st)).cell j else k.cell st j :=
    cell_setCells k e.st _
  refine ⟨rfl, fun st => ?_, ?_, ?_, fun t => ?_, ?_, fun t => ?_⟩
  · by_cases hst : st = e.st
    · rw [hst]
      exact (congrArg KvCells.hasShift (setCells_self ..)).trans (placeToken_hasShift ..)
    · exact congrArg KvCells.hasShift (setCells_of_ne hst ..)
  · intro e' he'
    obtain rfl := List.mem_singleton.1 he'
    rw [hget, if_pos rfl, hcell, Function.update_self]
    rfl
  · intro st j hne
    rw [hget]
    by_cases hst : st = e.st
    · have hj : j ≠ e.idx := fun hj => hne e List.mem_cons_self ⟨hst.symm, hj.symm⟩
      rw [if_pos hst, hcell, Function.update_of_ne hj, hst]
      rfl
    · rw [if_neg hst]
  · change m t ≤ (if (k.cells e.st).IsEmpty e.idx then m else notePurge cfg _ e.idx m) t
    split
    · exact le_rfl
    · rcases notePurge_cases cfg (k.cells e.st) e.idx m t with heq | ⟨-, heq⟩
      · exact heq.ge
      · rw [heq]
        exact le_max_left _ _
  · intro hp e' he' t hne hseq
    obtain rfl := List.mem_singleton.1 he'
    change _ ≤ (if (k.cells e'.st).IsEmpty e'.idx then m else notePurge cfg _ e'.idx m) t
    rw [if_neg (show ¬ (k.cells e'.st).IsEmpty e'.idx from hne), notePurge_of_seqGet hp hseq,
      Function.update_self]
    exact le_max_right _ _
  · change (if (k.cells e.st).IsEmpty e.idx then m else notePurge cfg _ e.idx m) t = m t ∨ _
    by_cases hempty : (k.cells e.st).IsEmpty e.idx
    · exact .inl (by rw [if_pos hempty])
    · rcases notePurge_cases cfg (k.cells e.st) e.idx m t with heq | ⟨hseq, heq⟩
      · exact .inl (by rw [if_neg hempty, heq])
      · rcases max_choice (m t) ((k.cells e.st).pos e.idx) with hmax | hmax
        · exact .inl (by rw [if_neg hempty, heq, hmax])
        · refine .inr ⟨e, List.mem_cons_self, hempty, hseq, ?_⟩
          change _ = (if (k.cells e.st).IsEmpty e.idx then m else notePurge cfg _ e.idx m) t
          rw [if_neg hempty, heq, hmax]
          rfl

lemma emplaced_foldl : ∀ (L : List SlotEntry) (k : KvCache) (m : SeqId → ℤ),
    (L.map fun e => (e.st, e.idx)).Nodup →
    Emplaced cfg u L k m (L.foldl (fun r e => emplace cfg u e.st e.idx e.tok r) (k, m)) := by
  intro L
  induction L with
  | nil =>
    intro k m _
    exact ⟨rfl, fun _ => rfl, fun _ he => absurd he List.not_mem_nil, fun _ _ _ => rfl,
      fun _ => le_rfl, fun _ _ he => absurd he List.not_mem_nil, fun _ => .inl rfl⟩
  | cons e L ih =>
    intro k m hnd
    obtain ⟨hfresh, hnd'⟩ := List.nodup_cons.1 hnd
    have h1 := emplace_spec cfg u k e m
    set r := emplace cfg u e.st e.idx e.tok (k, m) with hr
    have h2 := ih r.1 r.2 hnd'
    -- the later rounds find their cells as they were before the first round
    have hsame : ∀ e' ∈ L, r.1.cell e'.st e'.idx = k.cell e'.st e'.idx := by
      intro e' he'
      refine h1.frame _ _ fun e'' he'' hsame => hfresh (List.mem_map.2 ⟨e', he', ?_⟩)
      rw [List.mem_singleton.1 he''] at hsame
      exact Prod.ext hsame.1.symm hsame.2.symm
    have hrest : (L.foldl (fun r e => emplace cfg u e.st e.idx e.tok r) r).1
        = { k with cells := (L.foldl (fun r e => emplace cfg u e.st e.idx e.tok r) r).1.cells } := by
      refine h2.rest.trans ?_
      apply KvCache.ext
      · rfl
      · change r.1.heads = k.heads
        rw [h1.rest]
      · change r.1.prefixEnd = k.prefixEnd
        rw [h1.rest]
      · change r.1.scInfo = k.scInfo
        rw [h1.rest]
      · change r.1.data = k.data
        rw [h1.rest]
    refine ⟨hrest, fun st => (h2.hasShift st).trans
      (h1.hasShift st), ?_, ?_, fun t => (h1.le_max t).trans (h2.le_max t), ?_, ?_⟩
    · intro e' he'
      rcases List.mem_cons.1 he' with rfl | he'
      · rw [List.foldl_cons, h2.frame e'.st e'.idx fun e'' he'' hsame' =>
          hfresh (List.mem_map.2 ⟨e'', he'', Prod.ext hsame'.1 hsame'.2⟩)]
        exact h1.token e' List.mem_cons_self
      · rw [← hsame e' he']
        exact h2.token e' he'
    · intro st j hne
      rw [List.foldl_cons, h2.frame st j fun e' he' => hne e' (List.mem_cons_of_mem _ he')]
      refine h1.frame st j fun e' he' => ?_
      obtain rfl := List.mem_singleton.1 he'
      exact hne e' List.mem_cons_self
    · intro hp e' he' t hne hseq
      rcases List.mem_cons.1 he' with rfl | he'
      · exact (h1.pos_le_max hp e' List.mem_cons_self t hne hseq).trans (h2.le_max t)
      · rw [← hsame e' he'] at hne hseq ⊢
        exact h2.pos_le_max hp e' he' t hne hseq
    · intro t
      rcases h2.max_attained t with heq | ⟨e', he', hne, hseq, heq⟩
      · rcases h1.max_attained t with heq' | ⟨e', he', hne, hseq, heq'⟩
        · exact .inl (heq.trans heq')
        · obtain rfl := List.mem_singleton.1 he'
          exact .inr ⟨e', List.mem_cons_self, hne, hseq, heq'.trans heq.symm⟩
      · rw [hsame e' he'] at hne hseq heq
        exact .inr ⟨e', List.mem_cons_of_mem _ he', hne, hseq, heq⟩

lemma emplaceAll_eq (cfg : KvConfig) (k : KvCache) (si : SlotInfo) (u : UBatch) :
    emplaceAll cfg k si u
      = si.entries.foldl (fun r e => emplace cfg u e.st e.idx e.tok r) (k, fun _ => -1) := by
  rw [SlotInfo.entries, List.foldl_flatMap]
  simp only [List.foldl_map]
  rfl

/-- The placing loop of `apply_ubatch`. -/
theorem emplaceAll_spec (cfg : KvConfig) (k : KvCache) (hfit : SlotFits n si u) :
    Emplaced cfg u si.entries k (fun _ => -1) (emplaceAll cfg k si u) := by
  rw [emplaceAll_eq]
  exact emplaced_foldl _ k _ hfit.nodup_entries

lemma emplaceAll_ok (h : k.Ok cfg) (hfit : SlotFits cfg.kvSize si u) (hu : u.Proper) :
    (emplaceAll cfg k si u).1.Ok cfg := by
  rw [emplaceAll_eq]
  refine List.foldlRecOn si.entries _ (motive := fun r : KvCache × (SeqId → ℤ) => r.1.Ok cfg) h fun r hr e he => ?_
  obtain ⟨hidx, htok⟩ := hfit.entry_lt he
  obtain ⟨hids, hpos⟩ := hu e.tok htok
  exact hr.setCells (placeToken_ok (hr e.st) hidx hids hpos)

end KvCache

/-! ## The purge -/

namespace Cell

/-- Keep the sequences that satisfy `P`; a cell that loses its last sequence is empty. -/
def keepOnly (x : Cell) (P : SeqId → Prop) [DecidablePred P] : Cell :=
  if x.seq.filter P = ∅ ∧ x.seq ≠ ∅ then empty else { x with seq := x.seq.filter P }

variable {x : Cell} {P Q : SeqId → Prop} [DecidablePred P] [DecidablePred Q]

lemma keepOnly_seq : (x.keepOnly P).seq = x.seq.filter P := by
  unfold keepOnly
  split
  · rename_i h
    exact h.1.symm
  · rfl

lemma keepOnly_of_forall (h : ∀ s ∈ x.seq, P s) : x.keepOnly P = x := by
  have hall : x.seq.filter P = x.seq := Finset.filter_true_of_mem h
  unfold keepOnly
  rw [hall, if_neg fun hx => hx.2 hx.1]

lemma keepOnly_congr (h : ∀ s ∈ x.seq, P s ↔ Q s) : x.keepOnly P = x.keepOnly Q := by
  have hfilter : x.seq.filter P = x.seq.filter Q := Finset.filter_congr h
  unfold keepOnly
  rw [hfilter]

lemma keepOnly_eq_empty (h : x.seq.filter P = ∅) (hne : x.seq ≠ ∅) : x.keepOnly P = empty :=
  if_pos ⟨h, hne⟩

lemma keepOnly_eq_self_with (h : ¬ (x.seq.filter P = ∅ ∧ x.seq ≠ ∅)) :
    x.keepOnly P = { x with seq := x.seq.filter P } := if_neg h

lemma keepOnly_empty : empty.keepOnly P = empty := keepOnly_of_forall fun _ hs =>
  absurd hs (Finset.notMem_empty _)

lemma keepOnly_keepOnly :
    (x.keepOnly P).keepOnly Q = x.keepOnly fun s => P s ∧ Q s := by
  have hfilter : (x.seq.filter P).filter Q = x.seq.filter fun s => P s ∧ Q s :=
    Finset.filter_filter ..
  by_cases hx : x.seq.filter P = ∅ ∧ x.seq ≠ ∅
  · have hQ : (x.seq.filter fun s => P s ∧ Q s) = ∅ := by
      rw [← hfilter, hx.1, Finset.filter_empty]
    rw [keepOnly_eq_empty hx.1 hx.2, keepOnly_empty, keepOnly_eq_empty hQ hx.2]
  · rw [keepOnly_eq_self_with hx]
    by_cases hQ : (x.seq.filter fun s => P s ∧ Q s) = ∅ ∧ x.seq ≠ ∅
    · have hne : x.seq.filter P ≠ ∅ := fun h => hx ⟨h, hQ.2⟩
      rw [keepOnly_eq_empty hQ.1 hQ.2, keepOnly_eq_empty (hfilter.trans hQ.1) hne]
    · rw [keepOnly_eq_self_with hQ, keepOnly_eq_self_with]
      · exact congrArg (Cell.mk x.pos x.shift) hfilter
      · rintro ⟨hempty, hne⟩
        refine hQ ⟨hfilter.symm.trans hempty, fun h => hne ?_⟩
        change x.seq.filter P = ∅
        rw [h, Finset.filter_empty]

lemma rmSeq_eq_keepOnly {s : SeqId} (hs : s ∈ x.seq) : x.rmSeq s = x.keepOnly (· ≠ s) := by
  have herase : x.seq.erase s = x.seq.filter (· ≠ s) := by
    ext t
    rw [Finset.mem_erase, Finset.mem_filter, and_comm]
  have hne : x.seq ≠ ∅ := Finset.ne_empty_of_mem hs
  unfold rmSeq keepOnly
  rw [herase]
  simp only [hne, ne_eq, not_false_eq_true, and_true]

end Cell

namespace KvCache

variable {cfg : KvConfig} {k : KvCache} {u : UBatch} {si : SlotInfo} {maxRm : SeqId → ℤ}

/-- What the purge leaves alone: everything but cells and heads. -/
structure SameRest (k k' : KvCache) : Prop where
  prefixEnd : k'.prefixEnd = k.prefixEnd
  scInfo : k'.scInfo = k.scInfo
  data : k'.data = k.data
  hasShift : ∀ st, (k'.cells st).hasShift = (k.cells st).hasShift

lemma SameRest.refl (k : KvCache) : SameRest k k := ⟨rfl, rfl, rfl, fun _ => rfl⟩

lemma SameRest.trans {k₁ k₂ k₃ : KvCache} (h : SameRest k₁ k₂) (h' : SameRest k₂ k₃) :
    SameRest k₁ k₃ :=
  ⟨h'.prefixEnd.trans h.prefixEnd, h'.scInfo.trans h.scInfo, h'.data.trans h.data,
    fun st => (h'.hasShift st).trans (h.hasShift st)⟩

lemma sweepStream_sameRest (k : KvCache) (st : ℕ) {body : KvCells → ℕ → KvCells × Bool}
    (hbody : ∀ c i, (body c i).1.hasShift = c.hasShift) : SameRest k (k.sweepStream st body) := by
  refine ⟨?_, ?_, ?_, fun t => ?_⟩
  · unfold sweepStream
    simp only [apply_ite KvCache.prefixEnd]
    exact ite_self _
  · unfold sweepStream
    simp only [apply_ite KvCache.scInfo]
    exact ite_self _
  · unfold sweepStream
    simp only [apply_ite KvCache.data]
    exact ite_self _
  · rw [sweepStream_cells]
    by_cases ht : t = st
    · rw [ht, Function.update_self]
      exact sweep_inv (P := fun d => d.hasShift = (k.cells st).hasShift)
        (fun d i hd _ => (hbody d i).trans hd) rfl rfl
    · rw [Function.update_of_ne ht]

/-- A `seq_rm` of a range that does not reach to the end touches only cells and heads, when
prefix sliding is off. -/
lemma seqRm_sameRest (hp : ¬ cfg.PrefixSliding) (k : KvCache) (s : SeqId) (p0 : ℤ) {p1 : ℤ}
    (hp1 : 0 ≤ p1) : SameRest k (k.seqRm cfg (some s) p0 p1) := by
  have hall : ¬ (p0 ≤ 0 ∧ p1 < 0) := fun h => absurd h.2 (not_lt.2 hp1)
  simp only [KvCache.seqRm, hp, hall, if_false, false_and]
  refine sweepStream_sameRest k _ fun c i => ?_
  split
  · exact KvCells.seqRm_hasShift c i s
  · rfl

lemma purgeSeq_cell (h : k.Ok cfg) (s : SeqId) (hmax : -1 ≤ maxRm s) {t j : ℕ}
    (hj : j < cfg.kvSize) :
    (purgeSeq cfg maxRm k s).cell t j = (k.cell t j).keepOnly fun s' =>
      ¬ (s' = s ∧ t = cfg.seqToStream s ∧ (k.cell t j).pos ≤ maxRm s) := by
  have hpos : ∀ t j, j < cfg.kvSize → s ∈ (k.cell t j).seq → 0 ≤ (k.cell t j).pos :=
    fun t j hj hs => (h t).pos_nonneg hj hs
  have hkeep : ¬ (t = cfg.seqToStream s ∧ s ∈ (k.cell t j).seq ∧ (k.cell t j).pos ≤ maxRm s) →
      k.cell t j = (k.cell t j).keepOnly fun s' =>
        ¬ (s' = s ∧ t = cfg.seqToStream s ∧ (k.cell t j).pos ≤ maxRm s) := by
    intro hnot
    symm
    apply Cell.keepOnly_of_forall
    rintro s' hs' ⟨rfl, ht, hle⟩
    exact hnot ⟨ht, hs', hle⟩
  unfold purgeSeq
  by_cases hnone : maxRm s = -1
  · rw [if_pos hnone]
    refine hkeep fun hcond => ?_
    have := hpos t j hj hcond.2.1
    omega
  · rw [if_neg hnone]
    set pMin := (k.cells (cfg.seqToStream s)).seqPosMin s with hmin
    have hleast : ∀ j < cfg.kvSize, s ∈ (k.cell (cfg.seqToStream s) j).seq →
        pMin ≤ (k.cell (cfg.seqToStream s) j).pos := by
      intro j hj hs
      have hmem : (k.cell (cfg.seqToStream s) j).pos
          ∈ (k.cells (cfg.seqToStream s)).positions s := ⟨j, (h _).lt hj, hs, rfl⟩
      exact ((h _).repInv.seqPosMin_isLeast ⟨_, hmem⟩).2 hmem
    by_cases hle : pMin ≤ maxRm s
    · have hp1 : clampP1 (maxRm s + 1) = maxRm s + 1 := if_neg (by omega)
      rw [if_pos hle, seqRm_some_cell h.sized, hp1]
      by_cases ht : t = cfg.seqToStream s ∧ j < cfg.kvSize
      · obtain ⟨rfl, -⟩ := ht
        rw [if_pos ⟨rfl, hj⟩]
        unfold Cell.onSeq
        by_cases hs : s ∈ (k.cell (cfg.seqToStream s) j).seq
        · have hge := hleast j hj hs
          have hnn := hpos _ j hj hs
          have hclamp : clampP0 pMin ≤ (k.cell (cfg.seqToStream s) j).pos := by
            unfold clampP0
            split <;> omega
          by_cases hpm : (k.cell (cfg.seqToStream s) j).pos ≤ maxRm s
          · have hin : (k.cell (cfg.seqToStream s) j).PosIn (clampP0 pMin) (maxRm s + 1) :=
              ⟨hclamp, by omega⟩
            rw [if_pos ⟨hin, hs⟩]
            change (k.cell (cfg.seqToStream s) j).rmSeq s = _
            rw [Cell.rmSeq_eq_keepOnly hs]
            refine Cell.keepOnly_congr fun s' _ => ?_
            simp [hpm]
          · rw [if_neg fun hc => hpm (by have := hc.1.2; omega)]
            exact hkeep fun hc => hpm hc.2.2
        · rw [if_neg fun hc => hs hc.2]
          exact hkeep fun hc => hs hc.2.1
      · rw [if_neg ht]
        exact hkeep fun hc => ht ⟨hc.1, hj⟩
    · rw [if_neg hle]
      refine hkeep fun hc => hle ?_
      obtain ⟨rfl, hs, hpm⟩ := hc
      exact (hleast j hj hs).trans hpm

lemma purgeSeq_ok (h : k.Ok cfg) (s : SeqId) : (purgeSeq cfg maxRm k s).Ok cfg := by
  simp only [purgeSeq]
  split
  · exact h
  · split
    · exact h.seqRm _ _ _
    · exact h

lemma purgeSeq_sameRest (hp : ¬ cfg.PrefixSliding) (k : KvCache) (s : SeqId)
    (hmax : -1 ≤ maxRm s) : SameRest k (purgeSeq cfg maxRm k s) := by
  simp only [purgeSeq]
  split
  · exact .refl k
  · split
    · exact seqRm_sameRest hp k s _ (by omega)
    · exact .refl k

lemma purge_foldl (hp : ¬ cfg.PrefixSliding) (hmax : ∀ s, -1 ≤ maxRm s) :
    ∀ (L : List SeqId) (k : KvCache), k.Ok cfg →
      (L.foldl (purgeSeq cfg maxRm) k).Ok cfg ∧ SameRest k (L.foldl (purgeSeq cfg maxRm) k) ∧
        ∀ t j, j < cfg.kvSize → (L.foldl (purgeSeq cfg maxRm) k).cell t j =
          (k.cell t j).keepOnly fun s =>
            ¬ (s ∈ L ∧ t = cfg.seqToStream s ∧ (k.cell t j).pos ≤ maxRm s) := by
  intro L
  induction L with
  | nil =>
    intro k h
    refine ⟨h, .refl k, fun t j _ => ?_⟩
    symm
    apply Cell.keepOnly_of_forall
    exact fun s _ hc => List.not_mem_nil hc.1
  | cons s L ih =>
    intro k h
    obtain ⟨hok, hrest, hcell⟩ := ih _ (purgeSeq_ok h s)
    refine ⟨hok, (purgeSeq_sameRest hp k s (hmax s)).trans hrest, fun t j hj => ?_⟩
    rw [List.foldl_cons, hcell t j hj]
    have h1 := purgeSeq_cell h s (hmax s) (t := t) hj
    -- a cell that keeps a sequence keeps its position
    have hpos : ∀ s' ∈ ((purgeSeq cfg maxRm k s).cell t j).seq,
        ((purgeSeq cfg maxRm k s).cell t j).pos = (k.cell t j).pos := by
      intro s' hs'
      rw [h1] at hs' ⊢
      unfold Cell.keepOnly at hs' ⊢
      split
      · rename_i hempty
        rw [if_pos hempty] at hs'
        exact absurd hs' (Finset.notMem_empty s')
      · rfl
    rw [Cell.keepOnly_congr (Q := fun s' =>
      ¬ (s' ∈ L ∧ t = cfg.seqToStream s' ∧ (k.cell t j).pos ≤ maxRm s')) fun s' hs' => by
        rw [hpos s' hs'], h1, Cell.keepOnly_keepOnly]
    refine Cell.keepOnly_congr fun s' _ => ?_
    rw [List.mem_cons]
    by_cases hs : s' = s
    · subst hs
      tauto
    · tauto

/-- The purge of `apply_ubatch`. -/
theorem purge_cell (hp : ¬ cfg.PrefixSliding) (hmax : ∀ s, -1 ≤ maxRm s) (h : k.Ok cfg) {t j : ℕ}
    (hj : j < cfg.kvSize) :
    (purge cfg maxRm k).cell t j = (k.cell t j).keepOnly fun s =>
      ¬ (t = cfg.seqToStream s ∧ (k.cell t j).pos ≤ maxRm s) := by
  rw [purge, if_neg hp, (purge_foldl hp hmax _ k h).2.2 t j hj]
  refine Cell.keepOnly_congr fun s _ => ?_
  simp [List.mem_finRange]

lemma purge_of_prefix (hp : cfg.PrefixSliding) (k : KvCache) : purge cfg maxRm k = k := if_pos hp

lemma purge_ok (hmax : ∀ s, -1 ≤ maxRm s) (h : k.Ok cfg) : (purge cfg maxRm k).Ok cfg := by
  by_cases hp : cfg.PrefixSliding
  · rw [ purge_of_prefix hp]
    exact h
  · rw [purge, if_neg hp]
    exact (purge_foldl hp hmax _ k h).1

lemma purge_sameRest (hmax : ∀ s, -1 ≤ maxRm s) (h : k.Ok cfg) :
    SameRest k (purge cfg maxRm k) := by
  by_cases hp : cfg.PrefixSliding
  · rw [ purge_of_prefix hp]
    exact .refl k
  · rw [purge, if_neg hp]
    exact (purge_foldl hp hmax _ k h).2.1

/-! ## The whole of `apply_ubatch` -/

@[simp] lemma moveHeads_cells (si : SlotInfo) (k : KvCache) :
    (moveHeads si k).cells = k.cells := by
  unfold moveHeads
  refine foldl_read_of_not_cover _ KvCache.cells ?_ k
  exact fun _ _ _ => rfl

lemma moveHeads_sameRest (si : SlotInfo) (k : KvCache) : SameRest k (moveHeads si k) := by
  refine ⟨?_, ?_, ?_, fun st => by rw [moveHeads_cells]⟩
  · refine foldl_read_of_not_cover _ KvCache.prefixEnd ?_ k
    exact fun _ _ _ => rfl
  · refine foldl_read_of_not_cover _ KvCache.scInfo ?_ k
    exact fun _ _ _ => rfl
  · refine foldl_read_of_not_cover _ KvCache.data ?_ k
    exact fun _ _ _ => rfl

/-- `apply_ubatch` keeps the invariant of the cells. -/
theorem Ok.applyUbatch (h : k.Ok cfg) (hfit : SlotFits cfg.kvSize si u) (hu : u.Proper) :
    (k.applyUbatch cfg si u).Ok cfg := by
  have hspec := emplaceAll_spec cfg k hfit
  exact (purge_ok hspec.le_max (emplaceAll_ok h hfit hu)).of_cells (moveHeads_cells _ _)

end KvCache

end IFairy
