import IFairy.KvCache.Machine

/-!
# What holds in every run

A step of the machine is a call of the memory API, a decode that is rejected, cannot be split or
starts, the application of an ubatch, or the end of a decode (`step_cases`, `decode_cases`,
`api_cases`).  Two invariants of runs follow.  In every run the streams keep their size and the
slots of pending ubatches fit them (`KvMachine.Sound`).  In runs whose steps satisfy
`KvMachine.Keeps` the cells satisfy the representation invariant, so that `seq_pos_min` and
`seq_pos_max` are the true bounds of a sequence (`trueBounds_of_reaches`).
-/

namespace IFairy

namespace KvCache

variable {cfg : KvConfig} {n : ℕ} {k k' : KvCache} {c : KvCells} {us : List UBatch}
  {rope : KvLayer → ℤ → (ℕ → UInt8) → ℕ → UInt8}

/-! ## Sizes -/

lemma seqSetPrefix_cells (k : KvCache) (s : SeqId) (e : ℤ) :
    (k.seqSetPrefix cfg s e).1.cells = k.cells := by
  unfold seqSetPrefix
  split <;> rfl

lemma Sized.seqDiv (h : k.Sized cfg) (s : SeqId) (p0 p1 d : ℤ) :
    (k.seqDiv cfg s p0 p1 d).Sized cfg := by
  simp only [KvCache.seqDiv]
  split_ifs
  · exact h
  · exact h
  · exact h
  · refine h.setCells (sweep_size (fun c i => ?_) (h _))
    split <;> rfl

lemma copyCell_size (src dst : KvCells) (i : ℕ) (t : SeqId) :
    (copyCell src i t dst).size = dst.size := by
  simp only [copyCell]
  split
  · exact KvCells.posAdd_size ..
  · rfl

lemma Sized.seqCp (h : k.Sized cfg) {src dst : SeqId} {p0 p1 : ℤ}
    (heq : k.seqCp cfg src dst p0 p1 = some k') : k'.Sized cfg := by
  simp only [KvCache.seqCp] at heq
  set k1 : KvCache := if cfg.PrefixSliding then _ else k with hk1
  have h1 : k1.Sized cfg := by
    refine h.of_cells ?_
    rw [hk1]
    split <;> rfl
  split_ifs at heq
  · exact Option.some.inj heq ▸ h
  · exact Option.some.inj heq ▸ h1
  · refine Option.some.inj heq ▸ h1.setCells (sweep_size (fun c i => ?_) (h1 _))
    split <;> rfl
  · have hsize : ∀ (l : List ℕ) (dst' : KvCells),
        (l.foldl (fun d i => if src ∈ (k1.cells (cfg.seqToStream src)).seq i then
          copyCell (k1.cells (cfg.seqToStream src)) i dst d else d) dst').size = dst'.size :=
      fun l => foldl_read_of_not_cover _ KvCells.size fun d i _ => by
        split
        · exact copyCell_size ..
        · rfl
    have hdst : (k1.cells (cfg.seqToStream dst)).reset.size = cfg.kvSize := h1 _
    exact Option.some.inj heq ▸ (h1.setCells ((hsize _ _).trans hdst)).of_cells rfl

/-! ## `update` -/

/-- The pending shifts are applied: there are some, and their graph can be computed. -/
def ShiftsApplied (cfg : KvConfig) (k : KvCache) (ok : Bool) : Prop :=
  k.getHasShift cfg = true ∧ (cfg.rope = true → ok = true)

instance (cfg : KvConfig) (k : KvCache) (ok : Bool) : Decidable (k.ShiftsApplied cfg ok) :=
  inferInstanceAs (Decidable (_ ∧ (_ → _)))

lemma foldl_resetShift (k : KvCache) (m : ℕ) :
    (List.range m).foldl (fun k st => k.setCells st (k.cells st).resetShift) k =
      { k with cells := fun st => if st < m then (k.cells st).resetShift else k.cells st } := by
  induction m with
  | zero => rfl
  | succ m ih =>
    rw [List.range_succ, List.foldl_append, ih]
    refine KvCache.ext (funext fun st => ?_) rfl rfl rfl rfl
    change Function.update (fun st => if st < m then (k.cells st).resetShift else k.cells st) m
      (if m < m then (k.cells m).resetShift else k.cells m).resetShift st
        = if st < m + 1 then (k.cells st).resetShift else k.cells st
    by_cases hst : st = m
    · rw [hst, Function.update_self, if_neg (lt_irrefl m), if_pos m.lt_succ_self]
    · have hiff : st < m ↔ st < m + 1 := by omega
      rw [Function.update_of_ne hst]
      simp only [hiff]

/-- `update`: the queue is emptied, and the shifts with it when they are applied. -/
lemma update_eq (rope : KvLayer → ℤ → (ℕ → UInt8) → ℕ → UInt8) (k : KvCache) (ok : Bool) :
    k.update rope cfg ok =
      let d := k.scInfo.foldl KvData.copyStream k.data
      { k with
        scInfo := []
        data := if k.ShiftsApplied cfg ok ∧ cfg.rope = true then KvData.rotate rope cfg k d else d
        cells := fun st => if k.ShiftsApplied cfg ok ∧ st < cfg.nStream then
          (k.cells st).resetShift else k.cells st } := by
  unfold update ShiftsApplied
  by_cases hshift : k.getHasShift cfg = true
  · by_cases hrope : cfg.rope = true
    · by_cases hok : ok = true
      · simp only [hshift, hrope, hok, not_true_eq_false, and_false, if_true, if_false, true_and,
          foldl_resetShift, implies_true]
        rfl
      · simp [hshift, hrope, hok]
    · simp only [hshift, hrope, Bool.false_eq_true, false_and, and_false, if_true, if_false,
        foldl_resetShift, false_implies, true_and, and_true]
  · simp [hshift]

lemma Sized.update (h : k.Sized cfg) (ok : Bool) : (k.update rope cfg ok).Sized cfg := by
  rw [update_eq]
  intro st
  change (if _ then (k.cells st).resetShift else k.cells st).size = _
  split <;> exact h st

lemma Ok.update (h : k.Ok cfg) (ok : Bool) : (k.update rope cfg ok).Ok cfg := by
  rw [update_eq]
  intro st
  change (if _ then (k.cells st).resetShift else k.cells st).Ok _
  split
  · exact (h st).resetShift
  · exact h st

/-! ## The ubatches that `prepare` tries -/

lemma prepareLoop_cons (k : KvCache) (u : UBatch) (us : List UBatch) :
    (prepareLoop cfg k (u :: us)).2.1.length =
      match findSlot cfg k u false with
      | none => 0
      | some si => (prepareLoop cfg (k.applyUbatch cfg si u) us).2.1.length + 1 := by
  cases hslot : findSlot cfg k u false <;> simp [prepareLoop, hslot]

end KvCache

namespace KvMachine

open KvCache

variable {cfg : KvConfig} {k k' : KvCache} {m m' : KvMachine} {op : KvOp}
  {rope : KvLayer → ℤ → (ℕ → UInt8) → ℕ → UInt8}

lemma tried_cons (k : KvCache) (u : UBatch) (us : List UBatch) :
    tried cfg k (u :: us) = u :: match findSlot cfg k u false with
      | none => []
      | some si => tried cfg (k.applyUbatch cfg si u) us := by
  rw [tried, prepareLoop_cons]
  cases findSlot cfg k u false <;> rfl

/-- Only the ubatches that are tried matter to `prepare`. -/
lemma prepare_tried : ∀ (us : List UBatch) (k : KvCache),
    (k.prepare cfg (tried cfg k us)).1 = (k.prepare cfg us).1 ∧
      ((k.prepare cfg us).2 ≠ none → tried cfg k us = us) := by
  intro us
  induction us with
  | nil => exact fun k => ⟨rfl, fun _ => rfl⟩
  | cons u us ih =>
    intro k
    rw [tried_cons, prepare_cons, prepare_cons]
    cases hslot : findSlot cfg k u false with
    | none => exact ⟨rfl, fun h => absurd rfl h⟩
    | some si =>
      obtain ⟨hcache, hall⟩ := ih (k.applyUbatch cfg si u)
      refine ⟨?_, fun h => ?_⟩
      · change restore _ _ = restore _ _
        rw [hcache]
      · refine congrArg (u :: ·) (hall fun hnone => h ?_)
        change Option.map _ _ = none
        rw [hnone, Option.map_none]

/-! ## What a step does -/

/-- The start of a decode: the batch is rejected, or cannot be split, or the ubatches that were
tried satisfy the assertions of `find_slot`. -/
theorem decode_cases {d : DecodeArgs} (h : m.decode rope cfg d = some m') :
    m' = m ∨ ∃ b, d.inp.init d.mem d.nVocab cfg.batchSeqMax d.outputAll = some b ∧
      (m' = { m with cache := m.cache.update rope cfg d.okUpdate } ∨
        ∃ us, splitBatch d.sp d.nUbatch cfg.batchSeqMax d.nEmbd d.nPosPerEmbd b = some us ∧
          (∀ u ∈ tried cfg (m.cache.update rope cfg d.okUpdate) us, SlotAsserts cfg u) ∧
          m'.cache = ((m.cache.update rope cfg d.okUpdate).prepare cfg us).1 ∧
          (m'.todo = [] ∨ ∃ sis, ((m.cache.update rope cfg d.okUpdate).prepare cfg us).2 = some sis ∧
            m'.todo = sis.zip us)) := by
  unfold decode at h
  cases hinit : d.inp.init d.mem d.nVocab cfg.batchSeqMax d.outputAll with
  | none =>
    rw [hinit] at h
    exact .inl (Option.some.inj h).symm
  | some b =>
    rw [hinit] at h
    refine .inr ⟨b, rfl, ?_⟩
    cases hsplit : splitBatch d.sp d.nUbatch cfg.batchSeqMax d.nEmbd d.nPosPerEmbd b with
    | none =>
      simp only [hsplit] at h
      exact .inl (Option.some.inj h).symm
    | some us =>
      simp only [hsplit] at h
      obtain ⟨hasserts, heq⟩ := Option.ite_none_right_eq_some.1 h
      obtain rfl := Option.some.inj heq
      refine .inr ⟨us, rfl, hasserts, rfl, ?_⟩
      cases hprep : ((m.cache.update rope cfg d.okUpdate).prepare cfg us).2 with
      | none => exact .inl rfl
      | some sis => exact .inr ⟨sis, rfl, rfl⟩

theorem api_cases {P : KvOp → KvCache → Prop}
    (clear : ∀ data, P (.clear data) (k.clear cfg data))
    (seqRm : ∀ seqId p0 p1, (∀ s ∈ seqId, idOk cfg s) →
      P (.seqRm seqId p0 p1) (k.seqRm cfg seqId p0 p1))
    (seqCp : ∀ src dst p0 p1 k', idOk cfg src → idOk cfg dst →
      k.seqCp cfg src dst p0 p1 = some k' → P (.seqCp src dst p0 p1) k')
    (seqKeep : ∀ s, idOk cfg s → P (.seqKeep s) (k.seqKeep cfg s))
    (seqSetPrefix : ∀ s e, P (.seqSetPrefix s e) (k.seqSetPrefix cfg s e).1)
    (seqAdd : ∀ s p0 p1 d, idOk cfg s → P (.seqAdd s p0 p1 d) (k.seqAdd cfg s p0 p1 d))
    (seqDiv : ∀ s p0 p1 d, idOk cfg s → P (.seqDiv s p0 p1 d) (k.seqDiv cfg s p0 p1 d))
    (update : ∀ ok, P (.update ok) (k.update rope cfg ok))
    (h : api rope cfg k op = some k') : P op k' := by
  cases op with
  | clear data => exact Option.some.inj h ▸ clear data
  | seqRm seqId p0 p1 =>
    cases seqId with
    | none => exact Option.some.inj h ▸ seqRm none p0 p1 fun s hs => by cases hs
    | some s =>
      obtain ⟨hs, heq⟩ := Option.ite_none_right_eq_some.1 h
      refine Option.some.inj heq ▸ seqRm (some s) p0 p1 ?_
      rintro t ⟨⟩
      exact hs
  | seqCp src dst p0 p1 =>
    obtain ⟨⟨hsrc, hdst⟩, heq⟩ := Option.ite_none_right_eq_some.1 h
    exact seqCp src dst p0 p1 k' hsrc hdst heq
  | seqKeep s =>
    obtain ⟨hs, heq⟩ := Option.ite_none_right_eq_some.1 h
    exact Option.some.inj heq ▸ seqKeep s hs
  | seqSetPrefix s e => exact Option.some.inj h ▸ seqSetPrefix s e
  | seqAdd s p0 p1 d =>
    obtain ⟨hs, heq⟩ := Option.ite_none_right_eq_some.1 h
    exact Option.some.inj heq ▸ seqAdd s p0 p1 d hs
  | seqDiv s p0 p1 d =>
    obtain ⟨hs, heq⟩ := Option.ite_none_right_eq_some.1 h
    exact Option.some.inj heq ▸ seqDiv s p0 p1 d hs
  | update ok => exact Option.some.inj h ▸ update ok
  | decode _ => cases h
  | apply _ _ => cases h
  | abandon => cases h

theorem step_cases {P : KvOp → KvMachine → Prop}
    (decode : ∀ d m', m.todo = [] → m.decode rope cfg d = some m' → P (.decode d) m')
    (apply : ∀ data si u rest, m.todo = (si, u) :: rest →
      P (.apply data true) ⟨m.cache.computed cfg si u data, rest⟩)
    (fail : ∀ data si u rest, m.todo = (si, u) :: rest →
      P (.apply data false) ⟨(m.cache.computed cfg si u data).removeFailed cfg u, []⟩)
    (abandon : P .abandon { m with todo := [] })
    (api : ∀ op k, m.todo = [] → api rope cfg m.cache op = some k → P op { m with cache := k })
    (h : m.step rope cfg op = some m') : P op m' := by
  have hcall : (if m.todo = [] then (KvMachine.api rope cfg m.cache op).map
      fun k => { m with cache := k } else none) = some m' → P op m' := by
    intro h
    obtain ⟨htodo, heq⟩ := Option.ite_none_right_eq_some.1 h
    obtain ⟨k, hk, rfl⟩ := Option.map_eq_some_iff.1 heq
    exact api op k htodo hk
  cases op with
  | decode d =>
    obtain ⟨htodo, heq⟩ := Option.ite_none_right_eq_some.1 h
    exact decode d m' htodo heq
  | apply data ok =>
    have h' : m.apply cfg data ok = some m' := h
    unfold KvMachine.apply at h'
    cases htodo : m.todo with
    | nil =>
      rw [htodo] at h'
      cases h'
    | cons e rest =>
      rw [htodo] at h'
      obtain rfl := Option.some.inj h'
      cases ok with
      | true => exact apply data e.1 e.2 rest htodo
      | false => exact fail data e.1 e.2 rest htodo
  | abandon => exact Option.some.inj h ▸ abandon
  | clear _ => exact hcall h
  | seqRm _ _ _ => exact hcall h
  | seqCp _ _ _ _ => exact hcall h
  | seqKeep _ => exact hcall h
  | seqSetPrefix _ _ => exact hcall h
  | seqAdd _ _ _ _ => exact hcall h
  | seqDiv _ _ _ _ => exact hcall h
  | update _ => exact hcall h

end KvMachine

/-! ## The ubatches of a batch -/

/-- An ubatch whose tokens are tokens of batch `b`. -/
structure UBatch.Of (b : Batch) (nSeqMax : ℕ) (u : UBatch) : Prop where
  nTokens_pos : 0 < u.nTokens
  increasing : u.seqIdUnq.Pairwise (· < ·)
  mem_seqIdUnq : ∀ s, s ∈ u.seqIdUnq ↔ s.val < nSeqMax ∧ ∃ i < u.nTokens, s ∈ u.seqSet i
  row : ∀ i < u.nTokens, ∃ row < b.nTokens, u.pos i = b.pos row ∧ u.seqId i = b.seqId row

/-- Every token of the batch has a position and lists no sequence twice. -/
def Batch.Proper (b : Batch) : Prop :=
  ∀ i < b.nTokens, (b.seqId i).toList.Nodup ∧ 0 ≤ b.pos i

namespace UBatch.Of

variable {b : Batch} {nSeqMax : ℕ} {u : UBatch} {cfg : KvConfig}

lemma placeable (h : u.Of b nSeqMax) (hassert : KvCache.SlotAsserts cfg u) : u.Placeable cfg :=
  ⟨h.nTokens_pos, hassert, h.increasing.imp ne_of_lt⟩

lemma proper (h : u.Of b nSeqMax) (hb : b.Proper) : u.Proper := by
  intro i hi
  obtain ⟨row, hrow, hpos, hseq⟩ := h.row i hi
  rw [hpos, hseq]
  exact hb row hrow

end UBatch.Of

/-- The ubatches of `init_batch`. -/
theorem splitBatch_of {sp : Splitter} {nUbatch nSeqMax nEmbd nPosPerEmbd : ℕ} {b : Batch}
    {us : List UBatch} (h : splitBatch sp nUbatch nSeqMax nEmbd nPosPerEmbd b = some us) :
    ∀ u ∈ us, u.Of b nSeqMax := by
  obtain ⟨-, rfl⟩ := BatchAllocr.splitBatch_eq_some_iff.1 h
  refine BatchAllocr.forall_splitRun sp nUbatch nSeqMax nEmbd nPosPerEmbd b ?_
  rintro a idxs nSeqs equalSeqs rfl rfl hchosen
  have hrows := BatchAllocr.take_rows a idxs nSeqs equalSeqs
  refine ⟨List.length_pos_of_ne_nil hchosen.ne_nil, BatchAllocr.take_seqIdUnq_increasing .., ?_,
    fun i hi => ?_⟩
  · intro s
    rw [BatchAllocr.mem_take_seqIdUnq]
    refine and_congr_right fun _ => ?_
    constructor
    · rintro ⟨j, hj, hs⟩
      obtain ⟨i, hi⟩ := List.getElem?_of_mem hj
      obtain ⟨hlt, -⟩ := List.getElem?_eq_some_iff.1 hi
      refine ⟨i, hlt, ?_⟩
      rw [UBatch.seqSet, hrows.seqId i j hi]
      exact hs
    · rintro ⟨i, hi, hs⟩
      have hget : idxs[i]? = some idxs[i] := List.getElem?_eq_getElem hi
      rw [UBatch.seqSet, hrows.seqId i _ hget] at hs
      exact ⟨idxs[i], List.getElem_mem hi, hs⟩
  · have hget : idxs[i]? = some idxs[i] := List.getElem?_eq_getElem hi
    have hpos := hrows.pos i _ hget 0
    rw [Nat.zero_mul, Nat.zero_add, Nat.zero_mul, Nat.zero_add] at hpos
    exact ⟨idxs[i], (hchosen.unused _ (List.getElem_mem hi)).1, hpos, hrows.seqId i _ hget⟩

namespace KvMachine

open KvCache

variable {cfg : KvConfig} {k k' : KvCache} {m m' : KvMachine} {op : KvOp}
  {rope : KvLayer → ℤ → (ℕ → UInt8) → ℕ → UInt8}

/-- The ubatches that `prepare` tries can be placed. -/
lemma tried_placeable {b : Batch} {nSeqMax : ℕ} {us : List UBatch} (hof : ∀ u ∈ us, u.Of b nSeqMax)
    (hassert : ∀ u ∈ tried cfg k us, SlotAsserts cfg u) :
    ∀ u ∈ tried cfg k us, u.Of b nSeqMax ∧ u.Placeable cfg := fun u hu =>
  have hmem : u ∈ us := List.mem_of_mem_take hu
  ⟨hof u hmem, (hof u hmem).placeable (hassert u hu)⟩

/-! ## Every run -/

/-- The streams have their size and the slots of the pending ubatches fit. -/
structure Sound (cfg : KvConfig) (m : KvMachine) : Prop where
  sized : m.cache.Sized cfg
  fits : ∀ e ∈ m.todo, SlotFits cfg.kvSize e.1 e.2

lemma sound_idle (h : k.Sized cfg) : Sound cfg ⟨k, []⟩ :=
  ⟨h, fun _ he => absurd he List.not_mem_nil⟩

lemma removeFailed_inv {P : KvCache → Prop} (h : P k) (u : UBatch)
    (hrm : ∀ k s p0, P k → P (k.seqRm cfg (some s) p0 (-1))) : P (k.removeFailed cfg u) := by
  unfold removeFailed
  refine foldl_inv (P := P) (fun k hk s _ => ?_) h
  split
  · exact hk
  · exact hrm k s _ hk

lemma sound_prepare {b : Batch} {nSeqMax : ℕ} {us : List UBatch} (h : k.Sized cfg)
    (hof : ∀ u ∈ us, u.Of b nSeqMax) (hassert : ∀ u ∈ tried cfg k us, SlotAsserts cfg u) :
    (k.prepare cfg us).1.Sized cfg ∧ ∀ sis, (k.prepare cfg us).2 = some sis →
      ∀ e ∈ sis.zip us, SlotFits cfg.kvSize e.1 e.2 := by
  have hplace : ∀ u ∈ tried cfg k us, u.Placeable cfg := fun u hu =>
    (tried_placeable hof hassert u hu).2
  obtain ⟨hcache, hall⟩ := prepare_tried us k
  refine ⟨hcache ▸ (prepare_fades _ k h hplace).1, fun sis hsis e he => ?_⟩
  have hus : tried cfg k us = us := hall (by rw [hsis]; exact Option.some_ne_none _)
  rw [hus] at hplace
  exact List.forall₂_iff_zip.1 (prepare_fits us h hplace hsis) |>.2 he

theorem Sound.step (hm : m.Sound cfg) (h : m.step rope cfg op = some m') : m'.Sound cfg := by
  refine step_cases (P := fun _ m' => m'.Sound cfg) (fun d m' _ hd => ?_)
    (fun data si u rest htodo => ?_) (fun data si u rest htodo => ?_)
    (sound_idle hm.sized) (fun op k htodo hk => ?_) h
  · have hup : (m.cache.update rope cfg d.okUpdate).Sized cfg := hm.sized.update d.okUpdate
    rcases decode_cases hd with rfl | ⟨b, -, rfl | ⟨us, hus, hassert, hcache, htodo⟩⟩
    · exact hm
    · exact ⟨hup, hm.fits⟩
    · obtain ⟨hsized, hfits⟩ := sound_prepare hup (splitBatch_of hus) hassert
      refine ⟨hcache ▸ hsized, fun e he => ?_⟩
      rcases htodo with htodo | ⟨sis, hsis, htodo⟩
      · rw [htodo] at he
        exact absurd he List.not_mem_nil
      · rw [htodo] at he
        exact hfits sis hsis e he
  · exact ⟨(applyUbatch_sized hm.sized si u).of_cells rfl,
      fun e he => hm.fits e (htodo ▸ List.mem_cons_of_mem _ he)⟩
  · have happly : (m.cache.computed cfg si u data).Sized cfg :=
      (applyUbatch_sized hm.sized si u).of_cells rfl
    exact sound_idle (removeFailed_inv happly u fun k s p0 hk => hk.seqRm (some s) p0 (-1))
  · refine ⟨?_, hm.fits⟩
    exact api_cases (P := fun _ k => k.Sized cfg) (fun data => hm.sized.clear data)
      (fun s p0 p1 _ => hm.sized.seqRm s p0 p1) (fun _ _ _ _ _ _ _ heq => hm.sized.seqCp heq)
      (fun s _ => hm.sized.seqKeep s)
      (fun s e => hm.sized.of_cells (seqSetPrefix_cells _ s e))
      (fun s p0 p1 d _ => hm.sized.seqAdd s p0 p1 d)
      (fun s p0 p1 d _ => hm.sized.seqDiv s p0 p1 d) (fun ok => hm.sized.update ok) hk

theorem sound_of_reaches {ok : KvMachine → KvOp → Prop}
    (h : Reaches (step rope cfg) ok (start cfg) m) : m.Sound cfg :=
  h.invariant (sound_idle (sized_new cfg)) fun _ _ _ hm _ hstep =>
    hm.step hstep

/-! ## Runs that keep the representation invariant -/

/-- The cells satisfy the invariant and the pending ubatches are proper. -/
structure Good (cfg : KvConfig) (m : KvMachine) : Prop where
  ok : m.cache.Ok cfg
  fits : ∀ e ∈ m.todo, SlotFits cfg.kvSize e.1 e.2 ∧ e.2.Proper

/-- A copy within a stream meets no cell that has the destination, the divisor of `seq_div` is
positive, and the tokens of a batch have a position and list no sequence twice. -/
def Keeps (cfg : KvConfig) (m : KvMachine) : KvOp → Prop
  | .seqCp src dst p0 p1 => m.cache.CopyFresh cfg src dst p0 p1
  | .seqDiv _ _ _ d => 0 < d
  | .decode d => (d.inp.completed d.mem d.outputAll).Proper
  | _ => True

lemma good_idle (h : k.Ok cfg) : Good cfg ⟨k, []⟩ := ⟨h, fun _ he => absurd he List.not_mem_nil⟩

lemma good_prepare {b : Batch} {nSeqMax : ℕ} {us : List UBatch} (h : k.Ok cfg) (hb : b.Proper)
    (hof : ∀ u ∈ us, u.Of b nSeqMax) (hassert : ∀ u ∈ tried cfg k us, SlotAsserts cfg u) :
    (k.prepare cfg us).1.Ok cfg := by
  rw [← (prepare_tried us k).1]
  exact h.prepare _ fun u hu =>
    have hu' := tried_placeable hof hassert u hu
    ⟨hu'.2, hu'.1.proper hb⟩

lemma init_eq_completed {inp : BatchInp} {mem : MemBounds} {nVocab nSeqMax : ℕ} {outputAll : Bool}
    {b : Batch} (h : inp.init mem nVocab nSeqMax outputAll = some b) :
    b = inp.completed mem outputAll := by
  unfold BatchInp.init at h
  obtain ⟨-, h'⟩ := Option.ite_none_right_eq_some.1 h
  obtain ⟨-, heq⟩ := Option.ite_none_right_eq_some.1 h'
  exact (Option.some.inj heq).symm

theorem Good.step (hm : m.Good cfg) (hkeep : m.Keeps cfg op)
    (h : m.step rope cfg op = some m') : m'.Good cfg := by
  have hsound : m.Sound cfg := ⟨hm.ok.sized, fun e he => (hm.fits e he).1⟩
  have hfits := (hsound.step h).fits
  refine step_cases (P := fun op m' => m.Keeps cfg op →
    (∀ e ∈ m'.todo, SlotFits cfg.kvSize e.1 e.2) → m'.Good cfg) (fun d m' _ hd hkeep hfits => ?_)
    (fun data si u rest htodo _ _ => ?_) (fun data si u rest htodo _ _ => ?_)
    (fun _ _ => good_idle hm.ok) (fun op k htodo hk hkeep _ => ?_) h hkeep hfits
  · have hup : (m.cache.update rope cfg d.okUpdate).Ok cfg := hm.ok.update d.okUpdate
    rcases decode_cases hd with rfl | ⟨b, hb, rfl | ⟨us, hus, hassert, hcache, htodo⟩⟩
    · exact hm
    · exact ⟨hup, hm.fits⟩
    · have hproper : b.Proper := init_eq_completed hb ▸ hkeep
      refine ⟨hcache ▸ good_prepare hup hproper (splitBatch_of hus) hassert, fun e he => ?_⟩
      refine ⟨hfits e he, ?_⟩
      rcases htodo with htodo | ⟨sis, -, htodo⟩
      · rw [htodo] at he
        exact absurd he List.not_mem_nil
      · rw [htodo] at he
        exact (splitBatch_of hus e.2 (List.of_mem_zip he).2).proper hproper
  · obtain ⟨hfit, hproper⟩ := hm.fits _ (htodo ▸ List.mem_cons_self)
    exact ⟨(hm.ok.applyUbatch hfit hproper).of_cells rfl,
      fun e he => hm.fits e (htodo ▸ List.mem_cons_of_mem _ he)⟩
  · obtain ⟨hfit, hproper⟩ := hm.fits _ (htodo ▸ List.mem_cons_self)
    have happly : (m.cache.computed cfg si u data).Ok cfg :=
      (hm.ok.applyUbatch hfit hproper).of_cells rfl
    exact good_idle (removeFailed_inv happly u fun k s p0 hk => hk.seqRm (some s) p0 (-1))
  · refine ⟨?_, hm.fits⟩
    exact api_cases (P := fun op k => m.Keeps cfg op → k.Ok cfg)
      (fun data _ => hm.ok.clear data) (fun s p0 p1 _ _ => hm.ok.seqRm s p0 p1)
      (fun _ _ _ _ _ _ _ heq hfresh => hm.ok.seqCp hfresh heq) (fun s _ _ => hm.ok.seqKeep s)
      (fun s e _ => hm.ok.seqSetPrefix s e) (fun s p0 p1 d _ _ => hm.ok.seqAdd s p0 p1 d)
      (fun s p0 p1 _ _ hd => hm.ok.seqDiv s p0 p1 hd) (fun ok _ => hm.ok.update ok) hk hkeep

lemma good_of_reaches (h : Reaches (step rope cfg) (Keeps cfg) (start cfg) m) : m.Good cfg :=
  h.invariant (good_idle (ok_new cfg)) fun _ _ _ hm hkeep hstep => hm.step hkeep hstep

end KvMachine

/-- `seq_pos_min` and `seq_pos_max` are the least and the greatest position of every sequence, and
`-1` for a sequence without a cell. -/
def KvCells.TrueBounds (c : KvCells) : Prop :=
  ∀ s, ((c.positions s).Nonempty →
      IsLeast (c.positions s) (c.seqPosMin s) ∧ IsGreatest (c.positions s) (c.seqPosMax s)) ∧
    (c.positions s = ∅ → c.seqPosMin s = -1 ∧ c.seqPosMax s = -1)

lemma KvCells.RepInv.trueBounds {c : KvCells} (h : c.RepInv) : c.TrueBounds := fun _ =>
  ⟨fun hne => ⟨h.seqPosMin_isLeast hne, h.seqPosMax_isGreatest hne⟩, h.seqPos_bounds_of_empty⟩

namespace KvMachine

variable {cfg : KvConfig} {m : KvMachine} {rope : KvLayer → ℤ → (ℕ → UInt8) → ℕ → UInt8}

/-- In runs whose steps satisfy `Keeps`, every stream satisfies the representation invariant and
reports the true bounds of its sequences. -/
theorem repInv_of_reaches (h : Reaches (step rope cfg) (Keeps cfg) (start cfg) m) (st : ℕ) :
    (m.cache.cells st).RepInv ∧ (m.cache.cells st).TrueBounds := by
  have hrep := ((good_of_reaches h).ok st).repInv
  exact ⟨hrep, hrep.trueBounds⟩

end KvMachine

/-! ## Small runs -/

/-- A cache with one stream of four cells for two sequences. -/
def oneStream : KvConfig := .basic true 2 4 Nat.two_pos two_le_llamaMaxSeq

/-- A rotation that leaves rows as they are. -/
def noRope : KvLayer → ℤ → (ℕ → UInt8) → ℕ → UInt8 := fun _ _ row => row

/-- One token, for sequence `0` and at the next position. -/
def oneToken : BatchInp where
  nTokens := 1
  token := some fun _ => 0
  embd := none
  pos := none
  seqId := none
  logits := none

/-- The decode of a batch whose sequences are not in the cache. -/
def BatchInp.firstDecode (inp : BatchInp) (sp : Splitter) (nUbatch : ℕ) : DecodeArgs where
  inp := inp
  mem := ⟨fun _ => -1, fun _ => -1⟩
  nVocab := 1
  outputAll := false
  okUpdate := true
  sp := sp
  nUbatch := nUbatch
  nEmbd := 0
  nPosPerEmbd := 1

/-- One token is decoded into an empty cache. -/
def decodedOnce : List KvOp := [.decode (oneToken.firstDecode .simple 1), .apply .zero true]

namespace KvMachine

lemma reaches_decodedOnce : ∃ m,
    perform (step noRope oneStream) (start oneStream) decodedOnce = some m ∧
      Reaches (step noRope oneStream) (Keeps oneStream) (start oneStream) m := by
  obtain ⟨m, hm⟩ := Option.isSome_iff_exists.1 (by decide +kernel :
    (perform (step noRope oneStream) (start oneStream) decodedOnce).isSome = true)
  obtain ⟨m₁, h₁, hrest⟩ := Option.bind_eq_some_iff.1 hm
  obtain ⟨m₂, h₂, hnil⟩ := Option.bind_eq_some_iff.1 hrest
  obtain rfl := Option.some.inj hnil
  have hproper : (oneToken.completed ⟨fun _ => -1, fun _ => -1⟩ false).Proper := by
    unfold Batch.Proper
    decide
  exact ⟨m₂, hm, .snoc (.apply .zero true)
    (.snoc (.decode (oneToken.firstDecode .simple 1)) .start hproper h₁) trivial h₂⟩

theorem repInv_of_reaches_decodedOnce : ∃ m,
    perform (step noRope oneStream) (start oneStream) decodedOnce = some m ∧
      (m.cache.cells 0).seqPosMax 0 = 0 ∧
        (m.cache.cells 0).RepInv ∧ (m.cache.cells 0).TrueBounds := by
  obtain ⟨m, hm, hreach⟩ := reaches_decodedOnce
  have hmax : (perform (step noRope oneStream) (start oneStream) decodedOnce).map
      (fun m => (m.cache.cells 0).seqPosMax 0) = some 0 := by decide +kernel
  rw [hm] at hmax
  exact ⟨m, hm, Option.some.inj hmax, repInv_of_reaches hreach 0⟩

/-- The token is copied twice to sequence `1`, which is then removed. -/
def copiedTwice : List KvOp :=
  decodedOnce ++ [.seqCp 0 1 (-1) (-1), .seqCp 0 1 (-1) (-1), .seqRm (some 1) (-1) (-1)]

/-- The second copy counts the position again, and the removal takes it out once. -/
theorem not_repInv_copiedTwice : ∃ m,
    Reaches (step noRope oneStream) (fun _ _ => True) (start oneStream) m ∧
      ¬ (m.cache.cells 0).RepInv ∧ ¬ (m.cache.cells 0).TrueBounds := by
  obtain ⟨m, hreach, hread⟩ := exists_reached_of_perform (by decide +kernel :
    (perform (step noRope oneStream) (start oneStream) copiedTwice).map
      (fun m => ((m.cache.cells 0).seqPosMax 1,
        decide (∀ i, i < (m.cache.cells 0).size → 1 ∉ (m.cache.cells 0).seq i)))
        = some (0, true))
  obtain ⟨hmax, hfree⟩ := Prod.mk.inj hread
  have hempty : (m.cache.cells 0).positions 1 = ∅ := by
    refine Set.eq_empty_iff_forall_notMem.2 ?_
    rintro p ⟨i, hi, hs, -⟩
    exact of_decide_eq_true hfree i hi hs
  have hbounds : ¬ (m.cache.cells 0).TrueBounds := fun h => by
    have hnone := ((h 1).2 hempty).2
    rw [hmax] at hnone
    exact absurd hnone (by decide)
  exact ⟨m, hreach, fun h => hbounds h.trueBounds, hbounds⟩

end KvMachine

end IFairy
