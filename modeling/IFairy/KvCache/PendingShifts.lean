import IFairy.KvCache.MachineInv

/-!
# Pending shifts

`update` computes the K-shift only when a stream says that it has one.  In every run a stream that
does not say so has no pending shift (`KvCells.Flagged`), so that no shift is forgotten.  In runs
whose decodes can compute the K-shift, no shift is pending while ubatches are applied: what they
attend to is encoded at the position that its cell records (`KvMachine.noShift_of_reaches`).
-/

namespace IFairy

lemma Cell.place_shift (x : Cell) (u : UBatch) (i : ℕ) :
    (x.place u i).shift = x.shift ∨ (x.place u i).shift = 0 := by
  unfold Cell.place
  split
  · exact .inl rfl
  · exact .inr rfl

namespace KvCells

variable {n i : ℕ} {c c' : KvCells} {s : SeqId} {d : ℤ}

/-- `n` cells whose flag is set when one of them has a pending shift. -/
structure Flagged (n : ℕ) (c : KvCells) : Prop where
  size_eq : c.size = n
  shift_eq : c.hasShift = false → ∀ j, c.shift j = 0

namespace Flagged

lemma of_shift (h : c.Flagged n) (hsize : c'.size = c.size) (hflag : c'.hasShift = c.hasShift)
    (hshift : ∀ j, c'.shift j = c.shift j ∨ c'.shift j = 0) : c'.Flagged n where
  size_eq := hsize.trans h.size_eq
  shift_eq hno j := by
    rcases hshift j with heq | hzero
    · exact heq.trans (h.shift_eq (hflag ▸ hno) j)
    · exact hzero

lemma of_flag (h : c.Flagged n) (hsize : c'.size = c.size) (hflag : c'.hasShift = true) :
    c'.Flagged n :=
  ⟨hsize.trans h.size_eq, fun hno => Bool.noConfusion (hflag.symm.trans hno)⟩

lemma update_zero (f : ℕ → ℤ) (i j : ℕ) :
    Function.update f i 0 j = f j ∨ Function.update f i 0 j = 0 := by
  by_cases hji : j = i
  · exact .inr (hji ▸ Function.update_self ..)
  · exact .inl (Function.update_of_ne hji ..)

lemma posAdd (h : c.Flagged n) (i : ℕ) (d : ℤ) : (c.posAdd i d).1.Flagged n := by
  refine h.of_flag (posAdd_size c i d) ?_
  rw [posAdd_eq]
  split <;> rfl

lemma kept (n : ℕ) : KvCache.Kept n (Flagged n) where
  size_eq _ h := h.size_eq
  reset _ h := ⟨h.size_eq, fun _ _ => rfl⟩
  rm _ i h _ := h.of_shift rfl rfl fun j => update_zero _ i j
  seqRm c i s h _ _ := by
    refine h.of_shift (seqRm_size c i s) (seqRm_hasShift c i s) fun j => ?_
    rw [seqRm_shift]
    split
    · exact update_zero _ i j
    · exact .inl rfl
  seqKeep c i s h _ := by
    refine h.of_shift (seqKeep_size c i s) ?_ fun j => ?_
    · unfold KvCells.seqKeep
      split_ifs <;> rfl
    · rw [seqKeep_shift]
      split
      · exact update_zero _ i j
      · exact .inl rfl
  posAdd _ i d _ h _ _ := h.posAdd i d

lemma resetShift (h : c.Flagged n) : c.resetShift.Flagged n := ⟨h.size_eq, fun _ _ => rfl⟩

lemma seqAdd (h : c.Flagged n) (i : ℕ) (s : SeqId) : (c.seqAdd i s).Flagged n :=
  h.of_shift rfl rfl fun _ => .inl rfl

lemma set (h : c.Flagged n) (idxs : List ℕ) (other : KvCells) : (c.set idxs other).Flagged n := by
  refine List.foldlRecOn (List.range other.size) _ h fun c hc j _ => ?_
  exact hc.of_shift (setCell_size ..) (setCell_hasShift ..) fun i => .inl (by rw [setCell_shift])

lemma placeToken (h : c.Flagged n) (u : UBatch) (idx i : ℕ) :
    (KvCache.placeToken u idx i c).Flagged n := by
  refine h.of_shift (KvCache.placeToken_size ..) (KvCache.placeToken_hasShift ..) fun j => ?_
  rw [← cell_shift, ← cell_shift, KvCache.placeToken_cell]
  by_cases hj : j = idx
  · rw [hj, Function.update_self]
    exact (c.cell idx).place_shift u i
  · exact .inl (congrArg Cell.shift (Function.update_of_ne hj ..))

lemma copyCell (h : c.Flagged n) (src : KvCells) (i : ℕ) (s : SeqId) :
    (KvCache.copyCell src i s c).Flagged n := by
  have hset (p : ℤ) : ((c.posSet i p).seqAdd i s).Flagged n :=
    h.of_shift rfl rfl fun _ => .inl rfl
  unfold KvCache.copyCell
  dsimp only
  split
  · exact (hset _).posAdd i _
  · exact hset _

end Flagged

end KvCells

namespace KvCache

variable {cfg : KvConfig} {k k' : KvCache}
  {rope : KvLayer → ℤ → (ℕ → UInt8) → ℕ → UInt8}

/-- Every stream says when a shift is pending. -/
def Flagged (cfg : KvConfig) (k : KvCache) : Prop := k.Streams (KvCells.Flagged cfg.kvSize)

namespace Flagged

lemma of_cells (h : k.Flagged cfg) (heq : k'.cells = k.cells) : k'.Flagged cfg :=
  Streams.of_cells h heq

lemma clear (h : k.Flagged cfg) (data : Bool) : (k.clear cfg data).Flagged cfg :=
  Streams.clear (KvCells.Flagged.kept _) h data

lemma seqKeep (h : k.Flagged cfg) (s : SeqId) : (k.seqKeep cfg s).Flagged cfg :=
  Streams.seqKeep (KvCells.Flagged.kept _) h s

lemma seqAdd (h : k.Flagged cfg) (s : SeqId) (p0 p1 d : ℤ) : (k.seqAdd cfg s p0 p1 d).Flagged cfg :=
  Streams.seqAdd (KvCells.Flagged.kept _) h s p0 p1 d

lemma seqRm (h : k.Flagged cfg) (seqId : Option SeqId) (p0 p1 : ℤ) :
    (k.seqRm cfg seqId p0 p1).Flagged cfg :=
  Streams.seqRm (KvCells.Flagged.kept _) h seqId p0 p1

lemma seqDiv (h : k.Flagged cfg) (s : SeqId) (p0 p1 d : ℤ) :
    (k.seqDiv cfg s p0 p1 d).Flagged cfg := by
  simp only [KvCache.seqDiv]
  split_ifs
  · exact h
  · exact h
  · exact h
  · refine Streams.setCells h (sweep_inv (fun c i hc _ => ?_) (h _) rfl)
    split
    · exact hc.of_flag rfl rfl
    · exact hc

lemma seqCp (h : k.Flagged cfg) {src dst : SeqId} {p0 p1 : ℤ}
    (heq : k.seqCp cfg src dst p0 p1 = some k') : k'.Flagged cfg := by
  simp only [KvCache.seqCp] at heq
  set k1 : KvCache := if cfg.PrefixSliding then _ else k with hk1
  have h1 : k1.Flagged cfg := by
    refine h.of_cells ?_
    rw [hk1]
    split <;> rfl
  split_ifs at heq
  · exact Option.some.inj heq ▸ h
  · exact Option.some.inj heq ▸ h1
  · refine Option.some.inj heq ▸ Streams.setCells h1 (sweep_inv (fun c i hc _ => ?_) (h1 _) rfl)
    split
    · exact hc.seqAdd i dst
    · exact hc
  · refine Option.some.inj heq ▸ of_cells (Streams.setCells h1 (List.foldlRecOn _ _
      ((KvCells.Flagged.kept _).reset _ (h1 _)) fun c hc i _ => ?_)) rfl
    split
    · exact hc.copyCell _ i dst
    · exact hc

lemma update (h : k.Flagged cfg) (ok : Bool) : (k.update rope cfg ok).Flagged cfg := by
  rw [update_eq]
  intro st
  change KvCells.Flagged _ (if _ then (k.cells st).resetShift else k.cells st)
  split
  · exact (h st).resetShift
  · exact h st

lemma applyUbatch (h : k.Flagged cfg) (si : SlotInfo) (u : UBatch) :
    (k.applyUbatch cfg si u).Flagged cfg := by
  have hplaced : (emplaceAll cfg k si u).1.Flagged cfg := by
    rw [emplaceAll_eq]
    exact List.foldlRecOn si.entries _
      (motive := fun r : KvCache × (SeqId → ℤ) => r.1.Flagged cfg) h fun r hr e _ =>
        Streams.setCells hr ((hr e.st).placeToken u e.idx e.tok)
  refine of_cells ?_ (moveHeads_cells si _)
  unfold purge
  split
  · exact hplaced
  · refine foldl_inv (fun k hk s _ => ?_) hplaced
    unfold purgeSeq
    split
    · exact hk
    · dsimp only
      split
      · exact hk.seqRm _ _ _
      · exact hk

lemma prepare (h : k.Flagged cfg) (us : List UBatch) : (k.prepare cfg us).1.Flagged cfg := by
  induction us generalizing k with
  | nil => exact h
  | cons u us ih =>
    rw [prepare_cons]
    cases findSlot cfg k u false with
    | none => exact h
    | some si =>
      exact foldl_inv (fun k hk s _ => of_cells (Streams.setCells hk ((hk _).set _ _)) rfl)
        (ih (h.applyUbatch si u))

end Flagged

lemma update_noShift (h : k.Flagged cfg) {st : ℕ} (hst : st < cfg.nStream) (j : ℕ) :
    ((k.update rope cfg true).cell st j).shift = 0 := by
  rw [update_eq]
  change (if _ then (k.cells st).resetShift else k.cells st).shift j = 0
  split
  · rfl
  · rename_i hno
    have hflags : k.getHasShift cfg = false :=
      Bool.eq_false_iff.2 fun hflag => hno ⟨⟨hflag, fun _ => rfl⟩, hst⟩
    have hflag := List.any_eq_false.1 hflags st (List.mem_range.2 hst)
    exact (h st).shift_eq (Bool.eq_false_iff.2 hflag) j

end KvCache

namespace KvMachine

open KvCache

variable {cfg : KvConfig} {m m' : KvMachine} {op : KvOp}
  {rope : KvLayer → ℤ → (ℕ → UInt8) → ℕ → UInt8}

/-- A decode can compute the K-shift. -/
def CanShift : KvMachine → KvOp → Prop
  | _, .decode d => d.okUpdate = true
  | _, _ => True

/-- The streams say when a shift is pending, and none is while ubatches are applied. -/
structure ShiftsKnown (cfg : KvConfig) (m : KvMachine) : Prop where
  sound : m.Sound cfg
  flagged : m.cache.Flagged cfg
  noShift : m.todo ≠ [] → ∀ st < cfg.nStream, ∀ j, (m.cache.cell st j).shift = 0

lemma shiftsKnown_idle {k : KvCache} (hsized : k.Sized cfg) (h : k.Flagged cfg) :
    ShiftsKnown cfg ⟨k, []⟩ :=
  ⟨sound_idle hsized, h, fun hne => absurd rfl hne⟩

theorem ShiftsKnown.step (hm : m.ShiftsKnown cfg) (hop : CanShift m op)
    (h : m.step rope cfg op = some m') : m'.ShiftsKnown cfg := by
  refine step_cases (P := fun op m' => CanShift m op → m'.Sound cfg → m'.ShiftsKnown cfg)
    (fun d m' htodo hd hok hsound => ?_) (fun data si u rest htodo _ hsound => ?_)
    (fun data si u rest _ _ hsound => ?_)
    (fun _ hsound => shiftsKnown_idle hsound.sized hm.flagged)
    (fun op k htodo hk _ hsound => ⟨hsound, ?_, fun h => absurd htodo h⟩) h hop (hm.sound.step h)
  · have hup : (m.cache.update rope cfg d.okUpdate).Flagged cfg := hm.flagged.update d.okUpdate
    rcases decode_cases hd with rfl | ⟨b, -, rfl | ⟨us, hus, hassert, hcache, -⟩⟩
    · exact hm
    · exact ⟨hsound, hup, fun h => absurd htodo h⟩
    · refine ⟨hsound, hcache ▸ hup.prepare us, fun _ st hst j => ?_⟩
      have hplace := fun u hu => (tried_placeable (splitBatch_of hus) hassert u hu).2
      have hsized : (m.cache.update rope cfg d.okUpdate).Sized cfg :=
        hm.sound.sized.update d.okUpdate
      have hfades := (prepare_fades _ _ hsized hplace).2 st j
      rw [(prepare_tried us _).1, ← hcache] at hfades
      have hzero : ((m.cache.update rope cfg d.okUpdate).cell st j).shift = 0 := by
        rw [show d.okUpdate = true from hok]
        exact update_noShift hm.flagged hst j
      exact hfades.shift.elim (fun heq => heq.trans hzero) id
  · refine ⟨hsound, (hm.flagged.applyUbatch si u).of_cells rfl, fun _ st hst j => ?_⟩
    have hzero := hm.noShift (htodo ▸ List.cons_ne_nil _ _) st hst j
    have hfit := hm.sound.fits _ (htodo ▸ List.mem_cons_self)
    rcases applyUbatch_cell hm.sound.sized hfit st j with ⟨i, -, -, hfades⟩ | ⟨-, hfades⟩
    · refine hfades.shift.elim (fun heq => heq.trans ?_) id
      exact ((m.cache.cell st j).place_shift u i).elim (fun heq => heq.trans hzero) id
    · exact hfades.shift.elim (fun heq => heq.trans hzero) id
  · have happly : (m.cache.computed cfg si u data).Flagged cfg :=
      (hm.flagged.applyUbatch si u).of_cells rfl
    have hsized := hsound.sized
    dsimp only at hsized
    exact shiftsKnown_idle hsized
      (removeFailed_inv happly u fun k s p0 hk => hk.seqRm (some s) p0 (-1))
  · exact api_cases (P := fun _ k => k.Flagged cfg) (fun data => hm.flagged.clear data)
      (fun s p0 p1 _ => hm.flagged.seqRm s p0 p1) (fun _ _ _ _ _ _ _ heq => hm.flagged.seqCp heq)
      (fun s _ => hm.flagged.seqKeep s)
      (fun s e => hm.flagged.of_cells (seqSetPrefix_cells _ s e))
      (fun s p0 p1 d _ => hm.flagged.seqAdd s p0 p1 d)
      (fun s p0 p1 d _ => hm.flagged.seqDiv s p0 p1 d) (fun ok => hm.flagged.update ok) hk

end KvMachine

end IFairy
