import IFairy.KvCache.CellsInv
import IFairy.KvCache.Slot

/-!
# The invariant of the cells of a cache

`KvCells.Ok n` is the representation invariant of an object with `n` cells whose occupied cells
have no negative position; `KvCache.Ok` asks it of every stream.  Each operation of the cache keeps
it.  Two operations need a condition, both about a sequence that is added to a cell: `seq_cp`
within a stream must not meet a cell that has the destination already (`CopyFresh`), and a token
must not list a sequence twice (`UBatch.Proper`).  `seq_div` needs a positive divisor, which its
documentation asks for.
-/

namespace IFairy

namespace KvCells

variable {n i : ℕ} {c c' : KvCells} {s : SeqId} {p d : ℤ}

/-- `n` cells that satisfy the representation invariant, with no negative position in use. -/
structure Ok (n : ℕ) (c : KvCells) : Prop where
  size_eq : c.size = n
  repInv : c.RepInv
  nonneg : ∀ i < n, c.pos i = -1 ∨ 0 ≤ c.pos i

lemma Ok.lt (h : c.Ok n) (hi : i < n) : i < c.size := by rwa [h.size_eq]

lemma Ok.of_update (h : c.Ok n) (hsize : c'.size = c.size) (hrep : c'.RepInv)
    (hpos : c'.pos = Function.update c.pos i p) (hp : p = -1 ∨ 0 ≤ p) : c'.Ok n where
  size_eq := hsize.trans h.size_eq
  repInv := hrep
  nonneg j hj := by
    rw [hpos]
    by_cases hji : j = i
    · rw [hji, Function.update_self]
      exact hp
    · rw [Function.update_of_ne hji]
      exact h.nonneg j hj

lemma Ok.of_pos_eq (h : c.Ok n) (hsize : c'.size = c.size) (hrep : c'.RepInv)
    (hpos : c'.pos = c.pos) : c'.Ok n :=
  ⟨hsize.trans h.size_eq, hrep, fun j hj => hpos ▸ h.nonneg j hj⟩

lemma ok_resize (n : ℕ) : (resize n).Ok n := ⟨rfl, repInv_resize n, fun _ _ => .inl rfl⟩

lemma Ok.reset (h : c.Ok n) : c.reset.Ok n := by
  rw [KvCells.reset, h.size_eq]
  exact ok_resize n

lemma Ok.resetShift (h : c.Ok n) : c.resetShift.Ok n :=
  h.of_pos_eq rfl h.repInv.resetShift rfl

lemma Ok.rm (h : c.Ok n) (hi : i < n) : (c.rm i).Ok n :=
  h.of_update rfl (h.repInv.rm (h.lt hi)) rfl (.inl rfl)

lemma Ok.seqRm (h : c.Ok n) (hi : i < n) (hs : s ∈ c.seq i) : (c.seqRm i s).1.Ok n := by
  have hrep := h.repInv.seqRm (h.lt hi) hs
  by_cases hlast : (c.seq i).erase s = ∅
  · exact h.of_update (by simp) hrep (by rw [seqRm_pos, if_pos hlast]) (.inl rfl)
  · exact h.of_pos_eq (by simp) hrep (by rw [seqRm_pos, if_neg hlast])

lemma Ok.seqKeep (h : c.Ok n) (hi : i < n) : (c.seqKeep i s).1.Ok n := by
  have hrep := h.repInv.seqKeep (s := s) (h.lt hi)
  by_cases hfree : s ∉ c.seq i ∧ c.seq i ≠ ∅
  · exact h.of_update (by simp) hrep (by rw [seqKeep_pos, if_pos hfree]) (.inl rfl)
  · exact h.of_pos_eq (by simp) hrep (by rw [seqKeep_pos, if_neg hfree])

lemma Ok.seqAdd (h : c.Ok n) (hi : i < n) (hp : c.pos i ≠ -1) (hs : s ∉ c.seq i) :
    (c.seqAdd i s).Ok n :=
  h.of_pos_eq rfl (h.repInv.seqAdd (h.lt hi) hp hs) rfl

lemma Ok.posSet (h : c.Ok n) (hi : i < n) (hempty : c.pos i = -1) (hp : 0 ≤ p) :
    (c.posSet i p).Ok n :=
  h.of_update rfl (h.repInv.posSet (h.lt hi) hempty (by omega)) rfl (.inr hp)

lemma Ok.posAdd (h : c.Ok n) (hi : i < n) (hp : c.pos i ≠ -1) : (c.posAdd i d).1.Ok n := by
  refine h.of_update (by simp) (h.repInv.posAdd (h.lt hi) hp d) (posAdd_pos c i d) ?_
  split
  · exact .inl rfl
  · exact .inr (by omega)

lemma Ok.posDiv (h : c.Ok n) (hi : i < n) (hp : 0 ≤ c.pos i) (hd : 0 < d) :
    (c.posDiv i d).Ok n := by
  have hquot : 0 ≤ (c.pos i).tdiv d := Int.tdiv_nonneg hp hd.le
  exact h.of_update rfl (h.repInv.posDiv (h.lt hi) (by omega) (by omega)) rfl (.inr hquot)

lemma Ok.setCell (h : c.Ok n) (hi : i < n) {S : Finset SeqId} (hp : p = -1 ∨ 0 ≤ p)
    (hempty : p = -1 → S = ∅ ∧ c.shift i = 0) : (c.setCell i p S).Ok n :=
  h.of_update (setCell_size c i p S) (h.repInv.setCell (h.lt hi) hempty) (setCell_pos c i p S) hp

lemma Ok.pos_nonneg (h : c.Ok n) (hi : i < n) (hs : s ∈ c.seq i) : 0 ≤ c.pos i :=
  (h.nonneg i hi).resolve_left (h.repInv.pos_ne (h.lt hi) hs)

/-- What `init` accepts or a cleared cell holds is `-1` or a position. -/
lemma Ok.cleared (h : c.Ok n) (hi : i < n) (hp : c.pos i = -1) :
    c.seq i = ∅ ∧ c.shift i = 0 :=
  h.repInv.cleared i (h.lt hi) hp

end KvCells

namespace KvCache

variable {cfg : KvConfig} {n : ℕ} {k : KvCache} {c : KvCells}

/-! ## Loops over cells -/

/-- The induction rule of a sweep: round `i` leads from `P i` to `P (i + 1)`. -/
lemma sweep_run {P : ℕ → KvCells → Prop} {body : KvCells → ℕ → KvCells × Bool}
    (hbody : ∀ c i, i < n → P i c → P (i + 1) (body c i).1) (h : P 0 c) (hsize : c.size = n) :
    P n (sweep body c).1 := by
  unfold sweep
  rw [hsize]
  have hrun : ∀ m ≤ n, P m ((List.range m).foldl (fun r i => ((body r.1 i).1,
      if (body r.1 i).2 ∧ r.2 = n then i else r.2)) (c, n)).1 := by
    intro m
    induction m with
    | zero => exact fun _ => h
    | succ m ih =>
      intro hm
      rw [List.range_succ, List.foldl_append]
      exact hbody _ m hm (ih (Nat.le_of_succ_le hm))
  exact hrun n le_rfl

lemma sweep_inv {P : KvCells → Prop} {body : KvCells → ℕ → KvCells × Bool}
    (hbody : ∀ c i, P c → i < n → P (body c i).1) (h : P c) (hsize : c.size = n) :
    P (sweep body c).1 :=
  sweep_run (P := fun _ => P) (fun c i hi hc => hbody c i hc hi) h hsize

@[simp] lemma setCells_self (k : KvCache) (st : ℕ) (c : KvCells) :
    (k.setCells st c).cells st = c := Function.update_self ..

lemma setCells_of_ne {st t : ℕ} (h : t ≠ st) (k : KvCache) (c : KvCells) :
    (k.setCells st c).cells t = k.cells t := Function.update_of_ne h ..

@[simp] lemma resetKMean_cells (cfg : KvConfig) (k : KvCache) (st : ℕ) :
    (k.resetKMean cfg st).cells = k.cells := rfl

@[simp] lemma setHead_cells (k : KvCache) (st h : ℕ) : (k.setHead st h).cells = k.cells := rfl

lemma sweepStream_cells (k : KvCache) (st : ℕ) (body : KvCells → ℕ → KvCells × Bool) :
    (k.sweepStream st body).cells
      = Function.update k.cells st (sweep body (k.cells st)).1 := by
  unfold sweepStream
  simp only [apply_ite KvCache.cells, setHead_cells, ite_self]
  rfl

/-! ## Properties of all streams -/

/-- A property of the cells of a stream that the operations on a cell keep. -/
structure Kept (n : ℕ) (P : KvCells → Prop) : Prop where
  size_eq : ∀ c, P c → c.size = n
  reset : ∀ c, P c → P c.reset
  rm : ∀ c i, P c → i < n → P (c.rm i)
  seqRm : ∀ c i s, P c → i < n → s ∈ c.seq i → P (c.seqRm i s).1
  seqKeep : ∀ c i s, P c → i < n → P (c.seqKeep i s).1
  posAdd : ∀ c i d s, P c → i < n → s ∈ c.seq i → P (c.posAdd i d).1

/-- Every stream has the property. -/
def Streams (P : KvCells → Prop) (k : KvCache) : Prop := ∀ st, P (k.cells st)

lemma foldl_inv {α : Type*} {P : KvCache → Prop} {step : KvCache → α → KvCache} {l : List α}
    (hstep : ∀ k, P k → ∀ a ∈ l, P (step k a)) (h : P k) : P (l.foldl step k) :=
  List.foldlRecOn l step h hstep

namespace Streams

variable {P : KvCells → Prop}

lemma setCells (h : k.Streams P) {st : ℕ} (hc : P c) : (k.setCells st c).Streams P := by
  intro t
  by_cases ht : t = st
  · rw [ht, setCells_self]
    exact hc
  · rw [setCells_of_ne ht]
    exact h t

lemma of_cells {k' : KvCache} (h : k.Streams P) (heq : k'.cells = k.cells) : k'.Streams P :=
  fun st => heq ▸ h st

variable (hP : Kept cfg.kvSize P)

include hP

lemma sweepStream (h : k.Streams P) (st : ℕ) {body : KvCells → ℕ → KvCells × Bool}
    (hbody : ∀ c i, P c → i < cfg.kvSize → P (body c i).1) : (k.sweepStream st body).Streams P :=
  (h.setCells (sweep_inv hbody (h st) (hP.size_eq _ (h st)))).of_cells
    (sweepStream_cells k st body)

lemma clear (h : k.Streams P) (data : Bool) : (k.clear cfg data).Streams P := by
  unfold KvCache.clear
  have hloop : Streams P ((List.range cfg.nStream).foldl (fun k st =>
      if data then (k.setCells st (k.cells st).reset).setHead st 0
      else ((k.setCells st (k.cells st).reset).setHead st 0).resetKMean cfg st) k) := by
    refine foldl_inv (fun k hk st _ => ?_) h
    have hreset : (k.setCells st (k.cells st).reset).Streams P := hk.setCells (hP.reset _ (hk st))
    split <;> exact hreset.of_cells rfl
  cases data
  · exact hloop.of_cells rfl
  · exact hloop.of_cells rfl

lemma seqRm (h : k.Streams P) (seqId : Option SeqId) (p0 p1 : ℤ) :
    (k.seqRm cfg seqId p0 p1).Streams P := by
  cases seqId with
  | some s =>
    simp only [KvCache.seqRm]
    set k1 : KvCache := if cfg.PrefixSliding then _ else k with hk1
    have h1 : k1.Streams P := by
      refine h.of_cells ?_
      rw [hk1]
      split <;> rfl
    have h2 : (k1.sweepStream (cfg.seqToStream s) fun c i =>
        if c.PosIn i (clampP0 p0) (clampP1 p1) ∧ s ∈ c.seq i then c.seqRm i s
        else (c, false)).Streams P := by
      refine sweepStream hP h1 (cfg.seqToStream s) fun c i hc hi => ?_
      split
      · rename_i hcond
        exact hP.seqRm c i s hc hi hcond.2
      · exact hc
    split
    · exact h2.of_cells rfl
    · exact h2
  | none =>
    simp only [KvCache.seqRm]
    set k1 : KvCache := if cfg.PrefixSliding then _ else k with hk1
    have h1 : k1.Streams P := by
      refine h.of_cells ?_
      rw [hk1]
      split <;> rfl
    refine foldl_inv (fun k hk st _ => ?_) h1
    have h2 : (k.sweepStream st fun c i =>
        if c.PosIn i (clampP0 p0) (clampP1 p1) then (c.rm i, true) else (c, false)).Streams P := by
      refine sweepStream hP hk st fun c i hc hi => ?_
      split
      · exact hP.rm c i hc hi
      · exact hc
    split
    · exact h2.of_cells rfl
    · exact h2

lemma seqKeep (h : k.Streams P) (s : SeqId) : (k.seqKeep cfg s).Streams P := by
  unfold KvCache.seqKeep
  split
  · have hloop : Streams P ((List.range cfg.nStream).foldl (fun k t =>
        if t ≠ cfg.seqToStream s then
          (k.sweepStream t fun c i => c.seqKeep i s).resetKMean cfg t
        else k.sweepStream t fun c i => c.seqKeep i s) k) := by
      refine foldl_inv (fun k hk t _ => ?_) h
      have hk' := sweepStream hP hk t fun c i hc hi => hP.seqKeep c i s hc hi
      split
      · exact hk'.of_cells rfl
      · exact hk'
    exact hloop.of_cells rfl
  · exact sweepStream hP h _ fun c i hc hi => hP.seqKeep c i s hc hi

lemma seqAdd (h : k.Streams P) (s : SeqId) (p0 p1 d : ℤ) :
    (k.seqAdd cfg s p0 p1 d).Streams P := by
  simp only [KvCache.seqAdd]
  iterate 3
    split
    · exact h
  · refine of_cells (h.setCells ?_) (setHead_cells _ _ _)
    refine sweep_inv (fun c i hc hi => ?_) (h _) (hP.size_eq _ (h _))
    split
    · rename_i hcond
      exact hP.posAdd c i d s hc hi hcond.2
    · exact hc

end Streams

/-! ## The invariant of a cache -/

/-- Every stream satisfies the invariant of its cells. -/
def Ok (cfg : KvConfig) (k : KvCache) : Prop := ∀ st, (k.cells st).Ok cfg.kvSize

lemma ok_new (cfg : KvConfig) : (new cfg).Ok cfg := fun _ => KvCells.ok_resize _

lemma kept_ok (n : ℕ) : Kept n fun c => c.Ok n where
  size_eq _ h := h.size_eq
  reset _ h := h.reset
  rm _ _ h hi := h.rm hi
  seqRm _ _ _ h hi hs := h.seqRm hi hs
  seqKeep _ _ _ h hi := h.seqKeep hi
  posAdd _ _ _ _ h hi hs := h.posAdd hi (h.repInv.pos_ne (h.lt hi) hs)

lemma Ok.setCells (h : k.Ok cfg) {st : ℕ} (hc : c.Ok cfg.kvSize) : (k.setCells st c).Ok cfg :=
  Streams.setCells (P := fun c => c.Ok cfg.kvSize) h hc

lemma Ok.of_cells {k' : KvCache} (h : k.Ok cfg) (heq : k'.cells = k.cells) : k'.Ok cfg :=
  fun st => heq ▸ h st

/-! ## Operations on sequences -/

lemma Ok.clear (h : k.Ok cfg) (data : Bool) : (k.clear cfg data).Ok cfg :=
  Streams.clear (kept_ok cfg.kvSize) h data

lemma Ok.seqRm (h : k.Ok cfg) (seqId : Option SeqId) (p0 p1 : ℤ) :
    (k.seqRm cfg seqId p0 p1).Ok cfg :=
  Streams.seqRm (kept_ok cfg.kvSize) h seqId p0 p1

lemma Ok.seqKeep (h : k.Ok cfg) (s : SeqId) : (k.seqKeep cfg s).Ok cfg :=
  Streams.seqKeep (kept_ok cfg.kvSize) h s

lemma Ok.seqSetPrefix (h : k.Ok cfg) (s : SeqId) (e : ℤ) : (k.seqSetPrefix cfg s e).1.Ok cfg := by
  unfold KvCache.seqSetPrefix
  split
  · exact h
  · exact h.of_cells rfl

lemma Ok.seqAdd (h : k.Ok cfg) (s : SeqId) (p0 p1 d : ℤ) : (k.seqAdd cfg s p0 p1 d).Ok cfg :=
  Streams.seqAdd (kept_ok cfg.kvSize) h s p0 p1 d

lemma Ok.seqDiv (h : k.Ok cfg) (s : SeqId) (p0 p1 : ℤ) {d : ℤ} (hd : 0 < d) :
    (k.seqDiv cfg s p0 p1 d).Ok cfg := by
  simp only [KvCache.seqDiv]
  split_ifs
  · exact h
  · exact h
  · exact h
  · refine h.setCells (sweep_inv (fun c i hc hi => ?_) (h _) (h _).size_eq)
    split
    · rename_i hcond
      exact hc.posDiv hi (hc.pos_nonneg hi hcond.2) hd
    · exact hc

/-- No cell that a `seq_cp` within a stream copies has the destination already. -/
def CopyFresh (cfg : KvConfig) (k : KvCache) (src dst : SeqId) (p0 p1 : ℤ) : Prop :=
  cfg.seqToStream src = cfg.seqToStream dst → src ≠ dst →
    ∀ i < cfg.kvSize, (k.cells (cfg.seqToStream src)).PosIn i (clampP0 p0) (clampP1 p1) →
      src ∈ (k.cells (cfg.seqToStream src)).seq i → dst ∉ (k.cells (cfg.seqToStream src)).seq i

/-- The loop of a `seq_cp` within a stream, over cells that do not have the destination. -/
lemma ok_copySweep (h : c.Ok n) {src dst : SeqId} {p0 p1 : ℤ}
    (hfresh : ∀ i < n, c.PosIn i p0 p1 → src ∈ c.seq i → dst ∉ c.seq i) :
    (sweep (fun c i =>
      if c.PosIn i p0 p1 ∧ src ∈ c.seq i then (c.seqAdd i dst, false) else (c, false)) c).1.Ok n := by
  -- round `i` finds cell `i` as it was before the loop
  refine (sweep_run (P := fun i d => d.Ok n ∧ ∀ j ≥ i, d.pos j = c.pos j ∧ d.seq j = c.seq j)
    (fun d i hi hd => ?_) ⟨h, fun _ _ => ⟨rfl, rfl⟩⟩ h.size_eq).1
  obtain ⟨hok, hsame⟩ := hd
  obtain ⟨hpos, hseq⟩ := hsame i le_rfl
  split
  · rename_i hcond
    have hin : c.PosIn i p0 p1 := by simpa only [KvCells.PosIn, hpos] using hcond.1
    have hdst : dst ∉ d.seq i := hseq ▸ hfresh i hi hin (hseq ▸ hcond.2)
    refine ⟨hok.seqAdd hi (hok.repInv.pos_ne (hok.lt hi) hcond.2) hdst, fun j hj => ?_⟩
    obtain ⟨hpj, hsj⟩ := hsame j (by omega)
    exact ⟨hpj, (Function.update_of_ne (by omega) ..).trans hsj⟩
  · exact ⟨hok, fun j hj => hsame j (by omega)⟩

lemma copyCell_pos_of_ne {src dst : KvCells} {i j : ℕ} {t : SeqId} (hj : j ≠ i) :
    (copyCell src i t dst).pos j = dst.pos j := by
  unfold copyCell
  by_cases hs : src.shift i ≠ 0
  · simp [hs, KvCells.posAdd_pos, hj]
  · simp [hs, hj]

lemma ok_copyCell {src dst : KvCells} {i : ℕ} {t : SeqId} (h : dst.Ok n) (hi : i < n)
    (hempty : dst.pos i = -1) (hpos : 0 ≤ src.pos i) : (copyCell src i t dst).Ok n := by
  obtain ⟨hseq, hshift⟩ := h.cleared hi hempty
  unfold copyCell
  by_cases hs : src.shift i ≠ 0
  · simp only [if_pos hs]
    set q := src.pos i - src.shift i with hq
    -- the position between the two steps may be `-1`: the cell is left out until the end
    have hexc : (dst.posSet i q).RepInvExcept i := (h.repInv.except hseq).posSet q
    set b : KvCells := { dst.posSet i q with
      pos := Function.update dst.pos i (q + src.shift i)
      shift := Function.update dst.shift i (dst.shift i + src.shift i)
      seq := Function.update dst.seq i {t}
      hasShift := true } with hb
    have hbexc : b.RepInvExcept i := by
      refine hexc.congr rfl rfl (fun _ _ => Iff.rfl) ?_ ?_ ?_
      all_goals intro j hj; simp [hb, hj]
    have hbpos : b.pos i = src.pos i := by simp [hb, hq]
    have hp : b.pos i ≠ -1 := by omega
    have hused : i ∈ b.used := Finset.mem_insert_self _ _
    have heq : (((dst.posSet i q).seqAdd i t).posAdd i (src.shift i)).1 = b.seqPosAdd i := by
      have hnn : ¬ q + src.shift i < 0 := by omega
      rw [KvCells.posAdd_eq, if_neg (by simpa using hnn)]
      refine KvCells.ext rfl rfl rfl ?_ rfl ?_ ?_
      · simp [hb, KvCells.seqPosAdd]
      · simp [hb, KvCells.seqPosAdd, KvCells.seqPosRm, hseq]
      · funext s
        by_cases hst : s = t
        · subst hst
          simp [hb, KvCells.seqPosAdd, KvCells.seqPosRm, KvCells.seqAdd, KvCells.seqPosInc,
            KvCells.setSeq, KvCells.posSet, hseq]
        · simp [hb, KvCells.seqPosAdd, KvCells.seqPosRm, KvCells.seqAdd, KvCells.seqPosInc,
            KvCells.setSeq, KvCells.posSet, hseq, hst]
    rw [heq]
    have hrep : (b.seqPosAdd i).RepInv :=
      hbexc.seqPosAdd (h.lt hi) (iff_of_true hused hp) fun h' => absurd h' hp
    refine h.of_update (p := q + src.shift i) rfl hrep rfl (.inr (by omega))
  · simp only [if_neg hs]
    have hset : (dst.posSet i (src.pos i)).Ok n := h.posSet hi hempty hpos
    refine hset.seqAdd hi ?_ ?_
    · have : (dst.posSet i (src.pos i)).pos i = src.pos i := Function.update_self ..
      omega
    · simp [hseq]

/-- The loop of a `seq_cp` to another stream, whose cells it has reset. -/
lemma ok_copyLoop {src dst : KvCells} (hsrc : src.Ok n) (hdst : dst.Ok n)
    (hempty : ∀ i, dst.pos i = -1) (s t : SeqId) :
    ((List.range src.size).foldl
      (fun d i => if s ∈ src.seq i then copyCell src i t d else d) dst).Ok n := by
  have hrun : ∀ m ≤ n, ∃ d, (List.range m).foldl
      (fun d i => if s ∈ src.seq i then copyCell src i t d else d) dst = d ∧ d.Ok n ∧
        ∀ j ≥ m, d.pos j = -1 := by
    intro m
    induction m with
    | zero => exact fun _ => ⟨dst, rfl, hdst, fun j _ => hempty j⟩
    | succ m ih =>
      intro hm
      obtain ⟨d, hd, hok, hrest⟩ := ih (Nat.le_of_succ_le hm)
      rw [List.range_succ, List.foldl_append, hd]
      by_cases hs : s ∈ src.seq m
      · refine ⟨copyCell src m t d, if_pos hs, ?_, fun j hj => ?_⟩
        · exact ok_copyCell hok hm (hrest m le_rfl) (hsrc.pos_nonneg hm hs)
        · have hj' : j ≠ m := by omega
          rw [copyCell_pos_of_ne hj']
          exact hrest j (by omega)
      · exact ⟨d, if_neg hs, hok, fun j hj => hrest j (by omega)⟩
  obtain ⟨d, hd, hok, -⟩ := hrun n le_rfl
  rw [hsrc.size_eq, hd]
  exact hok

lemma Ok.seqCp (h : k.Ok cfg) {src dst : SeqId} {p0 p1 : ℤ}
    (hfresh : k.CopyFresh cfg src dst p0 p1) {k' : KvCache}
    (heq : k.seqCp cfg src dst p0 p1 = some k') : k'.Ok cfg := by
  simp only [KvCache.seqCp] at heq
  set k1 : KvCache := if cfg.PrefixSliding then _ else k with hk1
  have hcells : k1.cells = k.cells := by
    rw [hk1]
    split <;> rfl
  have h1 : k1.Ok cfg := h.of_cells hcells
  split_ifs at heq with hfull hstream hsame habort
  · exact Option.some.inj heq ▸ h
  · exact Option.some.inj heq ▸ h1
  · have hsweep := ok_copySweep (h1 (cfg.seqToStream src))
      (by rw [hcells]; exact hfresh hstream hsame)
    exact Option.some.inj heq ▸ h1.setCells hsweep
  · have hcopy := ok_copyLoop (h1 (cfg.seqToStream src)) (h1 (cfg.seqToStream dst)).reset
      (fun _ => rfl) src dst
    exact Option.some.inj heq ▸ (h1.setCells hcopy).of_cells rfl

end KvCache

end IFairy
