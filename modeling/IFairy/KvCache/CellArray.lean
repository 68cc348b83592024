import IFairy.KvCache.CacheInv

/-!
# The cache as an array of cells

What the cells of a stream mean is an array of `Cell`s: position, pending shift, sequences.  Every
operation of `llama_kv_cells` updates one entry of the array by a function of that entry
(`rm_cell`, `seqRm_cell`, …), so a loop of the cache over a stream is a map over the array
(`sweep_cell`), and under the representation invariant the array determines the object
(`RepInv.ext_cell`).  The last section says what each operation of the cache does to the arrays.
-/

namespace IFairy

/-- Position, pending shift and sequences of a cell. -/
@[ext] structure Cell where
  pos : ℤ
  shift : ℤ
  seq : Finset SeqId
  deriving DecidableEq

namespace Cell

variable (x : Cell) (s : SeqId) (d : ℤ)

def empty : Cell := ⟨-1, 0, ∅⟩

@[simp] lemma empty_pos : empty.pos = -1 := rfl

@[simp] lemma empty_shift : empty.shift = 0 := rfl

@[simp] lemma empty_seq : empty.seq = ∅ := rfl

/-- Take sequence `s` out of the cell; without a sequence it is empty. -/
def rmSeq : Cell := if x.seq.erase s = ∅ then empty else { x with seq := x.seq.erase s }

/-- Keep only sequence `s`. -/
def keepSeq : Cell :=
  if s ∈ x.seq then { x with seq := {s} } else if x.seq ≠ ∅ then empty else x

/-- Put sequence `s` into the cell. -/
def addSeq : Cell := { x with seq := insert s x.seq }

/-- Move the position by `d`; a negative position empties the cell. -/
def addPos : Cell :=
  if x.pos + d < 0 then empty else { x with pos := x.pos + d, shift := x.shift + d }

/-- Divide the position by `d`. -/
def divPos : Cell :=
  { x with pos := x.pos.tdiv d, shift := x.shift + (x.pos - x.pos.tdiv d) }

/-- The position of the cell is in `[p0, p1)`. -/
def PosIn (p0 p1 : ℤ) : Prop := p0 ≤ x.pos ∧ x.pos < p1

instance (p0 p1 : ℤ) : Decidable (x.PosIn p0 p1) := inferInstanceAs (Decidable (_ ∧ _))

/-- Apply `F` to a cell of sequence `s` whose position is in `[p0, p1)`. -/
def onSeq (p0 p1 : ℤ) (F : Cell → Cell) : Cell := if x.PosIn p0 p1 ∧ s ∈ x.seq then F x else x

lemma onSeq_of_le {p0 p1 : ℤ} (F : Cell → Cell) (h : p1 ≤ p0) : x.onSeq s p0 p1 F = x :=
  if_neg fun hx => absurd (h.trans hx.1.1) (not_le.2 hx.1.2)

lemma rmSeq_seq : (x.rmSeq s).seq = x.seq.erase s := by
  unfold rmSeq
  split
  · rename_i h
    rw [h]
    rfl
  · rfl

lemma keepSeq_seq : (x.keepSeq s).seq = x.seq ∩ {s} := by
  unfold keepSeq
  split_ifs with hs hany
  · simp [hs]
  · simp [hs]
  · rw [not_not] at hany
    simp [hany]

end Cell

namespace KvCells

variable (c : KvCells) (i : ℕ) (s : SeqId) (p d : ℤ) (S : Finset SeqId)

/-- The array that the object stands for. -/
def cell (i : ℕ) : Cell := ⟨c.pos i, c.shift i, c.seq i⟩

@[simp] lemma cell_pos : (c.cell i).pos = c.pos i := rfl

@[simp] lemma cell_shift : (c.cell i).shift = c.shift i := rfl

@[simp] lemma cell_seq : (c.cell i).seq = c.seq i := rfl

variable {c} in
/-- Three arrays that change at `i` only are one array that changes at `i` only. -/
lemma cell_eq_update {c' : KvCells} {i : ℕ} {x : Cell}
    (hpos : c'.pos = Function.update c.pos i x.pos)
    (hshift : c'.shift = Function.update c.shift i x.shift)
    (hseq : c'.seq = Function.update c.seq i x.seq) :
    c'.cell = Function.update c.cell i x := by
  funext j
  by_cases hj : j = i
  · subst hj
    simp [cell, hpos, hshift, hseq]
  · simp [cell, hpos, hshift, hseq, hj]

lemma rm_cell : (c.rm i).cell = Function.update c.cell i .empty :=
  cell_eq_update rfl rfl rfl

lemma seqRm_cell : (c.seqRm i s).1.cell = Function.update c.cell i ((c.cell i).rmSeq s) := by
  refine cell_eq_update ?_ ?_ ?_
  · rw [seqRm_pos]
    split_ifs with h <;> simp [Cell.rmSeq, h]
  · rw [seqRm_shift]
    split_ifs with h <;> simp [Cell.rmSeq, h]
  · rw [seqRm_seq, Cell.rmSeq_seq]
    rfl

lemma seqKeep_cell :
    (c.seqKeep i s).1.cell = Function.update c.cell i ((c.cell i).keepSeq s) := by
  refine cell_eq_update ?_ ?_ ?_
  · rw [seqKeep_pos]
    by_cases hs : s ∈ c.seq i
    · simp [Cell.keepSeq, hs]
    · by_cases hany : c.seq i = ∅ <;> simp [Cell.keepSeq, hs, hany]
  · rw [seqKeep_shift]
    by_cases hs : s ∈ c.seq i
    · simp [Cell.keepSeq, hs]
    · by_cases hany : c.seq i = ∅ <;> simp [Cell.keepSeq, hs, hany]
  · rw [seqKeep_seq, Cell.keepSeq_seq]
    rfl

lemma seqAdd_cell : (c.seqAdd i s).cell = Function.update c.cell i ((c.cell i).addSeq s) :=
  cell_eq_update (Function.update_eq_self ..).symm (Function.update_eq_self ..).symm rfl

lemma posSet_cell :
    (c.posSet i p).cell = Function.update c.cell i { c.cell i with pos := p } :=
  cell_eq_update rfl (Function.update_eq_self ..).symm (Function.update_eq_self ..).symm

lemma posAdd_cell : (c.posAdd i d).1.cell = Function.update c.cell i ((c.cell i).addPos d) := by
  refine cell_eq_update ?_ ?_ ?_
  · rw [posAdd_pos]
    by_cases h : c.pos i + d < 0 <;> simp [Cell.addPos, h]
  · rw [posAdd_shift]
    by_cases h : c.pos i + d < 0 <;> simp [Cell.addPos, h]
  · rw [posAdd_seq]
    by_cases h : c.pos i + d < 0 <;> simp [Cell.addPos, h]

lemma posDiv_cell : (c.posDiv i d).cell = Function.update c.cell i ((c.cell i).divPos d) :=
  cell_eq_update rfl (posDiv_shift c i d) (Function.update_eq_self ..).symm

lemma setCell_cell :
    (c.setCell i p S).cell = Function.update c.cell i { c.cell i with pos := p, seq := S } :=
  cell_eq_update (setCell_pos ..) ((setCell_shift ..).trans (Function.update_eq_self ..).symm)
    (setCell_seq ..)

lemma RepInv.ext_cell {c c' : KvCells} (h : c.RepInv) (h' : c'.RepInv) (hsize : c.size = c'.size)
    (hshift : c.hasShift = c'.hasShift) (hcell : c.cell = c'.cell) : c = c' :=
  h.ext h' hsize hshift (funext fun i => congrArg Cell.pos (congrFun hcell i))
    (funext fun i => congrArg Cell.shift (congrFun hcell i))
    (funext fun i => congrArg Cell.seq (congrFun hcell i))

end KvCells

namespace KvCache

/-! ## Loops -/

/-- A sweep whose body maps its cell by `F` maps the array by `F`. -/
lemma sweep_cell {n : ℕ} {c : KvCells} {body : KvCells → ℕ → KvCells × Bool} (F : Cell → Cell)
    (hbody : ∀ c i, (body c i).1.cell = Function.update c.cell i (F (c.cell i)))
    (hsize : c.size = n) (j : ℕ) :
    (sweep body c).1.cell j = if j < n then F (c.cell j) else c.cell j := by
  refine sweep_run (P := fun i d => ∀ j, d.cell j = if j < i then F (c.cell j) else c.cell j)
    (fun d i _ hd j => ?_) (fun j => (if_neg (Nat.not_lt_zero j)).symm) hsize j
  rw [hbody]
  by_cases hj : j = i
  · subst hj
    rw [Function.update_self, hd j, if_neg (lt_irrefl j), if_pos j.lt_succ_self]
  · have hiff : j < i ↔ j < i + 1 := by omega
    rw [Function.update_of_ne hj, hd j]
    simp only [hiff]

def cell (k : KvCache) (st i : ℕ) : Cell := (k.cells st).cell i

variable {cfg : KvConfig} {k : KvCache} {st t j : ℕ}

lemma cell_setCells (k : KvCache) (st : ℕ) (c : KvCells) (t j : ℕ) :
    (k.setCells st c).cell t j = if t = st then c.cell j else k.cell t j := by
  unfold cell
  by_cases ht : t = st
  · rw [if_pos ht, ht, setCells_self]
  · rw [if_neg ht, setCells_of_ne ht]

lemma cell_of_cells {k k' : KvCache} (h : k'.cells = k.cells) : k'.cell = k.cell := by
  funext st i
  rw [cell, h]
  rfl

@[simp] lemma setHead_cell (k : KvCache) (st h : ℕ) : (k.setHead st h).cell = k.cell := rfl

@[simp] lemma resetKMean_cell (cfg : KvConfig) (k : KvCache) (st : ℕ) :
    (k.resetKMean cfg st).cell = k.cell := rfl

lemma sweepStream_cell {n : ℕ} {body : KvCells → ℕ → KvCells × Bool} (F : Cell → Cell)
    (hbody : ∀ c i, (body c i).1.cell = Function.update c.cell i (F (c.cell i)))
    (hsize : (k.cells st).size = n) (t j : ℕ) :
    (k.sweepStream st body).cell t j
      = if t = st ∧ j < n then F (k.cell t j) else k.cell t j := by
  have hcells : (k.sweepStream st body).cells
      = (k.setCells st (sweep body (k.cells st)).1).cells := sweepStream_cells k st body
  rw [cell_of_cells hcells]
  have hset := cell_setCells k st (sweep body (k.cells st)).1 t j
  refine hset.trans ?_
  by_cases ht : t = st
  · subst ht
    rw [if_pos rfl, sweep_cell F hbody hsize]
    simp only [true_and]
    rfl
  · rw [if_neg ht, if_neg fun h => ht h.1]

/-- The bodies of the loops of `seq_rm`, `seq_cp`, `seq_add` and `seq_div` for a sequence. -/
lemma onSeq_body {op : KvCells → ℕ → KvCells × Bool} (F : Cell → Cell)
    (hop : ∀ c i, (op c i).1.cell = Function.update c.cell i (F (c.cell i)))
    (s : SeqId) (p0 p1 : ℤ) (c : KvCells) (i : ℕ) :
    (if c.PosIn i p0 p1 ∧ s ∈ c.seq i then op c i else (c, false)).1.cell
      = Function.update c.cell i ((c.cell i).onSeq s p0 p1 F) := by
  by_cases h : c.PosIn i p0 p1 ∧ s ∈ c.seq i
  · have hx : (c.cell i).onSeq s p0 p1 F = F (c.cell i) := if_pos h
    rw [if_pos h, hx]
    exact hop c i
  · have hx : (c.cell i).onSeq s p0 p1 F = c.cell i := if_neg h
    rw [if_neg h, hx]
    exact (Function.update_eq_self ..).symm

/-- The sizes of the streams are the one of the configuration. -/
def Sized (cfg : KvConfig) (k : KvCache) : Prop := ∀ st, (k.cells st).size = cfg.kvSize

lemma Ok.sized (h : k.Ok cfg) : k.Sized cfg := fun st => (h st).size_eq

lemma kept_sized (n : ℕ) : Kept n fun c => c.size = n where
  size_eq _ h := h
  reset _ h := h
  rm _ _ h _ := h
  seqRm c i s h _ _ := (KvCells.seqRm_size c i s).trans h
  seqKeep c i s h _ := (KvCells.seqKeep_size c i s).trans h
  posAdd c i d _ h _ _ := (KvCells.posAdd_size c i d).trans h

lemma Sized.of_cells {k' : KvCache} (h : k.Sized cfg) (heq : k'.cells = k.cells) : k'.Sized cfg :=
  fun st => heq ▸ h st

lemma Sized.setCells {c : KvCells} (h : k.Sized cfg) {st : ℕ} (hc : c.size = cfg.kvSize) :
    (k.setCells st c).Sized cfg :=
  Streams.setCells (P := fun c => c.size = cfg.kvSize) h hc

lemma sized_new (cfg : KvConfig) : (new cfg).Sized cfg := fun _ => rfl

lemma Sized.clear (h : k.Sized cfg) (data : Bool) : (k.clear cfg data).Sized cfg :=
  Streams.clear (kept_sized cfg.kvSize) h data

lemma Sized.seqRm (h : k.Sized cfg) (seqId : Option SeqId) (p0 p1 : ℤ) :
    (k.seqRm cfg seqId p0 p1).Sized cfg :=
  Streams.seqRm (kept_sized cfg.kvSize) h seqId p0 p1

lemma Sized.seqKeep (h : k.Sized cfg) (s : SeqId) : (k.seqKeep cfg s).Sized cfg :=
  Streams.seqKeep (kept_sized cfg.kvSize) h s

lemma Sized.seqAdd (h : k.Sized cfg) (s : SeqId) (p0 p1 d : ℤ) :
    (k.seqAdd cfg s p0 p1 d).Sized cfg :=
  Streams.seqAdd (kept_sized cfg.kvSize) h s p0 p1 d

/-! ## The operations on sequences -/

/-- `seq_rm` of one sequence sweeps its stream. -/
lemma seqRm_some_cells (k : KvCache) (s : SeqId) (p0 p1 : ℤ) :
    (k.seqRm cfg (some s) p0 p1).cells = Function.update k.cells (cfg.seqToStream s)
      (sweep (fun c i => if c.PosIn i (clampP0 p0) (clampP1 p1) ∧ s ∈ c.seq i then c.seqRm i s
        else (c, false)) (k.cells (cfg.seqToStream s))).1 := by
  simp only [KvCache.seqRm]
  set k1 : KvCache := if cfg.PrefixSliding then _ else k with hk1
  have hcells : k1.cells = k.cells := by
    rw [hk1]
    split <;> rfl
  have hdrop : ∀ (k2 : KvCache) (Q : Prop) [Decidable Q],
      (if Q then k2.resetKMean cfg (cfg.seqToStream s) else k2).cells = k2.cells := by
    intro k2 Q _
    split <;> rfl
  rw [hdrop, sweepStream_cells, hcells]

/-- `seq_rm` of one sequence. -/
lemma seqRm_some_cell (hsize : k.Sized cfg) (s : SeqId) (p0 p1 : ℤ) (t j : ℕ) :
    (k.seqRm cfg (some s) p0 p1).cell t j =
      if t = cfg.seqToStream s ∧ j < cfg.kvSize then
        (k.cell t j).onSeq s (clampP0 p0) (clampP1 p1) fun x => x.rmSeq s
      else k.cell t j := by
  have hcells : (k.seqRm cfg (some s) p0 p1).cells = (k.sweepStream (cfg.seqToStream s) _).cells :=
    (seqRm_some_cells k s p0 p1).trans (sweepStream_cells k _ _).symm
  rw [cell_of_cells hcells, sweepStream_cell
    (fun x => x.onSeq s (clampP0 p0) (clampP1 p1) fun x => x.rmSeq s)
    (onSeq_body _ (fun c i => KvCells.seqRm_cell c i s) s _ _) (hsize _)]

/-- `seq_add`. -/
lemma seqAdd_cell (hsize : k.Sized cfg) (s : SeqId) (p0 p1 d : ℤ) (t j : ℕ) :
    (k.seqAdd cfg s p0 p1 d).cell t j =
      if (¬ cfg.PrefixSliding ∧ d ≠ 0) ∧ t = cfg.seqToStream s ∧ j < cfg.kvSize then
        (k.cell t j).onSeq s (clampP0 p0) (clampP1 p1) fun x => x.addPos d
      else k.cell t j := by
  simp only [KvCache.seqAdd]
  by_cases hp : cfg.PrefixSliding
  · simp [hp]
  by_cases hd : d = 0
  · simp [hd]
  rw [if_neg hp, if_neg hd]
  by_cases he : clampP0 p0 = clampP1 p1
  · -- the early return skips a range without positions
    rw [if_pos he, he, Cell.onSeq_of_le _ _ _ le_rfl, ite_self]
  · rw [if_neg he, setHead_cell, cell_setCells, sweep_cell
      (fun x => x.onSeq s (clampP0 p0) (clampP1 p1) fun x => x.addPos d)
      (onSeq_body _ (fun c i => KvCells.posAdd_cell c i d) s _ _) (hsize _)]
    by_cases ht : t = cfg.seqToStream s
    · subst ht
      simp only [hp, hd, not_false_eq_true, ne_eq, and_self, true_and, if_true]
      rfl
    · simp [ht]

/-- `seq_div`. -/
lemma seqDiv_cell (hsize : k.Sized cfg) (s : SeqId) (p0 p1 d : ℤ) (t j : ℕ) :
    (k.seqDiv cfg s p0 p1 d).cell t j =
      if (¬ cfg.PrefixSliding ∧ d ≠ 1) ∧ t = cfg.seqToStream s ∧ j < cfg.kvSize then
        (k.cell t j).onSeq s (clampP0 p0) (clampP1 p1) fun x => x.divPos d
      else k.cell t j := by
  simp only [KvCache.seqDiv]
  by_cases hp : cfg.PrefixSliding
  · simp [hp]
  by_cases hd : d = 1
  · simp [hd]
  rw [if_neg hp, if_neg hd]
  by_cases he : clampP0 p0 = clampP1 p1
  · rw [if_pos he, he, Cell.onSeq_of_le _ _ _ le_rfl, ite_self]
  · rw [if_neg he, cell_setCells, sweep_cell
      (fun x => x.onSeq s (clampP0 p0) (clampP1 p1) fun x => x.divPos d)
      (onSeq_body _ (fun c i => KvCells.posDiv_cell c i d) s _ _) (hsize _)]
    by_cases ht : t = cfg.seqToStream s
    · subst ht
      simp only [hp, hd, not_false_eq_true, ne_eq, and_self, true_and, if_true]
      rfl
    · simp [ht]

lemma foldl_sweepStream_cell {n m : ℕ} {body : KvCells → ℕ → KvCells × Bool} (F : Cell → Cell)
    (hbody : ∀ c i, (body c i).1.cell = Function.update c.cell i (F (c.cell i)))
    {step : KvCache → ℕ → KvCache} (hstep : ∀ k st, (step k st).cells = (k.sweepStream st body).cells)
    (hsize : ∀ st, (k.cells st).size = n)
    (hkeep : ∀ c : KvCells, c.size = n → (sweep body c).1.size = n) (t j : ℕ) :
    ((List.range m).foldl step k).cell t j
      = if t < m ∧ j < n then F (k.cell t j) else k.cell t j := by
  have hrun : ∀ m, (∀ st, (((List.range m).foldl step k).cells st).size = n) ∧
      ∀ t j, ((List.range m).foldl step k).cell t j
        = if t < m ∧ j < n then F (k.cell t j) else k.cell t j := by
    intro m
    induction m with
    | zero => exact ⟨hsize, fun t j => by simp⟩
    | succ m ih =>
      rw [List.range_succ, List.foldl_append, List.foldl_cons, List.foldl_nil]
      set k' := (List.range m).foldl step k
      obtain ⟨hsz, hcell⟩ := ih
      refine ⟨fun st => ?_, fun t j => ?_⟩
      · rw [hstep, sweepStream_cells]
        by_cases hst : st = m
        · rw [hst, Function.update_self]
          exact hkeep _ (hsz m)
        · rw [Function.update_of_ne hst]
          exact hsz st
      · rw [cell_of_cells (hstep k' m), sweepStream_cell F hbody (hsz m), hcell]
        by_cases ht : t = m
        · subst ht
          simp
        · have hiff : t < m ↔ t < m + 1 := by omega
          simp only [ht, false_and, if_false, hiff]
  exact (hrun m).2 t j

lemma sweep_size {n : ℕ} {c : KvCells} {body : KvCells → ℕ → KvCells × Bool}
    (hbody : ∀ c i, (body c i).1.size = c.size) (hsize : c.size = n) :
    (sweep body c).1.size = n :=
  sweep_inv (P := fun d => d.size = n) (fun d i hd _ => (hbody d i).trans hd) hsize hsize

/-- The streams that `seq_keep` goes through. -/
def KeepsStream (cfg : KvConfig) (s : SeqId) (t : ℕ) : Prop :=
  if cfg.PrefixSliding then t < cfg.nStream else t = cfg.seqToStream s

instance (cfg : KvConfig) (s : SeqId) (t : ℕ) : Decidable (KeepsStream cfg s t) :=
  inferInstanceAs (Decidable (if cfg.PrefixSliding then t < cfg.nStream
    else t = cfg.seqToStream s))

/-- `seq_keep`. -/
lemma seqKeep_cell (hsize : k.Sized cfg) (s : SeqId) (t j : ℕ) :
    (k.seqKeep cfg s).cell t j =
      if KeepsStream cfg s t ∧ j < cfg.kvSize then (k.cell t j).keepSeq s else k.cell t j := by
  unfold KvCache.seqKeep KeepsStream
  by_cases hp : cfg.PrefixSliding
  · simp only [hp, if_true]
    refine foldl_sweepStream_cell (fun x => x.keepSeq s) (fun c i => KvCells.seqKeep_cell c i s)
      (fun k st => ?_) hsize (fun c hc => ?_) t j
    · simp only [apply_ite KvCache.cells, resetKMean_cells, ite_self]
    · exact sweep_size (fun c i => KvCells.seqKeep_size c i s) hc
  · simp only [hp, if_false]
    exact sweepStream_cell (fun x => x.keepSeq s) (fun c i => KvCells.seqKeep_cell c i s)
      (hsize _) t j

/-- `seq_cp` within a stream. -/
lemma seqCp_same_cell (hsize : k.Sized cfg) {src dst : SeqId} {p0 p1 : ℤ} {k' : KvCache}
    (hstream : cfg.seqToStream src = cfg.seqToStream dst) (hne : src ≠ dst)
    (hfull : ¬ (cfg.PrefixSliding ∧ ¬ (p0 ≤ 0 ∧ p1 < 0)))
    (heq : k.seqCp cfg src dst p0 p1 = some k') (t j : ℕ) :
    k'.cell t j =
      if t = cfg.seqToStream src ∧ j < cfg.kvSize then
        (k.cell t j).onSeq src (clampP0 p0) (clampP1 p1) fun x => x.addSeq dst
      else k.cell t j := by
  simp only [KvCache.seqCp] at heq
  rw [if_neg hfull, if_pos hstream, if_neg hne] at heq
  set k1 : KvCache := if cfg.PrefixSliding then _ else k with hk1
  have hcells : k1.cells = k.cells := by
    rw [hk1]
    split <;> rfl
  have hsize1 : (k1.cells (cfg.seqToStream src)).size = cfg.kvSize := hcells ▸ hsize _
  have hadd : ∀ (c : KvCells) (i : ℕ), (c.seqAdd i dst, false).1.cell
      = Function.update c.cell i ((c.cell i).addSeq dst) := fun c i => KvCells.seqAdd_cell c i dst
  rw [← Option.some.inj heq, cell_setCells, sweep_cell
    (fun x => x.onSeq src (clampP0 p0) (clampP1 p1) fun x => x.addSeq dst)
    (onSeq_body _ hadd src _ _) hsize1, cell_of_cells hcells]
  by_cases ht : t = cfg.seqToStream src
  · subst ht
    simp only [true_and, if_true]
    rw [hcells]
    rfl
  · simp [ht]

lemma copyCell_cell {src dst : KvCells} {i : ℕ} {s : SeqId} (hempty : dst.cell i = .empty)
    (hpos : 0 ≤ src.pos i) :
    (copyCell src i s dst).cell
      = Function.update dst.cell i { src.cell i with seq := {s} } := by
  have hseq : dst.seq i = ∅ := congrArg Cell.seq hempty
  have hshift : dst.shift i = 0 := congrArg Cell.shift hempty
  unfold copyCell
  by_cases hs : src.shift i = 0
  · simp only [hs, ne_eq, not_true_eq_false, if_false]
    rw [KvCells.seqAdd_cell, KvCells.posSet_cell, Function.update_idem, Function.update_self]
    congr 1
    ext1 <;> simp [Cell.addSeq, hs, hshift, hseq]
  · simp only [hs, ne_eq, not_false_eq_true, if_true]
    rw [KvCells.posAdd_cell, KvCells.seqAdd_cell, KvCells.posSet_cell, Function.update_idem,
      Function.update_idem, Function.update_self, Function.update_self]
    congr 1
    have hnn : ¬ src.pos i < 0 := not_lt.2 hpos
    ext1 <;> simp [Cell.addSeq, Cell.addPos, hnn, hshift, hseq]

/-- The loop of a `seq_cp` to another stream. -/
lemma copyLoop_cell {src dst : KvCells} {s t : SeqId}
    (hpos : ∀ i < src.size, s ∈ src.seq i → 0 ≤ src.pos i) (hdst : ∀ i, dst.cell i = .empty)
    (j : ℕ) :
    ((List.range src.size).foldl
      (fun d i => if s ∈ src.seq i then copyCell src i t d else d) dst).cell j =
      if j < src.size ∧ s ∈ (src.cell j).seq then { src.cell j with seq := {t} } else .empty := by
  have hrun : ∀ m ≤ src.size, ∀ j, ((List.range m).foldl
      (fun d i => if s ∈ src.seq i then copyCell src i t d else d) dst).cell j =
      if j < m ∧ s ∈ (src.cell j).seq then { src.cell j with seq := {t} } else .empty := by
    intro m
    induction m with
    | zero =>
      intro _ j
      rw [if_neg fun h => Nat.not_lt_zero j h.1]
      exact hdst j
    | succ m ih =>
      intro hm j
      rw [List.range_succ, List.foldl_append, List.foldl_cons, List.foldl_nil]
      have hprev := ih (Nat.le_of_succ_le hm)
      by_cases hs : s ∈ src.seq m
      · have hempty := (hprev m).trans (if_neg fun h => lt_irrefl m h.1)
        rw [if_pos hs, copyCell_cell hempty (hpos m hm hs)]
        by_cases hj : j = m
        · subst hj
          rw [Function.update_self, if_pos ⟨j.lt_succ_self, hs⟩]
        · have hiff : j < m ↔ j < m + 1 := by omega
          rw [Function.update_of_ne hj, hprev j]
          simp only [hiff]
      · rw [if_neg hs, hprev j]
        by_cases hj : j = m
        · subst hj
          simp [hs]
        · have hiff : j < m ↔ j < m + 1 := by omega
          simp only [hiff]
  exact hrun _ le_rfl j

/-- `seq_cp` to another stream. -/
lemma seqCp_cross_cell (h : k.Ok cfg) {src dst : SeqId} {p0 p1 : ℤ} {k' : KvCache}
    (hstream : cfg.seqToStream src ≠ cfg.seqToStream dst)
    (hfull : ¬ (cfg.PrefixSliding ∧ ¬ (p0 ≤ 0 ∧ p1 < 0)))
    (heq : k.seqCp cfg src dst p0 p1 = some k') (t j : ℕ) :
    k'.cell t j =
      if t = cfg.seqToStream dst then
        let x := k.cell (cfg.seqToStream src) j
        if j < cfg.kvSize ∧ src ∈ x.seq then { x with seq := {dst} } else .empty
      else k.cell t j := by
  simp only [KvCache.seqCp] at heq
  rw [if_neg hfull, if_neg hstream] at heq
  set k1 : KvCache := if cfg.PrefixSliding then _ else k with hk1
  have hcells : k1.cells = k.cells := by
    rw [hk1]
    split <;> rfl
  split_ifs at heq with habort
  rw [← Option.some.inj heq, setHead_cell, cell_setCells]
  by_cases ht : t = cfg.seqToStream dst
  · rw [if_pos ht, if_pos ht, hcells]
    have hsrc := h (cfg.seqToStream src)
    rw [copyLoop_cell (fun i hi hs => hsrc.pos_nonneg (hsrc.size_eq ▸ hi) hs) fun _ => rfl,
      hsrc.size_eq]
    rfl
  · rw [if_neg ht, if_neg ht]
    exact congrFun (congrFun (cell_of_cells hcells) t) j

end KvCache

end IFairy
