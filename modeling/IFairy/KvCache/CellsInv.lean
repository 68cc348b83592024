import IFairy.KvCache.Cells

/-!
# The representation invariant of `llama_kv_cells`

`RepInv` says that the used set and the position maps are what the position and sequence arrays
determine.  `RepInvExcept c i` is the same with cell `i` left out of everything; it is what holds
between the `seq_pos_rm(i)` with which the operations begin and the `seq_pos_add(i)` or the
vacated cell with which they end.  Each operation keeps the invariant under the condition that the
source's `assert`s and comments state for it; the sections follow the order of the source.

`RepInv.seqPosMin_isLeast`, `RepInv.seqPosMax_isGreatest` read the bounds of a sequence off the
maps.
-/

namespace IFairy

namespace KvCells

open Finset

variable {c c' : KvCells} {i : ℕ} {s : SeqId} {p : ℤ}

/-- The entry that cell `i` makes in the position map of `s`. -/
def key (c : KvCells) (s : SeqId) (i : ℕ) : Option ℤ :=
  if s ∈ c.seq i then some (c.pos i) else none

lemma key_eq_some : c.key s i = some p ↔ s ∈ c.seq i ∧ c.pos i = p := by
  unfold key
  split <;> simp_all

/-- The used set and the position maps agree with the arrays; an empty cell holds nothing. -/
structure RepInv (c : KvCells) : Prop where
  mem_used : ∀ i, i ∈ c.used ↔ i < c.size ∧ c.pos i ≠ -1
  cleared : ∀ i < c.size, c.pos i = -1 → c.seq i = ∅ ∧ c.shift i = 0
  count_eq : ∀ s p, (c.seqPos s).count p = #{i ∈ range c.size | s ∈ c.seq i ∧ c.pos i = p}
  no_zero : ∀ s, ∀ p ∈ (c.seqPos s).keys, (c.seqPos s).count p ≠ 0

/-- Every position map is the tally of the cells' entries. -/
def Tallied (c : KvCells) : Prop := ∀ s, c.seqPos s = .tally (range c.size) (c.key s)

lemma RepInv.tallied (h : c.RepInv) : c.Tallied := by
  intro s
  ext p
  rw [h.count_eq, CountMap.count_tally]
  exact congrArg card (filter_congr fun i _ => key_eq_some.symm)

lemma RepInv.of_tallied (hused : ∀ i, i ∈ c.used ↔ i < c.size ∧ c.pos i ≠ -1)
    (hcleared : ∀ i < c.size, c.pos i = -1 → c.seq i = ∅ ∧ c.shift i = 0) (h : c.Tallied) :
    c.RepInv where
  mem_used := hused
  cleared := hcleared
  count_eq s p := by
    rw [h s, CountMap.count_tally]
    exact congrArg card (filter_congr fun i _ => key_eq_some)
  no_zero s p hp := ((c.seqPos s).mem_keys p).1 hp

lemma RepInv.ext (h : c.RepInv) (h' : c'.RepInv) (hsize : c.size = c'.size)
    (hshift : c.hasShift = c'.hasShift) (hpos : c.pos = c'.pos) (hsh : c.shift = c'.shift)
    (hseq : c.seq = c'.seq) : c = c' := by
  have hused : c.used = c'.used := by
    ext i
    rw [h.mem_used, h'.mem_used, hsize, hpos]
  have hkey : c.key = c'.key := by
    unfold key
    rw [hpos, hseq]
  have hmaps : c.seqPos = c'.seqPos := by
    funext s
    rw [h.tallied s, h'.tallied s, hsize, hkey]
  exact KvCells.ext hsize hshift hused hpos hsh hseq hmaps

lemma RepInv.pos_ne (h : c.RepInv) (hi : i < c.size) (hs : s ∈ c.seq i) : c.pos i ≠ -1 := by
  intro hp
  rw [(h.cleared i hi hp).1] at hs
  exact notMem_empty s hs

lemma repInv_resize (n : ℕ) : (resize n).RepInv :=
  .of_tallied (fun i => by simp [resize]) (fun _ _ _ => ⟨rfl, rfl⟩)
    fun s => (CountMap.tally_eq_empty fun i _ => if_neg (notMem_empty s)).symm

lemma RepInv.resetShift (h : c.RepInv) : c.resetShift.RepInv :=
  .of_tallied h.mem_used (fun i hi hp => ⟨(h.cleared i hi hp).1, rfl⟩) h.tallied

/-! ## The bounds of a sequence -/

lemma RepInv.count_ne_zero (h : c.RepInv) :
    (c.seqPos s).count p ≠ 0 ↔ ∃ i < c.size, s ∈ c.seq i ∧ c.pos i = p := by
  rw [h.count_eq, card_ne_zero, filter_nonempty_iff]
  simp only [mem_range]

/-- The positions of `s`. -/
def positions (c : KvCells) (s : SeqId) : Set ℤ := {p | ∃ i < c.size, s ∈ c.seq i ∧ c.pos i = p}

/-- `seq_pos_min` is the smallest position of a sequence that has a cell. -/
lemma RepInv.seqPosMin_isLeast (h : c.RepInv) (hne : (c.positions s).Nonempty) :
    IsLeast (c.positions s) (c.seqPosMin s) := by
  obtain ⟨p, hp⟩ := hne
  refine ⟨h.count_ne_zero.1 (CountMap.count_minKey (h.count_ne_zero.2 hp) _), ?_⟩
  exact fun q hq => CountMap.minKey_le (h.count_ne_zero.2 hq) _

/-- `seq_pos_max` is the largest position of a sequence that has a cell. -/
lemma RepInv.seqPosMax_isGreatest (h : c.RepInv) (hne : (c.positions s).Nonempty) :
    IsGreatest (c.positions s) (c.seqPosMax s) := by
  obtain ⟨p, hp⟩ := hne
  refine ⟨h.count_ne_zero.1 (CountMap.count_maxKey (h.count_ne_zero.2 hp) _), ?_⟩
  exact fun q hq => CountMap.le_maxKey (h.count_ne_zero.2 hq) _

lemma RepInv.count_eq_zero (h : c.RepInv) (hempty : c.positions s = ∅) (p : ℤ) :
    (c.seqPos s).count p = 0 := by
  by_contra hp
  have hmem : p ∈ c.positions s := h.count_ne_zero.1 hp
  rw [hempty] at hmem
  exact hmem

/-- Both bounds of a sequence without a cell are `-1`. -/
lemma RepInv.seqPos_bounds_of_empty (h : c.RepInv) (hempty : c.positions s = ∅) :
    c.seqPosMin s = -1 ∧ c.seqPosMax s = -1 :=
  ⟨CountMap.minKey_of_empty (h.count_eq_zero hempty) _,
    CountMap.maxKey_of_empty (h.count_eq_zero hempty) _⟩

/-! ## The invariant with one cell left out -/

/-- The invariant without cell `i`: neither side of any clause counts it. -/
structure RepInvExcept (c : KvCells) (i : ℕ) : Prop where
  mem_used : ∀ j ≠ i, j ∈ c.used ↔ j < c.size ∧ c.pos j ≠ -1
  cleared : ∀ j ≠ i, j < c.size → c.pos j = -1 → c.seq j = ∅ ∧ c.shift j = 0
  tallied : ∀ s, c.seqPos s = .tally (range c.size) (Function.update (c.key s) i none)

/-- Whatever is stored at cell `i` does not matter. -/
lemma RepInvExcept.congr (h : c.RepInvExcept i) (hsize : c'.size = c.size)
    (hmaps : c'.seqPos = c.seqPos) (hused : ∀ j ≠ i, j ∈ c'.used ↔ j ∈ c.used)
    (hpos : ∀ j ≠ i, c'.pos j = c.pos j) (hshift : ∀ j ≠ i, c'.shift j = c.shift j)
    (hseq : ∀ j ≠ i, c'.seq j = c.seq j) : c'.RepInvExcept i where
  mem_used j hj := by rw [hused j hj, h.mem_used j hj, hsize, hpos j hj]
  cleared j hj := by
    rw [hsize, hpos j hj, hseq j hj, hshift j hj]
    exact h.cleared j hj
  tallied s := by
    rw [hmaps, h.tallied s, hsize]
    refine congrArg _ (funext fun j => ?_)
    by_cases hj : j = i
    · rw [hj, Function.update_self, Function.update_self]
    · rw [Function.update_of_ne hj, Function.update_of_ne hj, key, key, hpos j hj, hseq j hj]

lemma RepInv.except (h : c.RepInv) (hseq : c.seq i = ∅) : c.RepInvExcept i where
  mem_used j _ := h.mem_used j
  cleared j _ := h.cleared j
  tallied s := by
    have hnone : c.key s i = none := if_neg (by simp [hseq])
    rw [← hnone, Function.update_eq_self]
    exact h.tallied s

/-- `seq_pos_rm(i)` takes cell `i` out of the maps. -/
lemma RepInv.seqPosRm (h : c.RepInv) (hi : i < c.size) : (c.seqPosRm i).RepInvExcept i where
  mem_used j _ := h.mem_used j
  cleared j _ := h.cleared j
  tallied s := by
    have hkey : (c.seqPosRm i).key = c.key := rfl
    have hsize : (c.seqPosRm i).size = c.size := rfl
    rw [hkey, hsize]
    by_cases hs : s ∈ c.seq i
    · rw [CountMap.tally_update_none (mem_range.2 hi) (key_eq_some.2 ⟨hs, rfl⟩), ← h.tallied s]
      exact if_pos hs
    · have hnone : c.key s i = none := if_neg hs
      rw [← hnone, Function.update_eq_self, ← h.tallied s]
      exact if_neg hs

/-- `seq_pos_add(i)` puts cell `i` back into the maps, whatever it holds now. -/
lemma RepInvExcept.seqPosAdd (h : c.RepInvExcept i) (hi : i < c.size)
    (hused : i ∈ c.used ↔ c.pos i ≠ -1) (hcleared : c.pos i = -1 → c.seq i = ∅ ∧ c.shift i = 0) :
    (c.seqPosAdd i).RepInv := by
  refine .of_tallied (fun j => ?_) (fun j hj hpj => ?_) fun s => ?_
  · by_cases hj : j = i
    · rw [hj]
      exact hused.trans (iff_and_self.2 fun _ => hi)
    · exact h.mem_used j hj
  · by_cases hji : j = i
    · rw [hji] at hpj ⊢
      exact hcleared hpj
    · exact h.cleared j hji hj hpj
  · have hkey : (c.seqPosAdd i).key = c.key := rfl
    have hsize : (c.seqPosAdd i).size = c.size := rfl
    rw [hkey, hsize]
    by_cases hs : s ∈ c.seq i
    · have hsome : c.key s i = some (c.pos i) := key_eq_some.2 ⟨hs, rfl⟩
      refine (if_pos hs).trans ?_
      rw [h.tallied s, ← CountMap.tally_update_some (mem_range.2 hi) _ (Function.update_self ..),
        Function.update_idem, ← hsome, Function.update_eq_self]
    · have hnone : c.key s i = none := if_neg hs
      refine (if_neg hs).trans ?_
      rw [h.tallied s, ← hnone, Function.update_eq_self]

lemma seqPosAdd_of_seq_empty (hseq : c.seq i = ∅) : c.seqPosAdd i = c :=
  KvCells.ext rfl rfl rfl rfl rfl rfl (funext fun s => if_neg (by simp [hseq]))

lemma seqPosRm_of_seq_empty (hseq : c.seq i = ∅) : c.seqPosRm i = c :=
  KvCells.ext rfl rfl rfl rfl rfl rfl (funext fun s => if_neg (by simp [hseq]))

lemma RepInvExcept.repInv (h : c.RepInvExcept i) (hi : i < c.size)
    (hused : i ∈ c.used ↔ c.pos i ≠ -1) (hseq : c.seq i = ∅)
    (hshift : c.pos i = -1 → c.shift i = 0) : c.RepInv := by
  rw [← seqPosAdd_of_seq_empty hseq]
  exact h.seqPosAdd hi hused fun hp => ⟨hseq, hshift hp⟩

lemma RepInvExcept.vacate (h : c.RepInvExcept i) (hi : i < c.size) (hseq : c.seq i = ∅) :
    (c.vacate i).RepInv := by
  have hexc : (c.vacate i).RepInvExcept i := by
    refine h.congr rfl rfl ?_ ?_ ?_ ?_
    all_goals intro j hj; simp [KvCells.vacate, hj]
  exact hexc.repInv hi (by simp [KvCells.vacate]) hseq fun _ => by simp [KvCells.vacate]

/-! ## The operations on one cell -/

lemma RepInv.rm (h : c.RepInv) (hi : i < c.size) : (c.rm i).RepInv := by
  refine RepInvExcept.vacate (.congr (h.seqPosRm hi) rfl rfl ?_ ?_ ?_ ?_) hi (by simp [setSeq])
  all_goals intro j hj; simp [setSeq, hj]

/-- `seq_rm(i, seq_id)` on a cell that has the sequence. -/
lemma RepInv.seqRm (h : c.RepInv) (hi : i < c.size) (hs : s ∈ c.seq i) :
    (c.seqRm i s).1.RepInv := by
  set d := (c.setSeq i ((c.seq i).erase s)).seqPosDec s (c.pos i) with hd
  have hdec : d.RepInv := by
    refine .of_tallied h.mem_used (fun j hj hp => ?_) fun t => ?_
    · by_cases hji : j = i
      · exact absurd (hji ▸ hp) (h.pos_ne hi hs)
      · simpa [hd, seqPosDec, setSeq, hji] using h.cleared j hj hp
    · by_cases hts : t = s
      · subst hts
        have hkey : d.key t = Function.update (c.key t) i none := by
          funext j
          by_cases hj : j = i
          · simp [hd, key, seqPosDec, setSeq, hj]
          · simp [hd, key, seqPosDec, setSeq, hj]
        have hsize : d.size = c.size := rfl
        rw [hkey, hsize, CountMap.tally_update_none (mem_range.2 hi) (key_eq_some.2 ⟨hs, rfl⟩),
          ← h.tallied t]
        exact Function.update_self ..
      · have hkey : d.key t = c.key t := by
          funext j
          by_cases hj : j = i
          · simp [hd, key, seqPosDec, setSeq, hj, hts]
          · simp [hd, key, seqPosDec, setSeq, hj]
        rw [hkey]
        exact (Function.update_of_ne hts ..).trans (h.tallied t)
  change (if d.seq i = ∅ then (d.vacate i, true) else (d, false)).1.RepInv
  by_cases hempty : d.seq i = ∅
  · rw [if_pos hempty]
    exact (hdec.except hempty).vacate hi hempty
  · rw [if_neg hempty]
    exact hdec

lemma RepInv.seqKeep (h : c.RepInv) (hi : i < c.size) : (c.seqKeep i s).1.RepInv := by
  unfold KvCells.seqKeep
  split_ifs with hs hany
  · -- the increment of the kept sequence is the `seq_pos_add` of the new cell
    have hadd : ((c.seqPosRm i).setSeq i {s}).seqPosInc s (c.pos i)
        = ((c.seqPosRm i).setSeq i {s}).seqPosAdd i := by
      refine KvCells.ext rfl rfl rfl rfl rfl rfl (funext fun t => ?_)
      by_cases ht : t = s
      · simp [seqPosInc, KvCells.seqPosAdd, setSeq, ht, KvCells.seqPosRm]
      · simp [seqPosInc, KvCells.seqPosAdd, setSeq, ht]
    change (((c.seqPosRm i).setSeq i {s}).seqPosInc s (c.pos i)).RepInv
    rw [hadd]
    have hp := h.pos_ne hi hs
    refine RepInvExcept.seqPosAdd (.congr (h.seqPosRm hi) rfl rfl ?_ ?_ ?_ ?_) hi
      (iff_of_true ((h.mem_used i).2 ⟨hi, hp⟩) hp) fun hp' => absurd hp' hp
    all_goals intro j hj; simp [setSeq, hj]
  · exact h.rm hi
  · exact h

/-- `seq_add(i, seq_id)` on an occupied cell that does not have the sequence. -/
lemma RepInv.seqAdd (h : c.RepInv) (hi : i < c.size) (hp : c.pos i ≠ -1) (hs : s ∉ c.seq i) :
    (c.seqAdd i s).RepInv := by
  refine .of_tallied h.mem_used (fun j hj hpj => ?_) fun t => ?_
  · have hji : j ≠ i := fun hji => hp (hji ▸ hpj)
    simpa [KvCells.seqAdd, seqPosInc, setSeq, hji] using h.cleared j hj hpj
  · by_cases hts : t = s
    · subst hts
      have hkey : (c.seqAdd i t).key t = Function.update (c.key t) i (some (c.pos i)) := by
        funext j
        by_cases hj : j = i
        · simp [key, KvCells.seqAdd, seqPosInc, setSeq, hj]
        · simp [key, KvCells.seqAdd, seqPosInc, setSeq, hj]
      have hsize : (c.seqAdd i t).size = c.size := rfl
      have hnone : c.key t i = none := if_neg hs
      rw [hkey, hsize, CountMap.tally_update_some (mem_range.2 hi) _ hnone, ← h.tallied t]
      exact Function.update_self ..
    · have hkey : (c.seqAdd i s).key t = c.key t := by
        funext j
        by_cases hj : j = i
        · simp [key, KvCells.seqAdd, seqPosInc, setSeq, hj, hts]
        · simp [key, KvCells.seqAdd, seqPosInc, setSeq, hj]
      rw [hkey]
      exact (Function.update_of_ne hts ..).trans (h.tallied t)

/-- `pos_set(i, p)` leaves the invariant of the other cells alone. -/
lemma RepInvExcept.posSet (h : c.RepInvExcept i) (p : ℤ) : (c.posSet i p).RepInvExcept i := by
  refine h.congr rfl rfl ?_ ?_ ?_ ?_
  all_goals intro j hj; simp [KvCells.posSet, hj]

/-- `pos_set(i, p)` on an empty cell. -/
lemma RepInv.posSet (h : c.RepInv) (hi : i < c.size) (hempty : c.pos i = -1) (hp : p ≠ -1) :
    (c.posSet i p).RepInv := by
  have hseq := (h.cleared i hi hempty).1
  refine ((h.except hseq).posSet p).repInv hi ?_ hseq fun _ => (h.cleared i hi hempty).2
  simpa [KvCells.posSet] using hp

/-- `pos_add(i, d)` on an occupied cell. -/
lemma RepInv.posAdd (h : c.RepInv) (hi : i < c.size) (hp : c.pos i ≠ -1) (d : ℤ) :
    (c.posAdd i d).1.RepInv := by
  set b : KvCells := { c.seqPosRm i with
    pos := Function.update c.pos i (c.pos i + d)
    shift := Function.update c.shift i (c.shift i + d)
    hasShift := true } with hb
  have hexc : b.RepInvExcept i := by
    refine (h.seqPosRm hi).congr rfl rfl ?_ ?_ ?_ ?_
    all_goals intro j hj; simp [hb, hj, KvCells.seqPosRm]
  change (if b.pos i < 0 then ((b.setSeq i ∅).vacate i, true) else (b.seqPosAdd i, false)).1.RepInv
  by_cases hneg : b.pos i < 0
  · rw [if_pos hneg]
    refine RepInvExcept.vacate (.congr hexc rfl rfl ?_ ?_ ?_ ?_) hi (by simp [setSeq])
    all_goals intro j hj; simp [setSeq, hj]
  · rw [if_neg hneg]
    have hp' : b.pos i ≠ -1 := by omega
    exact hexc.seqPosAdd hi (iff_of_true ((h.mem_used i).2 ⟨hi, hp⟩) hp') fun h' => absurd h' hp'

/-- `pos_div(i, d)` on an occupied cell whose quotient is a position. -/
lemma RepInv.posDiv (h : c.RepInv) (hi : i < c.size) (hp : c.pos i ≠ -1) {d : ℤ}
    (hd : (c.pos i).tdiv d ≠ -1) : (c.posDiv i d).RepInv := by
  set b : KvCells := { c.seqPosRm i with
    pos := Function.update c.pos i ((c.pos i).tdiv d)
    shift := Function.update c.shift i (c.shift i + (c.pos i - (c.pos i).tdiv d)) } with hb
  have hexc : b.RepInvExcept i := by
    refine (h.seqPosRm hi).congr rfl rfl ?_ ?_ ?_ ?_
    all_goals intro j hj; simp [hb, hj, KvCells.seqPosRm]
  have hp' : b.pos i ≠ -1 := by simpa [hb] using hd
  have hadd : (b.seqPosAdd i).RepInv :=
    hexc.seqPosAdd hi (iff_of_true ((h.mem_used i).2 ⟨hi, hp⟩) hp') fun h' => absurd h' hp'
  have heq : c.posDiv i d = { b.seqPosAdd i with hasShift := true } := by
    simp [KvCells.posDiv, hb, KvCells.seqPosAdd, KvCells.seqPosRm]
  rw [heq]
  exact .of_tallied hadd.mem_used hadd.cleared hadd.tallied

/-! ## Restoring saved cells -/

/-- The used set after one round of `set`. -/
private def usedAfter (c : KvCells) (i : ℕ) (p : ℤ) : Finset ℕ :=
  if c.pos i = -1 ∧ p ≠ -1 then insert i c.used
  else if c.pos i ≠ -1 ∧ p = -1 then c.used.erase i else c.used

/-- One round of `set` takes the cell out of the maps, stores it and puts it back. -/
private lemma setCell_eq (h : c.RepInv) (hi : i < c.size) {S : Finset SeqId}
    (hS : p = -1 → S = ∅) : c.setCell i p S = ({ c.seqPosRm i with
      used := usedAfter c i p
      pos := Function.update c.pos i p
      seq := Function.update c.seq i S } : KvCells).seqPosAdd i := by
  by_cases hp : p = -1
  · have hS' : S = ∅ := hS hp
    rw [seqPosAdd_of_seq_empty (by simp [hS'])]
    by_cases hpos : c.pos i = -1
    · rw [seqPosRm_of_seq_empty (h.cleared i hi hpos).1]
      simp [KvCells.setCell, usedAfter, hp, hpos]
    · simp [KvCells.setCell, usedAfter, hp, hpos, KvCells.seqPosRm]
  · by_cases hpos : c.pos i = -1
    · rw [seqPosRm_of_seq_empty (h.cleared i hi hpos).1]
      simp [KvCells.setCell, usedAfter, hp, hpos]
    · simp [KvCells.setCell, usedAfter, hp, hpos, KvCells.seqPosRm]

/-- One round of `set`: a cell restored as empty has no sequences and its shift is `0`. -/
lemma RepInv.setCell (h : c.RepInv) (hi : i < c.size) {S : Finset SeqId}
    (hempty : p = -1 → S = ∅ ∧ c.shift i = 0) : (c.setCell i p S).RepInv := by
  rw [setCell_eq h hi fun hp => (hempty hp).1]
  refine RepInvExcept.seqPosAdd (.congr (h.seqPosRm hi) rfl rfl ?_ ?_ ?_ ?_) hi ?_ ?_
  · intro j hj
    unfold usedAfter
    split_ifs <;> simp [hj, KvCells.seqPosRm]
  · intro j hj
    simp [hj, KvCells.seqPosRm]
  · intro j hj
    rfl
  · intro j hj
    simp [hj, KvCells.seqPosRm]
  · have hmem := h.mem_used i
    by_cases hpos : c.pos i = -1
    · by_cases hp : p = -1 <;> simp [usedAfter, hpos, hp, hmem]
    · by_cases hp : p = -1 <;> simp [usedAfter, hpos, hp, hmem, hi]
  · intro hp
    have hp' : p = -1 := by simpa using hp
    exact ⟨by simpa using (hempty hp').1, (hempty hp').2⟩

end KvCells

end IFairy
