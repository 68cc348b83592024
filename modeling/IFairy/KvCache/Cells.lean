import IFairy.Framework.CountMap
import Mathlib.Algebra.GroupWithZero.Nat
import Mathlib.Order.Lattice.Nat

/-!
# The metadata of KV cells: `llama_kv_cells`

Each cell has a position (`-1` when it is empty), the shift that was added to the position since
the last `reset_shift`, and the set of sequences that occupy it.  Beside these arrays the object
keeps the set of used cells and, for every sequence, a map from positions to the number of cells
that hold them; `seq_pos_min` and `seq_pos_max` are read from that map.

The arrays are functions of the cell index, meaningful below `size`.  A sequence id is below
`LLAMA_MAX_SEQ`, the width of the bit set of a cell.  Functions of the source that change the
object and return a value return the pair.  The `assert`s of the source are not executed in a
release build and are not part of the definitions.
-/

namespace IFairy

/-- `LLAMA_MAX_SEQ`. -/
def llamaMaxSeq : ℕ := 256

instance : NeZero llamaMaxSeq := ⟨by decide⟩

lemma two_le_llamaMaxSeq : 2 ≤ llamaMaxSeq := by decide

lemma one_le_llamaMaxSeq : 1 ≤ llamaMaxSeq := Nat.le_of_succ_le two_le_llamaMaxSeq

/-- A sequence id that fits the bit set of a cell. -/
abbrev SeqId := Fin llamaMaxSeq

/-- `llama_kv_cells`. -/
@[ext] structure KvCells where
  size : ℕ
  hasShift : Bool
  used : Finset ℕ
  pos : ℕ → ℤ
  shift : ℕ → ℤ
  seq : ℕ → Finset SeqId
  seqPos : SeqId → CountMap ℤ

namespace KvCells

/-- `resize(n)`, which ends in `reset()`. -/
def resize (n : ℕ) : KvCells where
  size := n
  hasShift := false
  used := ∅
  pos _ := -1
  shift _ := 0
  seq _ := ∅
  seqPos _ := .empty

/-- `reset()`. -/
def reset (c : KvCells) : KvCells := resize c.size

/-- `reset_shift()`. -/
def resetShift (c : KvCells) : KvCells := { c with hasShift := false, shift := fun _ => 0 }

/-- `is_empty(i)`. -/
def IsEmpty (c : KvCells) (i : ℕ) : Prop := c.pos i = -1

instance (c : KvCells) (i : ℕ) : Decidable (c.IsEmpty i) := inferInstanceAs (Decidable (_ = _))

/-- `get_used()`. -/
def getUsed (c : KvCells) : ℕ := c.used.card

/-- `used_max_p1()`: one more than the last used cell, `0` when no cell is used. -/
def usedMaxP1 (c : KvCells) : ℕ := c.used.sup (· + 1)

/-- `pos_in(i, p0, p1)`. -/
def PosIn (c : KvCells) (i : ℕ) (p0 p1 : ℤ) : Prop := p0 ≤ c.pos i ∧ c.pos i < p1

instance (c : KvCells) (i : ℕ) (p0 p1 : ℤ) : Decidable (c.PosIn i p0 p1) :=
  inferInstanceAs (Decidable (_ ∧ _))

/-- `seq_get(i)`: the lowest sequence of the cell. -/
def seqGet (c : KvCells) (i : ℕ) : Option SeqId := (List.finRange llamaMaxSeq).find? (· ∈ c.seq i)

/-- `seq_pos_min(seq_id)`. -/
def seqPosMin (c : KvCells) (s : SeqId) : ℤ := (c.seqPos s).minKey (-1)

/-- `seq_pos_max(seq_id)`. -/
def seqPosMax (c : KvCells) (s : SeqId) : ℤ := (c.seqPos s).maxKey (-1)

/-! ## The position maps -/

/-- `seq_pos_dec(s, p)`. -/
def seqPosDec (c : KvCells) (s : SeqId) (p : ℤ) : KvCells :=
  { c with seqPos := Function.update c.seqPos s ((c.seqPos s).dec p) }

/-- `seq_pos_inc(s, p)`. -/
def seqPosInc (c : KvCells) (s : SeqId) (p : ℤ) : KvCells :=
  { c with seqPos := Function.update c.seqPos s ((c.seqPos s).inc p) }

/-- `seq_pos_rm(i)`: `seq_pos_dec` for every sequence of the cell. -/
def seqPosRm (c : KvCells) (i : ℕ) : KvCells :=
  { c with seqPos := fun s => if s ∈ c.seq i then (c.seqPos s).dec (c.pos i) else c.seqPos s }

/-- `seq_pos_add(i)`: `seq_pos_inc` for every sequence of the cell. -/
def seqPosAdd (c : KvCells) (i : ℕ) : KvCells :=
  { c with seqPos := fun s => if s ∈ c.seq i then (c.seqPos s).inc (c.pos i) else c.seqPos s }

/-! ## Operations on one cell -/

/-- `pos[i] = -1; shift[i] = 0; used.erase(i)`, with which four functions of the source end. -/
def vacate (c : KvCells) (i : ℕ) : KvCells :=
  { c with
    pos := Function.update c.pos i (-1)
    shift := Function.update c.shift i 0
    used := c.used.erase i }

/-- `seq[i] = S`. -/
def setSeq (c : KvCells) (i : ℕ) (S : Finset SeqId) : KvCells :=
  { c with seq := Function.update c.seq i S }

/-- `rm(i)`. -/
def rm (c : KvCells) (i : ℕ) : KvCells := ((c.seqPosRm i).setSeq i ∅).vacate i

/-- `seq_rm(i, seq_id)`. -/
def seqRm (c : KvCells) (i : ℕ) (s : SeqId) : KvCells × Bool :=
  let c := (c.setSeq i ((c.seq i).erase s)).seqPosDec s (c.pos i)
  if c.seq i = ∅ then (c.vacate i, true) else (c, false)

/-- `seq_keep(i, seq_id)`. -/
def seqKeep (c : KvCells) (i : ℕ) (s : SeqId) : KvCells × Bool :=
  if s ∈ c.seq i then
    (((c.seqPosRm i).setSeq i {s}).seqPosInc s (c.pos i), false)
  else if c.seq i ≠ ∅ then
    (((c.seqPosRm i).setSeq i ∅).vacate i, true)
  else
    (c, false)

/-- `seq_add(i, seq_id)`. -/
def seqAdd (c : KvCells) (i : ℕ) (s : SeqId) : KvCells :=
  (c.setSeq i (insert s (c.seq i))).seqPosInc s (c.pos i)

/-- `pos_set(i, p)`. -/
def posSet (c : KvCells) (i : ℕ) (p : ℤ) : KvCells :=
  { c with pos := Function.update c.pos i p, used := insert i c.used }

/-- `pos_add(i, d)`. -/
def posAdd (c : KvCells) (i : ℕ) (d : ℤ) : KvCells × Bool :=
  let c := c.seqPosRm i
  let c := { c with
    pos := Function.update c.pos i (c.pos i + d)
    shift := Function.update c.shift i (c.shift i + d)
    hasShift := true }
  if c.pos i < 0 then ((c.setSeq i ∅).vacate i, true) else (c.seqPosAdd i, false)

/-- `pos_div(i, d)`; the division truncates towards zero. -/
def posDiv (c : KvCells) (i : ℕ) (d : ℤ) : KvCells :=
  let pOld := c.pos i
  let c := c.seqPosRm i
  let c := { c with pos := Function.update c.pos i ((c.pos i).tdiv d) }
  let c := { c with shift := Function.update c.shift i (c.shift i + (pOld - c.pos i)) }
  let c := c.seqPosAdd i
  { c with hasShift := true }

/-! ## Saving and restoring cells -/

/-- `cp(idxs)`: the positions and sequences of the cells, in the order of the indices. -/
def cp (c : KvCells) (idxs : List ℕ) : KvCells :=
  { resize idxs.length with
    pos := fun j => c.pos (idxs.getD j 0)
    seq := fun j => c.seq (idxs.getD j 0) }

/-- One round of the loop of `set(idxs, other)`: the cell gets position `p` and sequences `S`. -/
def setCell (c : KvCells) (idx : ℕ) (p : ℤ) (S : Finset SeqId) : KvCells :=
  let c := if c.pos idx = -1 ∧ p ≠ -1 then { c with used := insert idx c.used } else c
  let c := if c.pos idx ≠ -1 ∧ p = -1 then { c with used := c.used.erase idx } else c
  let c := if c.pos idx ≠ -1 then c.seqPosRm idx else c
  let c := { c with pos := Function.update c.pos idx p, seq := Function.update c.seq idx S }
  if c.pos idx ≠ -1 then c.seqPosAdd idx else c

/-- `set(idxs, other)`. -/
def set (c : KvCells) (idxs : List ℕ) (other : KvCells) : KvCells :=
  (List.range other.size).foldl
    (fun c j => c.setCell (idxs.getD j 0) (other.pos j) (other.seq j)) c

/-! ## What the operations do to the arrays -/

section Arrays

variable (c : KvCells) (i : ℕ) (s : SeqId) (p d : ℤ) (S : Finset SeqId)

@[simp] lemma rm_seq : (c.rm i).seq = Function.update c.seq i ∅ := rfl

lemma seqRm_eq : c.seqRm i s =
    if (c.seq i).erase s = ∅ then
      (((c.setSeq i ((c.seq i).erase s)).seqPosDec s (c.pos i)).vacate i, true)
    else ((c.setSeq i ((c.seq i).erase s)).seqPosDec s (c.pos i), false) := by
  simp [seqRm, setSeq, seqPosDec]

@[simp] lemma seqRm_size : (c.seqRm i s).1.size = c.size := by
  rw [seqRm_eq]
  split <;> rfl

@[simp] lemma seqRm_hasShift : (c.seqRm i s).1.hasShift = c.hasShift := by
  rw [seqRm_eq]
  split <;> rfl

@[simp] lemma seqRm_seq :
    (c.seqRm i s).1.seq = Function.update c.seq i ((c.seq i).erase s) := by
  rw [seqRm_eq]
  split <;> rfl

lemma seqRm_pos : (c.seqRm i s).1.pos =
    if (c.seq i).erase s = ∅ then Function.update c.pos i (-1) else c.pos := by
  rw [seqRm_eq]
  split <;> rfl

lemma seqRm_shift : (c.seqRm i s).1.shift =
    if (c.seq i).erase s = ∅ then Function.update c.shift i 0 else c.shift := by
  rw [seqRm_eq]
  split <;> rfl

@[simp] lemma seqKeep_size : (c.seqKeep i s).1.size = c.size := by
  unfold seqKeep
  split_ifs <;> rfl

@[simp] lemma seqKeep_seq : (c.seqKeep i s).1.seq = Function.update c.seq i (c.seq i ∩ {s}) := by
  unfold seqKeep
  split_ifs with hs hany
  · simp [seqPosInc, setSeq, seqPosRm, hs]
  · simp [vacate, setSeq, seqPosRm, hs]
  · rw [not_not] at hany
    simp [hany]

lemma seqKeep_pos : (c.seqKeep i s).1.pos =
    if s ∉ c.seq i ∧ c.seq i ≠ ∅ then Function.update c.pos i (-1) else c.pos := by
  unfold seqKeep
  split_ifs <;> simp_all [seqPosInc, setSeq, seqPosRm, vacate]

lemma seqKeep_shift : (c.seqKeep i s).1.shift =
    if s ∉ c.seq i ∧ c.seq i ≠ ∅ then Function.update c.shift i 0 else c.shift := by
  unfold seqKeep
  split_ifs <;> simp_all [seqPosInc, setSeq, seqPosRm, vacate]

@[simp] lemma seqAdd_pos : (c.seqAdd i s).pos = c.pos := rfl

@[simp] lemma seqAdd_shift : (c.seqAdd i s).shift = c.shift := rfl

@[simp] lemma seqAdd_seq :
    (c.seqAdd i s).seq = Function.update c.seq i (insert s (c.seq i)) := rfl

@[simp] lemma posSet_pos : (c.posSet i p).pos = Function.update c.pos i p := rfl

@[simp] lemma posSet_shift : (c.posSet i p).shift = c.shift := rfl

@[simp] lemma posSet_seq : (c.posSet i p).seq = c.seq := rfl

lemma posAdd_eq : c.posAdd i d =
    if c.pos i + d < 0 then
      ((({ c.seqPosRm i with
          pos := Function.update c.pos i (c.pos i + d)
          shift := Function.update c.shift i (c.shift i + d)
          hasShift := true } : KvCells).setSeq i ∅).vacate i, true)
    else
      (({ c.seqPosRm i with
          pos := Function.update c.pos i (c.pos i + d)
          shift := Function.update c.shift i (c.shift i + d)
          hasShift := true } : KvCells).seqPosAdd i, false) := by
  simp [posAdd, seqPosRm]

@[simp] lemma posAdd_size : (c.posAdd i d).1.size = c.size := by
  rw [posAdd_eq]
  split <;> rfl

lemma posAdd_pos : (c.posAdd i d).1.pos =
    Function.update c.pos i (if c.pos i + d < 0 then -1 else c.pos i + d) := by
  rw [posAdd_eq]
  split <;> simp [vacate, setSeq, seqPosAdd]

lemma posAdd_shift : (c.posAdd i d).1.shift =
    Function.update c.shift i (if c.pos i + d < 0 then 0 else c.shift i + d) := by
  rw [posAdd_eq]
  split <;> simp [vacate, setSeq, seqPosAdd]

lemma posAdd_seq : (c.posAdd i d).1.seq =
    Function.update c.seq i (if c.pos i + d < 0 then ∅ else c.seq i) := by
  rw [posAdd_eq]
  split <;> simp [vacate, setSeq, seqPosAdd, seqPosRm]

@[simp] lemma posDiv_shift : (c.posDiv i d).shift =
    Function.update c.shift i (c.shift i + (c.pos i - (c.pos i).tdiv d)) := by
  simp [posDiv, seqPosAdd, seqPosRm]

@[simp] lemma setCell_size : (c.setCell i p S).size = c.size := by
  simp only [setCell, seqPosAdd, seqPosRm, apply_ite KvCells.size, ite_self]

@[simp] lemma setCell_pos : (c.setCell i p S).pos = Function.update c.pos i p := by
  simp only [setCell, seqPosAdd, seqPosRm, apply_ite KvCells.pos, ite_self]

@[simp] lemma setCell_shift : (c.setCell i p S).shift = c.shift := by
  simp only [setCell, seqPosAdd, seqPosRm, apply_ite KvCells.shift, ite_self]

@[simp] lemma setCell_seq : (c.setCell i p S).seq = Function.update c.seq i S := by
  simp only [setCell, seqPosAdd, seqPosRm, apply_ite KvCells.seq, ite_self]

@[simp] lemma setCell_hasShift : (c.setCell i p S).hasShift = c.hasShift := by
  simp only [setCell, seqPosAdd, seqPosRm, apply_ite KvCells.hasShift, ite_self]

end Arrays

end KvCells

end IFairy
