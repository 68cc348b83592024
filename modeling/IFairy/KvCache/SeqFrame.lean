import IFairy.KvCache.MachineInv
import IFairy.KvCache.Ubatches

/-!
# What an operation on one sequence does to the others

`seq_keep` is documented to remove all tokens that do not belong to the sequence.  With prefix
sliding it goes through every stream; otherwise only through the stream of the sequence, so it does
what it is documented to do exactly when no other stream has tokens of other sequences
(`seqKeep_keepsOnly_iff`).

`seq_rm` leaves the cells of every other sequence alone.  `seq_add` and `seq_div` move a cell for
all its sequences: the position is stored once per cell (`entry_frame`).
-/

namespace IFairy

namespace Cell

variable {x : Cell} {s t : SeqId}

lemma mem_keepSeq : s ∈ (x.keepSeq s).seq ↔ s ∈ x.seq := by
  rw [keepSeq_seq, Finset.mem_inter, Finset.mem_singleton]
  exact and_iff_left rfl

lemma keepSeq_pos (h : s ∈ x.seq) : (x.keepSeq s).pos = x.pos := by
  rw [keepSeq, if_pos h]

/-- Position and pending shift of the cell, when sequence `t` has it. -/
def entry (x : Cell) (t : SeqId) : Option (ℤ × ℤ) :=
  if t ∈ x.seq then some (x.pos, x.shift) else none

lemma entry_of_mem (h : t ∈ x.seq) : x.entry t = some (x.pos, x.shift) := if_pos h

lemma entry_of_notMem (h : t ∉ x.seq) : x.entry t = none := if_neg h

lemma entry_rmSeq (hne : t ≠ s) : (x.rmSeq s).entry t = x.entry t := by
  by_cases ht : t ∈ x.seq
  · have hmem : t ∈ x.seq.erase s := Finset.mem_erase.2 ⟨hne, ht⟩
    rw [rmSeq, if_neg (Finset.ne_empty_of_mem hmem), entry_of_mem ht]
    exact if_pos hmem
  · rw [entry_of_notMem ht]
    apply entry_of_notMem
    rw [rmSeq_seq]
    exact fun h => ht (Finset.mem_of_mem_erase h)

/-- A position moved by `d` moves for every sequence of the cell; a negative one is dropped. -/
lemma entry_addPos (x : Cell) (d : ℤ) : (x.addPos d).entry t =
    (x.entry t).bind fun e => if e.1 + d < 0 then none else some (e.1 + d, e.2 + d) := by
  unfold addPos
  by_cases ht : t ∈ x.seq
  · rw [entry_of_mem ht, Option.bind_some]
    split
    · exact entry_of_notMem (Finset.notMem_empty t)
    · exact entry_of_mem ht
  · rw [entry_of_notMem ht, Option.bind_none]
    split
    · exact entry_of_notMem (Finset.notMem_empty t)
    · exact entry_of_notMem ht

lemma entry_divPos (x : Cell) (d : ℤ) :
    ((x.divPos d).entry t).map Prod.fst = (x.entry t).map fun e => e.1.tdiv d := by
  by_cases ht : t ∈ x.seq
  · rw [entry_of_mem ht, entry_of_mem (x := x.divPos d) ht]
    rfl
  · rw [entry_of_notMem ht, entry_of_notMem (x := x.divPos d) ht]
    rfl

end Cell

namespace KvCache

variable {cfg : KvConfig} {k k' : KvCache} {s t : SeqId} {p0 p1 d : ℤ}

/-! ## `seq_keep` -/

/-- Positions, streams and cells of a sequence. -/
def placed (cfg : KvConfig) (k : KvCache) (s : SeqId) : Set (ℤ × ℕ × ℕ) :=
  {e | e.2.1 < cfg.nStream ∧ e.2.2 < cfg.kvSize ∧ s ∈ (k.cell e.2.1 e.2.2).seq ∧
    (k.cell e.2.1 e.2.2).pos = e.1}

/-- `k'` holds only tokens of `s`, and those that `k` holds. -/
def KeepsOnly (cfg : KvConfig) (k k' : KvCache) (s : SeqId) : Prop :=
  (∀ st < cfg.nStream, ∀ j < cfg.kvSize, ∀ t ∈ (k'.cell st j).seq, t = s) ∧
    k'.placed cfg s = k.placed cfg s

/-- Every other stream than that of `s` is free of other sequences. -/
def AloneElsewhere (cfg : KvConfig) (k : KvCache) (s : SeqId) : Prop :=
  ∀ st < cfg.nStream, st ≠ cfg.seqToStream s → ∀ j < cfg.kvSize, ∀ t ∈ (k.cell st j).seq, t = s

lemma seqKeep_placed (h : k.Sized cfg) (s : SeqId) :
    (k.seqKeep cfg s).placed cfg s = k.placed cfg s := by
  ext ⟨p, st, j⟩
  refine and_congr_right fun _ => and_congr_right fun _ => ?_
  change s ∈ ((k.seqKeep cfg s).cell st j).seq ∧ ((k.seqKeep cfg s).cell st j).pos = p ↔ _
  rw [seqKeep_cell h]
  split
  · rw [Cell.mem_keepSeq]
    refine and_congr_right fun hs => ?_
    rw [Cell.keepSeq_pos hs]
  · exact Iff.rfl

lemma seqKeep_keepsOnly_iff (h : k.Sized cfg) (s : SeqId) :
    KeepsOnly cfg k (k.seqKeep cfg s) s ↔ cfg.PrefixSliding ∨ k.AloneElsewhere cfg s := by
  refine (and_iff_left (seqKeep_placed h s)).trans ?_
  have hswept : ∀ st j, KeepsStream cfg s st → j < cfg.kvSize →
      ∀ t ∈ ((k.seqKeep cfg s).cell st j).seq, t = s := by
    intro st j hst hj t ht
    rw [seqKeep_cell h, if_pos ⟨hst, hj⟩, Cell.keepSeq_seq, Finset.mem_inter] at ht
    exact Finset.mem_singleton.1 ht.2
  by_cases hp : cfg.PrefixSliding
  · refine iff_of_true (fun st hst j hj => hswept st j ?_ hj) (.inl hp)
    rw [KeepsStream, if_pos hp]
    exact hst
  · rw [or_iff_right hp]
    refine forall₂_congr fun st hst => ?_
    by_cases heq : st = cfg.seqToStream s
    · refine iff_of_true (fun j hj => hswept st j ?_ hj) fun hne => absurd heq hne
      rw [KeepsStream, if_neg hp]
      exact heq
    · have hother : ¬ KeepsStream cfg s st := by
        rw [KeepsStream, if_neg hp]
        exact heq
      have hsame : ∀ j, (k.seqKeep cfg s).cell st j = k.cell st j := fun j => by
        rw [seqKeep_cell h, if_neg fun hc => hother hc.1]
      simp only [hsame, ne_eq, heq, not_false_eq_true, true_implies]

/-! ## `seq_rm`, `seq_add` and `seq_div` -/

/-- Position and pending shift of a cell, when sequence `t` has it. -/
def entry (k : KvCache) (t : SeqId) (st j : ℕ) : Option (ℤ × ℤ) := (k.cell st j).entry t

/-- The cells that an operation on `s` and the range `[p0, p1)` goes through. -/
def Touches (cfg : KvConfig) (k : KvCache) (s : SeqId) (p0 p1 : ℤ) (st j : ℕ) : Prop :=
  (st = cfg.seqToStream s ∧ j < cfg.kvSize) ∧
    (k.cell st j).PosIn (clampP0 p0) (clampP1 p1) ∧ s ∈ (k.cell st j).seq

instance (cfg : KvConfig) (k : KvCache) (s : SeqId) (p0 p1 : ℤ) (st j : ℕ) :
    Decidable (k.Touches cfg s p0 p1 st j) := inferInstanceAs (Decidable (_ ∧ _))

lemma onSeq_touches (k : KvCache) (s : SeqId) (p0 p1 : ℤ) (st j : ℕ) (F : Cell → Cell) :
    (if st = cfg.seqToStream s ∧ j < cfg.kvSize then
        (k.cell st j).onSeq s (clampP0 p0) (clampP1 p1) F else k.cell st j)
      = if k.Touches cfg s p0 p1 st j then F (k.cell st j) else k.cell st j := by
  unfold Touches Cell.onSeq
  by_cases hst : st = cfg.seqToStream s ∧ j < cfg.kvSize
  · simp only [hst, and_self, if_true, true_and]
  · simp only [hst, if_false, false_and]

lemma seqRm_entry (h : k.Sized cfg) (hne : t ≠ s) (st j : ℕ) :
    (k.seqRm cfg (some s) p0 p1).entry t st j = k.entry t st j := by
  rw [entry, seqRm_some_cell h, onSeq_touches]
  split
  · exact Cell.entry_rmSeq hne
  · rfl

lemma seqAdd_entry (h : k.Sized cfg) (st j : ℕ) :
    (k.seqAdd cfg s p0 p1 d).entry t st j =
      if ¬ cfg.PrefixSliding ∧ k.Touches cfg s p0 p1 st j then
        (k.entry t st j).bind fun e => if e.1 + d < 0 then none else some (e.1 + d, e.2 + d)
      else k.entry t st j := by
  have hmove := @onSeq_touches cfg k s p0 p1 st j fun x => x.addPos d
  unfold entry
  rw [seqAdd_cell h]
  by_cases hp : cfg.PrefixSliding
  · simp only [hp, not_true_eq_false, false_and, if_false]
  by_cases hd : d = 0
  · -- a position in the range is not negative, and moving it by `0` changes nothing
    subst hd
    simp only [ne_eq, not_true_eq_false, and_false, false_and, if_false, hp, not_false_eq_true,
      true_and, add_zero]
    split
    · rename_i htouch
      have hnn : ¬ (k.cell st j).pos < 0 := by
        have hle := htouch.2.1.1
        unfold clampP0 at hle
        split at hle <;> omega
      by_cases ht : t ∈ (k.cell st j).seq
      · rw [Cell.entry_of_mem ht, Option.bind_some, if_neg hnn]
      · rw [Cell.entry_of_notMem ht, Option.bind_none]
    · rfl
  · simp only [hp, hd, not_false_eq_true, ne_eq, and_self, true_and]
    rw [hmove]
    split
    · exact Cell.entry_addPos _ d
    · rfl

lemma seqDiv_entry (h : k.Sized cfg) (st j : ℕ) :
    ((k.seqDiv cfg s p0 p1 d).entry t st j).map Prod.fst =
        (if ¬ cfg.PrefixSliding ∧ k.Touches cfg s p0 p1 st j then
          (k.entry t st j).map fun e => e.1.tdiv d
        else (k.entry t st j).map Prod.fst) ∧
      (¬ (¬ cfg.PrefixSliding ∧ k.Touches cfg s p0 p1 st j) →
        (k.seqDiv cfg s p0 p1 d).entry t st j = k.entry t st j) := by
  have hmove := @onSeq_touches cfg k s p0 p1 st j fun x => x.divPos d
  unfold entry
  rw [seqDiv_cell h]
  by_cases hp : cfg.PrefixSliding
  · simp only [hp, not_true_eq_false, false_and, if_false, implies_true, and_self]
  by_cases hd : d = 1
  · subst hd
    simp only [ne_eq, not_true_eq_false, and_false, false_and, if_false, implies_true, and_true,
      Int.tdiv_one]
    exact (ite_self _).symm
  · simp only [hp, hd, not_false_eq_true, ne_eq, and_self, true_and]
    rw [hmove]
    split
    · rename_i htouch
      exact ⟨Cell.entry_divPos _ d, fun hno => absurd htouch hno⟩
    · exact ⟨rfl, fun _ => rfl⟩

end KvCache

namespace KvMachine

open KvCache

variable {cfg : KvConfig} {m : KvMachine} {rope : KvLayer → ℤ → (ℕ → UInt8) → ℕ → UInt8}
  {ok : KvMachine → KvOp → Prop}

/-! ## Reachable caches -/

/-- `seq_keep` of a reachable cache keeps the sequence and nothing else exactly with prefix sliding
or when the other streams have no token of another sequence. -/
theorem seqKeep_iff (h : Reaches (step rope cfg) ok (start cfg) m) (s : SeqId) :
    KeepsOnly cfg m.cache (m.cache.seqKeep cfg s) s ↔
      cfg.PrefixSliding ∨ m.cache.AloneElsewhere cfg s :=
  seqKeep_keepsOnly_iff (sound_of_reaches h).sized s

theorem seqKeep_iff_decodedOnce : ∃ m,
    Reaches (step noRope oneStream) (fun _ _ => True) (start oneStream) m ∧
      m.cache.entry 0 0 0 = some (0, 0) ∧
        KeepsOnly oneStream m.cache (m.cache.seqKeep oneStream 0) 0 := by
  obtain ⟨m, hreach, hentry⟩ := exists_reached_of_perform (by decide +kernel :
    (perform (step noRope oneStream) (start oneStream) decodedOnce).map
      (fun m => m.cache.entry 0 0 0) = some (some (0, 0)))
  refine ⟨m, hreach, hentry, (seqKeep_iff hreach 0).2 (.inr fun st hst hne => ?_)⟩
  have hzero : st = 0 := Nat.lt_one_iff.1 hst
  exact absurd hzero hne

/-- One token for sequence `1`. -/
def tokenOfOne : BatchInp := { oneToken with seqId := some fun _ => ⟨1, []⟩ }

/-- The token of sequence `1` is in another stream than sequence `0`, which is to be kept. -/
theorem not_keepsOnly_tokenOfOne : ∃ m,
    Reaches (step noRope twoStreams) (fun _ _ => True) (start twoStreams) m ∧
      idOk twoStreams 0 ∧ ¬ KeepsOnly twoStreams m.cache (m.cache.seqKeep twoStreams 0) 0 := by
  obtain ⟨m, hreach, hmem⟩ := exists_reached_of_perform (by decide +kernel :
    (perform (step noRope twoStreams) (start twoStreams)
      [.decode (tokenOfOne.firstDecode (.equal true) 1), .apply .zero true]).map
      (fun m => decide (1 ∈ ((m.cache.seqKeep twoStreams 0).cell 1 0).seq)) = some true)
  refine ⟨m, hreach, by decide, fun h => ?_⟩
  exact absurd (h.1 1 (by decide) 0 (by decide) 1 (of_decide_eq_true hmem)) (by decide)

/-- What an operation on sequence `s` does to the cells of another sequence `t`. -/
theorem entry_frame (h : Reaches (step rope cfg) ok (start cfg) m) {s t : SeqId} (hne : t ≠ s)
    (p0 p1 d : ℤ) (st j : ℕ) :
    (m.cache.seqRm cfg (some s) p0 p1).entry t st j = m.cache.entry t st j ∧
      (m.cache.seqAdd cfg s p0 p1 d).entry t st j =
        (if ¬ cfg.PrefixSliding ∧ m.cache.Touches cfg s p0 p1 st j then
          (m.cache.entry t st j).bind fun e =>
            if e.1 + d < 0 then none else some (e.1 + d, e.2 + d)
        else m.cache.entry t st j) ∧
      (d ≠ 0 → ((m.cache.seqDiv cfg s p0 p1 d).entry t st j).map Prod.fst =
        if ¬ cfg.PrefixSliding ∧ m.cache.Touches cfg s p0 p1 st j then
          (m.cache.entry t st j).map fun e => e.1.tdiv d
        else (m.cache.entry t st j).map Prod.fst) ∧
      (¬ (¬ cfg.PrefixSliding ∧ m.cache.Touches cfg s p0 p1 st j) →
        (m.cache.seqDiv cfg s p0 p1 d).entry t st j = m.cache.entry t st j) := by
  have hsize := (sound_of_reaches h).sized
  exact ⟨seqRm_entry hsize hne st j, seqAdd_entry hsize st j, fun _ => (seqDiv_entry hsize st j).1,
    (seqDiv_entry hsize st j).2⟩

/-- A token of sequence `0` that is shared with sequence `1`. -/
def copiedOnce : List KvOp := decodedOnce ++ [.seqCp 0 1 (-1) (-1)]

theorem entry_frame_copiedOnce : ∃ m,
    Reaches (step noRope oneStream) (fun _ _ => True) (start oneStream) m ∧
      (m.cache.seqRm oneStream (some 0) (-1) (-1)).entry 1 0 0 = some (0, 0) := by
  obtain ⟨m, hreach, hentry⟩ := exists_reached_of_perform (by decide +kernel :
    (perform (step noRope oneStream) (start oneStream) copiedOnce).map
      (fun m => m.cache.entry 1 0 0) = some (some (0, 0)))
  exact ⟨m, hreach, (entry_frame hreach (by decide) (-1) (-1) 3 0 0).1.trans hentry⟩

/-- Moving sequence `0` moves the shared cell for sequence `1`. -/
theorem not_entry_frame_copiedOnce : ∃ m,
    Reaches (step noRope oneStream) (fun _ _ => True) (start oneStream) m ∧
      (m.cache.seqAdd oneStream 0 (-1) (-1) 3).entry 1 0 0 ≠ m.cache.entry 1 0 0 := by
  obtain ⟨m, hreach, hread⟩ := exists_reached_of_perform (by decide +kernel :
    (perform (step noRope oneStream) (start oneStream) copiedOnce).map
      (fun m => (m.cache.entry 1 0 0, (m.cache.seqAdd oneStream 0 (-1) (-1) 3).entry 1 0 0))
        = some (some (0, 0), some (3, 3)))
  obtain ⟨hold, hnew⟩ := Prod.mk.inj hread
  refine ⟨m, hreach, ?_⟩
  rw [hold, hnew]
  decide

end KvMachine

end IFairy
