import IFairy.KvCache.Cells
import Mathlib.Algebra.Order.Ring.Int

/-!
# Batches: `llama_batch_allocr::init`

`BatchInp` is the `llama_batch` of a caller, where a null field is `none`; `init` checks it, fills
the missing fields and returns the completed `Batch`, or `none` where the source returns `false`.
`MemBounds` stands for the memory module, of which `init` reads `seq_pos_min` and `seq_pos_max`.

Arrays are functions of the index.  Embeddings are flat with `n_embd` entries per token and
positions are flat with one block of `n_tokens` per coordinate; `pos i` for `i < n_tokens` is the
position that the memory module uses.  A token has at least one sequence, since the source reads
`seq_id[i][0]` of every token.
-/

namespace IFairy

/-- `n_seq_id[i] ≥ 1` and `seq_id[i][0 .. n_seq_id[i])`. -/
structure SeqIds (α : Type*) where
  head : α
  tail : List α
  deriving DecidableEq

namespace SeqIds

variable {α β : Type*}

def toList (s : SeqIds α) : List α := s.head :: s.tail

def map (f : α → β) (s : SeqIds α) : SeqIds β := ⟨f s.head, s.tail.map f⟩

lemma head_mem (s : SeqIds α) : s.head ∈ s.toList := List.mem_cons_self

@[simp] lemma toList_map (f : α → β) (s : SeqIds α) : (s.map f).toList = s.toList.map f := rfl

end SeqIds

/-- `llama_batch` as the caller passes it. -/
structure BatchInp where
  nTokens : ℕ
  token : Option (ℕ → ℤ)
  embd : Option (ℕ → UInt32)
  pos : Option (ℕ → ℤ)
  seqId : Option (ℕ → SeqIds ℤ)
  logits : Option (ℕ → Bool)

/-- The batch that `init` leaves in the allocator. -/
structure Batch where
  nTokens : ℕ
  token : Option (ℕ → ℤ)
  embd : Option (ℕ → UInt32)
  pos : ℕ → ℤ
  seqId : ℕ → SeqIds SeqId
  logits : ℕ → Bool

/-- `seq_pos_min` and `seq_pos_max` of a memory module. -/
structure MemBounds where
  min : SeqId → ℤ
  max : SeqId → ℤ

namespace Batch

variable (b : Batch)

/-- `seq_set[i]`. -/
def seqSet (i : ℕ) : Finset SeqId := (b.seqId i).toList.toFinset

lemma mem_seqSet {i : ℕ} {s : SeqId} : s ∈ b.seqSet i ↔ s ∈ (b.seqId i).toList :=
  List.mem_toFinset

/-- `seq_pos[s]`: the positions that sequence `s` has in the batch. -/
def seqPos (s : SeqId) : Finset ℤ :=
  ((Finset.range b.nTokens).filter fun i => s ∈ b.seqSet i).image b.pos

/-- `llama_batch_allocr::seq_pos_min(s)`. -/
def seqPosMin (s : SeqId) : ℤ :=
  if h : (b.seqPos s).Nonempty then (b.seqPos s).min' h else -1

/-- `llama_batch_allocr::seq_pos_max(s)`. -/
def seqPosMax (s : SeqId) : ℤ :=
  if h : (b.seqPos s).Nonempty then (b.seqPos s).max' h else -1

/-- `seq_cpl[s1][s0]`: some token lists `s0` first and `s1` after it. -/
def SeqCpl (s1 s0 : SeqId) : Prop :=
  ∃ i < b.nTokens, (b.seqId i).head = s0 ∧ s1 ∈ (b.seqId i).tail

/-- `has_cpl`. -/
def HasCpl : Prop := ∃ i < b.nTokens, (b.seqId i).tail ≠ []

instance : Decidable b.HasCpl :=
  inferInstanceAs (Decidable (∃ i, i < b.nTokens ∧ (b.seqId i).tail ≠ []))

/-! ## The checks -/

/-- A sequence of the batch continues the memory and has no gap. -/
def SeqConsistent (mem : MemBounds) (s : SeqId) : Prop :=
  b.seqPos s = ∅ ∨
    ((0 ≤ mem.max s →
        b.seqPosMin s = mem.max s + 1 ∨ b.token.isNone ∧ b.seqPosMin s = mem.max s) ∧
      b.seqPosMax s - b.seqPosMin s + 1 ≤ (b.seqPos s).card)

instance (mem : MemBounds) (s : SeqId) : Decidable (b.SeqConsistent mem s) :=
  inferInstanceAs (Decidable (_ ∨ (_ → _) ∧ _))

/-- Coupled sequences hold the same range of positions in the memory. -/
def CplConsistent (mem : MemBounds) : Prop :=
  ∀ s0 s1 : SeqId, b.SeqCpl s0 s1 → mem.min s0 = mem.min s1 ∧ mem.max s0 = mem.max s1

lemma cplConsistent_iff {mem : MemBounds} : b.CplConsistent mem ↔
    ∀ i, i < b.nTokens → ∀ s ∈ (b.seqId i).tail,
      mem.min s = mem.min (b.seqId i).head ∧ mem.max s = mem.max (b.seqId i).head := by
  constructor
  · intro h i hi s hs
    exact h s _ ⟨i, hi, rfl, hs⟩
  · rintro h s1 s0 ⟨i, hi, rfl, hs⟩
    exact h i hi s1 hs

instance (mem : MemBounds) : Decidable (b.CplConsistent mem) :=
  decidable_of_iff' _ b.cplConsistent_iff

/-- `cur_seq_set[s]` after the round of token `i`: what the tokens so far that list `s` share. -/
def curSeqSet (i : ℕ) (s : SeqId) : Finset SeqId :=
  Finset.univ.filter fun t => ∀ i', i' < i + 1 → s ∈ b.seqSet i' → t ∈ b.seqSet i'

/-- The check of partial sequence sets and of decreasing positions; the source never updates
`cur_seq_pos`, so a position is compared with `-1`. -/
def SetsCompatible : Prop :=
  ∀ i, i < b.nTokens → ∀ s ∈ (b.seqId i).toList, b.curSeqSet i s ≠ ∅ ∧ ¬ b.pos i < -1

instance : Decidable b.SetsCompatible :=
  inferInstanceAs (Decidable (∀ i, i < b.nTokens →
    ∀ s ∈ (b.seqId i).toList, b.curSeqSet i s ≠ ∅ ∧ ¬ b.pos i < -1))

/-- The consistency checks of `init`. -/
structure Checked (mem : MemBounds) : Prop where
  consistent : ∀ s, b.SeqConsistent mem s
  cplConsistent : b.CplConsistent mem
  setsCompatible : b.SetsCompatible

instance (mem : MemBounds) : Decidable (b.Checked mem) :=
  decidable_of_iff ((∀ s, b.SeqConsistent mem s) ∧ b.CplConsistent mem ∧ b.SetsCompatible)
    ⟨fun h => ⟨h.1, h.2.1, h.2.2⟩, fun h => ⟨h.1, h.2, h.3⟩⟩

end Batch

namespace BatchInp

variable (b : BatchInp)

/-- No `invalid token[i]`. -/
def TokensValid (nVocab : ℕ) : Prop :=
  ∀ token ∈ b.token, ∀ i, i < b.nTokens → 0 ≤ token i ∧ token i < nVocab

instance (nVocab : ℕ) : Decidable (b.TokensValid nVocab) :=
  inferInstanceAs (Decidable (∀ token ∈ b.token, ∀ i, i < b.nTokens →
    0 ≤ token i ∧ token i < nVocab))

/-- No `invalid seq_id[i][s]`. -/
def SeqIdsValid (nSeqMax : ℕ) : Prop :=
  ∀ seqId ∈ b.seqId, ∀ i, i < b.nTokens → ∀ s ∈ (seqId i).toList, 0 ≤ s ∧ s < nSeqMax

instance (nSeqMax : ℕ) : Decidable (b.SeqIdsValid nSeqMax) :=
  inferInstanceAs (Decidable (∀ seqId ∈ b.seqId, ∀ i, i < b.nTokens →
    ∀ s ∈ (seqId i).toList, 0 ≤ s ∧ s < nSeqMax))

/-! ## The generated fields -/

/-- `seq_id`; every token goes to sequence `0` when the field is missing. -/
def fillSeqId (i : ℕ) : SeqIds SeqId :=
  match b.seqId with
  | none => ⟨0, []⟩
  | some seqId => (seqId i).map fun s => Fin.ofNat llamaMaxSeq s.toNat

/-- One round of the loop that generates positions: `p0` and the positions so far. -/
def autoPosStep (seqId : ℕ → SeqIds SeqId) (r : (SeqId → ℤ) × (ℕ → ℤ)) (i : ℕ) :
    (SeqId → ℤ) × (ℕ → ℤ) :=
  let p := r.1 (seqId i).head
  (fun s => if s ∈ (seqId i).toList then p + 1 else r.1 s, Function.update r.2 i p)

/-- `pos`; missing positions continue the memory. -/
def fillPos (mem : MemBounds) (seqId : ℕ → SeqIds SeqId) : ℕ → ℤ :=
  match b.pos with
  | none => ((List.range b.nTokens).foldl (autoPosStep seqId)
      (fun s => mem.max s + 1, fun _ => 0)).2
  | some pos => pos

/-- `logits`; by default the last token is an output, and every token when `output_all` is set. -/
def fillLogits (outputAll : Bool) : ℕ → Bool :=
  if outputAll then fun _ => true
  else match b.logits with
    | none => fun i => i + 1 = b.nTokens
    | some logits => logits

/-- The batch of which `init` checks the consistency. -/
def completed (mem : MemBounds) (outputAll : Bool) : Batch where
  nTokens := b.nTokens
  token := b.token
  embd := b.embd
  pos := b.fillPos mem b.fillSeqId
  seqId := b.fillSeqId
  logits := b.fillLogits outputAll

/-- `llama_batch_allocr::init`. -/
def init (mem : MemBounds) (nVocab nSeqMax : ℕ) (outputAll : Bool) : Option Batch :=
  if nSeqMax ≤ llamaMaxSeq ∧ b.TokensValid nVocab ∧ b.SeqIdsValid nSeqMax then
    let batch := b.completed mem outputAll
    if batch.Checked mem then some batch else none
  else none

lemma init_of_checked {b : BatchInp} {mem : MemBounds} {nVocab nSeqMax : ℕ} {outputAll : Bool}
    (hvalid : nSeqMax ≤ llamaMaxSeq ∧ b.TokensValid nVocab ∧ b.SeqIdsValid nSeqMax)
    (hchecked : (b.completed mem outputAll).Checked mem) :
    b.init mem nVocab nSeqMax outputAll = some (b.completed mem outputAll) :=
  (if_pos hvalid).trans (if_pos hchecked)

end BatchInp

/-! ## Accepted batches -/

namespace Batch

/-- What `init` guarantees about the batch it returns. -/
structure Accepted (b : Batch) (mem : MemBounds) (nSeqMax : ℕ) : Prop
    extends b.Checked mem where
  seqId_lt : ∀ i < b.nTokens, ∀ s ∈ (b.seqId i).toList, s.val < nSeqMax

variable {b : Batch} {mem : MemBounds} {nSeqMax : ℕ}

end Batch

lemma BatchInp.fillSeqId_lt {inp : BatchInp} {nSeqMax : ℕ} (hmax : 0 < nSeqMax)
    (hvalid : inp.SeqIdsValid nSeqMax) {i : ℕ} (hi : i < inp.nTokens) :
    ∀ s ∈ (inp.fillSeqId i).toList, s.val < nSeqMax := by
  intro s hs
  unfold BatchInp.fillSeqId at hs
  split at hs
  · obtain rfl : s = 0 := by simpa [SeqIds.toList] using hs
    simpa using hmax
  · rename_i seqId hsome
    rw [SeqIds.toList_map, List.mem_map] at hs
    obtain ⟨t, ht, rfl⟩ := hs
    obtain ⟨h0, hlt⟩ := hvalid seqId hsome i hi t ht
    have hle : t.toNat % llamaMaxSeq ≤ t.toNat := Nat.mod_le _ _
    rw [Fin.val_ofNat]
    omega

/-- `init` fills the missing fields and returns a batch that passes its checks. -/
lemma BatchInp.init_eq_some {inp : BatchInp} {mem : MemBounds} {nVocab nSeqMax : ℕ}
    {outputAll : Bool} {b : Batch} (hmax : 0 < nSeqMax)
    (h : inp.init mem nVocab nSeqMax outputAll = some b) :
    b.Accepted mem nSeqMax ∧ b.nTokens = inp.nTokens ∧ b.seqId = inp.fillSeqId ∧
      b.pos = inp.fillPos mem inp.fillSeqId := by
  unfold BatchInp.init at h
  by_cases hvalid : nSeqMax ≤ llamaMaxSeq ∧ inp.TokensValid nVocab ∧ inp.SeqIdsValid nSeqMax
  · rw [if_pos hvalid] at h
    obtain ⟨hchecked, heq⟩ := Option.ite_none_right_eq_some.1 h
    obtain rfl := Option.some.inj heq
    exact ⟨⟨hchecked, fun i hi => fillSeqId_lt hmax hvalid.2.2 hi⟩, rfl, rfl, rfl⟩
  · rw [if_neg hvalid] at h
    cases h

end IFairy
