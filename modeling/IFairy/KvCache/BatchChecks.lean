import IFairy.KvCache.Batch
import Mathlib.Data.Int.ConditionallyCompleteOrder
import Mathlib.Data.Int.Interval

/-!
# What `llama_batch_allocr::init` accepts

`Covers` and `Continues` say what the consistency checks are for, in terms of the tokens: the
positions of a sequence form a range without gaps, which starts right after the last position that
the memory stores.  Embeddings may repeat that position.  Sequences that share a token must hold
the same range in the memory.
-/

namespace IFairy

namespace Batch

variable (b : Batch)

/-- The positions of the sequence in the batch are the range from `lo` to `hi`. -/
def Covers (s : SeqId) (lo hi : ℤ) : Prop :=
  lo ≤ hi ∧ ∀ p, (∃ i < b.nTokens, s ∈ (b.seqId i).toList ∧ b.pos i = p) ↔ lo ≤ p ∧ p ≤ hi

/-- A sequence that occurs in the batch has a range without gaps, right after the last position
that the memory stores for it; embeddings may begin at that position. -/
def Continues (mem : MemBounds) : Prop :=
  ∀ s : SeqId, (∃ i < b.nTokens, s ∈ (b.seqId i).toList) →
    ∃ lo hi, b.Covers s lo hi ∧
      (0 ≤ mem.max s → lo = mem.max s + 1 ∨ b.token.isNone ∧ lo = mem.max s)

/-- The positions of a sequence do not decrease from token to token. -/
def InOrder : Prop :=
  ∀ i j, i < j → j < b.nTokens → ∀ s ∈ (b.seqId i).toList, s ∈ (b.seqId j).toList →
    b.pos i ≤ b.pos j

/-- Of two tokens that share a sequence, one belongs to all sequences of the other. -/
def Nested : Prop :=
  ∀ i < b.nTokens, ∀ j < b.nTokens, ∀ s ∈ (b.seqId i).toList, s ∈ (b.seqId j).toList →
    b.seqSet i ⊆ b.seqSet j ∨ b.seqSet j ⊆ b.seqSet i

variable {b} {mem : MemBounds} {s : SeqId} {lo hi : ℤ}

lemma mem_seqPos {p : ℤ} :
    p ∈ b.seqPos s ↔ ∃ i < b.nTokens, s ∈ (b.seqId i).toList ∧ b.pos i = p := by
  simp only [seqPos, Finset.mem_image, Finset.mem_filter, Finset.mem_range, mem_seqSet, and_assoc]

lemma covers_iff : b.Covers s lo hi ↔ lo ≤ hi ∧ b.seqPos s = Finset.Icc lo hi := by
  refine and_congr_right fun _ => ?_
  simp only [Finset.ext_iff, mem_seqPos, Finset.mem_Icc]

lemma seqPos_nonempty_iff : (b.seqPos s).Nonempty ↔ ∃ i < b.nTokens, s ∈ (b.seqId i).toList := by
  constructor
  · rintro ⟨p, hp⟩
    obtain ⟨i, hi, hs, -⟩ := mem_seqPos.1 hp
    exact ⟨i, hi, hs⟩
  · rintro ⟨i, hi, hs⟩
    exact ⟨b.pos i, mem_seqPos.2 ⟨i, hi, hs, rfl⟩⟩

lemma covers_of_card (h : (b.seqPos s).Nonempty)
    (hcard : b.seqPosMax s - b.seqPosMin s + 1 ≤ (b.seqPos s).card) :
    b.Covers s (b.seqPosMin s) (b.seqPosMax s) := by
  simp only [seqPosMin, seqPosMax, dif_pos h] at hcard ⊢
  have hle := Finset.min'_le_max' _ h
  refine covers_iff.2 ⟨hle, Finset.eq_of_subset_of_card_le (fun p hp => ?_) ?_⟩
  · exact Finset.mem_Icc.2 ⟨Finset.min'_le _ _ hp, Finset.le_max' _ _ hp⟩
  · rw [Int.card_Icc]
    omega

lemma Covers.bounds (h : b.Covers s lo hi) : b.seqPosMin s = lo ∧ b.seqPosMax s = hi := by
  obtain ⟨hle, heq⟩ := covers_iff.1 h
  have hne : (b.seqPos s).Nonempty := heq ▸ Finset.nonempty_Icc.2 hle
  have hmem : ∀ p ∈ b.seqPos s, lo ≤ p ∧ p ≤ hi := fun p hp => Finset.mem_Icc.1 (heq ▸ hp)
  have hlo : lo ∈ b.seqPos s := heq ▸ Finset.left_mem_Icc.2 hle
  have hhi : hi ∈ b.seqPos s := heq ▸ Finset.right_mem_Icc.2 hle
  rw [seqPosMin, seqPosMax, dif_pos hne, dif_pos hne]
  exact ⟨(Finset.min'_le _ _ hlo).antisymm (Finset.le_min' _ _ _ fun p hp => (hmem p hp).1),
    (Finset.max'_le _ _ _ fun p hp => (hmem p hp).2).antisymm (Finset.le_max' _ _ hhi)⟩

lemma forall_seqConsistent_iff : (∀ s, b.SeqConsistent mem s) ↔ b.Continues mem := by
  refine forall_congr' fun s => ?_
  rw [← seqPos_nonempty_iff]
  constructor
  · rintro (hempty | ⟨hstart, hcard⟩) hne
    · exact absurd hempty hne.ne_empty
    · exact ⟨_, _, covers_of_card hne hcard, hstart⟩
  · intro h
    rcases (b.seqPos s).eq_empty_or_nonempty with hempty | hne
    · exact .inl hempty
    · obtain ⟨lo, hi, hcovers, hstart⟩ := h hne
      obtain ⟨hmin, hmax⟩ := hcovers.bounds
      refine .inr ⟨by rwa [hmin], ?_⟩
      obtain ⟨hle, heq⟩ := covers_iff.1 hcovers
      rw [hmin, hmax, heq, Int.card_Icc]
      omega

lemma mem_curSeqSet (i : ℕ) (s : SeqId) : s ∈ b.curSeqSet i s := by
  simp [curSeqSet]

end Batch

/-! ## Acceptance -/

namespace BatchInp

open Batch

/-- `init` accepts a batch only when its ids are in range, the positions of every sequence continue
the memory without gaps, and sequences that share a token hold the same range in the memory.  Such a
batch is accepted when its positions are also in order and its sets of sequences are nested. -/
theorem init_accepts (inp : BatchInp) (mem : MemBounds) (nVocab nSeqMax : ℕ) (outputAll : Bool) :
    (∀ b, inp.init mem nVocab nSeqMax outputAll = some b →
        b = inp.completed mem outputAll ∧ nSeqMax ≤ llamaMaxSeq ∧ inp.TokensValid nVocab ∧
          inp.SeqIdsValid nSeqMax ∧ b.Continues mem ∧ b.CplConsistent mem) ∧
      (0 < inp.nTokens → nSeqMax ≤ llamaMaxSeq → inp.TokensValid nVocab →
        inp.SeqIdsValid nSeqMax →
        (inp.completed mem outputAll).Continues mem →
        (inp.completed mem outputAll).CplConsistent mem →
        (∀ i < inp.nTokens, 0 ≤ (inp.completed mem outputAll).pos i) →
        (inp.completed mem outputAll).InOrder → (inp.completed mem outputAll).Nested →
        inp.init mem nVocab nSeqMax outputAll = some (inp.completed mem outputAll)) := by
  refine ⟨fun b h => ?_, fun _ hmax htokens hids hcontinues hcpl hpos _ _ => ?_⟩
  · rw [init] at h
    obtain ⟨⟨hmax, htokens, hids⟩, h⟩ := Option.ite_none_right_eq_some.1 h
    obtain ⟨hchecked, heq⟩ := Option.ite_none_right_eq_some.1 h
    obtain rfl := Option.some.inj heq
    exact ⟨rfl, hmax, htokens, hids, forall_seqConsistent_iff.1 hchecked.consistent,
      hchecked.cplConsistent⟩
  · refine init_of_checked ⟨hmax, htokens, hids⟩
      ⟨forall_seqConsistent_iff.2 hcontinues, hcpl, fun i hi s _ => ⟨?_, ?_⟩⟩
    · exact Finset.nonempty_iff_ne_empty.1 ⟨s, mem_curSeqSet i s⟩
    · have := hpos i hi
      omega

/-- One embedding at position `5` of sequence `0`. -/
def oneEmbedding : BatchInp where
  nTokens := 1
  token := none
  embd := some fun _ => 0
  pos := some fun _ => 5
  seqId := none
  logits := none

/-- A memory in which every sequence holds the positions `0` to `5`. -/
def sixStored : MemBounds := ⟨fun _ => 0, fun _ => 5⟩

lemma oneEmbedding_init :
    oneEmbedding.init sixStored 0 1 false = some (oneEmbedding.completed sixStored false) :=
  init_of_checked ⟨by decide, by simp [TokensValid, oneEmbedding], by decide⟩ (by decide +kernel)

theorem init_accepts_oneEmbedding :
    oneEmbedding.init sixStored 0 1 false = some (oneEmbedding.completed sixStored false) ∧
      (oneEmbedding.completed sixStored false).Continues sixStored :=
  ⟨oneEmbedding_init,
    ((init_accepts oneEmbedding sixStored 0 1 false).1 _ oneEmbedding_init).2.2.2.2.1⟩

/-- A batch of embeddings that begins at the last stored position is accepted. -/
theorem not_init_startsAfter :
    ¬ ∀ (inp : BatchInp) (mem : MemBounds) (nVocab nSeqMax : ℕ) (outputAll : Bool) (b : Batch),
      inp.init mem nVocab nSeqMax outputAll = some b →
        b.InOrder ∧ ∀ s : SeqId, (∃ i < b.nTokens, s ∈ (b.seqId i).toList) →
          ∃ lo hi, b.Covers s lo hi ∧ (0 ≤ mem.max s → lo = mem.max s + 1) := by
  intro h
  obtain ⟨lo, hi, ⟨_, hcovers⟩, hstart⟩ :=
    (h _ _ _ _ _ _ oneEmbedding_init).2 0 ⟨0, by decide, by decide⟩
  obtain rfl : lo = 6 := hstart (by decide)
  have hfive := (hcovers 5).1 ⟨0, by decide, by decide, by decide⟩
  omega

end BatchInp

end IFairy
