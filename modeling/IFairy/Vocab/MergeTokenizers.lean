import IFairy.Vocab.MergeQueueSpec
import Mathlib.Data.Prod.Lex

/-!
# The SPM and the BPE tokenizer merge the best pair

Each tokenizer comes to the symbols of its reference: all neighbours are scanned after every merge,
and the pair with the greatest score (`rescanSpm`) or the smallest rank (`rescanBpe`) is merged, the
leftmost of them.  The symbols, one after the other, are the text.

A BPE vocabulary may ask for its merges to be ignored where a word is a token.  Such a word stays
one symbol, even where no merges lead to it (`not_rescanBpe`); all others are merged as in the
reference (`tokenize_eq_rescan`).
-/

namespace IFairy.MergeQueue

open PairMerging

/-! ## The references -/

def characters (text : List UInt8) : List (List UInt8) := (spans text).map (Span.bytes text)

/-- The score of the token that two texts make. -/
def spmCand {S : Type} (vocab : SpmVocab S) (a b : List UInt8) : Option S :=
  (vocab.textToToken (a ++ b)).bind fun token =>
    if vocab.nTokens ≤ token then none else some (vocab.score token)

/-- The rank of two texts; a smaller rank is a greater key. -/
def bpeCand (vocab : BpeVocab) (a b : List UInt8) : Option ℕᵒᵈ :=
  (vocab.findBpeRank a b).map OrderDual.toDual

/-- The code points, merged by the greatest score. -/
def rescanSpm {S : Type} [LinearOrder S] (vocab : SpmVocab S) (text : List UInt8) :
    List (List UInt8) :=
  PairMerging.merged (spmCand vocab) (· ++ ·) (characters text)

/-- The code points, merged by the smallest rank. -/
def rescanBpe (vocab : BpeVocab) (word : List UInt8) : List (List UInt8) :=
  PairMerging.merged (bpeCand vocab) (· ++ ·) (characters word)

/-- The symbols of a word where the merges of tokens may be ignored. -/
def wordSymbols (vocab : BpeVocab) (word : List UInt8) : List (List UInt8) :=
  if vocab.ignoreMerges = true ∧ vocab.textToToken word ≠ none ∧ word ≠ [] then [word]
  else rescanBpe vocab word

/-! ## The rules -/

variable {text : List UInt8} {symbols : ℕ → LlmSymbol} {stop count : ℕ} {alive : List ℕ}

lemma Span.bytes_of_adjacent {l r : Span} (h : l.offs + l.n = r.offs) :
    Span.bytes text ⟨l.offs, l.n + r.n⟩ = l.bytes text ++ r.bytes text := by
  rw [bytes_add, h]

lemma ruleFits_spm {S : Type} (vocab : SpmVocab S) :
    RuleFits (spmRule vocab) text (spmCand vocab) where
  key_eq l r hadj _ := by
    rw [spmCand, ← Span.bytes_of_adjacent hadj]
    rfl
  tag_inj l offs n n' _ _ htag := Nat.add_left_cancel htag

lemma Span.length_bytes {offs n : ℕ} (h : offs + n ≤ text.length) :
    (Span.bytes text ⟨offs, n⟩).length = n := by
  rw [bytes, List.length_take, List.length_drop]
  dsimp only
  omega

lemma ruleFits_bpe (vocab : BpeVocab) : RuleFits (bpeRule vocab) text (bpeCand vocab) where
  key_eq l r _ _ := rfl
  tag_inj l offs n n' hle hn htag := by
    have hbytes : Span.bytes text ⟨offs, n⟩ = Span.bytes text ⟨offs, n'⟩ :=
      List.append_cancel_left htag
    have hlength := congrArg List.length hbytes
    rwa [Span.length_bytes hle, Span.length_bytes ((Nat.add_le_add_left hn offs).trans hle)]
      at hlength

/-! ## The symbols that are left -/

namespace Linked

variable (h : Linked symbols stop count alive)

include h

lemma length_le : alive.length ≤ count := by
  have hsubset : alive ⊆ List.range count := fun i hi => List.mem_range.2 (h.lt_count i hi)
  have hlength := (List.subperm_of_subset (h.sorted.imp fun hlt => hlt.ne) hsubset).length_le
  rwa [List.length_range] at hlength

lemma filter_eq : ((List.range count).filter fun i => 0 < (symbols i).n) = alive := by
  refine List.Pairwise.eq_of_mem_iff (List.pairwise_lt_range.filter _) h.sorted fun i => ?_
  rw [List.mem_filter, List.mem_range, decide_eq_true_iff]
  constructor
  · rintro ⟨-, hn⟩
    by_contra hdead
    exact hn.ne' (h.dead i hdead)
  · exact fun hi => ⟨h.lt_count i hi, h.chain.n_pos hi⟩

end Linked

lemma spans_pos (h : text ≠ []) : 0 < (spans text).length := by
  cases text with
  | nil => exact absurd rfl h
  | cons c text =>
    rw [spans, List.length_cons, spansFrom, if_pos (List.length_pos_of_ne_nil h)]
    exact Nat.succ_pos _

/-! ## The tokenizers -/

lemma spmSymbols_eq {S : Type} [LinearOrder S] (vocab : SpmVocab S) (queue : PriorityQueue S ℕ)
    (h : text ≠ []) :
    spmSymbols vocab queue text = some (rescanSpm vocab text) ∧
      (rescanSpm vocab text).flatten = text := by
  obtain ⟨s, alive, hmerge, hlinked, htexts⟩ := exists_mergeText text (ruleFits_spm vocab) queue
  have hflatten := hlinked.chain.flatten_texts
  rw [htexts, List.drop_zero] at hflatten
  refine ⟨?_, hflatten⟩
  rw [spmSymbols, hmerge, Option.map_some, ← hlinked.head (spans_pos h),
    hlinked.chain.walk_eq hlinked.length_le, htexts]
  rfl

/-- The symbols of a word are those of its reference unless its merges are ignored, and make the
word. -/
lemma bpeWord_eq (vocab : BpeVocab) (queue : PriorityQueue ℕᵒᵈ (List UInt8)) (word : List UInt8) :
    bpeWord vocab queue word = some (wordSymbols vocab word) ∧
      (wordSymbols vocab word).flatten = word := by
  obtain ⟨s, alive, hmerge, hlinked, htexts⟩ := exists_mergeText word (ruleFits_bpe vocab) queue
  have hflatten := hlinked.chain.flatten_texts
  rw [htexts, List.drop_zero] at hflatten
  rw [bpeWord, wordSymbols]
  by_cases hignore : vocab.ignoreMerges = true ∧ vocab.textToToken word ≠ none
  · rw [if_pos hignore]
    by_cases hnil : word = []
    · subst hnil
      rw [if_neg fun hword => hword.2.2 rfl]
      exact ⟨rfl, rfl⟩
    · rw [if_pos ⟨hignore.1, hignore.2, hnil⟩]
      exact ⟨congrArg some (List.filter_cons_of_pos (decide_eq_true hnil)), List.append_nil word⟩
  · rw [if_neg hignore, if_neg fun hword => hignore ⟨hword.1, hword.2.1⟩, hmerge, Option.map_some,
      hlinked.filter_eq]
    exact ⟨congrArg some htexts, hflatten⟩

lemma bpeSymbols_eq (vocab : BpeVocab) (queue : PriorityQueue ℕᵒᵈ (List UInt8))
    (words : List (List UInt8)) :
    bpeSymbols vocab queue words = some (words.flatMap (wordSymbols vocab)) := by
  induction words with
  | nil => rfl
  | cons word words ih =>
    rw [bpeSymbols, (bpeWord_eq vocab queue word).1, Option.bind_some, ih, Option.map_some,
      List.flatMap_cons]

/-! ## A queue -/

section

variable {K T : Type} [LinearOrder K]

instance (l r : LlmBigram K T) : Decidable (l.less r) :=
  inferInstanceAs (Decidable (l.key < r.key ∨ l.key = r.key ∧ r.left < l.left))

lemma LlmBigram.less_iff {l r : LlmBigram K T} :
    l.less r ↔
      toLex (l.key, OrderDual.toDual l.left) < toLex (r.key, OrderDual.toDual r.left) := by
  rw [Prod.Lex.toLex_lt_toLex]
  exact Iff.rfl

/-- The greatest entry and the others. -/
def popGreatest : List (LlmBigram K T) → Option (LlmBigram K T × List (LlmBigram K T))
  | [] => none
  | x :: q =>
    (popGreatest q).elim (some (x, [])) fun y =>
      if y.1.less x then some (x, y.1 :: y.2) else some (y.1, x :: y.2)

lemma popGreatest_cons (x : LlmBigram K T) (q : List (LlmBigram K T)) :
    ∃ b rest, popGreatest (x :: q) = some (b, rest) ∧ (x :: q).Perm (b :: rest) ∧
      ∀ y ∈ rest, ¬ b.less y := by
  induction q generalizing x with
  | nil => exact ⟨x, [], rfl, .refl _, fun y hy => absurd hy List.not_mem_nil⟩
  | cons z q ih =>
    obtain ⟨b, rest, hpop, hperm, hmax⟩ := ih z
    rw [popGreatest, hpop, Option.elim_some]
    dsimp only
    split_ifs with hless
    · refine ⟨x, b :: rest, rfl, hperm.cons x, fun y hy hlt => ?_⟩
      rw [LlmBigram.less_iff] at hless hlt
      rcases List.mem_cons.1 hy with rfl | hy
      · exact lt_asymm hless hlt
      · exact hmax y hy (LlmBigram.less_iff.2 (hless.trans hlt))
    · refine ⟨b, x :: rest, rfl, (hperm.cons x).trans (.swap b x rest), fun y hy => ?_⟩
      rcases List.mem_cons.1 hy with rfl | hy
      · exact hless
      · exact hmax y hy

/-- A queue that looks through its elements. -/
def PriorityQueue.scanning : PriorityQueue K T where
  pop := popGreatest
  pop_nil := rfl
  pop_cons := popGreatest_cons

end

/-! ## The result -/

/-- Both tokenizers come to the symbols of their references, whichever way the queue is kept, and
the symbols make the text, or each word of it; a BPE word whose merges are ignored because it is a
token stays one symbol. -/
theorem tokenize_eq_rescan {S : Type} [LinearOrder S] (spm : SpmVocab S)
    (spmQueue : PriorityQueue S ℕ) (text : List UInt8) (htext : text ≠ []) (bpe : BpeVocab)
    (bpeQueue : PriorityQueue ℕᵒᵈ (List UInt8)) (words : List (List UInt8)) :
    (spmSymbols spm spmQueue text = some (rescanSpm spm text) ∧
        (rescanSpm spm text).flatten = text) ∧
      bpeSymbols bpe bpeQueue words = some (words.flatMap (wordSymbols bpe)) ∧
      ∀ word ∈ words, (wordSymbols bpe word).flatten = word :=
  ⟨spmSymbols_eq spm spmQueue htext, bpeSymbols_eq bpe bpeQueue words,
    fun word _ => (bpeWord_eq bpe bpeQueue word).2⟩

/-- Three bytes and a pair of them are tokens; the pair is worth more than the one that overlaps it. -/
theorem tokenize_eq_rescan_abc :
    let spm : SpmVocab ℕ := ⟨fun text => [[97, 98], [98, 99]].idxOf? text, 2, id⟩
    let bpe : BpeVocab := ⟨fun _ => none, true, fun a b => [([97], [98])].idxOf? (a, b)⟩
    spmSymbols spm .scanning [97, 98, 99] = some [[97], [98, 99]] ∧
      bpeSymbols bpe .scanning [[97, 98], [99]] = some [[97, 98], [99]] := by
  intro spm bpe
  obtain ⟨⟨hspm, -⟩, hbpe, -⟩ := tokenize_eq_rescan spm .scanning [97, 98, 99]
    (List.cons_ne_nil _ _) bpe .scanning [[97, 98], [99]]
  rw [hspm, hbpe]
  exact ⟨by decide +kernel, by decide +kernel⟩

/-- The word is a token, but no merge makes it. -/
theorem not_rescanBpe :
    ¬ ∀ (bpe : BpeVocab) (queue : PriorityQueue ℕᵒᵈ (List UInt8)) (words : List (List UInt8)),
      bpeSymbols bpe queue words = some (words.flatMap (rescanBpe bpe)) := by
  intro h
  have hword := h ⟨fun _ => some 0, true, fun _ _ => none⟩ .scanning [[97, 98]]
  rw [bpeSymbols_eq] at hword
  revert hword
  decide +kernel

end IFairy.MergeQueue
