import IFairy.Vocab.CodePoints

/-!
# The SPM and the BPE tokenizer: a queue of pairs over a list of symbols

Both tokenizers of `src/llama-vocab.cpp` cut a text into symbols, linked to their neighbours, and
merge neighbouring symbols as long as the vocabulary allows it.  The pairs that may be merged wait
in a priority queue.  An entry is not taken out when one of its symbols changes: an old entry is
recognised when it comes up, by the size of the pair (SPM) or by its text (BPE).

The two share their code here (`mergeStep`) and differ in a rule: what they look up for a pair, and
what they remember of it.  A symbol is a span of the text, a vector of symbols a function on the
indices, and an index of `-1` is `none`.
-/

namespace IFairy.MergeQueue

/-! ## Symbols and pairs -/

/-- `text` and `n` of a symbol, as an offset into the text and a number of bytes. -/
structure Span where
  offs : ℕ
  n : ℕ
  deriving DecidableEq

/-- `std::string(text, n)`. -/
def Span.bytes (text : List UInt8) (s : Span) : List UInt8 := (text.drop s.offs).take s.n

/-- `llm_symbol`. -/
structure LlmSymbol extends Span where
  prev : Option ℕ
  next : Option ℕ

/-- `llm_bigram_spm` and `llm_bigram_bpe`: the key is the score, or the rank in the order in which a
smaller rank is greater, and the tag is what the entry is recognised by. -/
structure LlmBigram (K T : Type) where
  left : ℕ
  right : ℕ
  key : K
  tag : T

/-- Both comparators: an entry comes after those with a greater key, and among those with its key
after those further left. -/
def LlmBigram.less {K T : Type} [LinearOrder K] (l r : LlmBigram K T) : Prop :=
  l.key < r.key ∨ l.key = r.key ∧ r.left < l.left

/-- A `std::priority_queue` of pairs, as the list of its elements: `pop` takes out one that no other
comes before. -/
structure PriorityQueue (K T : Type) [LinearOrder K] where
  pop : List (LlmBigram K T) → Option (LlmBigram K T × List (LlmBigram K T))
  pop_nil : pop [] = none
  pop_cons : ∀ x q, ∃ b rest, pop (x :: q) = some (b, rest) ∧ (x :: q).Perm (b :: rest) ∧
    ∀ y ∈ rest, ¬ b.less y

/-- Where the tokenizers differ: the key of a pair that may be merged, and the tag. -/
structure MergeRule (K T : Type) where
  key : List UInt8 → Span → Span → Option K
  tag : List UInt8 → Span → Span → T

/-- `symbols` and `work_queue`. -/
structure MergeState (K T : Type) where
  symbols : ℕ → LlmSymbol
  workQueue : List (LlmBigram K T)

/-! ## The text in symbols -/

/-- The loop that cuts the text into code points, from an offset on. -/
def spansFrom (text : List UInt8) : ℕ → ℕ → List Span
  | 0, _ => []
  | rounds + 1, offs =>
    if offs < text.length then
      let n := min (unicodeLenUtf8 (text.getD offs 0)) (text.length - offs)
      ⟨offs, n⟩ :: spansFrom text rounds (offs + n)
    else []

def spans (text : List UInt8) : List Span := spansFrom text text.length 0

/-- The symbols in a row, each linked to its neighbours. -/
def initSymbols (text : List UInt8) (i : ℕ) : LlmSymbol :=
  let span := (spans text).getD i ⟨0, 0⟩
  { span with
    prev := if i = 0 then none else some (i - 1)
    next := if span.offs + span.n = text.length then none else some (i + 1) }

/-! ## Merging -/

section

variable {K T : Type} [LinearOrder K] [DecidableEq T] (rule : MergeRule K T)
  (queue : PriorityQueue K T) (text : List UInt8)

/-- `try_add_bigram` and `add_new_bigram`. -/
def tryAddBigram (left right : Option ℕ) (s : MergeState K T) : MergeState K T :=
  left.elim s fun l => right.elim s fun r =>
    let lspan := (s.symbols l).toSpan
    let rspan := (s.symbols r).toSpan
    (rule.key text lspan rspan).elim s fun key =>
      { s with workQueue := ⟨l, r, key, rule.tag text lspan rspan⟩ :: s.workQueue }

/-- The symbols when the right one is merged into the left one. -/
def mergeSymbols (left right : ℕ) (symbols : ℕ → LlmSymbol) : ℕ → LlmSymbol :=
  let l := symbols left
  let r := symbols right
  let merged := Function.update (Function.update symbols left
    { l with n := l.n + r.n, next := r.next }) right { r with n := 0 }
  r.next.elim merged fun q => Function.update merged q { merged q with prev := some left }

/-- One round of the loop over the queue, with the entry that was taken out. -/
def mergeStep (bigram : LlmBigram K T) (s : MergeState K T) : MergeState K T :=
  let l := (s.symbols bigram.left).toSpan
  let r := (s.symbols bigram.right).toSpan
  if l.n = 0 ∨ r.n = 0 ∨ rule.tag text l r ≠ bigram.tag then s
  else
    let symbols := mergeSymbols bigram.left bigram.right s.symbols
    let s := tryAddBigram rule text (symbols bigram.left).prev (some bigram.left) { s with symbols }
    tryAddBigram rule text (some bigram.left) (symbols bigram.left).next s

/-- The loop over the queue, for at most so many rounds. -/
def mergeLoop : ℕ → MergeState K T → Option (MergeState K T)
  | 0, s => if s.workQueue.isEmpty then some s else none
  | rounds + 1, s =>
    (queue.pop s.workQueue).elim (some s) fun x =>
      mergeLoop rounds (mergeStep rule text x.1 { s with workQueue := x.2 })

/-- The queue is filled with the pairs of neighbours and worked off; a pair that is merged adds two
entries at most, and there are fewer merges than symbols. -/
def mergeText : Option (MergeState K T) :=
  let count := (spans text).length
  mergeLoop rule queue text (3 * count) ((List.range' 1 (count - 1)).foldl
    (fun s i => tryAddBigram rule text (some (i - 1)) (some i) s) ⟨initSymbols text, []⟩)

/-- The walk over the symbols from an index on. -/
def walk (symbols : ℕ → LlmSymbol) : ℕ → Option ℕ → List (List UInt8)
  | 0, _ => []
  | rounds + 1, i =>
    i.elim [] fun i => (symbols i).bytes text :: walk symbols rounds (symbols i).next

end

/-! ## The tokenizers -/

/-- `text_to_token`, `n_tokens` and the scores of the tokens. -/
structure SpmVocab (S : Type) where
  textToToken : List UInt8 → Option ℕ
  nTokens : ℕ
  score : ℕ → S

/-- The rule of `llm_tokenizer_spm_session`. -/
def spmRule {S : Type} (vocab : SpmVocab S) : MergeRule S ℕ where
  key text l r :=
    (vocab.textToToken (Span.bytes text ⟨l.offs, l.n + r.n⟩)).bind fun token =>
      if vocab.nTokens ≤ token then none else some (vocab.score token)
  tag _ l r := l.n + r.n

/-- The symbols of `llm_tokenizer_spm_session::tokenize`, in the order in which they are output; the
text is not empty. -/
def spmSymbols {S : Type} [LinearOrder S] (vocab : SpmVocab S) (queue : PriorityQueue S ℕ)
    (text : List UInt8) : Option (List (List UInt8)) :=
  (mergeText (spmRule vocab) queue text).map fun s =>
    walk text s.symbols (spans text).length (some 0)

/-- `text_to_token`, `get_ignore_merges` and `bpe_ranks`. -/
structure BpeVocab where
  textToToken : List UInt8 → Option ℕ
  ignoreMerges : Bool
  findBpeRank : List UInt8 → List UInt8 → Option ℕ

/-- The rule of `llm_tokenizer_bpe_session`; a smaller rank is a greater key. -/
def bpeRule (vocab : BpeVocab) : MergeRule ℕᵒᵈ (List UInt8) where
  key text l r := (vocab.findBpeRank (l.bytes text) (r.bytes text)).map OrderDual.toDual
  tag text l r := l.bytes text ++ r.bytes text

def bpeWord (vocab : BpeVocab) (queue : PriorityQueue ℕᵒᵈ (List UInt8)) (word : List UInt8) :
    Option (List (List UInt8)) :=
  if vocab.ignoreMerges = true ∧ vocab.textToToken word ≠ none then
    some ([word].filter (· ≠ []))
  else
    (mergeText (bpeRule vocab) queue word).map fun s =>
      ((List.range (spans word).length).filter fun i => 0 < (s.symbols i).n).map fun i =>
        (s.symbols i).bytes word

/-- `symbols_final` of `llm_tokenizer_bpe_session::tokenize`, after `unicode_regex_split`. -/
def bpeSymbols (vocab : BpeVocab) (queue : PriorityQueue ℕᵒᵈ (List UInt8)) :
    List (List UInt8) → Option (List (List UInt8))
  | [] => some []
  | word :: words =>
    (bpeWord vocab queue word).bind fun symbols =>
      (bpeSymbols vocab queue words).map (symbols ++ ·)

end IFairy.MergeQueue
