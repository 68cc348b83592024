import IFairy.KvCache.Batch

/-!
# Splitting a batch: `split_simple`, `split_equal`, `split_seq`

The allocator keeps the accepted batch, which of its tokens have been used and the batch indices
of the outputs in the order in which they were placed.  Each splitter chooses a list of unused
batch indices (`simpleIdxs`, `equalIdxs`, `seqIdxs`), marks them used and copies their rows into a
ubatch (`ubatchAdd`); `none` stands for the ubatch without tokens that ends the loops of
`init_batch`.  `splitLoop` is such a loop.
-/

namespace IFairy

/-- `llama_ubatch`; the arrays are as in a batch. -/
structure UBatch where
  equalSeqs : Bool
  nTokens : ℕ
  nSeqTokens : ℕ
  nSeqs : ℕ
  token : Option (ℕ → ℤ)
  embd : Option (ℕ → UInt32)
  pos : ℕ → ℤ
  seqId : ℕ → SeqIds SeqId
  seqIdUnq : List SeqId
  output : ℕ → Bool

/-- `n_seqs_unq`. -/
def UBatch.nSeqsUnq (u : UBatch) : ℕ := u.seqIdUnq.length

/-- `llama_batch_allocr` after `init`. -/
structure BatchAllocr where
  batch : Batch
  nSeqMax : ℕ
  nEmbd : ℕ
  nPosPerEmbd : ℕ
  used : Finset ℕ
  nUsed : ℕ
  outIds : List ℕ

namespace BatchAllocr

/-- The allocator after `init` and `split_reset()`. -/
def reset (b : Batch) (nSeqMax nEmbd nPosPerEmbd : ℕ) : BatchAllocr :=
  { batch := b, nSeqMax := nSeqMax, nEmbd := nEmbd, nPosPerEmbd := nPosPerEmbd
    used := ∅, nUsed := 0, outIds := [] }

/-- `used[idx] = true; ++n_used` for the chosen indices. -/
def markUsed (a : BatchAllocr) (idxs : List ℕ) : BatchAllocr :=
  { a with used := a.used ∪ idxs.toFinset, nUsed := a.nUsed + idxs.length }

/-- `ubatch_add(idxs, n_seqs, equal_seqs)`. -/
def ubatchAdd (a : BatchAllocr) (idxs : List ℕ) (nSeqs : ℕ) (equalSeqs : Bool) :
    UBatch × BatchAllocr :=
  let n := idxs.length
  let b := a.batch
  ({ equalSeqs := equalSeqs
     nTokens := n
     nSeqTokens := n / nSeqs
     nSeqs := nSeqs
     token := b.token.map fun token i => token (idxs.getD i 0)
     embd := b.embd.map fun embd q => embd (idxs.getD (q / a.nEmbd) 0 * a.nEmbd + q % a.nEmbd)
     pos := fun q => b.pos (q / n * b.nTokens + idxs.getD (q % n) 0)
     seqId := fun i => b.seqId (idxs.getD i 0)
     seqIdUnq := (List.finRange llamaMaxSeq).filter fun s =>
       s.val < a.nSeqMax ∧ ∃ i ∈ idxs, s ∈ b.seqSet i
     output := fun i => b.logits (idxs.getD i 0) },
   { a with outIds := a.outIds ++ idxs.filter fun i => b.logits i })

def firstUnused (a : BatchAllocr) : Option ℕ :=
  (List.range a.batch.nTokens).find? fun i => i ∉ a.used

/-! ## `split_simple` -/

/-- The loop of `split_simple` from token `cur`. -/
def simpleLoop (n nUbatch : ℕ) : ℕ → ℕ → List ℕ → List ℕ
  | 0, _, idxs => idxs
  | fuel + 1, cur, idxs =>
    let idxs := idxs ++ [cur]
    let cur := cur + 1
    if n ≤ cur then idxs
    else if nUbatch ≤ idxs.length then idxs
    else simpleLoop n nUbatch fuel cur idxs

/-- `split_simple(n_ubatch)`. -/
def splitSimple (nUbatch : ℕ) (a : BatchAllocr) : Option (UBatch × BatchAllocr) :=
  a.firstUnused.map fun cur =>
    let idxs := simpleLoop a.batch.nTokens nUbatch a.batch.nTokens cur []
    (a.markUsed idxs).ubatchAdd idxs idxs.length false

/-! ## `split_equal` -/

/-- Only the sets in the list are looked at. -/
instance (sets : List (Finset SeqId)) (P : Finset SeqId → Prop) [DecidablePred P] :
    Decidable (∀ T ∈ sets, P T) :=
  List.decidableBAll P sets

/-- One round of the loop that picks the sequence sets: the sets, `last_seq_id`, and whether the
loop was left. -/
def pickStep (a : BatchAllocr) (nUbatch : ℕ) (sequential : Bool)
    (r : List (Finset SeqId) × ℤ × Bool) (i : ℕ) : List (Finset SeqId) × ℤ × Bool :=
  if r.2.2 ∨ i ∈ a.used then r
  else
    let S := a.batch.seqSet i
    let s0 : ℤ := (a.batch.seqId i).head.val
    if (∀ T ∈ r.1, T ∩ S = ∅) ∧ (sequential → r.1 = [] ∨ s0 = r.2.1 + 1) then
      (r.1 ++ [S], s0, nUbatch < r.1.length + 1)
    else r

/-- `cur_seq_set`: the sequence sets that take part in the ubatch. -/
def curSeqSets (a : BatchAllocr) (nUbatch : ℕ) (sequential : Bool) : List (Finset SeqId) :=
  ((List.range a.batch.nTokens).foldl (a.pickStep nUbatch sequential) ([], -1, false)).1

/-- `seq_set_map[S]` from its first unused index on. -/
def unusedOf (a : BatchAllocr) (S : Finset SeqId) : List ℕ :=
  ((List.range a.batch.nTokens).filter fun i => a.batch.seqSet i = S).dropWhile (· ∈ a.used)

/-- The loop of `split_equal`: one more token of every set, as long as every set has one and the
next round still fits. -/
def equalLoop (nUbatch nSeqs : ℕ) : ℕ → List (List ℕ) → List (List ℕ) → List (List ℕ)
  | 0, _, taken => taken
  | fuel + 1, rest, taken =>
    if rest.any List.isEmpty then taken
    else
      let taken := List.zipWith (fun t r => t ++ r.take 1) taken rest
      if nUbatch < ((taken.headD []).length + 1) * nSeqs then taken
      else equalLoop nUbatch nSeqs fuel (rest.map List.tail) taken

/-- `split_equal(n_ubatch, sequential)`. -/
def splitEqual (nUbatch : ℕ) (sequential : Bool) (a : BatchAllocr) :
    Option (UBatch × BatchAllocr) :=
  if sequential ∧ a.batch.HasCpl then none
  else
    let sets := a.curSeqSets nUbatch sequential
    let nSeqs := sets.length
    if nSeqs = 0 then none
    else
      let idxs := (equalLoop nUbatch nSeqs a.batch.nTokens (sets.map a.unusedOf)
        (List.replicate nSeqs [])).flatten
      some ((a.markUsed idxs).ubatchAdd idxs nSeqs true)

/-! ## `split_seq` -/

/-- The next token of `split_seq` after `cur`: unused, and its sequence set is a subset. -/
def nextSeq (a : BatchAllocr) (cur : ℕ) (curSet : Finset SeqId) : Option ℕ :=
  (List.range' (cur + 1) (a.batch.nTokens - (cur + 1))).find? fun j =>
    j ∉ a.used ∧ curSet ∩ a.batch.seqSet j = a.batch.seqSet j

/-- The loop of `split_seq` from token `cur`. -/
def seqLoop (a : BatchAllocr) (nUbatch : ℕ) : ℕ → ℕ → List ℕ → List ℕ
  | 0, _, idxs => idxs
  | fuel + 1, cur, idxs =>
    let idxs := idxs ++ [cur]
    if nUbatch ≤ idxs.length then idxs
    else match a.nextSeq cur (a.batch.seqSet cur) with
      | none => idxs
      | some j => seqLoop a nUbatch fuel j idxs

/-- `split_seq(n_ubatch)`. -/
def splitSeq (nUbatch : ℕ) (a : BatchAllocr) : Option (UBatch × BatchAllocr) :=
  a.firstUnused.map fun cur =>
    let idxs := a.seqLoop nUbatch a.batch.nTokens cur []
    (a.markUsed idxs).ubatchAdd idxs 1 true

/-! ## The loop over a splitter -/

/-- `while (true) { ubatch = split(); if (ubatch.n_tokens == 0) break; push_back(ubatch); }`. -/
def splitLoop (split : BatchAllocr → Option (UBatch × BatchAllocr)) :
    ℕ → BatchAllocr → List UBatch × BatchAllocr
  | 0, a => ([], a)
  | fuel + 1, a =>
    match split a with
    | none => ([], a)
    | some (u, a) =>
      let r := splitLoop split fuel a
      (u :: r.1, r.2)

/-- The loop over the whole batch; every round uses a token. -/
def splitAll (split : BatchAllocr → Option (UBatch × BatchAllocr)) (a : BatchAllocr) :
    List UBatch × BatchAllocr :=
  splitLoop split (a.batch.nTokens + 1) a

end BatchAllocr

/-- The splitters among which the memory modules choose. -/
inductive Splitter
  | simple
  | equal (sequential : Bool)
  | seq

/-- The splitter as a step of the allocator. -/
def Splitter.split (nUbatch : ℕ) : Splitter → BatchAllocr → Option (UBatch × BatchAllocr)
  | .simple => BatchAllocr.splitSimple nUbatch
  | .equal sequential => BatchAllocr.splitEqual nUbatch sequential
  | .seq => BatchAllocr.splitSeq nUbatch

/-- `idxs`: the batch indices that the next round takes, in the order of its rows. -/
def Splitter.picks (nUbatch : ℕ) (a : BatchAllocr) : Splitter → List ℕ
  | .simple => match a.firstUnused with
    | none => []
    | some cur => BatchAllocr.simpleLoop a.batch.nTokens nUbatch a.batch.nTokens cur []
  | .equal sequential =>
    let sets := a.curSeqSets nUbatch sequential
    (BatchAllocr.equalLoop nUbatch sets.length a.batch.nTokens (sets.map a.unusedOf)
      (List.replicate sets.length [])).flatten
  | .seq => match a.firstUnused with
    | none => []
    | some cur => a.seqLoop nUbatch a.batch.nTokens cur []

/-- The splitting loop of the `init_batch` functions: the ubatches, and the allocator after it. -/
def splitRun (sp : Splitter) (nUbatch nSeqMax nEmbd nPosPerEmbd : ℕ) (b : Batch) :
    List UBatch × BatchAllocr :=
  BatchAllocr.splitAll (sp.split nUbatch) (.reset b nSeqMax nEmbd nPosPerEmbd)

/-- The splitting part of the `init_batch` functions: all ubatches of the batch, or `none` when
`get_n_used() < get_n_tokens()` at the end. -/
def splitBatch (sp : Splitter) (nUbatch nSeqMax nEmbd nPosPerEmbd : ℕ) (b : Batch) :
    Option (List UBatch) :=
  let r := splitRun sp nUbatch nSeqMax nEmbd nPosPerEmbd b
  if r.2.nUsed < b.nTokens then none else some r.1

end IFairy
