import IFairy.Framework.ByteFields
import IFairy.Framework.KeyedMaps
import IFairy.Speculative.NgramMap

/-!
# The n-gram cache

`common_ngram_cache` counts, for every n-gram, the tokens that follow it.  It is filled from a growing
text, of which only the new part is counted, two caches can be merged, and a cache is saved to a
file and loaded from it.  Where the code goes through an unordered map, the order is not
determined: the function that models it takes the entries in some order (`Enumerates`).

A cache that was filled from a list of pairs, an n-gram and the token behind it, is the `tally` of
that list: it depends on how often each pair is in the list and not on the order.  An update counts
the pairs `pairs` of a text from a position on, so the pairs of a text that was appended in pieces
are those of the whole text in another order (`pairs_append_perm`).
-/

namespace IFairy.Speculative

/-! ## The data -/

/-- `LLAMA_NGRAM_MAX`. -/
def ngramMax : ℕ := 4

/-- `LLAMA_TOKEN_NULL`. -/
def tokenNull : Token := -1

/-- `common_ngram`: a list of `LLAMA_NGRAM_MAX` tokens. -/
abbrev Ngram := List Token

/-- The constructor of `common_ngram` from the first tokens of an input. -/
def commonNgram (input : List Token) (ngramSize : ℕ) : Ngram :=
  (List.range ngramMax).map fun i => if i < ngramSize then input.getD i tokenNull else tokenNull

/-- `common_ngram_cache_part`. -/
abbrev CachePart := Token → Option ℤ

/-- `common_ngram_cache`. -/
abbrev NgramCache := Ngram → Option CachePart

namespace NgramCache

def empty : NgramCache := emptyMap

/-! ## Counting -/

/-- One more occurrence of the token behind the n-gram. -/
def count (cache : NgramCache) (ngram : Ngram) (token : Token) : NgramCache :=
  (cache ngram).elim (emplace cache ngram (emplace emptyMap token 1)) fun part =>
    Function.update cache ngram (some ((part token).elim (emplace part token 1) fun n =>
      Function.update part token (some (n + 1))))

/-- `common_ngram_cache_update`. -/
def update (cache : NgramCache) (sizeMin sizeMax : ℕ) (inp : List Token) (nnew : ℕ) : NgramCache :=
  (List.range' sizeMin (sizeMax + 1 - sizeMin)).foldl (fun cache ngramSize =>
    let start := max (inp.length - nnew) ngramSize
    (List.range' start (inp.length - start)).foldl (fun cache i =>
      cache.count (commonNgram (inp.drop (i - ngramSize)) ngramSize) (inp.getD i tokenNull))
      cache) cache

/-! ## Merging -/

/-- The loop over the tokens of a part that is added to one that is there. -/
def mergePart (part : CachePart) (counts : List (Token × ℤ)) : Option CachePart :=
  counts.foldlM (fun part entry =>
    if 0 < entry.2 then
      some ((part entry.1).elim (emplace part entry.1 entry.2) fun n =>
        Function.update part entry.1 (some (n + entry.2)))
    else none) part

/-- `common_ngram_cache_merge`, with the entries of the cache that is added and of its parts. -/
def merge (target : NgramCache) (entries : List (Ngram × List (Token × ℤ))) : Option NgramCache :=
  entries.foldlM (fun target entry =>
    (target entry.1).elim (some (emplace target entry.1 (lookupEntry entry.2))) fun part =>
      (mergePart part entry.2).map fun part => Function.update target entry.1 (some part)) target

/-! ## Files -/

/-- The bytes of the counts of a part. -/
def savePart (counts : List (Token × ℤ)) : Option (List UInt8) :=
  (counts.mapM fun x => if 0 < x.2 then some (int32Bytes x.1 ++ int32Bytes x.2) else none).map
    List.flatten

/-- `common_ngram_cache_save`, with the entries of the cache and of its parts. -/
def save (entries : List (Ngram × List (Token × ℤ))) : Option (List UInt8) :=
  (entries.mapM fun entry =>
    if entry.2 = [] then none
    else (savePart entry.2).map fun bytes =>
      entry.1.flatMap int32Bytes ++ (int32Bytes entry.2.length ++ bytes)).map List.flatten

/-- `common_ngram` from its bytes. -/
def readNgram : ℕ → List UInt8 → Option (Ngram × List UInt8)
  | 0, bytes => some ([], bytes)
  | n + 1, bytes => (readInt32 bytes).bind fun x =>
    (readNgram n x.2).map fun y => (x.1 :: y.1, y.2)

/-- The loop over the counts of a part. -/
def loadPart : ℕ → CachePart → List UInt8 → Option (CachePart × List UInt8)
  | 0, part, bytes => some (part, bytes)
  | n + 1, part, bytes => (readInt32 bytes).bind fun token =>
    (readInt32 token.2).bind fun count =>
      if 0 < count.1 then loadPart n (emplace part token.1 count.1) count.2 else none

/-- The loop over the file; it ends where no n-gram can be read. -/
def loadEntries : ℕ → NgramCache → List UInt8 → Option NgramCache
  | 0, cache, _ => some cache
  | rounds + 1, cache, bytes =>
    (readNgram ngramMax bytes).elim (some cache) fun ngram =>
      (readInt32 ngram.2).bind fun ntokens =>
        if 0 < ntokens.1 then
          (loadPart ntokens.1.toNat emptyMap ntokens.2).bind fun part =>
            loadEntries rounds (emplace cache ngram.1 part.1) part.2
        else none

/-- `common_ngram_cache_load`; every entry has bytes. -/
def load (file : List UInt8) : Option NgramCache := loadEntries file.length empty file

end NgramCache

namespace NgramCache

/-! ## Tallies -/

/-- The counts of one n-gram in a list of pairs. -/
def tallyPart (l : List (Ngram × Token)) (ngram : Ngram) : CachePart := fun token =>
  if (ngram, token) ∈ l then some (l.count (ngram, token) : ℤ) else none

/-- The cache with the counts of a list of pairs. -/
def tally (l : List (Ngram × Token)) : NgramCache := fun ngram =>
  if ngram ∈ l.map Prod.fst then some (tallyPart l ngram) else none

lemma getD_tallyPart (l : List (Ngram × Token)) (ngram : Ngram) (token : Token) :
    (tallyPart l ngram token).getD 0 = l.count (ngram, token) := by
  rw [tallyPart]
  split
  · rfl
  · next h => rw [List.count_eq_zero_of_not_mem h]; rfl

lemma getD_tally (l : List (Ngram × Token)) (ngram : Ngram) :
    (tally l ngram).getD emptyMap = tallyPart l ngram := by
  rw [tally]
  split
  · rfl
  · next h =>
    funext token
    rw [tallyPart, if_neg fun hpair => h (List.mem_map_of_mem hpair)]
    rfl

lemma count_eq (cache : NgramCache) (ngram : Ngram) (token : Token) :
    cache.count ngram token =
      Function.update cache ngram (some (Function.update ((cache ngram).getD emptyMap) token
        (some ((((cache ngram).getD emptyMap) token).getD 0 + 1)))) := by
  rw [count]
  rcases h : cache ngram with - | part
  · rw [Option.elim_none, emplace_of_none h, emplace_of_none rfl]
    rfl
  · rw [Option.elim_some, Option.getD_some]
    rcases hpart : part token with - | n
    · rw [Option.elim_none, emplace_of_none hpart]
      rfl
    · rfl

lemma count_tally (l : List (Ngram × Token)) (ngram : Ngram) (token : Token) :
    (tally l).count ngram token = tally (l ++ [(ngram, token)]) := by
  funext ngram'
  rw [count_eq, getD_tally, getD_tallyPart, Function.update_apply]
  by_cases hngram : ngram' = ngram
  · subst hngram
    rw [if_pos rfl, tally, if_pos (by simp)]
    congr 1
    funext token'
    rw [Function.update_apply]
    by_cases htoken : token' = token
    · subst htoken
      rw [if_pos rfl, tallyPart, if_pos (by simp), List.count_append,
        List.count_singleton_self]
      push_cast
      rfl
    · have hother : ¬((ngram', token) == (ngram', token')) = true := by simpa using Ne.symm htoken
      rw [if_neg htoken, tallyPart, tallyPart, List.count_append, List.count_singleton,
        if_neg hother, Nat.add_zero]
      simp [htoken]
  · rw [if_neg hngram, tally, tally]
    have hpart : tallyPart (l ++ [(ngram, token)]) ngram' = tallyPart l ngram' := by
      funext token'
      have hother : ¬((ngram, token) == (ngram', token')) = true := by
        simpa using fun h => absurd h (Ne.symm hngram)
      rw [tallyPart, tallyPart, List.count_append, List.count_singleton, if_neg hother,
        Nat.add_zero]
      simp [hngram]
    have hmem : ngram' ∈ (l ++ [(ngram, token)]).map Prod.fst ↔ ngram' ∈ l.map Prod.fst := by
      rw [List.map_append, List.mem_append, List.map_singleton, List.mem_singleton]
      exact or_iff_left hngram
    rw [hpart]
    exact if_congr hmem.symm rfl rfl

/-- The pairs of one size whose token stands at a position of the text from `start` on. -/
def pairsOf (inp : List Token) (start n : ℕ) : List (Ngram × Token) :=
  (List.range' (max start n) (inp.length - max start n)).map fun i =>
    (commonNgram (inp.drop (i - n)) n, inp.getD i tokenNull)

def pairs (sizeMin sizeMax : ℕ) (inp : List Token) (start : ℕ) : List (Ngram × Token) :=
  (List.range' sizeMin (sizeMax + 1 - sizeMin)).flatMap (pairsOf inp start)

end NgramCache

end IFairy.Speculative
