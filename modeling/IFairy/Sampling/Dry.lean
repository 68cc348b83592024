import IFairy.Framework.KeyedMaps
import IFairy.Framework.SelfOverlap
import IFairy.Sampling.Candidates

/-!
# The DRY sampler

`llama_sampler_dry_apply` penalizes the tokens that would go on with a repetition of the last
tokens.  It finds out how long the repetitions are with the Z-algorithm from the last token on.  The
lengths are clipped to a limit that comes from the restart sequences, and the algorithm goes on with
the clipped lengths.
-/

namespace IFairy.Sampling

/-- `llama_sampler_dry`; `dry_max_token_repeat` is a function to the lengths that the map has. -/
structure Dry (F : Type) where
  totalContextSize : ℤ
  dryMultiplier : F
  dryBase : F
  dryAllowedLength : ℤ
  dryPenaltyLastN : ℤ
  dryProcessedBreakers : List (LlamaToken × List LlamaToken)
  dryRepeatCount : List ℕ
  dryMaxTokenRepeat : LlamaToken → Option ℕ
  lastTokens : RingBuffer LlamaToken

namespace Dry

variable {F : Type}

/-- `last_n_repeat`, the number of tokens that are considered. -/
def lastNRepeat (s : Dry F) : ℤ :=
  let effective := if s.dryPenaltyLastN = -1 then s.totalContextSize else max s.dryPenaltyLastN 0
  min (min (s.lastTokens.sz : ℤ) effective) s.totalContextSize

/-- `last_tokens.rat(i)` at an index that is below the size, as all are (`rat_eq_lastToken`). -/
def lastToken (s : Dry F) (i : ℕ) : LlamaToken := (s.lastTokens.rat i).getD 0

/-! ## Step 1 -/

/-- The tail of a restart sequence follows the token at the index. -/
def matchesTail (s : Dry F) (i : ℕ) (tail : List LlamaToken) : Bool :=
  (List.range tail.length).all fun offset =>
    tail.getD offset 0 == s.lastToken (i - offset - 1)

/-- The loop over the restart sequences that begin with the token at the index. -/
def longestMatch (s : Dry F) (i : ℕ) : ℤ :=
  (s.dryProcessedBreakers.filter fun b => b.1 == s.lastToken i).foldl (fun longest b =>
    if longest < b.2.length ∧ b.2.length ≤ i then
      if s.matchesTail i b.2 then b.2.length else longest
    else longest) (-1)

/-- `rep_limit`, which the first index with a match determines. -/
def repLimit (s : Dry F) (lastNRepeat : ℕ) : ℕ :=
  ((List.range lastNRepeat).find? fun i => 0 ≤ s.longestMatch i).elim lastNRepeat fun i =>
    i - (s.longestMatch i).toNat

/-! ## Step 2 -/

/-- The variables of the Z-algorithm. -/
structure ZState where
  rt : ℕ
  lt : ℕ
  dryRepeatCount : List ℕ

/-- A round of the loop over `k`. -/
def zRound (s : Dry F) (lastNRepeat repLimit : ℕ) (z : ZState) (k : ℕ) : Option ZState :=
  let last := lastNRepeat - 1
  if z.rt < k then
    (whileLoop (fun n => n + k < lastNRepeat && s.lastToken n == s.lastToken (n + k)) (· + 1)
      lastNRepeat 0).map fun n =>
        let dryRepeatCount := z.dryRepeatCount.set (last - k) (min n repLimit)
        if 0 < n then ⟨k + n - 1, k, dryRepeatCount⟩ else ⟨z.rt, z.lt, dryRepeatCount⟩
  else
    let p := k - z.lt
    let rightPartLen := z.rt - k + 1
    if z.dryRepeatCount.getD (last - p) 0 < rightPartLen then
      let n := min (z.dryRepeatCount.getD (last - p) 0) repLimit
      some ⟨z.rt, z.lt, z.dryRepeatCount.set (last - k) n⟩
    else
      (whileLoop (fun i => i < lastNRepeat && s.lastToken i == s.lastToken (i - k)) (· + 1)
        lastNRepeat (z.rt + 1)).map fun i =>
          ⟨i - 1, k, z.dryRepeatCount.set (last - k) (min (i - k) repLimit)⟩

def repeatCounts (s : Dry F) (lastNRepeat repLimit : ℕ) : Option (List ℕ) :=
  ((List.range' 1 (lastNRepeat - 1)).foldlM (s.zRound lastNRepeat repLimit)
    ⟨0, 0, List.replicate lastNRepeat 0⟩).map ZState.dryRepeatCount

/-! ## Step 3 -/

/-- A round of the loop over the repeat counts. -/
def maxRound (s : Dry F) (lastNRepeat : ℕ) (dryRepeatCount : List ℕ)
    (dryMaxTokenRepeat : LlamaToken → Option ℕ) (i : ℕ) : LlamaToken → Option ℕ :=
  let repeatLen := dryRepeatCount.getD i 0
  if s.dryAllowedLength ≤ repeatLen then
    let token := s.lastToken (lastNRepeat - 2 - i)
    if (dryMaxTokenRepeat token).elim true fun n => n < repeatLen then
      Function.update dryMaxTokenRepeat token (some repeatLen)
    else dryMaxTokenRepeat
  else dryMaxTokenRepeat

def maxTokenRepeat (s : Dry F) (lastNRepeat : ℕ) (dryRepeatCount : List ℕ) :
    LlamaToken → Option ℕ :=
  (List.range (lastNRepeat - 1)).foldl (s.maxRound lastNRepeat dryRepeatCount) emptyMap

/-! ## Step 4 -/

section Apply

variable [Mul F] [Sub F] [Zero F] [One F] [BEq F] [LT F] [DecidableLT F]

def disabled (s : Dry F) : Bool :=
  s.dryMultiplier == 0 || decide (s.dryBase < 1) || s.dryPenaltyLastN == 0

/-- The penalty of one candidate; `pow` is the power and `maxExponent` the bound on the exponent for
a base. -/
def penalizeRepeat (pow : F → ℤ → F) (maxExponent : F → ℤ) (s : Dry F) (x : TokenData F) :
    TokenData F :=
  (s.dryMaxTokenRepeat x.id).elim x fun n =>
    if s.dryProcessedBreakers.any fun b => b.1 == x.id && b.2.isEmpty then x
    else
      let repeatExp := (n : ℤ) - s.dryAllowedLength
      let repeatExp := if 0 < maxExponent s.dryBase ∧ maxExponent s.dryBase < repeatExp then
        maxExponent s.dryBase else repeatExp
      { x with logit := x.logit - s.dryMultiplier * pow s.dryBase repeatExp }

/-- `llama_sampler_dry_apply`, with nothing where it throws. -/
def apply (pow : F → ℤ → F) (maxExponent : F → ℤ) (s : Dry F) (cur : TokenDataArray F) :
    Option (Dry F × TokenDataArray F) :=
  if s.disabled then some (s, cur)
  else if s.lastNRepeat ≤ s.dryAllowedLength then some (s, cur)
  else if s.lastNRepeat < 0 then none
  else
    let lastNRepeat := s.lastNRepeat.toNat
    let s := { s with
      dryRepeatCount := List.replicate lastNRepeat 0, dryMaxTokenRepeat := emptyMap }
    let limit : ℕ := s.repLimit lastNRepeat
    if (limit : ℤ) < s.dryAllowedLength then some (s, cur)
    else (s.repeatCounts lastNRepeat limit).map fun dryRepeatCount =>
      let s := { s with
        dryRepeatCount, dryMaxTokenRepeat := s.maxTokenRepeat lastNRepeat dryRepeatCount }
      (s, { data := cur.data.map (s.penalizeRepeat pow maxExponent), sorted := false })

end Apply

end Dry

end IFairy.Sampling
