import IFairy.Framework.Distribution
import IFairy.Sampling.Candidates
import Mathlib.Algebra.Order.Ring.Rat

/-!
# The top-k and top-p samplers

`llama_token_data_array_partial_sort` finds the candidates with the largest logits.  It distributes
all of them to 128 buckets by their logits, and sorts the buckets from the highest one down until
there are enough candidates.  `top_k` keeps the candidates with the largest logits, `top_p` as many
of them as have a given share of the probability.  Of more than 1024 candidates `top_p` sorts the
first 256, and all of them only when these do not suffice.

Of the floats the code needs their values (`Floats`): a rational number, an infinity, or none for a
NaN.  The conversion to `int` of a float outside of the range of `int` is that of x86-64, the least
`int`.
-/

namespace IFairy.Sampling

/-! ## Floats -/

/-- The value of a float that is not a NaN. -/
abbrev FloatValue := WithBot (WithTop ℚ)

/-- An integer as the value of a float. -/
def FloatValue.ofInt (n : ℤ) : FloatValue := ((n : ℚ) : WithTop ℚ)

/-- The operations on floats that the samplers use. -/
structure Floats (F : Type) where
  value : F → Option FloatValue
  zero : F
  one : F
  add : F → F → F
  sub : F → F → F
  div : F → F → F
  expf : F → F
  /-- `bucket_scale * val + bucket_inter` -/
  bucketScaled : F → F
  /-- Scaling keeps the order, and makes no NaN of a number. -/
  exists_scaled : ∀ a v, value a = some v → ∃ w, value (bucketScaled a) = some w
  scaled_le : ∀ a b v w v' w', value a = some v → value b = some w →
    value (bucketScaled a) = some v' → value (bucketScaled b) = some w' → v ≤ w → v' ≤ w'
  /-- Equal logits have equal exponentials. -/
  expf_congr : ∀ a b m, value a = value b → expf (sub a m) = expf (sub b m)

namespace Floats

variable {F : Type} (fl : Floats F)

/-- `a < b`, which is false for a NaN. -/
def lt (a b : F) : Bool :=
  (fl.value a).elim false fun v => (fl.value b).elim false fun w => decide (v < w)

/-- `a >= b`, which is false for a NaN. -/
def ge (a b : F) : Bool :=
  (fl.value a).elim false fun v => (fl.value b).elim false fun w => decide (w ≤ v)

/-- The conversion to `int`: toward zero, and the least `int` for what is not one. -/
def toInt (x : F) : ℤ :=
  (fl.value x).elim (-2 ^ 31) fun v =>
    if .ofInt (-2 ^ 31 - 1) < v ∧ v < .ofInt (2 ^ 31) then
      let q := (v.unbotD ⊤).untopD 0
      q.num.tdiv q.den
    else -2 ^ 31

/-- The value of the logit of a candidate that is not a NaN. -/
def logit (x : TokenData F) : FloatValue := (fl.value x.logit).getD ⊥

/-- No candidate has a NaN as its logit. -/
def NaNFree (data : List (TokenData F)) : Prop := ∀ x ∈ data, ∃ v, fl.value x.logit = some v

/-- The candidates stand in descending order of their logits. -/
def Descending (data : List (TokenData F)) : Prop :=
  data.Pairwise fun a b => fl.logit b ≤ fl.logit a

/-- `std::sort` and `std::partial_sort` with the comparison of the code, a greater logit first.  How
candidates with equal logits are ordered is not determined. -/
structure Sorting where
  sort : List (TokenData F) → List (TokenData F)
  sort_perm : ∀ l, (sort l).Perm l
  sort_descending : ∀ l, fl.NaNFree l → fl.Descending (sort l)
  partialSort : ℕ → List (TokenData F) → List (TokenData F)
  partialSort_perm : ∀ n l, (partialSort n l).Perm l
  partialSort_descending : ∀ n l, fl.NaNFree l → fl.Descending ((partialSort n l).take n)
  partialSort_le : ∀ n l, fl.NaNFree l → ∀ a ∈ (partialSort n l).take n,
    ∀ b ∈ (partialSort n l).drop n, fl.logit b ≤ fl.logit a

/-! ## The partial sort -/

/-- `nbuckets`. -/
def nbuckets : ℕ := 128

/-- The index of the bucket of a logit. -/
def bucketIdx (x : TokenData F) : ℕ :=
  (max 0 (min ((nbuckets : ℤ) - 1) (fl.toInt (fl.bucketScaled x.logit)))).toNat

def histo (data : List (TokenData F)) (j : ℕ) : ℕ := data.countP fun x => fl.bucketIdx x = j

/-- The loop over the buckets from the highest one down: the bucket in which there are enough
candidates, and their number.  Below the lowest bucket the code would read in front of the
histogram. -/
def cutBucket (data : List (TokenData F)) ( npartial : ℕ) : ℕ → ℕ → Option (ℕ × ℕ)
  | 0, _ => none
  | ib + 1, nhave =>
    if npartial ≤ nhave + fl.histo data ib then some (ib, nhave + fl.histo data ib)
    else cutBucket data npartial ib (nhave + fl.histo data ib)

/-- The candidates in the buckets from `ib` on, the highest bucket first; `bucket_ptrs` are the
positions where the next candidate of a bucket goes. -/
def distributed (data : List (TokenData F)) (fill : TokenData F) (ib nhave : ℕ) :
    List (TokenData F) :=
  (data.foldl (writeSlot (fun x => nbuckets - 1 - fl.bucketIdx x) (nbuckets - ib))
    (List.replicate nhave fill, slotStart fun t => fl.histo data (nbuckets - 1 - t))).1

variable {fl}

/-- A part of the array is replaced by what is made of it. -/
def onRange (f : List (TokenData F) → List (TokenData F)) (start count : ℕ)
    (res : List (TokenData F)) : List (TokenData F) :=
  res.take start ++ f ((res.drop start).take count) ++ res.drop (start + count)

/-- The loop that sorts the buckets above `ib`: the array and the number of its elements that are
sorted. -/
def sortBuckets (st : fl.Sorting) (data : List (TokenData F)) (ib : ℕ)
    (res : List (TokenData F)) : List (TokenData F) × ℕ :=
  (List.range (nbuckets - 1 - ib)).foldl (fun s t =>
    (onRange st.sort s.2 (fl.histo data (nbuckets - 1 - t)) s.1,
      s.2 + fl.histo data (nbuckets - 1 - t))) (res, 0)

/-- `llama_token_data_array_partial_sort`; `fill` is a candidate that the resized array has at
first. -/
def arrayPartialSort (st : fl.Sorting) (fill : TokenData F) (data : List (TokenData F))
    ( npartial : ℕ) : Option (List (TokenData F)) :=
  (fl.cutBucket data npartial nbuckets 0).map fun cut =>
    let s := sortBuckets st data cut.1 (fl.distributed data fill cut.1 cut.2)
    onRange (st.partialSort ( npartial - s.2)) s.2 (fl.histo data cut.1) s.1

/-- `llama_token_data_array_partial_sort_inplace`. -/
def partialSortInplace (st : fl.Sorting) (fill : TokenData F) (cur : TokenDataArray F)
    ( npartial : ℕ) : Option (TokenDataArray F) :=
  if npartial ≤ 128 then some ⟨(st.partialSort npartial cur.data).take npartial, true⟩
  else (arrayPartialSort st fill cur.data npartial).map fun tmp => ⟨tmp.take npartial, true⟩

end Floats

namespace Floats

variable {F : Type} {fl : Floats F}

/-- The greatest logit, which is the first one of a sorted array. -/
def maxLogit (fl : Floats F) (cur : TokenDataArray F) (first : TokenData F) : F :=
  if cur.sorted then first.logit
  else cur.data.tail.foldl (fun maxL x => if fl.lt maxL x.logit then x.logit else maxL) first.logit

/-- The candidates with their probabilities. -/
def withProbabilities (fl : Floats F) (data : List (TokenData F)) (maxL : F) :
    List (TokenData F) :=
  let cumSum := data.foldl (fun s x => fl.add s (fl.expf (fl.sub x.logit maxL))) fl.zero
  data.map fun x => { x with p := fl.div (fl.expf (fl.sub x.logit maxL)) cumSum }

/-- `llama_sampler_softmax_impl`, which fails an assertion for no candidates. -/
def softmax (st : fl.Sorting) (fill : TokenData F) (cur : TokenDataArray F) (doSort : Bool) :
    Option (TokenDataArray F) :=
  (if doSort && !cur.sorted then partialSortInplace st fill cur cur.data.length
    else some cur).bind fun cur =>
      cur.data.head?.map fun first =>
        { cur with data := fl.withProbabilities cur.data (fl.maxLogit cur first) }

/-- `llama_sampler_top_k_impl`. -/
def topK (st : fl.Sorting) (fill : TokenData F) (cur : TokenDataArray F) (k : ℤ) :
    Option (TokenDataArray F) :=
  if k ≤ 0 then some cur
  else
    let k := min k.toNat cur.data.length
    (if !cur.sorted then partialSortInplace st fill cur k else some cur).map fun cur =>
      { cur with data := cur.data.take k }

/-- `llama_sampler_top_p`, without the buffer. -/
structure TopP (F : Type) where
  p : F
  minKeep : ℕ

/-- The loop over the cumulative probabilities: the number of candidates that are kept, and where
they are.  A candidate behind the sorted ones cannot be read. -/
def topPLoop (st : fl.Sorting) (fill : TokenData F) (ctx : TopP F) (cur : TokenDataArray F) :
    ℕ → ℕ → F → ℕ → List (TokenData F) → Option (ℕ × List (TokenData F))
  | 0, _, _, _, pdata => some (cur.data.length, pdata)
  | rounds + 1, i, cumSum, k, pdata =>
    pdata[i]?.bind fun x =>
      let cumSum := fl.add cumSum x.p
      if fl.ge cumSum ctx.p && ctx.minKeep ≤ i + 1 then some (i + 1, pdata)
      else if !cur.sorted && i + 1 == k then
        (arrayPartialSort st fill cur.data cur.data.length).bind fun buf =>
          topPLoop st fill ctx cur rounds (i + 1) cumSum cur.data.length buf
      else topPLoop st fill ctx cur rounds (i + 1) cumSum k pdata

/-- The array, the sorted candidates and their number before the loop. -/
def topPStart (st : fl.Sorting) (fill : TokenData F) (cur : TokenDataArray F) :
    Option (TokenDataArray F × List (TokenData F) × ℕ) :=
  if !cur.sorted && 1024 < cur.data.length then
    let k := min 256 cur.data.length
    (arrayPartialSort st fill cur.data k).map fun buf => (cur, buf, k)
  else if !cur.sorted then
    (partialSortInplace st fill cur cur.data.length).map fun sorted =>
      (sorted, sorted.data, cur.data.length)
  else some (cur, cur.data, cur.data.length)

/-- `llama_sampler_top_p_apply`. -/
def topP (st : fl.Sorting) (fill : TokenData F) (ctx : TopP F) (cur : TokenDataArray F) :
    Option (TokenDataArray F) :=
  if fl.ge ctx.p fl.one then some cur
  else
    (softmax st fill cur false).bind fun cur =>
      (topPStart st fill cur).bind fun start =>
        (topPLoop st fill ctx start.1 start.1.data.length 0 fl.zero start.2.2 start.2.1).map
          fun last =>
            if !start.1.sorted then ⟨last.2.take last.1, true⟩
            else ⟨start.1.data.take last.1, start.1.sorted⟩

end Floats

end IFairy.Sampling
