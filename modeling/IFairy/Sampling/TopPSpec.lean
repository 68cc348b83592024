import IFairy.Sampling.PartialSortSpec

/-!
# What top-k and top-p keep

Where the buckets are ordered, `top_k` keeps the first candidates of the sorted array, and `top_p` as
many of its first candidates as it takes to have the probability (`keepCount`), on each of its paths
(`samplers_right`).  The probabilities in a sorted array do not depend on the order of equal logits
(`map_p_eq`), so the number is the same for every sorted array.
-/

namespace IFairy.Sampling

namespace FloatValue

/-- The number that a finite value is. -/
def toRat (v : FloatValue) : ℚ := (v.unbotD ⊤).untopD 0

def IsFinite (v : FloatValue) : Prop := v ≠ ⊥ ∧ v.unbotD ⊤ ≠ ⊤

instance (v : FloatValue) : Decidable (IsFinite v) := instDecidableAnd

/-- A sum, which infinities of different signs do not have. -/
def add (v w : FloatValue) : Option FloatValue :=
  if v = ⊥ ∧ w.unbotD 0 = ⊤ ∨ w = ⊥ ∧ v.unbotD 0 = ⊤ then none else some (v + w)

/-- The value with the other sign. -/
def neg (v : FloatValue) : FloatValue :=
  if v = ⊥ then (⊤ : WithTop ℚ)
  else if v.unbotD 0 = ⊤ then ⊥
  else ((-toRat v : ℚ) : WithTop ℚ)

/-- A quotient of numbers, none where the result would not be one. -/
def div (v w : FloatValue) : Option FloatValue :=
  if IsFinite v ∧ IsFinite w ∧ toRat w ≠ 0 then
    some ((toRat v / toRat w : ℚ) : WithTop ℚ)
  else none

/-- The exponential function, exact for zero and the infinities and elsewhere in its first order. -/
def exp (v : FloatValue) : FloatValue := if v = ⊥ then .ofInt 0 else v + .ofInt 1

/-- `bucket_scale` and `bucket_inter`, 6.4 and 64. -/
def scaled (v : FloatValue) : FloatValue :=
  WithBot.map (WithTop.map fun q => mkRat 32 5 * q + mkRat 64 1) v

lemma scaled_mono : Monotone scaled := by
  refine Monotone.withBot_map (Monotone.withTop_map fun q q' h => ?_)
  have hscale : 0 ≤ mkRat 32 5 := by norm_num
  exact add_le_add_left (mul_le_mul_of_nonneg_left h hscale) _

end FloatValue

/-- A value, or none for a NaN. -/
abbrev ExactFloat := Option FloatValue

/-- The operations on exact floats. -/
def exactFloats : Floats ExactFloat where
  value := id
  zero := some (.ofInt 0)
  one := some (.ofInt 1)
  add x y := x.bind fun v => y.bind (FloatValue.add v)
  sub x y := x.bind fun v => y.bind fun w => FloatValue.add v (FloatValue.neg w)
  div x y := x.bind fun v => y.bind (FloatValue.div v)
  expf := Option.map FloatValue.exp
  bucketScaled := Option.map FloatValue.scaled
  exists_scaled _ v h := ⟨FloatValue.scaled v, congrArg (Option.map FloatValue.scaled) h⟩
  scaled_le a b v w v' w' ha hb ha' hb' h := by
    obtain rfl : a = some v := ha
    obtain rfl : b = some w := hb
    obtain rfl := Option.some.inj ha'
    obtain rfl := Option.some.inj hb'
    exact FloatValue.scaled_mono h
  expf_congr a b m h := by
    obtain rfl : a = b := h
    rfl

namespace Floats

variable {F : Type}

/-- The candidates sorted by insertion. -/
def insertionSorted (fl : Floats F) (l : List (TokenData F)) : List (TokenData F) :=
  l.insertionSort fun a b => fl.logit b ≤ fl.logit a

variable (fl : Floats F)

instance : Std.Total fun a b : TokenData F => fl.logit b ≤ fl.logit a :=
  ⟨fun a b => le_total (fl.logit b) (fl.logit a)⟩

instance : IsTrans (TokenData F) fun a b => fl.logit b ≤ fl.logit a :=
  ⟨fun _ _ _ h h' => h'.trans h⟩

lemma insertionSorted_perm (l : List (TokenData F)) : (fl.insertionSorted l).Perm l :=
  List.perm_insertionSort _ l

lemma descending_insertionSorted (l : List (TokenData F)) : fl.Descending (fl.insertionSorted l) :=
  List.pairwise_insertionSort (fun a b => fl.logit b ≤ fl.logit a) l

/-- Sorting by insertion, of all candidates also where only some are asked for. -/
def insertionSorting : fl.Sorting where
  sort := fl.insertionSorted
  sort_perm := fl.insertionSorted_perm
  sort_descending l _ := fl.descending_insertionSorted l
  partialSort _ := fl.insertionSorted
  partialSort_perm _ := fl.insertionSorted_perm
  partialSort_descending n l _ := (fl.descending_insertionSorted l).sublist (List.take_sublist n _)
  partialSort_le n l _ a ha b hb := by
    have hall := fl.descending_insertionSorted l
    rw [Descending, ← List.take_append_drop n (fl.insertionSorted l), List.pairwise_append] at hall
    exact hall.2.2 a ha b hb

end Floats

namespace Floats

variable {F : Type} {fl : Floats F}

/-! ## Sorting in place -/

lemma firstOfSorted_inplace (st : fl.Sorting) (fill : TokenData F) {cur : TokenDataArray F}
    (hdata : fl.NaNFree cur.data) {n : ℕ} (h : 128 < n → fl.BucketsDescend cur.data) (hpos : 0 < n)
    (hn : n ≤ cur.data.length) :
    ∃ out, partialSortInplace st fill cur n = some ⟨out, true⟩ ∧
      fl.FirstOfSorted n cur.data out := by
  rw [partialSortInplace]
  split_ifs with hsmall
  · have hperm := st.partialSort_perm n cur.data
    have hrest := st.sort_perm ((st.partialSort n cur.data).drop n)
    refine ⟨_, rfl, (st.partialSort n cur.data).take n ++
      st.sort ((st.partialSort n cur.data).drop n), ?_, ?_, ?_⟩
    · refine (hrest.append_left _).trans ?_
      rw [List.take_append_drop]
      exact hperm
    · refine List.pairwise_append.2 ⟨st.partialSort_descending _ _ hdata, ?_, fun a ha b hb => ?_⟩
      · exact st.sort_descending _ fun x hx =>
          hdata x (hperm.mem_iff.1 (List.mem_of_mem_drop hx))
      · exact st.partialSort_le _ _ hdata a ha b (hrest.mem_iff.1 hb)
    · rw [List.take_left' (by rw [List.length_take, hperm.length_eq, min_eq_left hn])]
  · obtain ⟨res, hres, -, hfirst⟩ := firstOfSorted_arrayPartialSort st fill hdata
      (h (not_le.1 hsmall)) hpos hn
    exact ⟨res.take n, by rw [hres]; rfl, hfirst⟩

lemma FirstOfSorted.all {data out : List (TokenData F)} (h : fl.FirstOfSorted data.length data out) :
    out.Perm data ∧ fl.Descending out := by
  obtain ⟨sorted, hperm, hdescending, rfl⟩ := h
  rw [List.take_of_length_le hperm.length_eq.le]
  exact ⟨hperm, hdescending⟩

/-! ## Top-k -/

/-- `top_k` keeps the candidates with the largest logits. -/
lemma topK_spec (st : fl.Sorting) (fill : TokenData F) {cur : TokenDataArray F}
    (hdata : fl.NaNFree cur.data) (hne : cur.data ≠ [])
    (hsorted : cur.sorted = true → fl.Descending cur.data) {k : ℤ} (hk : 1 ≤ k)
    (h : cur.sorted = false → 128 < min k.toNat cur.data.length → fl.BucketsDescend cur.data) :
    ∃ out, topK st fill cur k = some ⟨out, true⟩ ∧
      fl.FirstOfSorted (min k.toNat cur.data.length) cur.data out := by
  have hlength := List.length_pos_iff.2 hne
  rw [topK, if_neg (by omega)]
  dsimp only
  rcases hflag : cur.sorted with - | -
  · obtain ⟨out, hout, sorted, hperm, hdescending, rfl⟩ := firstOfSorted_inplace st fill hdata
      (h hflag) (show 0 < min k.toNat cur.data.length by omega) (min_le_right _ _)
    refine ⟨_, ?_, sorted, hperm, hdescending, rfl⟩
    rw [Bool.not_false, if_pos rfl, hout, Option.map_some, List.take_take, min_self]
  · exact ⟨_, by rw [Bool.not_true, if_neg Bool.false_ne_true, Option.map_some, hflag],
      cur.data, List.Perm.refl _, hsorted hflag, rfl⟩

/-! ## Probabilities -/

/-- Equal logits have equal probabilities. -/
def SameProbabilities (fl : Floats F) (data : List (TokenData F)) : Prop :=
  ∀ x ∈ data, ∀ y ∈ data, fl.logit x = fl.logit y → x.p = y.p

lemma sameProbabilities_withProbabilities {data : List (TokenData F)} (hdata : fl.NaNFree data)
    (maxL : F) : fl.SameProbabilities (fl.withProbabilities data maxL) := by
  intro x hx y hy heq
  obtain ⟨x₀, hx₀, rfl⟩ := List.mem_map.1 hx
  obtain ⟨y₀, hy₀, rfl⟩ := List.mem_map.1 hy
  have hvalue : fl.value x₀.logit = fl.value y₀.logit := by
    rw [value_logit (hdata x₀ hx₀), value_logit (hdata y₀ hy₀)]
    exact congrArg some heq
  dsimp only
  rw [fl.expf_congr _ _ maxL hvalue]

lemma nanFree_withProbabilities {data : List (TokenData F)} (hdata : fl.NaNFree data) (maxL : F) :
    fl.NaNFree (fl.withProbabilities data maxL) := by
  intro x hx
  obtain ⟨x₀, hx₀, rfl⟩ := List.mem_map.1 hx
  exact hdata x₀ hx₀

lemma bucketsDescend_withProbabilities {data : List (TokenData F)} (h : fl.BucketsDescend data)
    (maxL : F) : fl.BucketsDescend (fl.withProbabilities data maxL) := by
  intro x hx y hy
  obtain ⟨x₀, hx₀, rfl⟩ := List.mem_map.1 hx
  obtain ⟨y₀, hy₀, rfl⟩ := List.mem_map.1 hy
  exact h x₀ hx₀ y₀ hy₀

lemma descending_withProbabilities {data : List (TokenData F)} (h : fl.Descending data) (maxL : F) :
    fl.Descending (fl.withProbabilities data maxL) := List.pairwise_map.2 h

lemma length_withProbabilities (data : List (TokenData F)) (maxL : F) :
    (fl.withProbabilities data maxL).length = data.length := List.length_map _

lemma map_p_eq {data sorted sorted' : List (TokenData F)} (hsame : fl.SameProbabilities data)
    (hperm : sorted.Perm data) (hperm' : sorted'.Perm data) (hd : fl.Descending sorted)
    (hd' : fl.Descending sorted') :
    sorted.map (fun x => x.p) = sorted'.map (fun x => x.p) := by
  have hlogits : sorted.map fl.logit = sorted'.map fl.logit := by
    have hanti : ∀ a b : FloatValue, a ∈ sorted.map fl.logit → b ∈ sorted'.map fl.logit →
        b ≤ a → a ≤ b → a = b := fun a b _ _ h h' => le_antisymm h' h
    exact List.Perm.eq_of_pairwise hanti (List.pairwise_map.2 hd) (List.pairwise_map.2 hd')
      ((hperm.trans hperm'.symm).map _)
  refine List.ext_getElem ?_ fun i hi hi' => ?_
  · rw [List.length_map, List.length_map, hperm.length_eq, hperm'.length_eq]
  · rw [List.length_map] at hi hi'
    rw [List.getElem_map, List.getElem_map]
    refine hsame _ (hperm.mem_iff.1 (List.getElem_mem _)) _ (hperm'.mem_iff.1 (List.getElem_mem _)) ?_
    have heq := List.getElem_of_eq hlogits (by rwa [List.length_map])
    rwa [List.getElem_map, List.getElem_map] at heq

/-! ## Top-p -/

/-- The cumulative probability of the first candidates, as it is summed up. -/
def probabilitySum (fl : Floats F) (ps : List F) (n : ℕ) : F := (ps.take n).foldl fl.add fl.zero

/-- The first candidates have the probability, and they are enough. -/
def isEnough (fl : Floats F) (ctx : TopP F) (ps : List F) (i : ℕ) : Bool :=
  fl.ge (fl.probabilitySum ps (i + 1)) ctx.p && ctx.minKeep ≤ i + 1

/-- The length of the shortest beginning that has the probability, all when none has it. -/
def keepCount (fl : Floats F) (ctx : TopP F) (ps : List F) : ℕ :=
  ((List.range ps.length).find? (fl.isEnough ctx ps)).elim ps.length (· + 1)

lemma probabilitySum_succ {ps : List F} {i : ℕ} {x : F} (h : ps[i]? = some x) :
    fl.probabilitySum ps (i + 1) = fl.add (fl.probabilitySum ps i) x := by
  rw [probabilitySum, List.take_add_one, h, List.foldl_append]
  rfl

/-- The sorted candidates that the loop reads: the first of a sorted array. -/
def SortedTo (fl : Floats F) (data pdata : List (TokenData F)) (k : ℕ) : Prop :=
  ∃ sorted : List (TokenData F), sorted.Perm data ∧ fl.Descending sorted ∧
    pdata.take k = sorted.take k

lemma SortedTo.mono {data pdata : List (TokenData F)} {k m : ℕ} (h : fl.SortedTo data pdata k)
    (hm : m ≤ k) : fl.SortedTo data pdata m := by
  obtain ⟨sorted, hperm, hd, heq⟩ := h
  have htake := congrArg (List.take m) heq
  rw [List.take_take, List.take_take, min_eq_left hm] at htake
  exact ⟨sorted, hperm, hd, htake⟩

lemma sortedTo_of_firstOfSorted {data res : List (TokenData F)} {n : ℕ}
    (h : fl.FirstOfSorted n data (res.take n)) : fl.SortedTo data res n := h

lemma SortedTo.exists_getElem? {data pdata arr : List (TokenData F)} {k i : ℕ}
    (h : fl.SortedTo data pdata k) (hsame : fl.SameProbabilities data) (harr : arr.Perm data)
    (hd : fl.Descending arr) (hi : i < k) (hlt : i < data.length) :
    ∃ x, pdata[i]? = some x ∧ (arr.map fun x => x.p)[i]? = some x.p := by
  obtain ⟨sorted, hperm, hsorted, heq⟩ := h
  have hlength : i < sorted.length := by rwa [hperm.length_eq]
  have hread := congrArg (fun l => l[i]?) heq
  rw [List.getElem?_take_of_lt hi, List.getElem?_take_of_lt hi,
    List.getElem?_eq_getElem hlength] at hread
  refine ⟨sorted[i], hread, ?_⟩
  rw [map_p_eq hsame harr hperm hd hsorted, List.getElem?_map, List.getElem?_eq_getElem hlength,
    Option.map_some]

lemma topPLoop_spec (st : fl.Sorting) (fill : TokenData F) (ctx : TopP F) {cur : TokenDataArray F}
    (hdata : fl.NaNFree cur.data) (h : cur.sorted = false → fl.BucketsDescend cur.data)
    (hsame : fl.SameProbabilities cur.data) {arr : List (TokenData F)} (harr : arr.Perm cur.data)
    (hd : fl.Descending arr) {rounds i k : ℕ} {pdata : List (TokenData F)}
    (hrounds : i + rounds = cur.data.length) (hk : k ≤ cur.data.length)
    (hik : if rounds = 0 then k = cur.data.length else i < k)
    (hflag : cur.sorted = true → k = cur.data.length) (hpdata : fl.SortedTo cur.data pdata k) :
    ∃ last, topPLoop st fill ctx cur rounds i
        (fl.probabilitySum (arr.map fun x => x.p) i) k pdata = some last ∧
      fl.SortedTo cur.data last.2 last.1 ∧ (cur.sorted = true → last.2 = pdata) ∧
      last.1 = ((List.range' i rounds).find? (fl.isEnough ctx (arr.map fun x => x.p))).elim
        cur.data.length (· + 1) := by
  induction rounds generalizing i k pdata with
  | zero =>
    rw [if_pos rfl] at hik
    exact ⟨_, rfl, hik ▸ hpdata, fun _ => rfl, rfl⟩
  | succ rounds ih =>
    rw [if_neg (Nat.succ_ne_zero rounds)] at hik
    obtain ⟨x, hx, hp⟩ := hpdata.exists_getElem? hsame harr hd hik (by omega)
    rw [topPLoop, hx, Option.bind_some, List.range'_succ, List.find?_cons,
      ← probabilitySum_succ hp]
    dsimp only
    by_cases hend : fl.isEnough ctx (arr.map fun x => x.p) i = true
    · rw [hend]
      rw [isEnough] at hend
      rw [if_pos hend]
      exact ⟨_, rfl, hpdata.mono hik, fun _ => rfl, rfl⟩
    · rw [Bool.not_eq_true] at hend
      rw [hend]
      rw [isEnough] at hend
      rw [if_neg (by rw [hend]; exact Bool.false_ne_true)]
      by_cases hagain : (!cur.sorted && i + 1 == k) = true
      · rw [Bool.and_eq_true, Bool.not_eq_true', beq_iff_eq] at hagain
        obtain ⟨res, hres, -, hfirst⟩ := firstOfSorted_arrayPartialSort st fill hdata (h hagain.1)
          (show 0 < cur.data.length by omega) le_rfl
        obtain ⟨last, hloop, hlast, -, hcount⟩ := ih (by omega : i + 1 + rounds = _) le_rfl
          (by split_ifs <;> omega) (fun _ => rfl) (sortedTo_of_firstOfSorted hfirst)
        refine ⟨last, ?_, hlast, fun htrue => ?_, hcount⟩
        · rw [if_pos (by rw [hagain.1, hagain.2]; simp), hres, Option.bind_some]
          exact hloop
        · rw [hagain.1] at htrue
          cases htrue
      · have hnext : if rounds = 0 then k = cur.data.length else i + 1 < k := by
          rw [Bool.and_eq_true, Bool.not_eq_true', beq_iff_eq] at hagain
          rcases hsorted : cur.sorted with - | -
          · have hne : i + 1 ≠ k := fun heq => hagain ⟨hsorted, heq⟩
            split_ifs <;> omega
          · have heq := hflag hsorted
            split_ifs <;> omega
        obtain ⟨last, hloop, hlast, hsame', hcount⟩ := ih (by omega : i + 1 + rounds = _) hk hnext
          hflag hpdata
        exact ⟨last, by rw [if_neg hagain]; exact hloop, hlast, hsame', hcount⟩

/-- What `top_p` has before its loop: the candidates, and the first of them sorted. -/
structure Started (fl : Floats F) (data : List (TokenData F))
    (start : TokenDataArray F × List (TokenData F) × ℕ) : Prop where
  perm : start.1.data.Perm data
  pos : 0 < start.2.2
  le : start.2.2 ≤ data.length
  descend : start.1.sorted = false → fl.BucketsDescend data
  whole : start.1.sorted = true → start.2.2 = data.length ∧ start.2.1 = start.1.data
  sorted : fl.SortedTo data start.2.1 start.2.2

lemma exists_topPStart (st : fl.Sorting) (fill : TokenData F) {cur : TokenDataArray F}
    (hdata : fl.NaNFree cur.data) (hne : cur.data ≠ [])
    (hsorted : cur.sorted = true → fl.Descending cur.data)
    (h : cur.sorted = false → 128 < cur.data.length → fl.BucketsDescend cur.data) :
    ∃ start, topPStart st fill cur = some start ∧ fl.Started cur.data start := by
  have hlength := List.length_pos_iff.2 hne
  rcases hflag : cur.sorted with - | -
  · by_cases hlarge : 1024 < cur.data.length
    · have hdescend := h hflag (by omega)
      obtain ⟨res, hres, -, hfirst⟩ := firstOfSorted_arrayPartialSort st fill hdata hdescend
        (show 0 < min 256 cur.data.length by omega) (min_le_right _ _)
      refine ⟨(cur, res, min 256 cur.data.length), ?_, List.Perm.refl _, by dsimp only; omega,
        min_le_right _ _, fun _ => hdescend, fun htrue => ?_, sortedTo_of_firstOfSorted hfirst⟩
      · rw [topPStart, hflag, Bool.not_false, Bool.true_and, if_pos (decide_eq_true hlarge)]
        dsimp only
        rw [hres, Option.map_some]
      · rw [hflag] at htrue
        cases htrue
    · obtain ⟨out, hout, hfirst⟩ := firstOfSorted_inplace st fill hdata (h hflag) hlength le_rfl
      obtain ⟨hperm, hdescending⟩ := hfirst.all
      refine ⟨(⟨out, true⟩, out, cur.data.length), ?_, hperm, hlength, le_rfl, fun hfalse => ?_,
        fun _ => ⟨rfl, rfl⟩, out, hperm, hdescending, rfl⟩
      · rw [topPStart, hflag, Bool.not_false, Bool.true_and,
          if_neg (by rw [decide_eq_true_iff]; exact hlarge), if_pos rfl, hout, Option.map_some]
      · cases hfalse
  · refine ⟨(cur, cur.data, cur.data.length), ?_, List.Perm.refl _, hlength, le_rfl,
      fun hfalse => ?_, fun _ => ⟨rfl, rfl⟩, cur.data, List.Perm.refl _, hsorted hflag, rfl⟩
    · rw [topPStart, hflag, Bool.not_true, Bool.false_and, if_neg Bool.false_ne_true,
        if_neg Bool.false_ne_true]
    · rw [hflag] at hfalse
      cases hfalse

lemma SortedTo.perm {data data' pdata : List (TokenData F)} {k : ℕ}
    (h : fl.SortedTo data pdata k) (hperm : data.Perm data') : fl.SortedTo data' pdata k := by
  obtain ⟨sorted, hsorted, hrest⟩ := h
  exact ⟨sorted, hsorted.trans hperm, hrest⟩

lemma BucketsDescend.perm {data data' : List (TokenData F)} (h : fl.BucketsDescend data)
    (hperm : data'.Perm data) : fl.BucketsDescend data' :=
  fun x hx y hy => h x (hperm.mem_iff.1 hx) y (hperm.mem_iff.1 hy)

lemma SameProbabilities.perm {data data' : List (TokenData F)} (h : fl.SameProbabilities data)
    (hperm : data'.Perm data) : fl.SameProbabilities data' :=
  fun x hx y hy => h x (hperm.mem_iff.1 hx) y (hperm.mem_iff.1 hy)

/-- `top_p` keeps the shortest beginning of the sorted array that has the probability. -/
lemma topP_spec (st : fl.Sorting) (fill : TokenData F) {ctx : TopP F} (hp : fl.ge ctx.p fl.one = false)
    {cur : TokenDataArray F} {first : TokenData F} {rest : List (TokenData F)}
    (hcons : cur.data = first :: rest) (hdata : fl.NaNFree cur.data)
    (hsorted : cur.sorted = true → fl.Descending cur.data)
    (h : cur.sorted = false → 128 < cur.data.length → fl.BucketsDescend cur.data) :
    ∃ out arr, topP st fill ctx cur = some ⟨out, true⟩ ∧
      arr.Perm (fl.withProbabilities cur.data (fl.maxLogit cur first)) ∧ fl.Descending arr ∧
      out = arr.take (fl.keepCount ctx (arr.map fun x => x.p)) := by
  obtain ⟨soft, hsoft⟩ : ∃ soft, soft = fl.withProbabilities cur.data (fl.maxLogit cur first) :=
    ⟨_, rfl⟩
  have hsoftmax : softmax st fill cur false = some { cur with data := soft } := by
    rw [softmax, Bool.false_and, if_neg Bool.false_ne_true, Option.bind_some, hsoft, hcons]
    rfl
  have hlength : soft.length = cur.data.length := by rw [hsoft, length_withProbabilities]
  have hne : soft ≠ [] := by
    rw [← List.length_pos_iff, hlength, hcons]
    exact Nat.succ_pos _
  have hsame : fl.SameProbabilities soft := hsoft ▸ sameProbabilities_withProbabilities hdata _
  have hnum : fl.NaNFree soft := hsoft ▸ nanFree_withProbabilities hdata _
  obtain ⟨start, hstart, hs⟩ := @exists_topPStart F fl st fill { cur with data := soft } hnum hne
    (fun hflag => hsoft ▸ descending_withProbabilities (hsorted hflag) _)
    (fun hflag hlarge => hsoft ▸ bucketsDescend_withProbabilities (h hflag (hlength ▸ hlarge)) _)
  have hperm := hs.perm
  have hsize := hperm.length_eq
  obtain ⟨arr, harr, hd, -⟩ := hs.sorted
  obtain ⟨last, hloop, hlast, hkept, hcount⟩ := topPLoop_spec st fill ctx (hnum.perm hperm)
    (fun hflag => (hs.descend hflag).perm hperm) (hsame.perm hperm) (harr.trans hperm.symm) hd
    (Nat.zero_add start.1.data.length) (hs.le.trans_eq hsize.symm)
    (by rw [if_neg (by rw [hsize]; exact (List.length_pos_iff.2 hne).ne')]; exact hs.pos)
    (fun hflag => (hs.whole hflag).1.trans hsize.symm) (hs.sorted.perm hperm.symm)
  obtain ⟨sorted, hsortedPerm, hdescending, htake⟩ := hlast
  have hps : arr.map (fun x => x.p) = sorted.map fun x => x.p :=
    map_p_eq hsame harr (hsortedPerm.trans hperm) hd hdescending
  refine ⟨last.2.take last.1, sorted, ?_, hsoft ▸ hsortedPerm.trans hperm, hdescending, ?_⟩
  · rw [topP, hp, if_neg Bool.false_ne_true, hsoftmax, Option.bind_some, hstart, Option.bind_some]
    refine (congrArg (Option.map _) hloop).trans ?_
    rw [Option.map_some]
    rcases hflag : start.1.sorted with - | -
    · rw [Bool.not_false, if_pos rfl]
    · rw [Bool.not_true, if_neg Bool.false_ne_true, hkept hflag, (hs.whole hflag).2]
  · rw [htake, hcount, keepCount, hps, List.length_map, hsortedPerm.length_eq, List.range_eq_range']

/-! ## The samplers -/

/-- The partial sort gives the first `n` candidates of the sorted array, and loses none of the rest
(which it does not order). -/
def PartialSortRight (st : fl.Sorting) (fill : TokenData F) (data : List (TokenData F)) : Prop :=
  ∀ n, 1 ≤ n → n ≤ data.length → ∃ res, arrayPartialSort st fill data n = some res ∧
    (∃ rest, (res ++ rest).Perm data) ∧ n ≤ res.length ∧ fl.FirstOfSorted n data (res.take n)

/-- `top_k` keeps the first `k` candidates of the sorted array. -/
def TopKRight (st : fl.Sorting) (fill : TokenData F) (cur : TokenDataArray F) (k : ℤ) : Prop :=
  ∃ out, topK st fill cur k = some ⟨out, true⟩ ∧
    fl.FirstOfSorted (min k.toNat cur.data.length) cur.data out

/-- `top_p` keeps the shortest beginning of the sorted array with the probability. -/
def TopPRight (st : fl.Sorting) (fill : TokenData F) (cur : TokenDataArray F) (ctx : TopP F) :
    Prop :=
  ∀ first, cur.data.head? = some first → ∃ out arr, topP st fill ctx cur = some ⟨out, true⟩ ∧
    arr.Perm (fl.withProbabilities cur.data (fl.maxLogit cur first)) ∧ fl.Descending arr ∧
    out = arr.take (fl.keepCount ctx (arr.map fun x => x.p))

/-- The array is sorted, or `n` is so small that the buckets are not needed, or they are ordered. -/
def Sortable (fl : Floats F) (cur : TokenDataArray F) (n : ℕ) : Prop :=
  cur.sorted = true ∨ n ≤ 128 ∨ fl.OrderedBuckets cur.data

lemma Sortable.descend {cur : TokenDataArray F} {n : ℕ} (h : fl.Sortable cur n)
    (hdata : fl.NaNFree cur.data) (hflag : cur.sorted = false) (hn : 128 < n) :
    fl.BucketsDescend cur.data := by
  rcases h with htrue | hsmall | hordered
  · rw [hflag] at htrue
    cases htrue
  · omega
  · exact hordered.descend hdata

/-- The partial sort, `top_k` and `top_p` are right for all arrays with ordered buckets. -/
theorem samplers_right (st : fl.Sorting) (fill : TokenData F) (cur : TokenDataArray F)
    (hne : cur.data ≠ []) (hdata : fl.NaNFree cur.data)
    (hsorted : cur.sorted = true → fl.Descending cur.data) :
    (fl.OrderedBuckets cur.data → PartialSortRight st fill cur.data) ∧
      (∀ k : ℤ, 1 ≤ k → fl.Sortable cur (min k.toNat cur.data.length) →
        TopKRight st fill cur k) ∧
      ∀ ctx : TopP F, fl.ge ctx.p fl.one = false → fl.Sortable cur cur.data.length →
        TopPRight st fill cur ctx := by
  refine ⟨fun h n hpos hn => ?_, fun k hk h => ?_, fun ctx hp h first hfirst => ?_⟩
  · obtain ⟨res, hres, hrest, hfirst⟩ :=
      firstOfSorted_arrayPartialSort st fill hdata (h.descend hdata) hpos hn
    refine ⟨res, hres, hrest, ?_, hfirst⟩
    obtain ⟨sorted, hperm, -, htake⟩ := hfirst
    have hlength := congrArg List.length htake
    rw [List.length_take, List.length_take, hperm.length_eq] at hlength
    omega
  · exact topK_spec st fill hdata hne hsorted hk fun hflag hn => h.descend hdata hflag hn
  · obtain ⟨rest, hcons⟩ := List.head?_eq_some_iff.1 hfirst
    exact topP_spec st fill hp hcons hdata hsorted fun hflag hn => h.descend hdata hflag hn

/-! ## Examples -/

/-- A candidate with all of the probability and one with none of it. -/
def certainPair (sorted : Bool) : TokenDataArray ExactFloat :=
  ⟨[⟨0, some (.ofInt 0), none⟩, ⟨1, some ⊥, none⟩], sorted⟩

/-- A candidate without a probability, as the resized array has it at first. -/
def blankCandidate : TokenData ExactFloat := ⟨0, some (.ofInt 0), none⟩

lemma nanFree_certainPair (sorted : Bool) : exactFloats.NaNFree (certainPair sorted).data :=
  List.forall_mem_cons.2 ⟨⟨_, rfl⟩, List.forall_mem_singleton.2 ⟨_, rfl⟩⟩

lemma not_tooLarge_certainPair (sorted : Bool) :
    ∀ y ∈ (certainPair sorted).data, ¬exactFloats.TooLarge y := by
  rw [certainPair, List.forall_mem_cons, List.forall_mem_singleton]
  exact ⟨not_le.2 (by decide +kernel), not_le.2 (by decide +kernel)⟩

theorem samplers_right_certainPair :
    PartialSortRight (insertionSorting exactFloats) blankCandidate (certainPair false).data ∧
      TopKRight (insertionSorting exactFloats) blankCandidate (certainPair false) 1 ∧
      TopPRight (insertionSorting exactFloats) blankCandidate (certainPair false)
        ⟨some (.ofInt 0), 1⟩ := by
  have hordered : exactFloats.OrderedBuckets (certainPair false).data :=
    fun _ _ y hy hlarge => absurd hlarge (not_tooLarge_certainPair false y hy)
  obtain ⟨hsort, hk, hp⟩ := samplers_right (insertionSorting exactFloats) blankCandidate
    (certainPair false) (List.cons_ne_nil _ _) (nanFree_certainPair false)
    fun hfalse => absurd hfalse Bool.false_ne_true
  exact ⟨hsort hordered, hk 1 le_rfl (Or.inr (Or.inr hordered)),
    hp ⟨some (.ofInt 0), 1⟩ (by decide +kernel) (Or.inr (Or.inr hordered))⟩

/-- An infinite logit and a finite one. -/
def infinitePair : List (TokenData ExactFloat) :=
  [⟨0, some (⊤ : WithTop ℚ), none⟩, ⟨1, some (.ofInt 0), none⟩]

lemma not_orderedBuckets_infinitePair : ¬exactFloats.OrderedBuckets infinitePair := by
  intro h
  have hfirst : exactFloats.TooLarge ⟨0, some (⊤ : WithTop ℚ), none⟩ :=
    WithBot.coe_le_coe.2 le_top
  rcases h _ (List.mem_cons_of_mem _ (List.mem_singleton_self _)) _ List.mem_cons_self hfirst with
    hlarge | hlow
  · exact absurd hlarge (not_le.2 (by decide +kernel))
  · exact absurd hlow (not_lt.2 (by decide +kernel))

/-- A logit that is too large for the buckets is sorted behind the others, and `top_p` with the
probability one keeps all candidates. -/
theorem not_samplers_right :
    (exactFloats.NaNFree infinitePair ∧
      ¬PartialSortRight (insertionSorting exactFloats) blankCandidate infinitePair) ∧
    (exactFloats.NaNFree (certainPair true).data ∧ exactFloats.Descending (certainPair true).data ∧
      ¬TopPRight (insertionSorting exactFloats) blankCandidate (certainPair true)
        ⟨some (.ofInt 1), 1⟩) := by
  have hdescending : exactFloats.Descending (certainPair true).data :=
    List.pairwise_pair.2 bot_le
  have hnumbers : exactFloats.NaNFree infinitePair :=
    List.forall_mem_cons.2 ⟨⟨_, rfl⟩, List.forall_mem_singleton.2 ⟨_, rfl⟩⟩
  refine ⟨⟨hnumbers, fun h => ?_⟩, nanFree_certainPair true, hdescending, fun h => ?_⟩
  · obtain ⟨res, hres, -, -, hfirst⟩ := h 2 one_le_two le_rfl
    exact not_orderedBuckets_infinitePair (orderedBuckets_of_firstOfSorted _ _ hnumbers
      Nat.two_pos ⟨res, hres, hfirst⟩)
  · obtain ⟨out, arr, hout, hperm, hd, heq⟩ := h _ rfl
    have hsoft := @descending_withProbabilities _ exactFloats _ hdescending
      (some (.ofInt 0))
    have hps := map_p_eq (sameProbabilities_withProbabilities (nanFree_certainPair true) _) hperm
      (List.Perm.refl _) hd hsoft
    have hcount : exactFloats.keepCount ⟨some (.ofInt 1), 1⟩
        ((exactFloats.withProbabilities (certainPair true).data (some (.ofInt 0))).map
          fun x => x.p) = 1 := by decide +kernel
    have hall : (topP (insertionSorting exactFloats) blankCandidate ⟨some (.ofInt 1), 1⟩
        (certainPair true)).map (fun cur => cur.data.length) = some 2 := by decide +kernel
    have hone : out.length ≤ 1 := by
      rw [heq, hps]
      refine (List.length_take_le _ _).trans hcount.le
    rw [hout, Option.map_some, Option.some.injEq] at hall
    dsimp only at hall
    omega

end Floats

end IFairy.Sampling
