import IFairy.Sampling.PartialSort
import Mathlib.Data.Rat.Floor
import Mathlib.Order.Interval.Finset.Nat

/-!
# What the partial sort gives

The buckets are in the order of the logits as long as no logit is too large for the conversion to
`int`: such a logit gets into the lowest bucket (`bucketIdx_le`).  Then the partial sort gives the
first candidates of the sorted array (`firstOfSorted_arrayPartialSort`).  It does so for every
number of candidates only then (`orderedBuckets_of_firstOfSorted`).
-/

namespace IFairy.Sampling

namespace Floats

variable {F : Type} {fl : Floats F}

/-! ## Buckets -/

/-- The value of a logit after scaling. -/
def scaledValue (fl : Floats F) (x : TokenData F) : FloatValue :=
  (fl.value (fl.bucketScaled x.logit)).getD ⊥

/-- The scaled logit exceeds the range of `int`. -/
def TooLarge (fl : Floats F) (x : TokenData F) : Prop := .ofInt (2 ^ 31) ≤ fl.scaledValue x

/-- The scaled logit is below one, so the candidate belongs to the lowest bucket. -/
def Low (fl : Floats F) (x : TokenData F) : Prop := fl.scaledValue x < .ofInt 1

/-- Besides candidates whose scaled logits are too large there are only some of the lowest bucket. -/
def OrderedBuckets (fl : Floats F) (data : List (TokenData F)) : Prop :=
  ∀ x ∈ data, ∀ y ∈ data, fl.TooLarge y → fl.TooLarge x ∨ fl.Low x

lemma tdiv_of_nonneg {q : ℚ} (h : 0 ≤ q) : q.num.tdiv q.den = ⌊q⌋ := by
  rw [Int.tdiv_eq_ediv_of_nonneg (Rat.num_nonneg.2 h)]
  exact (Rat.floor_def q).symm

lemma ofInt_lt_coe {n : ℤ} {q : ℚ} :
    FloatValue.ofInt n < ((q : WithTop ℚ) : FloatValue) ↔ (n : ℚ) < q := by
  rw [FloatValue.ofInt, WithBot.coe_lt_coe, WithTop.coe_lt_coe]

lemma coe_lt_ofInt {n : ℤ} {q : ℚ} :
    ((q : WithTop ℚ) : FloatValue) < FloatValue.ofInt n ↔ q < (n : ℚ) := by
  rw [FloatValue.ofInt, WithBot.coe_lt_coe, WithTop.coe_lt_coe]

/-- The bucket of a finite number that is in the range of `int`. -/
lemma toInt_of_mem {a : F} {q : ℚ} (ha : fl.value a = some ((q : WithTop ℚ) : FloatValue))
    (hlow : ((-2 ^ 31 - 1 : ℤ) : ℚ) < q) (hhigh : q < ((2 ^ 31 : ℤ) : ℚ)) :
    fl.toInt a = q.num.tdiv q.den := by
  rw [toInt, ha, Option.elim_some, if_pos ⟨ofInt_lt_coe.2 hlow, coe_lt_ofInt.2 hhigh⟩]
  rfl

/-- What is not in the range of `int` is converted to the least one. -/
lemma toInt_of_notMem {a : F} {v : FloatValue} (ha : fl.value a = some v)
    (h : v ≤ .ofInt (-2 ^ 31 - 1) ∨ .ofInt (2 ^ 31) ≤ v) : fl.toInt a = -2 ^ 31 := by
  rw [toInt, ha, Option.elim_some, if_neg]
  rintro ⟨hlow, hhigh⟩
  exact h.elim (not_le.2 hlow) (not_le.2 hhigh)

lemma exists_coe_of_mem {w : FloatValue} {m n : ℤ} (hlow : .ofInt m < w) (hhigh : w < .ofInt n) :
    ∃ q : ℚ, w = ((q : WithTop ℚ) : FloatValue) := by
  induction w using WithBot.recBotCoe with
  | bot => exact absurd hlow not_lt_bot
  | coe w =>
    induction w using WithTop.recTopCoe with
    | top => exact absurd (WithBot.coe_lt_coe.1 hhigh) not_top_lt
    | coe q => exact ⟨q, rfl⟩

lemma tdiv_nonpos_of_lt_one {q : ℚ} (h : q < 1) : q.num.tdiv q.den ≤ 0 := by
  rcases le_total 0 q with hq | hq
  · rw [tdiv_of_nonneg hq, Int.floor_eq_zero_iff.2 ⟨hq, h⟩]
  · have hneg := Int.tdiv_nonneg (Int.neg_nonneg.2 (Rat.num_nonpos.2 hq)) (Int.natCast_nonneg q.den)
    rw [Int.neg_tdiv] at hneg
    omega

lemma bucketIdx_lt (fl : Floats F) (x : TokenData F) : fl.bucketIdx x < nbuckets := by
  rw [bucketIdx, nbuckets]
  omega

section Numbers

variable {x y : TokenData F} (hx : ∃ v, fl.value x.logit = some v)

include hx

lemma value_bucketScaled : fl.value (fl.bucketScaled x.logit) = some (fl.scaledValue x) := by
  obtain ⟨v, hv⟩ := hx
  obtain ⟨w, hw⟩ := fl.exists_scaled _ v hv
  rw [scaledValue, hw]
  rfl

lemma value_logit : fl.value x.logit = some (fl.logit x) := by
  obtain ⟨v, hv⟩ := hx
  rw [logit, hv]
  rfl

lemma bucketIdx_of_tooLarge (h : fl.TooLarge x) : fl.bucketIdx x = 0 := by
  rw [bucketIdx, toInt_of_notMem (value_bucketScaled hx) (Or.inr h)]
  rfl

lemma bucketIdx_of_low (h : fl.Low x) : fl.bucketIdx x = 0 := by
  have hvalue := value_bucketScaled hx
  rw [bucketIdx]
  by_cases hin : .ofInt (-2 ^ 31 - 1) < fl.scaledValue x
  · obtain ⟨q, hq⟩ := exists_coe_of_mem hin h
    rw [Low, hq, coe_lt_ofInt] at h
    rw [hq, ofInt_lt_coe] at hin
    rw [hq] at hvalue
    have hle := tdiv_nonpos_of_lt_one (h.trans_eq Int.cast_one)
    rw [toInt_of_mem hvalue hin (h.trans_le (by norm_num))]
    omega
  · rw [toInt_of_notMem hvalue (Or.inl (not_lt.1 hin))]
    rfl

lemma exists_bucketIdx_eq (hlarge : ¬fl.TooLarge x) (hlow : ¬fl.Low x) :
    ∃ q : ℚ, fl.scaledValue x = ((q : WithTop ℚ) : FloatValue) ∧ 1 ≤ q ∧
      fl.bucketIdx x = min 127 ⌊q⌋.toNat := by
  have hhigh : fl.scaledValue x < .ofInt (2 ^ 31) := not_le.1 hlarge
  have hone : .ofInt 1 ≤ fl.scaledValue x := not_lt.1 hlow
  have hzero : FloatValue.ofInt 0 < .ofInt 1 := by
    rw [FloatValue.ofInt, FloatValue.ofInt, WithBot.coe_lt_coe, WithTop.coe_lt_coe]
    exact_mod_cast Int.zero_lt_one
  obtain ⟨q, hq⟩ := exists_coe_of_mem (hzero.trans_le hone) hhigh
  have hvalue := value_bucketScaled hx
  rw [hq] at hone hhigh hvalue
  have hone : (1 : ℚ) ≤ q := by
    have hnot := mt coe_lt_ofInt.2 (not_lt.2 hone)
    rw [Int.cast_one] at hnot
    exact not_lt.1 hnot
  refine ⟨q, hq, hone, ?_⟩
  rw [bucketIdx, toInt_of_mem hvalue _ (coe_lt_ofInt.1 hhigh),
    tdiv_of_nonneg (zero_le_one.trans hone), nbuckets]
  · have hfloor := Int.floor_nonneg.2 (zero_le_one.trans hone)
    omega
  · exact lt_of_lt_of_le (by norm_num) hone

end Numbers

lemma scaledValue_le {x y : TokenData F} (hx : ∃ v, fl.value x.logit = some v)
    (hy : ∃ v, fl.value y.logit = some v) (h : fl.logit x ≤ fl.logit y) :
    fl.scaledValue x ≤ fl.scaledValue y :=
  fl.scaled_le _ _ _ _ _ _ (value_logit hx) (value_logit hy) (value_bucketScaled hx)
    (value_bucketScaled hy) h

lemma bucketIdx_le {data : List (TokenData F)} (hdata : fl.NaNFree data)
    (h : fl.OrderedBuckets data) {x y : TokenData F} (hx : x ∈ data) (hy : y ∈ data)
    (hle : fl.logit x ≤ fl.logit y) : fl.bucketIdx x ≤ fl.bucketIdx y := by
  by_cases hlow : fl.Low x
  · rw [bucketIdx_of_low (hdata x hx) hlow]
    exact Nat.zero_le _
  by_cases hlarge : fl.TooLarge x
  · rw [bucketIdx_of_tooLarge (hdata x hx) hlarge]
    exact Nat.zero_le _
  have hscaled := scaledValue_le (hdata x hx) (hdata y hy) hle
  have hlarge' : ¬fl.TooLarge y := fun hy' => (h x hx y hy hy').elim hlarge hlow
  have hlow' : ¬fl.Low y := fun hy' => hlow (hscaled.trans_lt hy')
  obtain ⟨q, hq, -, hbucket⟩ := exists_bucketIdx_eq (hdata x hx) hlarge hlow
  obtain ⟨q', hq', -, hbucket'⟩ := exists_bucketIdx_eq (hdata y hy) hlarge' hlow'
  rw [hq, hq', WithBot.coe_le_coe, WithTop.coe_le_coe] at hscaled
  rw [hbucket, hbucket']
  exact min_le_min_left _ (Int.toNat_le_toNat (Int.floor_le_floor hscaled))

lemma bucketIdx_pos {x : TokenData F} (hx : ∃ v, fl.value x.logit = some v)
    (hlarge : ¬fl.TooLarge x) (hlow : ¬fl.Low x) : 0 < fl.bucketIdx x := by
  obtain ⟨q, -, hone, hbucket⟩ := exists_bucketIdx_eq hx hlarge hlow
  have hfloor : 1 ≤ ⌊q⌋ := Int.le_floor.2 (by exact_mod_cast hone)
  rw [hbucket]
  omega

/-! ## The cut -/

/-- The sizes of the buckets, the highest one first. -/
def slotSize (fl : Floats F) (data : List (TokenData F)) (t : ℕ) : ℕ :=
  fl.histo data (nbuckets - 1 - t)

/-- The candidates of a bucket, the highest bucket first. -/
def slotOf (fl : Floats F) (data : List (TokenData F)) (t : ℕ) : List (TokenData F) :=
  data.filter fun x => nbuckets - 1 - fl.bucketIdx x = t

lemma mem_slotOf {data : List (TokenData F)} {x : TokenData F} {t : ℕ} :
    x ∈ fl.slotOf data t ↔ x ∈ data ∧ nbuckets - 1 - fl.bucketIdx x = t := by
  rw [slotOf, List.mem_filter, decide_eq_true_iff]

lemma slotSize_eq (data : List (TokenData F)) {t : ℕ} (ht : t < nbuckets) :
    fl.slotSize data t = data.countP fun x => nbuckets - 1 - fl.bucketIdx x = t := by
  refine List.countP_congr fun x _ => ?_
  have hlt := fl.bucketIdx_lt x
  rw [decide_eq_true_iff, decide_eq_true_iff]
  omega

lemma length_slotOf (data : List (TokenData F)) {t : ℕ} (ht : t < nbuckets) :
    (fl.slotOf data t).length = fl.slotSize data t := by
  rw [slotSize_eq data ht]
  exact List.countP_eq_length_filter.symm

lemma exists_cutBucket {data : List (TokenData F)} {n k : ℕ} (hk : k ≤ nbuckets)
    (hlow : slotStart (fl.slotSize data) (nbuckets - k) < n)
    (hhigh : n ≤ slotStart (fl.slotSize data) nbuckets) :
    ∃ ib < k, fl.cutBucket data n k (slotStart (fl.slotSize data) (nbuckets - k)) =
        some (ib, slotStart (fl.slotSize data) (nbuckets - ib)) ∧
      slotStart (fl.slotSize data) (nbuckets - 1 - ib) < n ∧
      n ≤ slotStart (fl.slotSize data) (nbuckets - ib) := by
  induction k with
  | zero =>
    rw [Nat.sub_zero] at hlow
    exact absurd hlow (not_lt.2 hhigh)
  | succ k ih =>
    have hindex : nbuckets - k = nbuckets - (k + 1) + 1 := by omega
    have hslot : nbuckets - 1 - (nbuckets - (k + 1)) = k := by omega
    have hsum : slotStart (fl.slotSize data) (nbuckets - (k + 1)) + fl.histo data k =
        slotStart (fl.slotSize data) (nbuckets - k) := by
      rw [hindex, slotStart_succ, slotSize, hslot]
    rw [cutBucket, hsum]
    split_ifs with hcut
    · exact ⟨k, k.lt_succ_self, rfl, by rwa [show nbuckets - 1 - k = nbuckets - (k + 1) by omega],
        hcut⟩
    · obtain ⟨ib, hib, hloop, hrest⟩ := ih (by omega) (not_le.1 hcut)
      exact ⟨ib, Nat.lt_succ_of_lt hib, hloop, hrest⟩

lemma flatMap_slotOf_perm (data : List (TokenData F)) :
    ((List.range nbuckets).flatMap (fl.slotOf data)).Perm data := by
  have hall : data.filter (fun x => decide (nbuckets - 1 - fl.bucketIdx x < nbuckets)) = data :=
    List.filter_eq_self.2 fun x _ => decide_eq_true (by rw [nbuckets]; omega)
  have hperm := flatMap_filter_perm (fun x => nbuckets - 1 - fl.bucketIdx x) nbuckets data
  rw [hall] at hperm
  exact hperm

lemma slotStart_slotSize (data : List (TokenData F)) :
    slotStart (fl.slotSize data) nbuckets = data.length := by
  rw [← length_flatMap_range (fl.slotOf data) fun t ht => length_slotOf data ht,
    (flatMap_slotOf_perm data).length_eq]

/-! ## Sorting the buckets -/

lemma onRange_append (f : List (TokenData F) → List (TokenData F))
    (front mid rest : List (TokenData F)) :
    onRange f front.length mid.length (front ++ (mid ++ rest)) = front ++ (f mid ++ rest) := by
  rw [onRange, List.take_left, List.drop_left, List.take_left, ← List.drop_drop, List.drop_left,
    List.drop_left, List.append_assoc]

lemma foldl_sortBuckets (st : fl.Sorting) (data : List (TokenData F)) (rest : List (TokenData F))
    {m : ℕ} (hm : m ≤ nbuckets) :
    (List.range m).foldl (fun s t => (onRange st.sort s.2 (fl.slotSize data t) s.1,
        s.2 + fl.slotSize data t)) ((List.range m).flatMap (fl.slotOf data) ++ rest, 0) =
      ((List.range m).flatMap (fun t => st.sort (fl.slotOf data t)) ++ rest,
        slotStart (fl.slotSize data) m) := by
  have hlength : ∀ n ≤ nbuckets, ((List.range n).flatMap fun t => st.sort (fl.slotOf data t)).length =
      slotStart (fl.slotSize data) n := fun n hn => length_flatMap_range _ fun t ht => by
    rw [(st.sort_perm _).length_eq, length_slotOf data (ht.trans_le hn)]
  induction m generalizing rest with
  | zero => rfl
  | succ m ih =>
    rw [List.range_succ, List.foldl_append, List.flatMap_append, List.flatMap_append,
      List.append_assoc, ih _ (by omega), List.foldl_cons, List.foldl_nil, List.flatMap_singleton,
      List.flatMap_singleton, ← hlength m (by omega), ← length_slotOf data (by omega : m < nbuckets),
      onRange_append, List.append_assoc]
    dsimp only
    rw [hlength m (by omega), length_slotOf data (by omega : m < nbuckets), slotStart_succ]

/-- The candidates of the buckets above the cut, sorted. -/
def sortedFront (st : fl.Sorting) (data : List (TokenData F)) (ib : ℕ) : List (TokenData F) :=
  (List.range (nbuckets - 1 - ib)).flatMap fun t => st.sort (fl.slotOf data t)

lemma length_sortedFront (st : fl.Sorting) (data : List (TokenData F)) (ib : ℕ) :
    (sortedFront st data ib).length = slotStart (fl.slotSize data) (nbuckets - 1 - ib) :=
  length_flatMap_range _ fun t ht => by
    rw [(st.sort_perm _).length_eq, length_slotOf data (by omega)]

lemma distributed_eq (data : List (TokenData F)) (fill : TokenData F) {ib : ℕ}
    (hib : ib < nbuckets) :
    fl.distributed data fill ib (slotStart (fl.slotSize data) (nbuckets - ib)) =
      (List.range (nbuckets - 1 - ib)).flatMap (fl.slotOf data) ++
        (fl.slotOf data (nbuckets - 1 - ib) ++ []) := by
  have heq : fl.distributed data fill ib (slotStart (fl.slotSize data) (nbuckets - ib)) =
      (List.range (nbuckets - ib)).flatMap (fl.slotOf data) :=
    distribute_eq fill data (fun t ht => slotSize_eq data (by omega)) fun _ _ => rfl
  refine heq.trans ?_
  rw [show nbuckets - ib = nbuckets - 1 - ib + 1 by omega, List.range_succ, List.flatMap_append,
    List.flatMap_singleton, List.append_nil]

/-- The spec of the partial sort: the buckets above the cut are sorted, the one at the cut as far
as candidates are missing. -/
lemma arrayPartialSort_eq (st : fl.Sorting) (fill : TokenData F) {data : List (TokenData F)}
    {n : ℕ} (hpos : 0 < n) (hn : n ≤ data.length) :
    ∃ ib < nbuckets, arrayPartialSort st fill data n =
        some (sortedFront st data ib ++ st.partialSort (n - (sortedFront st data ib).length)
          (fl.slotOf data (nbuckets - 1 - ib))) ∧
      (sortedFront st data ib).length < n ∧
      n ≤ (sortedFront st data ib).length + (fl.slotOf data (nbuckets - 1 - ib)).length := by
  obtain ⟨ib, hib, hcut, hlow, hhigh⟩ := exists_cutBucket (le_refl nbuckets)
    (by rwa [Nat.sub_self]) (by rwa [slotStart_slotSize] : n ≤ slotStart (fl.slotSize data) nbuckets)
  have hslot := @length_slotOf F fl data _ (by omega : nbuckets - 1 - ib < nbuckets)
  have hindex : nbuckets - ib = nbuckets - 1 - ib + 1 := by omega
  rw [hindex, slotStart_succ] at hhigh
  refine ⟨ib, hib, ?_, by rwa [length_sortedFront], by rwa [length_sortedFront, hslot]⟩
  rw [Nat.sub_self] at hcut
  have hsorted : sortBuckets st data ib (fl.distributed data fill ib
      (slotStart (fl.slotSize data) (nbuckets - ib))) =
        (sortedFront st data ib ++ (fl.slotOf data (nbuckets - 1 - ib) ++ []),
          slotStart (fl.slotSize data) (nbuckets - 1 - ib)) := by
    rw [distributed_eq data fill hib]
    exact foldl_sortBuckets st data _ (by omega)
  have hhisto : fl.histo data ib = (fl.slotOf data (nbuckets - 1 - ib)).length := by
    rw [hslot, slotSize, show nbuckets - 1 - (nbuckets - 1 - ib) = ib by omega]
  rw [arrayPartialSort]
  refine (congrArg (Option.map _) hcut).trans ?_
  rw [Option.map_some]
  dsimp only
  rw [hsorted, hhisto, ← length_sortedFront st]
  dsimp only
  rw [onRange_append, List.append_nil]

/-! ## The first candidates -/

/-- The first candidates of an array that is sorted, up to the order of equal logits. -/
def FirstOfSorted (fl : Floats F) (n : ℕ) (data out : List (TokenData F)) : Prop :=
  ∃ sorted : List (TokenData F), sorted.Perm data ∧ fl.Descending sorted ∧ out = sorted.take n

lemma NaNFree.perm {data data' : List (TokenData F)} (h : fl.NaNFree data)
    (hperm : data'.Perm data) : fl.NaNFree data' := fun x hx => h x (hperm.mem_iff.1 hx)

lemma nanFree_slotOf {data : List (TokenData F)} (h : fl.NaNFree data) (t : ℕ) :
    fl.NaNFree (fl.slotOf data t) := fun x hx => h x (mem_slotOf.1 hx).1

lemma mem_sortedFront {st : fl.Sorting} {data : List (TokenData F)} {ib : ℕ} {x : TokenData F} :
    x ∈ sortedFront st data ib ↔ x ∈ data ∧ ib < fl.bucketIdx x := by
  have hlt := fl.bucketIdx_lt x
  rw [sortedFront, List.mem_flatMap]
  constructor
  · rintro ⟨t, ht, hx⟩
    obtain ⟨hx, hslot⟩ := mem_slotOf.1 ((st.sort_perm _).mem_iff.1 hx)
    have ht := List.mem_range.1 ht
    exact ⟨hx, by omega⟩
  · rintro ⟨hx, hib⟩
    exact ⟨nbuckets - 1 - fl.bucketIdx x, List.mem_range.2 (by omega),
      (st.sort_perm _).mem_iff.2 (mem_slotOf.2 ⟨hx, rfl⟩)⟩

/-- The buckets are in the order of the logits. -/
def BucketsDescend (fl : Floats F) (data : List (TokenData F)) : Prop :=
  ∀ x ∈ data, ∀ y ∈ data, fl.bucketIdx y < fl.bucketIdx x → fl.logit y ≤ fl.logit x

lemma OrderedBuckets.descend {data : List (TokenData F)} (hdata : fl.NaNFree data)
    (h : fl.OrderedBuckets data) : fl.BucketsDescend data := by
  intro x hx y hy hlt
  by_contra hle
  exact absurd (bucketIdx_le hdata h hx hy (not_le.1 hle).le) (not_le.2 hlt)

lemma descending_sortedFront (st : fl.Sorting) {data : List (TokenData F)}
    (hdata : fl.NaNFree data) (h : fl.BucketsDescend data) (ib : ℕ) :
    fl.Descending (sortedFront st data ib) := by
  rw [Descending, sortedFront, List.pairwise_flatMap]
  refine ⟨fun t _ => st.sort_descending _ (nanFree_slotOf hdata t), ?_⟩
  refine List.pairwise_lt_range.imp_of_mem fun {t t'} ht ht' hlt a ha b hb => ?_
  obtain ⟨ha, hta⟩ := mem_slotOf.1 ((st.sort_perm _).mem_iff.1 ha)
  obtain ⟨hb, htb⟩ := mem_slotOf.1 ((st.sort_perm _).mem_iff.1 hb)
  have hta' := fl.bucketIdx_lt a
  have htb' := fl.bucketIdx_lt b
  exact h a ha b hb (by omega)

def belowCut (fl : Floats F) (data : List (TokenData F)) (ib : ℕ) : List (TokenData F) :=
  data.filter fun x => fl.bucketIdx x < ib

lemma sortedFront_append_perm (st : fl.Sorting) (data : List (TokenData F)) {ib : ℕ}
    (hib : ib < nbuckets) :
    (sortedFront st data ib ++ (fl.slotOf data (nbuckets - 1 - ib) ++ fl.belowCut data ib)).Perm
      data := by
  have hfront : (sortedFront st data ib).Perm
      ((List.range (nbuckets - 1 - ib)).flatMap (fl.slotOf data)) :=
    List.Perm.flatMap_left _ fun t _ => st.sort_perm _
  have hcut := flatMap_filter_perm (fun x => nbuckets - 1 - fl.bucketIdx x)
    (nbuckets - 1 - ib + 1) data
  rw [List.range_succ, List.flatMap_append, List.flatMap_singleton] at hcut
  have habove : data.filter (fun x => decide (nbuckets - 1 - fl.bucketIdx x < nbuckets - 1 - ib + 1)) =
      data.filter fun x => !decide (fl.bucketIdx x < ib) := by
    refine List.filter_congr fun x _ => ?_
    have hlt := fl.bucketIdx_lt x
    rw [Bool.eq_iff_iff, Bool.not_eq_true', decide_eq_false_iff_not, decide_eq_true_iff]
    omega
  rw [habove] at hcut
  have hsplit := List.filter_append_perm (fun x => decide (fl.bucketIdx x < ib)) data
  rw [← List.append_assoc]
  exact (((hfront.append_right _).trans hcut).append_right _).trans
    (List.perm_append_comm.trans hsplit)

lemma firstOfSorted_arrayPartialSort (st : fl.Sorting) (fill : TokenData F)
    {data : List (TokenData F)} (hdata : fl.NaNFree data) (h : fl.BucketsDescend data) {n : ℕ}
    (hpos : 0 < n) (hn : n ≤ data.length) :
    ∃ res, arrayPartialSort st fill data n = some res ∧ (∃ rest, (res ++ rest).Perm data) ∧
      fl.FirstOfSorted n data (res.take n) := by
  obtain ⟨ib, hib, hres, hlow, hhigh⟩ := arrayPartialSort_eq st fill hpos hn
  have hall := sortedFront_append_perm st data hib
  have hcut := @nanFree_slotOf F fl _ hdata (nbuckets - 1 - ib)
  have hsort := st.partialSort_perm (n - (sortedFront st data ib).length)
    (fl.slotOf data (nbuckets - 1 - ib))
  -- the bucket at the cut, sorted as far as candidates are missing, and what is left of it
  obtain ⟨last, hlast⟩ : ∃ last, last = st.partialSort (n - (sortedFront st data ib).length)
    (fl.slotOf data (nbuckets - 1 - ib)) := ⟨_, rfl⟩
  have hlastPerm : (sortedFront st data ib ++ (last ++ fl.belowCut data ib)).Perm data :=
    ((hlast ▸ hsort).append_right _ |>.append_left _).trans hall
  have hbucket : ∀ x ∈ last, x ∈ data ∧ fl.bucketIdx x = ib := by
    intro x hx
    rw [hlast] at hx
    obtain ⟨hx, hslot⟩ := mem_slotOf.1 (hsort.mem_iff.1 hx)
    have hlt := fl.bucketIdx_lt x
    exact ⟨hx, by omega⟩
  obtain ⟨k, hk⟩ : ∃ k, k = n - (sortedFront st data ib).length := ⟨_, rfl⟩
  have hdescending : fl.Descending (last.take k) := by
    rw [hlast, hk]
    exact st.partialSort_descending _ _ hcut
  have hle : ∀ a ∈ last.take k, ∀ b ∈ last.drop k, fl.logit b ≤ fl.logit a := by
    rw [hlast, hk]
    exact st.partialSort_le _ _ hcut
  refine ⟨_, hres, ⟨fl.belowCut data ib, ?_⟩, ?_⟩
  · rw [List.append_assoc, ← hlast]
    exact hlastPerm
  · rw [← hlast]
    have htake : (sortedFront st data ib ++ last).take n =
        sortedFront st data ib ++ last.take k := by
      rw [List.take_append, List.take_of_length_le hlow.le, ← hk]
    have hrest : ∀ b ∈ last.drop k ++ fl.belowCut data ib, b ∈ data ∧ fl.bucketIdx b ≤ ib := by
      intro b hb
      rcases List.mem_append.1 hb with hb | hb
      · obtain ⟨hb, heq⟩ := hbucket b (List.mem_of_mem_drop hb)
        exact ⟨hb, heq.le⟩
      · obtain ⟨hb, hlt⟩ := List.mem_filter.1 hb
        exact ⟨hb, (of_decide_eq_true hlt).le⟩
    have hrestPerm := st.sort_perm (last.drop k ++ fl.belowCut data ib)
    refine ⟨sortedFront st data ib ++ last.take k ++
      st.sort (last.drop k ++ fl.belowCut data ib), ?_, ?_, ?_⟩
    · refine (hrestPerm.append_left _).trans (List.Perm.trans (.of_eq ?_) hlastPerm)
      rw [List.append_assoc, ← List.append_assoc (last.take k), List.take_append_drop]
    · rw [Descending, List.pairwise_append, List.pairwise_append]
      refine ⟨⟨descending_sortedFront st hdata h ib, hdescending, fun a ha b hb => ?_⟩,
        st.sort_descending _ fun x hx => hdata x (hrest x hx).1, fun a ha b hb => ?_⟩
      · obtain ⟨ha, hlt⟩ := mem_sortedFront.1 ha
        obtain ⟨hb, heq⟩ := hbucket b (List.mem_of_mem_take hb)
        exact h a ha b hb (heq ▸ hlt)
      · have hb := hrestPerm.mem_iff.1 hb
        obtain ⟨hbData, hbLe⟩ := hrest b hb
        rcases List.mem_append.1 ha with ha | ha
        · obtain ⟨ha, hlt⟩ := mem_sortedFront.1 ha
          exact h a ha b hbData (hbLe.trans_lt hlt)
        · rcases List.mem_append.1 hb with hb | hb
          · exact hle a ha b hb
          · obtain ⟨haData, heq⟩ := hbucket a (List.mem_of_mem_take ha)
            have hlt := of_decide_eq_true (List.mem_filter.1 hb).2
            exact h a haData b hbData (heq ▸ hlt)
    · have hlength : (sortedFront st data ib ++ last.take k).length = n := by
        have hsize : last.length = (fl.slotOf data (nbuckets - 1 - ib)).length := by
          rw [hlast, hsort.length_eq]
        rw [List.length_append, List.length_take, hsize]
        omega
      rw [htake, List.take_left' hlength]

lemma orderedBuckets_of_firstOfSorted (st : fl.Sorting) (fill : TokenData F)
    {data : List (TokenData F)} (hdata : fl.NaNFree data) (hpos : 0 < data.length)
    (h : ∃ res, arrayPartialSort st fill data data.length = some res ∧
      fl.FirstOfSorted data.length data (res.take data.length)) : fl.OrderedBuckets data := by
  intro x hx y hy hlarge
  by_contra hnot
  rw [not_or] at hnot
  obtain ⟨res, hres, sorted, hperm, hdescending, htake⟩ := h
  obtain ⟨ib, hib, hres', hlow, hhigh⟩ := arrayPartialSort_eq st fill hpos le_rfl
  obtain rfl := Option.some.inj (hres.symm.trans hres')
  have hzero := bucketIdx_of_tooLarge (hdata y hy) hlarge
  have hone := bucketIdx_pos (hdata x hx) hnot.1 hnot.2
  rw [List.take_of_length_le hperm.length_eq.le, List.take_append,
    List.take_of_length_le hlow.le] at htake
  have hmem : ∀ z ∈ data, z ∈ sorted := fun z hz => hperm.mem_iff.2 hz
  have hlast : ∀ z ∈ (st.partialSort (data.length - (sortedFront st data ib).length)
      (fl.slotOf data (nbuckets - 1 - ib))).take (data.length - (sortedFront st data ib).length),
      fl.bucketIdx z = ib := by
    intro z hz
    have hslot := (mem_slotOf.1 ((st.partialSort_perm _ _).mem_iff.1 (List.mem_of_mem_take hz))).2
    have hlt := fl.bucketIdx_lt z
    omega
  have hy' := hmem y hy
  have hx' := hmem x hx
  rw [← htake] at hy' hx' hdescending
  rcases List.mem_append.1 hy' with hy' | hy'
  · have hcut := (mem_sortedFront.1 hy').2
    omega
  · have hcut := hlast y hy'
    rcases List.mem_append.1 hx' with hx' | hx'
    · have hle := (List.pairwise_append.1 hdescending).2.2 x hx' y hy'
      have hscaled := scaledValue_le (hdata y hy) (hdata x hx) hle
      exact hnot.1 (hlarge.trans hscaled)
    · have hcut' := hlast x hx'
      omega

end Floats

end IFairy.Sampling
