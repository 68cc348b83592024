import IFairy.Json.LowerBound

/-!
# Which bounds are handled

`Accurate` says what a fragment for bounds must do: accept the canonical form of every integer
within them, and no signedNumeral of another integer.  `correct_iff` says for which bounds the fragment
is accurate.  The others: bounds whose value or negation is read as "not given", a single minimum
with a digit below `2` between its first and its last, and a single negative maximum that has one
digit, does not begin with `1` or has such a digit.
-/

namespace IFairy.JsonSchema

open Frag

/-! ## Numerals -/

/-- A sign, if the signedNumeral has one, and digits. -/
def signedNumeral (negative : Bool) (ds : List ℕ) : List Char :=
  (if negative then ['-'] else []) ++ ds.map digitChar

/-- The integer that a signedNumeral denotes. -/
def numeralValue (negative : Bool) (ds : List ℕ) : ℤ :=
  if negative then -valueOf ds else valueOf ds

/-- The decimal form of an integer. -/
def canonical (n : ℤ) : List Char := signedNumeral (decide (n < 0)) (decimal n.natAbs)

/-- The integer satisfies the bounds that are given. -/
def Within (lo hi : Option ℤ) (n : ℤ) : Prop := (∀ a ∈ lo, a ≤ n) ∧ ∀ b ∈ hi, n ≤ b

/-- What a fragment for the bounds must accept and exclude. -/
structure Accurate (lo hi : Option ℤ) (F : Frag) : Prop where
  accepts : ∀ n, Within lo hi n → (lo = none ∨ hi = none → (decimal n.natAbs).length ≤ 15) →
    canonical n ∈ F.language
  excludes : ∀ negative ds, ds ≠ [] → AllDigits ds → signedNumeral negative ds ∈ F.language →
    Within lo hi (numeralValue negative ds)

/-- The fragment for a schema with the bounds that are given. -/
def integerFragment (lo hi : Option ℤ) : Except String Frag :=
  buildMinMaxInt (lo.getD intMin) (hi.getD intMax) 16 true

/-- A fragment is written, and it is accurate. -/
def Correct (lo hi : Option ℤ) : Prop :=
  ∃ F, integerFragment lo hi = .ok F ∧ Accurate lo hi F

/-- Bounds of a schema: at least one `int`, in order. -/
structure Bounds (lo hi : Option ℤ) : Prop where
  given : lo ≠ none ∨ hi ≠ none
  lo_int : ∀ a ∈ lo, intMin ≤ a ∧ a ≤ intMax
  hi_int : ∀ b ∈ hi, intMin ≤ b ∧ b ≤ intMax
  le : ∀ a ∈ lo, ∀ b ∈ hi, a ≤ b

def Handled : Option ℤ → Option ℤ → Prop
  | some a, some b => a ≠ intMin ∧ a ≠ -intMax ∧ b ≠ intMax
  | some a, none => a ≠ intMin ∧ a ≠ -intMax ∧ GoodRest (decimal a.toNat).tail
  | none, some b => b ≠ intMax ∧
      (b < 0 → ∃ rest ≠ [], decimal (-b).toNat = 1 :: rest ∧ GoodRest rest)
  | none, none => False

/-! ## Signs -/

/-- The digits that a fragment accepts after a sign and without one. -/
def Signed (F : Frag) (N P : Set (List ℕ)) : Prop :=
  ∀ negative ds, AllDigits ds →
    (signedNumeral negative ds ∈ F.language ↔ if negative then ds ∈ N else ds ∈ P)

lemma mem_map_digitChar {F : Frag} (h : F.Plain) {ds : List ℕ} (hds : AllDigits ds) :
    ds.map digitChar ∈ F.language ↔ ds ∈ F.digits := by
  rw [language_of_plain h]
  constructor
  · rintro ⟨es, hes, heq⟩
    rwa [← map_digitChar_inj (allDigits_of_mem h hes) hds heq]
  · exact fun hmem => ⟨ds, hmem, rfl⟩

lemma minus_cons_notMem {F : Frag} (h : F.Plain) (w : List Char) : '-' :: w ∉ F.language := by
  rw [language_of_plain h]
  rintro ⟨ds, hds, heq⟩
  obtain _ | ⟨d, ds⟩ := ds
  · simp at heq
  · exact digitChar_ne_minus (allDigits_cons.1 (allDigits_of_mem h hds)).1 (List.cons.inj heq).1

lemma signed_plain {F : Frag} (h : F.Plain) : Signed F ∅ F.digits := by
  rintro (_ | _) ds hds
  · exact mem_map_digitChar h hds
  · exact iff_of_false (minus_cons_notMem h _) id

lemma signed_minus {F : Frag} (h : F.Plain) : Signed (seq minus F) F.digits ∅ := by
  have hseq : ∀ w, w ∈ (seq minus F).language ↔ ∃ v ∈ F.language, w = '-' :: v := by
    intro w
    constructor
    · rintro ⟨_, rfl, v, hv, rfl⟩
      exact ⟨v, hv, rfl⟩
    · rintro ⟨v, hv, rfl⟩
      exact ⟨['-'], rfl, v, hv, rfl⟩
  rintro (_ | _) ds hds
  · refine iff_of_false ?_ id
    rw [hseq]
    rintro ⟨v, -, heq⟩
    obtain _ | ⟨d, ds⟩ := ds
    · exact List.cons_ne_nil _ _ heq.symm
    · exact digitChar_ne_minus (allDigits_cons.1 hds).1 (List.cons.inj heq).1
  · rw [hseq, if_pos rfl, ← mem_map_digitChar h hds]
    constructor
    · rintro ⟨v, hv, heq⟩
      rwa [← (List.cons.inj heq).2] at hv
    · exact fun hmem => ⟨_, hmem, rfl⟩

lemma signed_minus_group {F : Frag} (h : F.Plain) :
    Signed (seq minus (group F)) F.digits ∅ := by
  have hgroup : (group F).Plain := h
  exact signed_minus hgroup

lemma Signed.alt {F G : Frag} {N P N' P' : Set (List ℕ)} (hF : Signed F N P)
    (hG : Signed G N' P') : Signed (alt F G) (N ∪ N') (P ∪ P') := by
  intro negative ds hds
  refine (or_congr (hF negative ds hds) (hG negative ds hds)).trans ?_
  cases negative <;> rfl

lemma accurate_of_images {F : Frag} {lo hi : Option ℤ} {N P : Set ℕ}
    (h : Signed F (decimal '' N) (decimal '' P))
    (hneg : ∀ n : ℕ, n ≠ 0 → Within lo hi (-n) →
      (lo = none ∨ hi = none → (decimal n).length ≤ 15) → n ∈ N)
    (hpos : ∀ n : ℕ, Within lo hi n → (lo = none ∨ hi = none → (decimal n).length ≤ 15) → n ∈ P)
    (hN : ∀ n ∈ N, Within lo hi (-n)) (hP : ∀ n ∈ P, Within lo hi n) : Accurate lo hi F where
  accepts n hn hshort := by
    rw [canonical, h _ _ (allDigits_decimal _)]
    rcases lt_or_ge n 0 with hlt | hge
    · have hself : -(n.natAbs : ℤ) = n := by omega
      rw [if_pos (decide_eq_true hlt)]
      exact ⟨_, hneg n.natAbs (by omega) (by rwa [hself]) hshort, rfl⟩
    · have hself : (n.natAbs : ℤ) = n := by omega
      rw [if_neg (by simpa using hge)]
      exact ⟨_, hpos n.natAbs (by rwa [hself]) hshort, rfl⟩
  excludes negative ds hne hds hmem := by
    rw [h _ _ hds] at hmem
    cases negative
    · obtain ⟨n, hn, rfl⟩ := hmem
      rw [numeralValue, valueOf_decimal]
      exact hP n hn
    · obtain ⟨n, hn, rfl⟩ := hmem
      rw [numeralValue, valueOf_decimal]
      exact hN n hn

/-- The decimal forms of at most `d` digits, from a positive minimum on. -/
lemma atLeast_one {a d : ℕ} (ha : 1 ≤ a) :
    AtLeast 1 (decimal a) d = decimal '' {n | a ≤ n ∧ (decimal n).length ≤ d} := by
  have hk : (decimal a).length ≠ 0 := fun h => decimal_ne_nil a (List.length_eq_zero_iff.1 h)
  ext x
  constructor
  · rintro ⟨hx, hhead, hlen, hd, hge⟩
    obtain _ | ⟨e, y⟩ := x
    · exact absurd (Nat.le_zero.1 hlen) hk
    have he : 1 ≤ e := hhead e rfl
    have hself := decimal_valueOf (by omega) hx
    refine ⟨valueOf (e :: y), ⟨?_, by rwa [hself]⟩, hself⟩
    by_cases heq : (e :: y).length = (decimal a).length
    · rw [← valueOf_decimal a]
      exact hge heq
    · have hlt : a < 10 ^ (decimal a).length := (length_decimal_le_iff hk).1 le_rfl
      have hle : (decimal a).length ≤ y.length := by
        rw [List.length_cons] at heq hlen
        omega
      exact (hlt.trans_le ((Nat.pow_le_pow_right (by norm_num) hle).trans
        (valueOf_pos (by omega) y))).le
  · rintro ⟨n, ⟨hle, hd⟩, rfl⟩
    refine ⟨allDigits_decimal n, ?_, length_decimal_mono hle, hd, fun _ => ?_⟩
    · intro e he
      obtain ⟨c, rest, hdecimal⟩ := List.exists_cons_of_ne_nil (decimal_ne_nil n)
      rw [hdecimal, List.head?_cons, Option.mem_some_iff] at he
      rw [← he]
      exact Nat.one_le_iff_ne_zero.2 (head_decimal_ne_zero hdecimal (by omega))
    · rwa [valueOf_decimal, valueOf_decimal]

/-- `[1-9] [0-9]{0,15}`. -/
lemma digits_positive : (seq (digitRange 1 9) (moreDigits 0 15)).digits
    = decimal '' {n | 1 ≤ n ∧ (decimal n).length ≤ 16} := by
  rw [← atLeast_one le_rfl]
  ext x
  obtain _ | ⟨e, y⟩ := x
  · exact iff_of_false nil_notMem_digits_digitRange_seq nil_notMem_atLeast
  · rw [cons_mem_digits_digitRange_seq, mem_digits_moreDigits]
    refine Iff.trans ?_ (cons_mem_atLeast allDigits_nil).symm
    have hnil : valueOf [] ≤ valueOf y := Nat.zero_le _
    grind

/-! ## The fragments by kind of bounds -/

lemma negate_natCast {n : ℕ} (h : (n : ℤ) ≤ intMax) : negate (-n) = n := by
  rw [negate, if_neg (by rw [intMax] at h; rw [intMin]; omega), neg_neg]

lemma natCast_ne_intMin (n : ℕ) : (n : ℤ) ≠ intMin := by
  rw [intMin]
  omega

lemma neg_ne_intMin {n : ℕ} (h : (n : ℤ) ≤ intMax) : -(n : ℤ) ≠ intMin := by
  rw [intMax] at h
  rw [intMin]
  omega

lemma neg_ne_intMax (n : ℕ) : -(n : ℤ) ≠ intMax := by
  rw [intMax]
  omega

lemma build_both {b : ℕ} (a : ℕ) (hb : (b : ℤ) ≠ intMax) (d : ℕ) (top : Bool) :
    buildMinMaxInt a b d top = .ok (bounded a b) := by
  rw [buildMinMaxInt, dif_pos ⟨natCast_ne_intMin a, hb⟩, dif_neg (by omega), dif_neg (by omega),
    Int.toNat_natCast, Int.toNat_natCast]

lemma build_neg_pos {m b d : ℕ} {top : Bool} {F : Frag} (hm : 1 ≤ m) (hmax : (m : ℤ) ≤ intMax)
    (hb : (b : ℤ) ≠ intMax) (hF : buildMinMaxInt 0 m d true = .ok F) :
    buildMinMaxInt (-m) b d top = .ok (alt (seq minus (group F)) (bounded 0 b)) := by
  rw [buildMinMaxInt, dif_pos ⟨neg_ne_intMin hmax, hb⟩, dif_neg (by omega), dif_pos (by omega),
    negate_natCast hmax, hF, Int.toNat_natCast]

lemma build_neg_neg {m n d : ℕ} {top : Bool} {F : Frag} (hm : 1 ≤ m) (hmax : (m : ℤ) ≤ intMax)
    (hn : 1 ≤ n) (hnmax : (n : ℤ) ≤ intMax) (hF : buildMinMaxInt n m d true = .ok F) :
    buildMinMaxInt (-m) (-n) d top = .ok (seq minus (group F)) := by
  rw [buildMinMaxInt, dif_pos ⟨neg_ne_intMin hmax, neg_ne_intMax n⟩, dif_pos (by omega),
    negate_natCast hmax, negate_natCast hnmax, hF]

lemma build_open_pos {b : ℕ} (hb : (b : ℤ) ≠ intMax) (d : ℕ) (top : Bool) :
    buildMinMaxInt intMin b d top = .ok (if top then
      alt (seq minus (seq (digitRange 1 9) (moreDigits 0 (max (d - 1) 1)))) (bounded 0 b)
        else bounded 0 b) := by
  rw [buildMinMaxInt, dif_neg (by simp), dif_neg (by simp), if_pos hb, dif_pos (by omega),
    show (0 : ℤ) = ((0 : ℕ) : ℤ) from rfl, build_both 0 hb]

lemma build_open_neg {n d : ℕ} {top : Bool} {F : Frag} (hn : 1 ≤ n) (hnmax : (n : ℤ) ≤ intMax)
    (hF : buildMinMaxInt n intMax d false = .ok F) :
    buildMinMaxInt intMin (-n) d top = .ok (seq minus (group F)) := by
  rw [buildMinMaxInt, dif_neg (by simp), dif_neg (by simp), if_pos (neg_ne_intMax n),
    dif_neg (by omega), negate_natCast hnmax, hF]

lemma build_neg_open {m d : ℕ} {top : Bool} (hm : 1 ≤ m) (hmax : (m : ℤ) < intMax) :
    buildMinMaxInt (-m) intMax d top = .ok (alt (seq minus (group (bounded 0 m)))
      (alt (digitRange 0 0) (seq (digitRange 1 9) (moreDigits 0 (d - 1))))) := by
  rw [buildMinMaxInt, dif_neg (by simp), dif_pos (neg_ne_intMin hmax.le), dif_pos (by omega),
    negate_natCast hmax.le, build_open_pos hmax.ne]
  rfl

lemma build_open_open (d : ℕ) (top : Bool) : buildMinMaxInt intMin intMax d top
    = .error "At least one of min_value or max_value must be set" := by
  rw [buildMinMaxInt, dif_neg (by simp), dif_neg (by simp), if_neg (by simp)]

lemma build_intMin_neg (d : ℕ) (top : Bool) : buildMinMaxInt intMin intMin d top
    = .error "At least one of min_value or max_value must be set" := by
  have hneg : ¬ 0 ≤ intMin := by rw [intMin]; norm_num
  rw [buildMinMaxInt, dif_neg (by simp), dif_neg (by simp), if_pos (by rw [intMin, intMax]; norm_num),
    dif_neg hneg, negate, if_pos rfl, build_open_open]

lemma build_sentinel_open (d : ℕ) (top : Bool) : buildMinMaxInt (-intMax) intMax d top
    = .error "At least one of min_value or max_value must be set" := by
  have hne : -intMax ≠ intMin := by rw [intMin, intMax]; norm_num
  rw [buildMinMaxInt, dif_neg (by simp), dif_pos hne, dif_pos (by rw [intMax]; norm_num), negate,
    if_neg hne, neg_neg, build_open_open]

/-! ## Bounds that are handled -/

lemma plain_positive (d : ℕ) : (seq (digitRange 1 9) (moreDigits 0 d)).Plain :=
  ⟨by norm_num [Plain], trivial⟩

lemma signed_bounded {a b : ℕ} (h : a ≤ b) : Signed (bounded a b) ∅ (decimal '' Set.Icc a b) := by
  rw [← digits_bounded h]
  exact signed_plain (plain_bounded a b)

lemma signed_minus_bounded {a b : ℕ} (h : a ≤ b) :
    Signed (seq minus (group (bounded a b))) (decimal '' Set.Icc a b) ∅ := by
  rw [← digits_bounded h]
  exact signed_minus_group (plain_bounded a b)

lemma within_some_some {a b n : ℤ} : Within (some a) (some b) n ↔ a ≤ n ∧ n ≤ b := by
  simp [Within]

lemma within_some_none {a n : ℤ} : Within (some a) none n ↔ a ≤ n := by
  simp [Within]

lemma within_none_some {b n : ℤ} : Within none (some b) n ↔ n ≤ b := by
  simp [Within]

lemma accurate_both {a b : ℕ} (h : a ≤ b) : Accurate (some a) (some b) (bounded a b) := by
  refine accurate_of_images (N := ∅) (P := Set.Icc a b) ?_ ?_ ?_ ?_ ?_
  · rw [Set.image_empty]
    exact signed_bounded h
  · intro n hn hw
    rw [within_some_some] at hw
    omega
  · intro n hw _
    rw [within_some_some] at hw
    exact ⟨by omega, by omega⟩
  · exact fun n hn => hn.elim
  · intro n hn
    rw [within_some_some]
    exact ⟨by exact_mod_cast hn.1, by exact_mod_cast hn.2⟩

lemma accurate_neg_pos (m b : ℕ) : Accurate (some (-m)) (some b)
    (alt (seq minus (group (bounded 0 m))) (bounded 0 b)) := by
  refine accurate_of_images (N := Set.Icc 0 m) (P := Set.Icc 0 b) ?_ ?_ ?_ ?_ ?_
  · have h := (signed_minus_bounded (Nat.zero_le m)).alt (signed_bounded (Nat.zero_le b))
    rwa [Set.union_empty, Set.empty_union] at h
  · intro n _ hw _
    rw [within_some_some] at hw
    exact ⟨Nat.zero_le n, by omega⟩
  · intro n hw _
    rw [within_some_some] at hw
    exact ⟨Nat.zero_le n, by omega⟩
  · intro n hn
    rw [within_some_some]
    have := hn.2
    omega
  · intro n hn
    rw [within_some_some]
    have := hn.2
    omega

lemma accurate_neg_neg {m n : ℕ} (h : n ≤ m) (hn : 1 ≤ n) :
    Accurate (some (-m)) (some (-n)) (seq minus (group (bounded n m))) := by
  refine accurate_of_images (N := Set.Icc n m) (P := ∅) ?_ ?_ ?_ ?_ ?_
  · rw [Set.image_empty]
    exact signed_minus_bounded h
  · intro k _ hw _
    rw [within_some_some] at hw
    exact ⟨by omega, by omega⟩
  · intro k hw _
    rw [within_some_some] at hw
    omega
  · intro k hk
    rw [within_some_some]
    have := hk.1
    have := hk.2
    omega
  · exact fun k hk => hk.elim

lemma signed_naturals : Signed (alt (digitRange 0 0) (seq (digitRange 1 9) (moreDigits 0 15))) ∅
    (decimal '' {n | (decimal n).length ≤ 16}) := by
  have hplain : (alt (digitRange 0 0) (seq (digitRange 1 9) (moreDigits 0 15))).Plain :=
    ⟨by norm_num [Plain], plain_positive 15⟩
  have hdigits : (alt (digitRange 0 0) (seq (digitRange 1 9) (moreDigits 0 15))).digits
      = decimal '' {n | (decimal n).length ≤ 16} := by
    ext x
    rw [mem_digits_alt, digits_positive]
    constructor
    · rintro (⟨d, _, hd, rfl⟩ | ⟨n, hn, rfl⟩)
      · obtain rfl := Nat.le_zero.1 hd
        exact ⟨0, by simp [decimal], rfl⟩
      · exact ⟨n, hn.2, rfl⟩
    · rintro ⟨n, hn, rfl⟩
      rcases Nat.eq_zero_or_pos n with rfl | hpos
      · exact Or.inl ⟨0, le_rfl, le_rfl, rfl⟩
      · exact Or.inr ⟨n, ⟨hpos, hn⟩, rfl⟩
  rw [← hdigits]
  exact signed_plain hplain

lemma accurate_neg_open (m : ℕ) : Accurate (some (-m)) none
    (alt (seq minus (group (bounded 0 m)))
      (alt (digitRange 0 0) (seq (digitRange 1 9) (moreDigits 0 15)))) := by
  refine accurate_of_images (N := Set.Icc 0 m) (P := {n | (decimal n).length ≤ 16}) ?_ ?_ ?_ ?_ ?_
  · have h := (signed_minus_bounded (Nat.zero_le m)).alt signed_naturals
    rwa [Set.union_empty, Set.empty_union] at h
  · intro n _ hw _
    rw [within_some_none] at hw
    exact ⟨Nat.zero_le n, by omega⟩
  · intro n _ hshort
    exact (hshort (Or.inr rfl)).trans (by norm_num)
  · intro n hn
    rw [within_some_none]
    have := hn.2
    omega
  · intro n _
    rw [within_some_none]
    omega

lemma accurate_zero_open : Accurate (some 0) none
    (alt (digitRange 0 0) (seq (digitRange 1 9) (moreDigits 0 15))) := by
  refine accurate_of_images (N := ∅) (P := {n | (decimal n).length ≤ 16}) ?_ ?_ ?_ ?_ ?_
  · rw [Set.image_empty]
    exact signed_naturals
  · intro n hn hw _
    rw [within_some_none] at hw
    omega
  · intro n _ hshort
    exact (hshort (Or.inr rfl)).trans (by norm_num)
  · exact fun n hn => hn.elim
  · intro n _
    rw [within_some_none]
    omega

lemma accurate_open_pos (b : ℕ) : Accurate none (some b)
    (alt (seq minus (seq (digitRange 1 9) (moreDigits 0 15))) (bounded 0 b)) := by
  refine accurate_of_images (N := {n | 1 ≤ n ∧ (decimal n).length ≤ 16}) (P := Set.Icc 0 b)
    ?_ ?_ ?_ ?_ ?_
  · have h := (signed_minus (plain_positive 15)).alt (signed_bounded (Nat.zero_le b))
    rwa [digits_positive, Set.union_empty, Set.empty_union] at h
  · intro n hn _ hshort
    exact ⟨Nat.one_le_iff_ne_zero.2 hn, (hshort (Or.inl rfl)).trans (by norm_num)⟩
  · intro n hw _
    rw [within_none_some] at hw
    exact ⟨Nat.zero_le n, by omega⟩
  · intro n _
    rw [within_none_some]
    omega
  · intro n hn
    rw [within_none_some]
    exact_mod_cast hn.2

lemma accurate_pos_open {a : ℕ} (ha : 1 ≤ a) {F : Frag} (hF : F.Plain)
    (hdigits : F.digits = AtLeast 1 (decimal a) 16) : Accurate (some a) none F := by
  refine accurate_of_images (N := ∅) (P := {n | a ≤ n ∧ (decimal n).length ≤ 16}) ?_ ?_ ?_ ?_ ?_
  · rw [Set.image_empty, ← atLeast_one ha, ← hdigits]
    exact signed_plain hF
  · intro n hn hw _
    rw [within_some_none] at hw
    omega
  · intro n hw hshort
    rw [within_some_none] at hw
    exact ⟨by exact_mod_cast hw, (hshort (Or.inr rfl)).trans (by norm_num)⟩
  · exact fun n hn => hn.elim
  · intro n hn
    rw [within_some_none]
    exact_mod_cast hn.1

lemma accurate_open_neg {n : ℕ} (hn : 1 ≤ n) {F : Frag} (hF : F.Plain)
    (hdigits : F.digits = AtLeast 1 (decimal n) 16) :
    Accurate none (some (-n)) (seq minus (group F)) := by
  refine accurate_of_images (N := {k | n ≤ k ∧ (decimal k).length ≤ 16}) (P := ∅) ?_ ?_ ?_ ?_ ?_
  · rw [Set.image_empty, ← atLeast_one hn, ← hdigits]
    exact signed_minus_group hF
  · intro k _ hw hshort
    rw [within_none_some] at hw
    exact ⟨by omega, (hshort (Or.inl rfl)).trans (by norm_num)⟩
  · intro k hw _
    rw [within_none_some] at hw
    omega
  · intro k hk
    rw [within_none_some]
    have := hk.1
    omega
  · exact fun k hk => hk.elim

/-! ## Bounds that are read as not given -/

/-- A signedNumeral of twelve digits is accepted. -/
def HasLong (negative : Bool) (F : Frag) : Prop :=
  ∃ e y, e ≠ 0 ∧ AllDigits (e :: y) ∧ y.length = 11 ∧ signedNumeral negative (e :: y) ∈ F.language

lemma HasLong.alt_left {negative : Bool} {F : Frag} (h : HasLong negative F) (G : Frag) :
    HasLong negative (alt F G) := by
  obtain ⟨e, y, he, hds, hlen, hmem⟩ := h
  exact ⟨e, y, he, hds, hlen, Or.inl hmem⟩

lemma HasLong.alt_right {negative : Bool} {F : Frag} (h : HasLong negative F) (G : Frag) :
    HasLong negative (alt G F) := by
  obtain ⟨e, y, he, hds, hlen, hmem⟩ := h
  exact ⟨e, y, he, hds, hlen, Or.inr hmem⟩

lemma plain_minOnly {v d : ℕ} {top : Bool} {F : Frag} (hd : 1 ≤ d)
    (hF : buildMinMaxInt v intMax d top = .ok F) : F.Plain := by
  obtain ⟨F', hF', hplain, -⟩ := minOnly_short v hd top
  obtain rfl := Except.ok.inj (hF'.symm.trans hF)
  exact hplain

lemma hasLong_minOnly {v : ℕ} {top : Bool} {F : Frag} (hv : v ≤ 2 ^ 31)
    (hF : buildMinMaxInt v intMax 16 top = .ok F) : HasLong false F := by
  obtain ⟨e, y, he, hds, hlen, hmem⟩ := minOnly_long hv (by norm_num) hF
  exact ⟨e, y, he, hds, hlen,
    (signed_plain (plain_minOnly (by norm_num) hF) false _ hds).2 hmem⟩

lemma hasLong_minus {v : ℕ} {top : Bool} {F : Frag} (hv : v ≤ 2 ^ 31)
    (hF : buildMinMaxInt v intMax 16 top = .ok F) : HasLong true (seq minus (group F)) := by
  obtain ⟨e, y, he, hds, hlen, hmem⟩ := minOnly_long hv (by norm_num) hF
  exact ⟨e, y, he, hds, hlen,
    (signed_minus_group (plain_minOnly (by norm_num) hF) true _ hds).2 hmem⟩

lemma long_mem_positive :
    1 :: List.replicate 11 0 ∈ (seq (digitRange 1 9) (moreDigits 0 15)).digits :=
  cons_mem_digits_digitRange_seq.2 ⟨le_rfl, by norm_num,
    allDigits_replicate (by norm_num) 11, by simp, by simp⟩

lemma allDigits_long : AllDigits (1 :: List.replicate 11 0) :=
  allDigits_cons.2 ⟨by norm_num, allDigits_replicate (by norm_num) 11⟩

lemma hasLong_positive : HasLong false (seq (digitRange 1 9) (moreDigits 0 15)) :=
  ⟨1, List.replicate 11 0, one_ne_zero, allDigits_long, List.length_replicate,
    (signed_plain (plain_positive 15) false _ allDigits_long).2 long_mem_positive⟩

lemma hasLong_minus_positive : HasLong true (seq minus (seq (digitRange 1 9) (moreDigits 0 15))) :=
  ⟨1, List.replicate 11 0, one_ne_zero, allDigits_long, List.length_replicate,
    (signed_minus (plain_positive 15) true _ allDigits_long).2 long_mem_positive⟩

lemma not_accurate_of_long {lo : Option ℤ} {b : ℤ} {F : Frag} (h : HasLong false F)
    (hb : b ≤ intMax) : ¬ Accurate lo (some b) F := by
  obtain ⟨e, y, he, hds, hlen, hmem⟩ := h
  intro hF
  have hle := (hF.excludes false _ (by simp) hds hmem).2 b rfl
  have hpos := valueOf_pos he y
  rw [hlen] at hpos
  rw [intMax] at hb
  simp only [numeralValue, Bool.false_eq_true, if_false] at hle
  omega

lemma not_accurate_of_long_neg {hi : Option ℤ} {a : ℤ} {F : Frag} (h : HasLong true F)
    (ha : intMin ≤ a) : ¬ Accurate (some a) hi F := by
  obtain ⟨e, y, he, hds, hlen, hmem⟩ := h
  intro hF
  have hle := (hF.excludes true _ (by simp) hds hmem).1 a rfl
  have hpos := valueOf_pos he y
  rw [hlen] at hpos
  rw [intMin] at ha
  simp only [numeralValue, if_true] at hle
  omega

lemma correct_iff_accurate (lo hi : Option ℤ) {F : Frag} (h : integerFragment lo hi = .ok F) :
    Correct lo hi ↔ Accurate lo hi F := by
  constructor
  · rintro ⟨F', hF', hacc⟩
    rwa [← Except.ok.inj (hF'.symm.trans h)]
  · exact fun hacc => ⟨F, h, hacc⟩

lemma not_correct_of_error (lo hi : Option ℤ) {e : String}
    (h : integerFragment lo hi = .error e) : ¬ Correct lo hi := by
  rintro ⟨F, hF, -⟩
  rw [h] at hF
  cases hF

lemma exists_neg_natCast {b : ℤ} (h : b < 0) (hb : intMin < b) :
    ∃ n : ℕ, b = -n ∧ 1 ≤ n ∧ (n : ℤ) ≤ intMax := by
  rw [intMin] at hb
  rw [intMax]
  exact ⟨(-b).toNat, by omega, by omega, by omega⟩

/-- The smallest `int` as a minimum is read as no minimum. -/
lemma not_correct_intMin {b : ℤ} (hlo : intMin ≤ b) (hhi : b ≤ intMax) :
    ¬ Correct (some intMin) (some b) := by
  by_cases hmax : b = intMax
  · rw [hmax]
    exact not_correct_of_error (some intMin) (some intMax) (build_open_open 16 true)
  by_cases hmin : b = intMin
  · rw [hmin]
    exact not_correct_of_error (some intMin) (some intMin) (build_intMin_neg 16 true)
  rcases lt_or_ge b 0 with hneg | hpos
  · obtain ⟨n, rfl, hn, hnmax⟩ := exists_neg_natCast hneg (lt_of_le_of_ne hlo (Ne.symm hmin))
    obtain ⟨G, hG, -⟩ := minOnly_short n (d := 16) (by norm_num) false
    rw [correct_iff_accurate (some intMin) (some (-n)) (build_open_neg hn hnmax hG)]
    rw [intMax] at hnmax
    exact not_accurate_of_long_neg (hasLong_minus (by omega) hG) le_rfl
  · obtain ⟨k, rfl⟩ := Int.eq_ofNat_of_zero_le hpos
    rw [correct_iff_accurate (some intMin) (some k) (build_open_pos hmax 16 true)]
    exact not_accurate_of_long_neg (hasLong_minus_positive.alt_left _) le_rfl

/-- The largest `int` as a maximum is read as no maximum. -/
lemma not_correct_intMax {a : ℤ} (hlo : intMin < a) (hhi : a ≤ intMax) :
    ¬ Correct (some a) (some intMax) := by
  rcases lt_or_ge a 0 with hneg | hpos
  · obtain ⟨m, rfl, hm, hmax⟩ := exists_neg_natCast hneg hlo
    by_cases hsentinel : (m : ℤ) = intMax
    · rw [hsentinel]
      exact not_correct_of_error (some (-intMax)) (some intMax) (build_sentinel_open 16 true)
    · rw [correct_iff_accurate (some (-m)) (some intMax)
        (build_neg_open hm (lt_of_le_of_ne hmax hsentinel))]
      exact not_accurate_of_long ((hasLong_positive.alt_right _).alt_right _) le_rfl
  · obtain ⟨k, rfl⟩ := Int.eq_ofNat_of_zero_le hpos
    obtain ⟨G, hG, -⟩ := minOnly_short k (d := 16) (by norm_num) true
    rw [correct_iff_accurate (some k) (some intMax) hG]
    rw [intMax] at hhi
    exact not_accurate_of_long (hasLong_minOnly (by omega) hG) le_rfl

/-- The minimum whose negation is the largest `int`: the negation is read as no maximum. -/
lemma not_correct_sentinel {b : ℤ} (hlo : intMin < b) (hmax : b ≠ intMax) :
    ¬ Correct (some (-intMax)) (some b) := by
  have hself : ((2147483647 : ℕ) : ℤ) = intMax := by norm_num [intMax]
  have hge : intMin ≤ -intMax := by norm_num [intMin, intMax]
  rcases lt_or_ge b 0 with hneg | hpos
  · obtain ⟨n, rfl, hn, hnmax⟩ := exists_neg_natCast hneg hlo
    obtain ⟨G, hG, -⟩ := minOnly_short n (d := 16) (by norm_num) true
    have hbuild : buildMinMaxInt (-intMax) (-n) 16 true = .ok (seq minus (group G)) := by
      rw [← hself]
      exact build_neg_neg (by norm_num) hself.le hn hnmax (by rwa [hself])
    rw [correct_iff_accurate (some (-intMax)) (some (-n)) hbuild]
    rw [intMax] at hnmax
    exact not_accurate_of_long_neg (hasLong_minus (by omega) hG) hge
  · obtain ⟨k, rfl⟩ := Int.eq_ofNat_of_zero_le hpos
    obtain ⟨G, hG, -⟩ := minOnly_short 0 (d := 16) (by norm_num) true
    have hbuild : buildMinMaxInt (-intMax) k 16 true
        = .ok (alt (seq minus (group G)) (bounded 0 k)) := by
      rw [← hself]
      exact build_neg_pos (by norm_num) hself.le hmax (by rwa [hself])
    rw [correct_iff_accurate (some (-intMax)) (some k) hbuild]
    exact not_accurate_of_long_neg ((hasLong_minus (by norm_num) hG).alt_left _) hge

/-! ## One bound with a digit that goes wrong -/

/-- The signedNumeral `c :: x` is in reach of a minimum `c :: rest`: too small when `x` is shorter, within
it when `x` is longer. -/
lemma accurate_broken {c v : ℕ} {rest : List ℕ} {G : Frag} (hc : c ≠ 0)
    (hdecimal : decimal v = c :: rest) (hlen : rest.length ≤ 9) (h : Broken G rest) :
    ∃ x, AllDigits (c :: x) ∧ decimal (valueOf (c :: x)) = c :: x ∧ x.length ≤ 10 ∧
      (x ∈ G.digits ∧ valueOf (c :: x) < v ∨ x ∉ G.digits ∧ v ≤ valueOf (c :: x)) := by
  obtain ⟨x, -, hx, hcases⟩ := h
  have hc10 : c < 10 := (allDigits_cons.1 (hdecimal ▸ allDigits_decimal v)).1
  have hds : AllDigits (c :: x) := allDigits_cons.2 ⟨hc10, hx⟩
  have hrest : AllDigits (c :: rest) := hdecimal ▸ allDigits_decimal v
  have hv : valueOf (c :: rest) = v := by rw [← hdecimal, valueOf_decimal]
  refine ⟨x, hds, decimal_valueOf hc hds, by omega, ?_⟩
  rcases hcases with ⟨hmem, hshort⟩ | ⟨hmem, hlong⟩
  · have hlt := valueOf_lt hds
    have hge := valueOf_pos hc rest
    have hpow : 10 ^ (c :: x).length ≤ 10 ^ rest.length :=
      Nat.pow_le_pow_right (by norm_num) (by rw [List.length_cons]; omega)
    exact Or.inl ⟨hmem, by omega⟩
  · have hlt := valueOf_lt hrest
    have hge := valueOf_pos hc x
    have hpow : 10 ^ (c :: rest).length ≤ 10 ^ x.length :=
      Nat.pow_le_pow_right (by norm_num) (by rw [List.length_cons]; omega)
    exact Or.inr ⟨hmem, by omega⟩

lemma not_accurate_minOnly {c v start less : ℕ} {rest : List ℕ} {G : Frag} (hc : c ≠ 0)
    (hdecimal : decimal v = c :: rest) (hlen : rest.length ≤ 9) (hplain : G.Plain)
    (h : Broken G rest) :
    ¬ Accurate (some v) none (leadDigit start c rest.length less G) := by
  obtain ⟨x, hds, hself, hshort, hcases⟩ := accurate_broken hc hdecimal hlen h
  have hc10 := (allDigits_cons.1 hds).1
  have hmem : signedNumeral false (c :: x) ∈ (leadDigit start c rest.length less G).language ↔
      x ∈ G.digits := by
    rw [signed_plain (plain_leadDigit hc10 hplain) false _ hds]
    simp only [Bool.false_eq_true, if_false]
    rw [cons_mem_leadDigit hc10]
    simp
  intro hF
  rcases hcases with ⟨hx, hlt⟩ | ⟨hx, hge⟩
  · have hle := (hF.excludes false _ (by simp) hds (hmem.2 hx)).1 v rfl
    simp only [numeralValue, Bool.false_eq_true, if_false] at hle
    omega
  · have hacc := hF.accepts (valueOf (c :: x)) (within_some_none.2 (by exact_mod_cast hge))
      (fun _ => by rw [Int.natAbs_natCast, hself, List.length_cons]; omega)
    rw [canonical, Int.natAbs_natCast, hself, decide_eq_false (by omega)] at hacc
    exact hx (hmem.1 hacc)

lemma not_accurate_maxOnly {c v start less : ℕ} {rest : List ℕ} {G : Frag} (hc : c ≠ 0)
    (hdecimal : decimal v = c :: rest) (hlen : rest.length ≤ 9) (hplain : G.Plain)
    (h : Broken G rest) :
    ¬ Accurate none (some (-v)) (seq minus (group (leadDigit start c rest.length less G))) := by
  obtain ⟨x, hds, hself, hshort, hcases⟩ := accurate_broken hc hdecimal hlen h
  have hc10 := (allDigits_cons.1 hds).1
  have hmem : signedNumeral true (c :: x) ∈
      (seq minus (group (leadDigit start c rest.length less G))).language ↔ x ∈ G.digits := by
    rw [signed_minus_group (plain_leadDigit hc10 hplain) true _ hds, if_pos rfl,
      cons_mem_leadDigit hc10]
    simp
  have hpos : 1 ≤ valueOf (c :: x) :=
    le_trans (Nat.one_le_pow _ _ (by norm_num)) (valueOf_pos hc x)
  intro hF
  rcases hcases with ⟨hx, hlt⟩ | ⟨hx, hge⟩
  · have hle := (hF.excludes true _ (by simp) hds (hmem.2 hx)).2 (-v) rfl
    simp only [numeralValue, if_true] at hle
    omega
  · have hacc := hF.accepts (-(valueOf (c :: x) : ℤ)) (within_none_some.2 (by omega))
      (fun _ => by rw [Int.natAbs_neg, Int.natAbs_natCast, hself, List.length_cons]; omega)
    rw [canonical, Int.natAbs_neg, Int.natAbs_natCast, hself, decide_eq_true (by omega)] at hacc
    exact hx (hmem.1 hacc)

lemma not_accurate_zeros {n k : ℕ} {F : Frag} (hn : 1 ≤ n) (hplain : F.Plain)
    (h : List.replicate (k + 1) 0 ∈ F.digits) :
    ¬ Accurate none (some (-n)) (seq minus (group F)) := by
  intro hF
  have hds : AllDigits (List.replicate (k + 1) 0) := allDigits_replicate (by norm_num) _
  have hle := (hF.excludes true _ (by simp) hds
    ((signed_minus_group hplain true _ hds).2 h)).2 (-n) rfl
  simp only [numeralValue, if_true, valueOf_replicate_zero] at hle
  omega

/-! ## Exactly these bounds -/

lemma correct_both {a b : ℤ} (hle : a ≤ b) (ha : intMin < a) (hsentinel : a ≠ -intMax)
    (hb : b < intMax) : Correct (some a) (some b) := by
  rcases lt_or_ge a 0 with hneg | hpos
  · obtain ⟨m, rfl, hm, hmax⟩ := exists_neg_natCast hneg ha
    have hm' : (m : ℤ) ≠ intMax := fun h => hsentinel (by rw [h])
    rcases lt_or_ge b 0 with hbneg | hbpos
    · obtain ⟨n, rfl, hn, hnmax⟩ := exists_neg_natCast hbneg (ha.trans_le hle)
      have hnm : n ≤ m := by omega
      exact (correct_iff_accurate (some (-m)) (some (-n))
        (build_neg_neg hm hmax hn hnmax (build_both n hm' 16 true))).2 (accurate_neg_neg hnm hn)
    · obtain ⟨k, rfl⟩ := Int.eq_ofNat_of_zero_le hbpos
      exact (correct_iff_accurate (some (-m)) (some k)
        (build_neg_pos hm hmax hb.ne (build_both 0 hm' 16 true))).2 (accurate_neg_pos m k)
  · obtain ⟨j, rfl⟩ := Int.eq_ofNat_of_zero_le hpos
    obtain ⟨k, rfl⟩ := Int.eq_ofNat_of_zero_le (hpos.trans hle)
    exact (correct_iff_accurate (some j) (some k) (build_both j hb.ne 16 true)).2
      (accurate_both (by omega))

lemma length_decimal_int {n : ℕ} (h : (n : ℤ) ≤ intMax) : (decimal n).length ≤ 10 := by
  rw [intMax] at h
  exact (length_decimal_le_iff (by norm_num)).2 (by omega)

lemma correct_minOnly_iff {a : ℤ} (ha : intMin ≤ a) (hmax : a ≤ intMax) :
    Correct (some a) none ↔
      a ≠ intMin ∧ a ≠ -intMax ∧ GoodRest (decimal a.toNat).tail := by
  by_cases hmin : a = intMin
  · rw [hmin]
    exact iff_of_false (not_correct_of_error (some intMin) none (build_open_open 16 true))
      (fun h => h.1 rfl)
  by_cases hsentinel : a = -intMax
  · rw [hsentinel]
    exact iff_of_false (not_correct_of_error (some (-intMax)) none (build_sentinel_open 16 true))
      (fun h => h.2.1 rfl)
  rcases lt_or_ge a 0 with hneg | hpos
  · obtain ⟨m, rfl, hm, hmmax⟩ := exists_neg_natCast hneg (lt_of_le_of_ne ha (Ne.symm hmin))
    have hm' : (m : ℤ) < intMax := lt_of_le_of_ne hmmax fun h => hsentinel (by rw [h])
    refine iff_of_true ((correct_iff_accurate (some (-m)) none (build_neg_open hm hm')).2
      (accurate_neg_open m)) ⟨hmin, hsentinel, ?_⟩
    rw [Int.toNat_neg_natCast]
    exact fun x hx => by simp [decimal] at hx
  obtain ⟨v, rfl⟩ := Int.eq_ofNat_of_zero_le hpos
  rw [Int.toNat_natCast]
  by_cases hzero : v = 0
  · rw [hzero]
    exact iff_of_true ((correct_iff_accurate (some 0) none (build_zero 16 true)).2
      accurate_zero_open) ⟨by norm_num [intMin], by norm_num [intMax], by simp [GoodRest, decimal]⟩
  by_cases hsmall : v ≤ 9
  · obtain ⟨F, hF, hplain, hdigits⟩ :=
      minOnly_small (d := 16) (t := true) (by omega) hsmall (by norm_num)
    refine iff_of_true ((correct_iff_accurate (some v) none hF).2
      (accurate_pos_open (by omega) hplain hdigits)) ⟨hmin, hsentinel, ?_⟩
    rw [decimal_of_lt_ten (by omega)]
    simp [GoodRest]
  obtain ⟨c, rest, hdecimal⟩ := List.exists_cons_of_ne_nil (decimal_ne_nil v)
  have hc : c ≠ 0 := head_decimal_ne_zero hdecimal hzero
  have hlen := length_decimal_int hmax
  by_cases hgood : GoodRest rest
  · obtain ⟨F, hF, hplain, hdigits⟩ :=
      minOnly_lead (d := 16) (t := true) (by omega) (by omega) hdecimal hgood
    refine iff_of_true ((correct_iff_accurate (some v) none hF).2
      (accurate_pos_open (by omega) hplain ?_)) ⟨hmin, hsentinel, by rwa [hdecimal]⟩
    rw [hdigits]
    split <;> rfl
  · have hrest : AllDigits rest := (allDigits_cons.1 (hdecimal ▸ allDigits_decimal v)).2
    rw [hdecimal, List.length_cons] at hlen
    obtain ⟨G, hG, hplain, -⟩ := minOnly_short (valueOf rest) (d := 15) (by norm_num) false
    refine iff_of_false ?_ (fun h => hgood (by rw [hdecimal] at h; exact h.2.2))
    rw [correct_iff_accurate (some v) none (build_large (by omega) hdecimal hG)]
    exact not_accurate_minOnly hc hdecimal (by omega) hplain
      (minOnly_broken hrest hgood (by norm_num) hG)

lemma correct_maxOnly_iff {b : ℤ} (hb : intMin ≤ b) (hmax : b ≤ intMax) :
    Correct none (some b) ↔ b ≠ intMax ∧
      (b < 0 → ∃ rest ≠ [], decimal (-b).toNat = 1 :: rest ∧ GoodRest rest) := by
  by_cases hsentinel : b = intMax
  · rw [hsentinel]
    exact iff_of_false (not_correct_of_error none (some intMax) (build_open_open 16 true))
      (fun h => h.1 rfl)
  rcases lt_or_ge b 0 with hneg | hpos
  swap
  · obtain ⟨k, rfl⟩ := Int.eq_ofNat_of_zero_le hpos
    exact iff_of_true ((correct_iff_accurate none (some k)
      (build_open_pos hsentinel 16 true)).2 (accurate_open_pos k))
      ⟨hsentinel, fun h => absurd h (not_lt.2 hpos)⟩
  by_cases hmin : b = intMin
  · rw [hmin]
    refine iff_of_false (not_correct_of_error none (some intMin) (build_intMin_neg 16 true)) ?_
    rintro ⟨-, h⟩
    obtain ⟨rest, -, hrest, -⟩ := h (by norm_num [intMin])
    simp [intMin, decimal] at hrest
  obtain ⟨n, rfl, hn, hnmax⟩ := exists_neg_natCast hneg (lt_of_le_of_ne hb (Ne.symm hmin))
  have hlen := length_decimal_int hnmax
  rw [neg_neg, Int.toNat_natCast]
  by_cases hsmall : n ≤ 9
  · obtain ⟨F, hF, hplain, hdigits⟩ :=
      minOnly_small (d := 16) (t := false) hn hsmall (by norm_num)
    refine iff_of_false ?_ ?_
    · rw [correct_iff_accurate none (some (-n)) (build_open_neg hn hnmax hF)]
      refine not_accurate_zeros (k := 1) hn hplain ?_
      rw [hdigits, decimal_of_lt_ten (by omega)]
      exact ⟨allDigits_replicate (by norm_num) 2, by simp, by simp, by simp, by simp⟩
    · rintro ⟨-, h⟩
      obtain ⟨rest, hne, hrest, -⟩ := h hneg
      rw [decimal_of_lt_ten (by omega)] at hrest
      exact hne (List.cons.inj hrest).2.symm
  obtain ⟨c, rest, hdecimal⟩ := List.exists_cons_of_ne_nil (decimal_ne_nil n)
  have hc : c ≠ 0 := head_decimal_ne_zero hdecimal (by omega)
  have hc10 : c < 10 := (allDigits_cons.1 (hdecimal ▸ allDigits_decimal n)).1
  have hrest : AllDigits rest := (allDigits_cons.1 (hdecimal ▸ allDigits_decimal n)).2
  have hne := rest_ne_nil (by omega) hdecimal
  by_cases hone : c = 1 ∧ GoodRest rest
  · obtain ⟨rfl, hgood⟩ := hone
    obtain ⟨F, hF, hplain, hdigits⟩ :=
      minOnly_lead (d := 16) (t := false) (by omega) (by omega) hdecimal hgood
    rw [if_pos rfl] at hdigits
    exact iff_of_true ((correct_iff_accurate none (some (-n)) (build_open_neg hn hnmax hF)).2
      (accurate_open_neg hn hplain hdigits)) ⟨hsentinel, fun _ => ⟨rest, hne, hdecimal, hgood⟩⟩
  refine iff_of_false ?_ ?_
  · rw [hdecimal, List.length_cons] at hlen
    obtain ⟨G, hG, hplain, -⟩ := minOnly_short (valueOf rest) (d := 15) (by norm_num) false
    rw [correct_iff_accurate none (some (-n))
      (build_open_neg hn hnmax (build_large (by omega) hdecimal hG))]
    by_cases hc1 : c = 1
    · exact not_accurate_maxOnly hc hdecimal (by omega) hplain
        (minOnly_broken hrest (fun hgood => hone ⟨hc1, hgood⟩) (by norm_num) hG)
    · refine not_accurate_zeros (k := rest.length + 1) hn (plain_leadDigit hc10 hplain) ?_
      refine (cons_mem_leadDigit hc10).2 (Or.inl ⟨by omega, le_rfl, by omega,
        allDigits_replicate (by norm_num) _, by simp, ?_⟩)
      rw [List.length_replicate]
      omega
  · rintro ⟨-, h⟩
    obtain ⟨rest', -, hrest', hgood⟩ := h hneg
    rw [hdecimal] at hrest'
    obtain ⟨rfl, rfl⟩ := List.cons.inj hrest'
    exact hone ⟨rfl, hgood⟩

/-- The fragment for bounds is accurate exactly for the bounds that are handled. -/
theorem correct_iff {lo hi : Option ℤ} (h : Bounds lo hi) : Correct lo hi ↔ Handled lo hi := by
  obtain _ | a := lo
  · obtain _ | b := hi
    · exact absurd h.given (by simp)
    · exact correct_maxOnly_iff (h.hi_int b rfl).1 (h.hi_int b rfl).2
  obtain ⟨halo, hahi⟩ := h.lo_int a rfl
  obtain _ | b := hi
  · exact correct_minOnly_iff halo hahi
  obtain ⟨hblo, hbhi⟩ := h.hi_int b rfl
  have hle := h.le a rfl b rfl
  by_cases hmin : a = intMin
  · rw [hmin]
    exact iff_of_false (not_correct_intMin hblo hbhi) (fun h => h.1 rfl)
  have hlt := lt_of_le_of_ne halo (Ne.symm hmin)
  by_cases hmax : b = intMax
  · rw [hmax]
    exact iff_of_false (not_correct_intMax hlt hahi) (fun h => h.2.2 rfl)
  by_cases hsentinel : a = -intMax
  · rw [hsentinel]
    exact iff_of_false (not_correct_sentinel (hlt.trans_le hle) hmax) (fun h => h.2.1 rfl)
  · exact iff_of_true (correct_both hle hlt hsentinel (lt_of_le_of_ne hbhi hmax))
      ⟨hmin, hsentinel, hmax⟩

/-- A minimum of two digits is handled. -/
theorem correct_fifteen : Correct (some 15) none := by
  have hdecimal : decimal 15 = [1, 5] := by norm_num [decimal]
  refine (correct_iff ⟨Or.inl (by simp), by simp [intMin, intMax], by simp, by simp⟩).2 ?_
  refine ⟨by norm_num [intMin], by norm_num [intMax], ?_⟩
  rw [show (15 : ℤ).toNat = 15 from rfl, hdecimal]
  simp [GoodRest]

/-- From a minimum of 110 on, the fragment has no alternative for `1000`. -/
theorem not_correct_oneHundredTen : ¬ Correct (some 110) none := by
  have hdecimal : decimal 110 = [1, 1, 0] := by norm_num [decimal]
  rw [show (110 : ℤ) = ((110 : ℕ) : ℤ) from rfl]
  have hbad := (correct_minOnly_iff (a := (110 : ℕ)) (by norm_num [intMin])
    (by norm_num [intMax])).not
  rw [hbad, Int.toNat_natCast, hdecimal]
  simp [GoodRest]

end IFairy.JsonSchema
