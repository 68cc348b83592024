import IFairy.Json.FragmentDigits

/-!
# Fragments with a minimum only

With a minimum that is not negative and no maximum, `buildMinMaxInt` recurses on the digits of the
minimum after the first.  The call for them accepts what it should (`AtLeast`) when all digits but
the last are at least `2` (`minOnly_good`); otherwise it accepts a numeral that is too short, or
refuses one that is long enough (`minOnly_broken`).
-/

namespace IFairy.JsonSchema

open Frag

/-- The numerals of at most `d` digits, the first digit at least `start`, that are at least `ds`. -/
def AtLeast (start : ℕ) (ds : List ℕ) (d : ℕ) : Set (List ℕ) :=
  {x | AllDigits x ∧ (∀ e ∈ x.head?, start ≤ e) ∧ ds.length ≤ x.length ∧ x.length ≤ d ∧
    (x.length = ds.length → valueOf ds ≤ valueOf x)}

lemma cons_mem_atLeast {start c e d : ℕ} {rest y : List ℕ} (hrest : AllDigits rest) :
    e :: y ∈ AtLeast start (c :: rest) d ↔
      e < 10 ∧ AllDigits y ∧ start ≤ e ∧ rest.length ≤ y.length ∧ y.length + 1 ≤ d ∧
        (y.length = rest.length → c < e ∨ c = e ∧ valueOf rest ≤ valueOf y) := by
  have hvalue : AllDigits y → y.length = rest.length →
      (valueOf (c :: rest) ≤ valueOf (e :: y) ↔ c < e ∨ c = e ∧ valueOf rest ≤ valueOf y) :=
    fun hy hlen => valueOf_cons_le_cons hlen.symm hrest hy
  simp only [AtLeast, Set.mem_ofPred_eq, allDigits_cons, List.head?_cons, Option.mem_some_iff,
    forall_eq', List.length_cons, Nat.add_right_cancel_iff, Nat.add_le_add_iff_right]
  constructor
  · rintro ⟨⟨he, hy⟩, hstart, hlen, hd, hge⟩
    exact ⟨he, hy, hstart, hlen, hd, fun h => (hvalue hy h).1 (hge h)⟩
  · rintro ⟨he, hy, hstart, hlen, hd, hge⟩
    exact ⟨⟨he, hy⟩, hstart, hlen, hd, fun h => (hvalue hy h).2 (hge h)⟩

lemma nil_notMem_atLeast {start c d : ℕ} {rest : List ℕ} : [] ∉ AtLeast start (c :: rest) d :=
  fun h => absurd h.2.2.1 (by simp)

/-! ## One digit of the minimum -/

/-- What is written for the first digit `c` of a minimum with `len` digits after it, from the
fragment for those. -/
def leadDigit (start c len less : ℕ) (inner : Frag) : Frag :=
  let same := seq (digitRange c c) (group inner)
  let upper := if c < 9 then alt same (seq (digitRange (c + 1) 9) (moreDigits len less)) else same
  if 1 < c then alt (seq (digitRange start (c - 1)) (moreDigits (len + 1) less)) upper else upper

lemma cons_mem_leadDigit {start c len less e : ℕ} {inner : Frag} {y : List ℕ} (hc : c < 10) :
    e :: y ∈ (leadDigit start c len less inner).digits ↔
      (1 < c ∧ start ≤ e ∧ e < c ∧ AllDigits y ∧ len + 1 ≤ y.length ∧ y.length ≤ less) ∨
      (e = c ∧ y ∈ inner.digits) ∨
      (c < e ∧ e < 10 ∧ AllDigits y ∧ len ≤ y.length ∧ y.length ≤ less) := by
  rw [leadDigit]
  split_ifs <;>
    simp only [mem_digits_alt, cons_mem_digits_digitRange_seq, digits_group, mem_digits_moreDigits] <;>
    grind

lemma nil_notMem_leadDigit {start c len less : ℕ} {inner : Frag} :
    [] ∉ (leadDigit start c len less inner).digits := by
  rw [leadDigit]
  split_ifs <;> simp [nil_notMem_digits_digitRange_seq]

lemma plain_leadDigit {start c len less : ℕ} {inner : Frag} (hc : c < 10) (h : inner.Plain) :
    (leadDigit start c len less inner).Plain := by
  rw [leadDigit]
  split_ifs <;> simp only [Plain, h, hc, and_true, true_and] <;> omega

lemma build_zero (d : ℕ) (top : Bool) : buildMinMaxInt 0 intMax d top = .ok (if top then
    alt (digitRange 0 0) (seq (digitRange 1 9) (moreDigits 0 (max (d - 1) 1)))
      else moreDigits 1 d) := by
  rw [buildMinMaxInt]
  norm_num [intMin]

lemma build_small {v d : ℕ} {top : Bool} (hpos : 1 ≤ v) (hv : v ≤ 9) :
    buildMinMaxInt v intMax d top = .ok (
      if (if top then 1 else 0) < v then
        alt (seq (digitRange (if top then 1 else 0) (v - 1)) (moreDigits 1 (max (d - 1) 1)))
          (seq (digitRange v 9) (moreDigits 0 (max (d - 1) 1)))
      else seq (digitRange v 9) (moreDigits 0 (max (d - 1) 1))) := by
  have hmin : (v : ℤ) ≠ intMin := by rw [intMin]; omega
  rw [buildMinMaxInt, dif_neg (by simp), dif_pos hmin, dif_neg (by omega), if_neg (by omega),
    if_pos (by omega), Int.toNat_natCast]

lemma build_large {v c d : ℕ} {top : Bool} {rest : List ℕ} {inner : Frag} (hv : 10 ≤ v)
    (hdecimal : decimal v = c :: rest)
    (hinner : buildMinMaxInt (valueOf rest) intMax (max (d - 1) 1) false = .ok inner) :
    buildMinMaxInt v intMax d top =
      .ok (leadDigit (if top then 1 else 0) c rest.length (max (d - 1) 1) inner) := by
  have hmin : (v : ℤ) ≠ intMin := by rw [intMin]; omega
  rw [buildMinMaxInt, dif_neg (by simp), dif_pos hmin, dif_neg (by omega), if_neg (by omega),
    if_neg (by omega)]
  split
  case h_1 h => exact absurd (by rwa [Int.toNat_natCast] at h) (decimal_ne_nil v)
  case h_2 c' rest' h =>
    rw [Int.toNat_natCast, hdecimal] at h
    obtain ⟨rfl, rfl⟩ := List.cons.inj h
    rw [hinner]
    rfl

/-! ## Inner digits of at least two -/

/-- The digits of a minimum after its first, when the recursion on them is right: all but the last
are at least `2`. -/
def GoodRest (rest : List ℕ) : Prop := ∀ x ∈ rest.dropLast, 2 ≤ x

lemma decimal_of_goodRest {rest : List ℕ} (hne : rest ≠ []) (hrest : AllDigits rest)
    (h : GoodRest rest) : decimal (valueOf rest) = rest := by
  obtain _ | ⟨r, _ | ⟨s, rest⟩⟩ := rest
  · exact absurd rfl hne
  · rw [valueOf, List.length_nil, pow_zero, Nat.mul_one]
    exact decimal_of_lt_ten (allDigits_cons.1 hrest).1
  · have hr : 2 ≤ r := h r (by simp)
    exact decimal_valueOf (by omega) hrest

lemma rest_ne_nil {v c : ℕ} {rest : List ℕ} (hv : 10 ≤ v) (h : decimal v = c :: rest) :
    rest ≠ [] := by
  rintro rfl
  have hshort := (length_decimal_le_iff one_ne_zero).1 (congrArg List.length h).le
  omega

lemma digits_leadDigit {start c less : ℕ} {rest : List ℕ} {inner : Frag} (hc : c < 10)
    (hpos : c ≠ 0) (hstart : start ≤ 1) (hrest : AllDigits rest)
    (hinner : inner.digits = AtLeast 0 rest less) :
    (leadDigit start c rest.length less inner).digits =
      AtLeast (if c = 1 then 1 else start) (c :: rest) (less + 1) := by
  ext x
  obtain _ | ⟨e, y⟩ := x
  · exact iff_of_false nil_notMem_leadDigit nil_notMem_atLeast
  have hy : y ∈ AtLeast 0 rest less ↔ AllDigits y ∧ rest.length ≤ y.length ∧ y.length ≤ less ∧
      (y.length = rest.length → valueOf rest ≤ valueOf y) :=
    ⟨fun h => ⟨h.1, h.2.2⟩, fun h => ⟨h.1, fun _ _ => Nat.zero_le _, h.2⟩⟩
  rw [cons_mem_leadDigit hc, cons_mem_atLeast hrest, hinner, hy]
  split_ifs <;> grind

lemma minOnly_lead_of_inner {v c d : ℕ} {t : Bool} {rest : List ℕ} {inner : Frag}
    (hv : 10 ≤ v) (hd : 2 ≤ d) (hdecimal : decimal v = c :: rest)
    (hbuild : buildMinMaxInt (valueOf rest) intMax (d - 1) false = .ok inner)
    (hplain : inner.Plain) (hinner : inner.digits = AtLeast 0 rest (d - 1)) :
    ∃ F, buildMinMaxInt v intMax d t = .ok F ∧ F.Plain ∧
      F.digits = AtLeast (if c = 1 then 1 else if t then 1 else 0) (decimal v) d := by
  have hless : max (d - 1) 1 = d - 1 := by omega
  have hdigits := allDigits_decimal v
  rw [hdecimal] at hdigits
  obtain ⟨hc, hrest⟩ := allDigits_cons.1 hdigits
  have hpos : c ≠ 0 := head_decimal_ne_zero hdecimal (by omega)
  refine ⟨_, build_large hv hdecimal (by rwa [hless]), plain_leadDigit hc hplain, ?_⟩
  rw [hless, digits_leadDigit hc hpos (by split <;> omega) hrest hinner, hdecimal,
    Nat.sub_add_cancel (by omega)]

lemma minOnly_small {v d : ℕ} {t : Bool} (hpos : 1 ≤ v) (hv : v ≤ 9) (hd : 2 ≤ d) :
    ∃ F, buildMinMaxInt v intMax d t = .ok F ∧ F.Plain ∧
      F.digits = AtLeast (if t then 1 else 0) (decimal v) d := by
  have hless : max (d - 1) 1 = d - 1 := by omega
  refine ⟨_, build_small hpos hv, ?_, ?_⟩
  · cases t <;> split_ifs <;> simp only [Plain, and_true] <;> omega
  ext x
  rw [hless, decimal_of_lt_ten (by omega)]
  obtain _ | ⟨e, y⟩ := x
  · refine iff_of_false ?_ nil_notMem_atLeast
    split_ifs <;> simp [nil_notMem_digits_digitRange_seq]
  rw [cons_mem_atLeast allDigits_nil]
  have hnil : valueOf [] ≤ valueOf y := Nat.zero_le _
  cases t <;> split_ifs <;>
    simp only [mem_digits_alt, cons_mem_digits_digitRange_seq, mem_digits_moreDigits] <;> grind

/-- Without a digit below `2` before the last, the recursion accepts the numerals that are long
enough and large enough. -/
lemma minOnly_good {v d : ℕ} (hd : (decimal v).length < d) (h : GoodRest (decimal v)) :
    ∃ F, buildMinMaxInt v intMax d false = .ok F ∧ F.Plain ∧
      F.digits = AtLeast 0 (decimal v) d := by
  induction v using Nat.strong_induction_on generalizing d with
  | _ v ih =>
    have hone : 1 ≤ (decimal v).length := List.length_pos_iff.2 (decimal_ne_nil v)
    by_cases hzero : v = 0
    · refine ⟨_, by rw [hzero]; exact build_zero d false, by trivial, ?_⟩
      ext x
      rw [hzero]
      exact ⟨fun hx => ⟨hx.1, fun _ _ => Nat.zero_le _, hx.2.1, hx.2.2, fun _ => Nat.zero_le _⟩,
        fun hx => ⟨hx.1, hx.2.2.1, hx.2.2.2.1⟩⟩
    by_cases hsmall : v ≤ 9
    · exact minOnly_small (by omega) hsmall (by omega)
    obtain ⟨c, rest, hdecimal⟩ := List.exists_cons_of_ne_nil (decimal_ne_nil v)
    have hne := rest_ne_nil (by omega) hdecimal
    rw [hdecimal] at h hd
    have hc : 2 ≤ c := h c (by rw [List.dropLast_cons_of_ne_nil hne]; exact List.mem_cons_self ..)
    have hrestGood : GoodRest rest := fun x hx =>
      h x (by rw [List.dropLast_cons_of_ne_nil hne]; exact List.mem_cons_of_mem _ hx)
    have hrest : AllDigits rest := (allDigits_cons.1 (hdecimal ▸ allDigits_decimal v)).2
    have hself := decimal_of_goodRest hne hrest hrestGood
    rw [List.length_cons] at hd
    obtain ⟨inner, hbuild, hplain, hinner⟩ := ih (valueOf rest)
      (valueOf_tail_lt hdecimal hzero) (d := d - 1) (by rw [hself]; omega) (by rwa [hself])
    rw [hself] at hinner
    obtain ⟨F, hF, hplainF, hdigits⟩ :=
      minOnly_lead_of_inner (t := false) (by omega) (by omega) hdecimal hbuild hplain hinner
    refine ⟨F, hF, hplainF, ?_⟩
    rw [hdigits, if_neg (by omega)]
    rfl

/-- The first digit is free; the digits between it and the last are at least `2`. -/
lemma minOnly_lead {v c d : ℕ} {t : Bool} {rest : List ℕ} (hv : 10 ≤ v)
    (hd : (decimal v).length < d) (hdecimal : decimal v = c :: rest) (h : GoodRest rest) :
    ∃ F, buildMinMaxInt v intMax d t = .ok F ∧ F.Plain ∧
      F.digits = AtLeast (if c = 1 then 1 else if t then 1 else 0) (decimal v) d := by
  have hne := rest_ne_nil hv hdecimal
  have hrest : AllDigits rest := (allDigits_cons.1 (hdecimal ▸ allDigits_decimal v)).2
  have hself := decimal_of_goodRest hne hrest h
  have hd' : (c :: rest).length < d := by rwa [← hdecimal]
  rw [List.length_cons] at hd'
  obtain ⟨inner, hbuild, hplain, hinner⟩ :=
    minOnly_good (v := valueOf rest) (d := d - 1) (by rw [hself]; omega) (by rwa [hself])
  rw [hself] at hinner
  exact minOnly_lead_of_inner hv (by omega) hdecimal hbuild hplain hinner

/-! ## Any minimum -/

lemma minOnly_short (v : ℕ) {d : ℕ} (hd : 1 ≤ d) (top : Bool) :
    ∃ F, buildMinMaxInt v intMax d top = .ok F ∧ F.Plain ∧
      ∃ x ∈ F.digits, x ≠ [] ∧ x.length ≤ (decimal v).length := by
  induction v using Nat.strong_induction_on generalizing d top with
  | _ v ih =>
    by_cases hzero : v = 0
    · rw [hzero]
      refine ⟨_, build_zero d top, ?_, [0], ?_, by simp, le_rfl⟩
      · cases top
        · trivial
        · exact ⟨by simp [Plain], by simp [Plain]⟩
      · cases top
        · exact ⟨by simp, le_rfl, hd⟩
        · exact Or.inl ⟨0, le_rfl, le_rfl, rfl⟩
    by_cases hsmall : v ≤ 9
    · refine ⟨_, build_small (by omega) hsmall, ?_, [v], ?_, by simp, ?_⟩
      · cases top <;> split_ifs <;> simp only [Plain, and_true] <;> omega
      · have hself : [v] ∈ (seq (digitRange v 9) (moreDigits 0 (max (d - 1) 1))).digits :=
          cons_mem_digits_digitRange_seq.2 ⟨le_rfl, hsmall, allDigits_nil, le_rfl, Nat.zero_le _⟩
        split_ifs
        all_goals first | exact Or.inr hself | exact hself
      · rw [decimal_of_lt_ten (by omega)]
    obtain ⟨c, rest, hdecimal⟩ := List.exists_cons_of_ne_nil (decimal_ne_nil v)
    have hc : c < 10 := (allDigits_cons.1 (hdecimal ▸ allDigits_decimal v)).1
    have hrest : AllDigits rest := (allDigits_cons.1 (hdecimal ▸ allDigits_decimal v)).2
    obtain ⟨inner, hbuild, hplain, x, hx, hne, hlen⟩ := ih (valueOf rest)
      (valueOf_tail_lt hdecimal hzero) (d := max (d - 1) 1) (by omega) false
    refine ⟨_, build_large (by omega) hdecimal hbuild, plain_leadDigit hc hplain, c :: x,
      (cons_mem_leadDigit hc).2 (Or.inr (Or.inl ⟨rfl, hx⟩)), by simp, ?_⟩
    rw [hdecimal, List.length_cons, List.length_cons]
    exact Nat.succ_le_succ (hlen.trans (length_decimal_valueOf_le
      (rest_ne_nil (by omega) hdecimal) hrest))

/-- It accepts a numeral of twelve digits, more than an `int` has. -/
lemma minOnly_long {v d : ℕ} {top : Bool} {F : Frag} (hv : v ≤ 2 ^ 31) (hd : 12 ≤ d)
    (hF : buildMinMaxInt v intMax d top = .ok F) :
    ∃ e y, e ≠ 0 ∧ AllDigits (e :: y) ∧ y.length = 11 ∧ e :: y ∈ F.digits := by
  have hless : max (d - 1) 1 = d - 1 := by omega
  have hzeros : AllDigits (List.replicate 11 0) := allDigits_replicate (by norm_num) 11
  have hmore : ∀ {a b}, a ≤ 11 → 11 ≤ b → List.replicate 11 0 ∈ (moreDigits a b).digits :=
    fun ha hb => ⟨hzeros, by simpa using ha, by simpa using hb⟩
  by_cases hzero : v = 0
  · rw [hzero, Nat.cast_zero, build_zero] at hF
    obtain rfl := Except.ok.inj hF
    refine ⟨1, List.replicate 11 0, one_ne_zero, allDigits_cons.2 ⟨by norm_num, hzeros⟩, List.length_replicate, ?_⟩
    cases top
    · exact ⟨allDigits_cons.2 ⟨by norm_num, hzeros⟩, by simp, by simpa using hd⟩
    · exact Or.inr (cons_mem_digits_digitRange_seq.2 ⟨le_rfl, by norm_num,
        hmore (by norm_num) (by omega)⟩)
  by_cases hsmall : v ≤ 9
  · rw [build_small (by omega) hsmall] at hF
    obtain rfl := Except.ok.inj hF
    refine ⟨v, List.replicate 11 0, hzero, allDigits_cons.2 ⟨by omega, hzeros⟩,
      List.length_replicate, ?_⟩
    have hself : v :: List.replicate 11 0 ∈
        (seq (digitRange v 9) (moreDigits 0 (max (d - 1) 1))).digits :=
      cons_mem_digits_digitRange_seq.2 ⟨le_rfl, hsmall, hmore (by norm_num) (by omega)⟩
    split_ifs
    all_goals first | exact Or.inr hself | exact hself
  obtain ⟨c, rest, hdecimal⟩ := List.exists_cons_of_ne_nil (decimal_ne_nil v)
  have hc : c < 10 := (allDigits_cons.1 (hdecimal ▸ allDigits_decimal v)).1
  have hlen : (decimal v).length ≤ 10 := (length_decimal_le_iff (by norm_num)).2 (by omega)
  rw [hdecimal, List.length_cons] at hlen
  obtain ⟨inner, hbuild, -, -⟩ := minOnly_short (valueOf rest) (d := max (d - 1) 1) (by omega) false
  rw [build_large (by omega) hdecimal hbuild] at hF
  obtain rfl := Except.ok.inj hF
  by_cases hnine : c < 9
  · exact ⟨c + 1, List.replicate 11 0, by omega, allDigits_cons.2 ⟨by omega, hzeros⟩,
      List.length_replicate, (cons_mem_leadDigit hc).2 (Or.inr (Or.inr
        ⟨by omega, by omega, hmore (by omega) (by omega)⟩))⟩
  · refine ⟨1, List.replicate 11 0, one_ne_zero, allDigits_cons.2 ⟨by norm_num, hzeros⟩, List.length_replicate,
      (cons_mem_leadDigit hc).2 (Or.inl ⟨by omega, ?_, by omega, hmore (by omega) (by omega)⟩)⟩
    split <;> omega

/-- A numeral that is too short and accepted, or one digit longer than needed and refused. -/
def Broken (F : Frag) (rest : List ℕ) : Prop :=
  ∃ x ≠ [], AllDigits x ∧
    (x ∈ F.digits ∧ x.length < rest.length ∨ x ∉ F.digits ∧ x.length = rest.length + 1)

lemma broken_leadDigit {start c len less : ℕ} {inner : Frag} {rest : List ℕ} (hc : c < 10)
    (h : Broken inner rest) : Broken (leadDigit start c len less inner) (c :: rest) := by
  obtain ⟨x, -, hx, hcases⟩ := h
  have hiff : c :: x ∈ (leadDigit start c len less inner).digits ↔ x ∈ inner.digits := by
    rw [cons_mem_leadDigit hc]
    simp
  exact ⟨c :: x, by simp, allDigits_cons.2 ⟨hc, hx⟩, hcases.imp
    (fun h => ⟨hiff.2 h.1, Nat.succ_lt_succ h.2⟩)
    (fun h => ⟨fun hmem => h.1 (hiff.1 hmem), congrArg Nat.succ h.2⟩)⟩

/-- With a digit below `2` before the last, the recursion goes wrong. -/
lemma minOnly_broken {rest : List ℕ} {d : ℕ} {F : Frag} (hrest : AllDigits rest)
    (h : ¬ GoodRest rest) (hd : 1 ≤ d)
    (hF : buildMinMaxInt (valueOf rest) intMax d false = .ok F) : Broken F rest := by
  induction rest generalizing d F with
  | nil => exact absurd (by simp [GoodRest]) h
  | cons r rest ih =>
    obtain ⟨hr, hrest⟩ := allDigits_cons.1 hrest
    have hne : rest ≠ [] := by
      rintro rfl
      exact h (by simp [GoodRest])
    by_cases hzero : r = 0
    · -- The value loses the zero, and with it a digit of length.
      have hvalue : valueOf (r :: rest) = valueOf rest := by
        rw [valueOf, hzero, Nat.zero_mul, Nat.zero_add]
      rw [hvalue] at hF
      obtain ⟨F', hF', hplain, x, hx, hxne, hlen⟩ := minOnly_short (valueOf rest) hd false
      obtain rfl := Except.ok.inj (hF'.symm.trans hF)
      exact ⟨x, hxne, allDigits_of_mem hplain hx, Or.inl ⟨hx,
        Nat.lt_succ_of_le (hlen.trans (length_decimal_valueOf_le hne hrest))⟩⟩
    have hdecimal : decimal (valueOf (r :: rest)) = r :: rest :=
      decimal_valueOf hzero (allDigits_cons.2 ⟨hr, hrest⟩)
    have hlarge : 10 ≤ valueOf (r :: rest) := by
      by_contra hsmall
      have hshort : (decimal (valueOf (r :: rest))).length ≤ 1 :=
        (length_decimal_le_iff one_ne_zero).2 (by omega)
      rw [hdecimal, List.length_cons] at hshort
      exact hne (List.length_eq_zero_iff.1 (by omega))
    obtain ⟨inner, hbuild, -, -⟩ :=
      minOnly_short (valueOf rest) (d := max (d - 1) 1) (by omega) false
    rw [build_large hlarge hdecimal hbuild] at hF
    obtain rfl := Except.ok.inj hF
    by_cases hone : r = 1
    · -- No alternative begins with a zero.
      refine ⟨0 :: List.replicate (rest.length + 1) 0, by simp,
        allDigits_cons.2 ⟨by norm_num, allDigits_replicate (by norm_num) _⟩, Or.inr ⟨?_, by simp⟩⟩
      rw [cons_mem_leadDigit hr]
      omega
    · refine broken_leadDigit hr (ih hrest ?_ (by omega) hbuild)
      intro hgood
      refine h fun x hx => ?_
      rw [List.dropLast_cons_of_ne_nil hne] at hx
      obtain rfl | hx := List.mem_cons.1 hx
      · omega
      · exact hgood x hx

end IFairy.JsonSchema
