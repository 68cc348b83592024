import Mathlib.Data.Nat.Digits.Lemmas

/-!
# Decimal numerals

A numeral is a list of digits, the first digit first.  `valueOf` reads one and `decimal` writes one.
`decimal` is injective and inverts `valueOf` on the numerals without a leading zero
(`decimal_valueOf`); numerals of equal length compare digit by digit (`valueOf_cons_le_cons`).
-/

namespace IFairy

/-- The digits of a number, `0` as one digit. -/
def decimal (n : ℕ) : List ℕ := if n = 0 then [0] else (Nat.digits 10 n).reverse

/-- The number that a list of digits stands for. -/
def valueOf : List ℕ → ℕ
  | [] => 0
  | d :: ds => d * 10 ^ ds.length + valueOf ds

/-- Every entry is a decimal digit. -/
def AllDigits (ds : List ℕ) : Prop := ∀ d ∈ ds, d < 10

/-! ## Lists of digits -/

@[simp] lemma allDigits_nil : AllDigits [] := by simp [AllDigits]

@[simp] lemma allDigits_cons {d : ℕ} {ds : List ℕ} :
    AllDigits (d :: ds) ↔ d < 10 ∧ AllDigits ds := List.forall_mem_cons

@[simp] lemma allDigits_append {ds es : List ℕ} :
    AllDigits (ds ++ es) ↔ AllDigits ds ∧ AllDigits es := List.forall_mem_append

lemma allDigits_replicate {d : ℕ} (h : d < 10) (n : ℕ) : AllDigits (List.replicate n d) := by
  intro e he
  rw [List.eq_of_mem_replicate he]
  exact h

lemma valueOf_append (ds es : List ℕ) :
    valueOf (ds ++ es) = valueOf ds * 10 ^ es.length + valueOf es := by
  induction ds with
  | nil => simp [valueOf]
  | cons d ds ih =>
    rw [List.cons_append, valueOf, valueOf, ih, List.length_append, pow_add]
    ring

lemma valueOf_lt {ds : List ℕ} (h : AllDigits ds) : valueOf ds < 10 ^ ds.length := by
  induction ds with
  | nil => simp [valueOf]
  | cons d ds ih =>
    obtain ⟨hd, hds⟩ := allDigits_cons.1 h
    have := ih hds
    rw [valueOf, List.length_cons, pow_succ]
    nlinarith

lemma valueOf_replicate_zero (n : ℕ) : valueOf (List.replicate n 0) = 0 := by
  induction n with
  | zero => rfl
  | succ n ih => rw [List.replicate_succ, valueOf, ih, Nat.zero_mul]

lemma valueOf_replicate_nine (n : ℕ) : valueOf (List.replicate n 9) + 1 = 10 ^ n := by
  induction n with
  | zero => rfl
  | succ n ih =>
    rw [List.replicate_succ, valueOf, List.length_replicate, pow_succ]
    omega

lemma valueOf_cons_le_cons {d e : ℕ} {ds es : List ℕ} (hlen : ds.length = es.length)
    (hds : AllDigits ds) (hes : AllDigits es) :
    valueOf (d :: ds) ≤ valueOf (e :: es) ↔ d < e ∨ d = e ∧ valueOf ds ≤ valueOf es := by
  have hd := valueOf_lt hds
  have he := valueOf_lt hes
  rw [valueOf, valueOf, hlen]
  rw [hlen] at hd
  rcases lt_trichotomy d e with hlt | rfl | hgt
  · have hmul : d * 10 ^ es.length + 10 ^ es.length ≤ e * 10 ^ es.length := by
      rw [← Nat.succ_mul]
      exact Nat.mul_le_mul_right _ hlt
    exact iff_of_true (by omega) (Or.inl hlt)
  · simp
  · have hmul : e * 10 ^ es.length + 10 ^ es.length ≤ d * 10 ^ es.length := by
      rw [← Nat.succ_mul]
      exact Nat.mul_le_mul_right _ hgt
    exact iff_of_false (by omega) (by omega)

lemma valueOf_pos {d : ℕ} (hd : d ≠ 0) (ds : List ℕ) : 10 ^ ds.length ≤ valueOf (d :: ds) := by
  rw [valueOf]
  exact (Nat.le_mul_of_pos_left _ (Nat.pos_of_ne_zero hd)).trans (Nat.le_add_right _ _)

/-! ## The digits of a number -/

lemma valueOf_reverse (l : List ℕ) : valueOf l.reverse = Nat.ofDigits 10 l := by
  induction l with
  | nil => rfl
  | cons d l ih =>
    rw [List.reverse_cons, valueOf_append, ih, Nat.ofDigits_cons]
    simp only [valueOf, List.length_singleton, List.length_nil]
    push_cast
    ring

lemma valueOf_decimal (n : ℕ) : valueOf (decimal n) = n := by
  rw [decimal]
  split
  case isTrue h => rw [h]; rfl
  case isFalse h => rw [valueOf_reverse, Nat.ofDigits_digits]

lemma allDigits_decimal (n : ℕ) : AllDigits (decimal n) := by
  intro d hd
  rw [decimal] at hd
  split at hd
  case isTrue => simp_all
  case isFalse => exact Nat.digits_lt_base (by norm_num) (List.mem_reverse.1 hd)

lemma decimal_ne_nil (n : ℕ) : decimal n ≠ [] := by
  rw [decimal]
  split
  case isTrue => simp
  case isFalse h => simpa [Nat.digits_eq_nil_iff_eq_zero] using h

lemma head_decimal_ne_zero {n c : ℕ} {rest : List ℕ} (h : decimal n = c :: rest) (hn : n ≠ 0) :
    c ≠ 0 := by
  rw [decimal, if_neg hn] at h
  have hdigits : Nat.digits 10 n = rest.reverse ++ [c] := by
    rw [← List.reverse_reverse (Nat.digits 10 n), h, List.reverse_cons]
  have hlast := Nat.getLast_digit_ne_zero 10 hn
  simpa [hdigits] using hlast

lemma length_decimal_le_iff {n k : ℕ} (hk : k ≠ 0) : (decimal n).length ≤ k ↔ n < 10 ^ k := by
  rw [decimal]
  split
  case isTrue h =>
    rw [h]
    exact iff_of_true (by simpa using Nat.one_le_iff_ne_zero.2 hk) (by positivity)
  case isFalse => rw [List.length_reverse, Nat.digits_length_le_iff (by norm_num)]

lemma length_decimal_mono {m n : ℕ} (h : m ≤ n) : (decimal m).length ≤ (decimal n).length := by
  have hk : (decimal n).length ≠ 0 := by simpa using decimal_ne_nil n
  exact (length_decimal_le_iff hk).2 (h.trans_lt ((length_decimal_le_iff hk).1 le_rfl))

lemma length_decimal_valueOf_le {ds : List ℕ} (hne : ds ≠ []) (h : AllDigits ds) :
    (decimal (valueOf ds)).length ≤ ds.length :=
  (length_decimal_le_iff (fun hlen => hne (List.length_eq_zero_iff.1 hlen))).2 (valueOf_lt h)

lemma decimal_valueOf {d : ℕ} {ds : List ℕ} (hd : d ≠ 0) (h : AllDigits (d :: ds)) :
    decimal (valueOf (d :: ds)) = d :: ds := by
  have hvalue : valueOf (d :: ds) ≠ 0 := by
    have hle := valueOf_pos hd ds
    have hpow : 0 < 10 ^ ds.length := by positivity
    omega
  have hdigits : valueOf (d :: ds) = Nat.ofDigits 10 (d :: ds).reverse := by
    rw [← valueOf_reverse, List.reverse_reverse]
  rw [decimal, if_neg hvalue, hdigits, Nat.digits_ofDigits 10 (by norm_num),
    List.reverse_reverse]
  · intro e he
    exact h e (List.mem_reverse.1 he)
  · intro _
    simpa using hd

lemma decimal_of_lt_ten {d : ℕ} (h : d < 10) : decimal d = [d] := by
  rcases Nat.eq_zero_or_pos d with rfl | hpos
  · rfl
  · have hvalue : decimal (valueOf [d]) = [d] := decimal_valueOf hpos.ne' (by simpa using h)
    simpa [valueOf] using hvalue

end IFairy
