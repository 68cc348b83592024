import IFairy.Json.PatternJoin
import Mathlib.Data.List.TakeWhile

/-!
# Items of a pattern

What one round of the loop does for each thing that a pattern is made of, and for a quantifier behind
it.  A quantifier with numbers gives a rule of its own to everything but a literal.
-/

namespace IFairy.JsonSchema

open LlamaGrammar ContextFreeGrammar

variable {refs : List Char → Prop}

/-! ## Numbers -/

/-- The numbers stay below the largest `int`, where they are an upper bound. -/
def InRange : RepeatOp → Prop
  | .star | .plus | .opt => True
  | .exactly m => m < 2 ^ 31 - 1
  | .atLeast m => m < 2 ^ 31
  | .between _ n => n < 2 ^ 31 - 1

lemma numeral_ne_nil (m : ℕ) : numeral m ≠ [] := Nat.toDigits_ne_nil

lemma stoi_numeral {m : ℕ} (hm : m < 2 ^ 31) : stoi (numeral m) = .ok m := by
  obtain ⟨c, cs, hnum⟩ := List.exists_cons_of_ne_nil (numeral_ne_nil m)
  have hdigits : ∀ d ∈ c :: cs, isDigitChar d = true := fun d hd =>
    isDigitChar_of_mem_numeral (n := m) (by rwa [hnum])
  have hc := hdigits c List.mem_cons_self
  have hrange : 48 ≤ c.toNat ∧ c.toNat ≤ 57 := by
    simp only [isDigitChar, Bool.and_eq_true, decide_eq_true_eq] at hc
    exact hc
  have hspace : isSpace c = false := by
    have hblank : c ≠ ' ' := by
      rintro rfl
      exact absurd hrange.1 (by decide)
    simp only [isSpace, hblank, decide_false, Bool.false_or, Bool.and_eq_false_iff,
      decide_eq_false_iff_not]
    omega
  have hminus : c ≠ '-' := by
    rintro rfl
    exact absurd hrange.1 (by decide)
  have hplus : c ≠ '+' := by
    rintro rfl
    exact absurd hrange.1 (by decide)
  have htake : (c :: cs).takeWhile isDigitChar = c :: cs := List.takeWhile_eq_self_iff.2 hdigits
  have hvalue : digitsValue (c :: cs) = m := by rw [← hnum, digitsValue_numeral]
  have hbounds : -2 ^ 31 ≤ (m : ℤ) ∧ (m : ℤ) ≤ intMax := by
    rw [intMax]
    omega
  rw [hnum, stoi]
  simp only [List.dropWhile_cons_of_neg (Bool.eq_false_iff.1 hspace), List.head?_cons,
    Option.some.injEq, hminus, hplus, decide_false, Bool.false_eq_true, or_self, if_false, htake,
    hvalue, if_pos hbounds, reduceCtorEq]

lemma comma_not_mem_numeral (m : ℕ) : ',' ∉ numeral m := fun h =>
  absurd (isDigitChar_of_mem_numeral h) (by decide)

lemma splitOn_pair {low high : List Char} (hlow : ',' ∉ low) (hhigh : ',' ∉ high) :
    (low ++ ',' :: high).splitOn ',' = [low, high] := by
  have hjoin : low ++ ',' :: high = [','].intercalate [low, high] := by simp
  rw [hjoin, List.splitOn_intercalate ',' _ (List.cons_ne_nil _ _)]
  intro l hl
  simp only [List.mem_cons, List.not_mem_nil, or_false] at hl
  rcases hl with rfl | rfl
  · exact hlow
  · exact hhigh

lemma splitOn_single {num : List Char} (hnum : ',' ∉ num) : num.splitOn ',' = [num] := by
  have hjoin : num = [','].intercalate [num] := by simp
  rw [hjoin, List.splitOn_intercalate ',' _ (List.cons_ne_nil _ _), ← hjoin]
  intro l hl
  rwa [List.mem_singleton.1 hl]

lemma parseTimes_two {low high : List Char} (hlow : ',' ∉ low) (hhigh : ',' ∉ high) :
    parseTimes ((low ++ ',' :: high).splitOn ',') = parseTimes [low, high] := by
  rw [splitOn_pair hlow hhigh]

lemma parseTimes_one {num : List Char} (hnum : ',' ∉ num) :
    parseTimes (num.splitOn ',') = parseTimes [num] := by
  rw [splitOn_single hnum]

/-! ## Repetitions -/

lemma powers_zero_counts (L : Language ℕ) {K : Set ℕ} (hK : K = {0}) : powers L K = 1 := by
  subst hK
  ext s
  constructor
  · rintro ⟨k, rfl, hs⟩
    rwa [pow_zero] at hs
  · intro hs
    exact ⟨0, rfl, by rwa [pow_zero]⟩

section Repetitions

variable {item : List Char} {F : Meaning → Language ℕ} (hscan : Scans refs true item F)
  (hspace : NoSpace item)
include hscan hspace

lemma alternate_repeat {op : RepeatOp} {text : List Char} (hop : ReadsOperator op text)
    (hfits : op.Fits) : Alternate refs (item ++ text) fun env => powers (F env) op.counts := by
  refine (hscan.repeat hop hfits).alternate ?_
  obtain ⟨c, cs, rfl⟩ := List.exists_cons_of_ne_nil hspace.1
  exact noSpace_of_head (hspace.2 c rfl) _

/-- From `m` to `n` times. -/
lemma alternate_between {m n : ℕ} (hmn : m ≤ n) (hn : n < 2 ^ 31 - 1) :
    Alternate refs (repeatItem item m n) fun env => powers (F env) (RepeatOp.between m n).counts := by
  have hmax : (n : ℤ) ≠ intMax := by
    rw [intMax]
    omega
  rw [repeatItem]
  split_ifs with hzero hopt hplus hstar
  · obtain rfl : n = 0 := by exact_mod_cast hzero
    obtain rfl : m = 0 := Nat.le_zero.1 hmn
    refine .inl ⟨rfl, funext fun env => powers_zero_counts _ ?_⟩
    ext k
    exact ⟨fun h => Nat.le_zero.1 h.2, fun h => ⟨Nat.zero_le k, Nat.le_of_eq h⟩⟩
  · obtain ⟨hm, hn'⟩ := hopt
    obtain rfl : m = 0 := by exact_mod_cast hm
    obtain rfl : n = 1 := by exact_mod_cast hn'
    have hcounts : (RepeatOp.between 0 1).counts = RepeatOp.opt.counts := by
      ext k
      exact and_iff_right (Nat.zero_le k)
    rw [hcounts]
    exact alternate_repeat hscan hspace readsOperator_opt trivial
  · exact absurd hplus.2 hmax
  · exact absurd hstar.2 hmax
  · exact alternate_repeat hscan hspace (readsOperator_between m n (by omega) (by omega))
      ⟨hmn, by omega⟩

/-- At least `m` times. -/
lemma alternate_atLeast {m : ℕ} (hm : m < 2 ^ 31) :
    Alternate refs (repeatItem item m intMax)
      fun env => powers (F env) (RepeatOp.atLeast m).counts := by
  rw [repeatItem, if_neg (by decide)]
  split_ifs with hopt hplus hstar htop
  · exact absurd hopt.2 (by decide)
  · obtain rfl : m = 1 := by exact_mod_cast hplus.1
    have hcounts : (RepeatOp.atLeast 1).counts = RepeatOp.plus.counts := rfl
    rw [hcounts]
    exact alternate_repeat hscan hspace readsOperator_plus trivial
  · obtain rfl : m = 0 := by exact_mod_cast hstar.1
    have hcounts : (RepeatOp.atLeast 0).counts = RepeatOp.star.counts := by
      ext k
      exact iff_of_true (Nat.zero_le k) trivial
    rw [hcounts]
    exact alternate_repeat hscan hspace readsOperator_star trivial
  · exact alternate_repeat hscan hspace (readsOperator_atLeast m (by omega)) hm
  · exact absurd rfl htop

end Repetitions

/-- A quantifier is one character, or has numbers in curly brackets. -/
inductive QuantifierForm (op : RepeatOp) : List Char → Prop
  | operator {c : Char} : c = '*' ∨ c = '+' ∨ c = '?' → ReadsOperator op [c] → op.Fits →
      QuantifierForm op [c]
  | braces {times : List Char} {m n : ℤ} : '\x7d' ∉ times →
      parseTimes (times.splitOn ',') = .ok (m, n, false) →
      (∀ (refs : List Char → Prop) (item : List Char) (F : Meaning → Language ℕ),
        Scans refs true item F → NoSpace item →
        Alternate refs (repeatItem item m n) fun env => powers (F env) op.counts) →
      QuantifierForm op ('\x7b' :: (times ++ ['\x7d']))

lemma brace_not_mem_numeral (m : ℕ) : '\x7d' ∉ numeral m := fun h =>
  absurd (isDigitChar_of_mem_numeral h) (by decide)

lemma quantifierForm (op : RepeatOp) (hop : Ordered op) (hrange : InRange op) :
    QuantifierForm op (quantifierText op) := by
  cases op with
  | star => exact .operator (.inl rfl) readsOperator_star trivial
  | plus => exact .operator (.inr (.inl rfl)) readsOperator_plus trivial
  | opt => exact .operator (.inr (.inr rfl)) readsOperator_opt trivial
  | exactly m =>
    have hm : m < 2 ^ 31 - 1 := hrange
    refine .braces (m := m) (n := m) (brace_not_mem_numeral m) ?_ fun refs item F hscan hspace => ?_
    · rw [parseTimes_one (comma_not_mem_numeral m), parseTimes, stoi_numeral (by omega)]
      rfl
    · have hcounts : (RepeatOp.exactly m).counts = (RepeatOp.between m m).counts := by
        ext k
        exact ⟨fun h => ⟨Nat.le_of_eq h.symm, Nat.le_of_eq h⟩, fun h => Nat.le_antisymm h.2 h.1⟩
      rw [hcounts]
      exact alternate_between hscan hspace le_rfl hm
  | atLeast m =>
    have hm : m < 2 ^ 31 := hrange
    have htext : quantifierText (.atLeast m) = '\x7b' :: ((numeral m ++ [',']) ++ ['\x7d']) := by
      simp [quantifierText]
    rw [htext]
    refine .braces (m := m) (n := intMax) ?_ ?_ fun refs item F hscan hspace =>
      alternate_atLeast hscan hspace hm
    · simp [brace_not_mem_numeral]
    · rw [parseTimes_two (comma_not_mem_numeral m) List.not_mem_nil, parseTimes,
        if_neg (numeral_ne_nil _), stoi_numeral hm, if_pos rfl]
      rfl
  | between m n =>
    have hn : n < 2 ^ 31 - 1 := hrange
    have hmn : m ≤ n := hop
    have htext : quantifierText (.between m n) =
        '\x7b' :: ((numeral m ++ ',' :: numeral n) ++ ['\x7d']) := by
      simp [quantifierText]
    rw [htext]
    refine .braces (m := m) (n := n) ?_ ?_ fun refs item F hscan hspace =>
      alternate_between hscan hspace hmn hn
    · simp [brace_not_mem_numeral]
    · rw [parseTimes_two (comma_not_mem_numeral m) (comma_not_mem_numeral n), parseTimes,
        if_neg (numeral_ne_nil _), stoi_numeral (by omega), if_neg (numeral_ne_nil _),
        stoi_numeral (by omega)]
      rfl

end IFairy.JsonSchema
