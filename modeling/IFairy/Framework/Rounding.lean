import Mathlib.Data.Int.Log
import Mathlib.Data.Rat.Floor
import Mathlib.Tactic.Positivity

/-!
# Rounding to a binary float

Rounding to an integer with ties to even, and from it to a float of `p` significant bits whose
smallest unit is `2 ^ emin`.  Rounding gives a number of that form (`isFloat_floatRound`), and a
number of that form rounds to itself (`floatRound_of_isFloat`), so that rounding twice is rounding
once.  The range of the exponent is not bounded above.
-/

namespace IFairy

/-! ## Integers -/

/-- The nearest integer, ties to even. -/
def roundEven (q : ℚ) : ℤ :=
  if q - ⌊q⌋ < 1 / 2 then ⌊q⌋
  else if 1 / 2 < q - ⌊q⌋ then ⌊q⌋ + 1
  else if ⌊q⌋ % 2 = 0 then ⌊q⌋ else ⌊q⌋ + 1

lemma roundEven_cases (q : ℚ) :
    (roundEven q = ⌊q⌋ ∧ q - ⌊q⌋ ≤ 1 / 2) ∨ (roundEven q = ⌊q⌋ + 1 ∧ 1 / 2 ≤ q - ⌊q⌋) := by
  unfold roundEven
  split_ifs with hlt hgt heven
  · exact .inl ⟨rfl, hlt.le⟩
  · exact .inr ⟨rfl, hgt.le⟩
  · exact .inl ⟨rfl, not_lt.mp hgt⟩
  · exact .inr ⟨rfl, not_lt.mp hlt⟩

lemma abs_roundEven_sub_le (q : ℚ) : |(roundEven q : ℚ) - q| ≤ 1 / 2 := by
  have hfloor := Int.floor_le q
  have hlt := Int.lt_floor_add_one q
  rw [abs_le]
  rcases roundEven_cases q with ⟨h, hle⟩ | ⟨h, hle⟩
  · rw [h]
    constructor <;> linarith
  · rw [h]
    push_cast
    constructor <;> linarith

lemma roundEven_nonneg_iff (q : ℚ) : 0 ≤ roundEven q ↔ -(1 / 2) ≤ q := by
  have habs := abs_le.mp (abs_roundEven_sub_le q)
  constructor
  · intro h
    have hcast : (0 : ℚ) ≤ roundEven q := by exact_mod_cast h
    linarith [habs.2]
  · intro h
    rcases h.eq_or_lt with rfl | h
    · have hfloor : ⌊-(1 / 2 : ℚ)⌋ = -1 := by
        rw [Int.floor_eq_iff]
        norm_num
      norm_num [roundEven, hfloor]
    · have hlow : (-1 : ℚ) < roundEven q := by linarith [habs.1]
      have hint : -1 < roundEven q := by exact_mod_cast hlow
      omega

lemma roundEven_intCast (n : ℤ) : roundEven n = n := by
  rw [roundEven, Int.floor_intCast, sub_self, if_pos (by norm_num)]

lemma roundEven_abs_le {q : ℚ} {n : ℤ} (h : |q| ≤ n) : |roundEven q| ≤ n := by
  have herror := abs_le.mp (abs_roundEven_sub_le q)
  obtain ⟨hlow, hhigh⟩ := abs_le.mp h
  have hlow' : (-n - 1 : ℚ) < roundEven q := by linarith [herror.1]
  have hhigh' : (roundEven q : ℚ) < n + 1 := by linarith [herror.2]
  have hlow'' : -n - 1 < roundEven q := by exact_mod_cast hlow'
  have hhigh'' : roundEven q < n + 1 := by exact_mod_cast hhigh'
  rw [abs_le]
  omega

/-! ## Floats -/

/-- The unit in the last place of a float of `p` bits next to `q`. -/
def ulp (p : ℕ) (emin : ℤ) (q : ℚ) : ℚ := 2 ^ max (Int.log 2 |q| + 1 - p) emin

/-- The nearest float of `p` bits, ties to even. -/
def floatRound (p : ℕ) (emin : ℤ) (q : ℚ) : ℚ := roundEven (q / ulp p emin q) * ulp p emin q

/-- A number of `p` bits times a power of two. -/
def IsFloat (p : ℕ) (emin : ℤ) (q : ℚ) : Prop :=
  ∃ n e : ℤ, |n| < 2 ^ p ∧ emin ≤ e ∧ q = n * 2 ^ e

variable {p : ℕ} {emin : ℤ} {q : ℚ}

lemma ulp_pos : 0 < ulp p emin q := zpow_pos (by norm_num) _

/-- A number is less than `2 ^ p` units. -/
lemma abs_lt_ulp : |q| < 2 ^ p * ulp p emin q := by
  have hlog : |q| < (2 : ℚ) ^ (Int.log 2 |q| + 1) := by
    exact_mod_cast Int.lt_zpow_succ_log_self (by norm_num) |q|
  calc |q| < (2 : ℚ) ^ (Int.log 2 |q| + 1) := hlog
    _ ≤ 2 ^ ((p : ℤ) + max (Int.log 2 |q| + 1 - p) emin) := by
      refine zpow_le_zpow_right₀ (by norm_num) ?_
      have := le_max_left (Int.log 2 |q| + 1 - p) emin
      omega
    _ = 2 ^ p * ulp p emin q := by
      rw [zpow_add₀ (by norm_num), zpow_natCast, ulp]

lemma isFloat_floatRound (hp : 0 < p) : IsFloat p emin (floatRound p emin q) := by
  have hscaled : |q / ulp p emin q| ≤ ((2 ^ p : ℤ) : ℚ) := by
    rw [abs_div, abs_of_pos ulp_pos, div_le_iff₀ ulp_pos]
    push_cast
    exact abs_lt_ulp.le
  have hbound := roundEven_abs_le hscaled
  set e := max (Int.log 2 |q| + 1 - p) emin with he
  rcases hbound.lt_or_eq with hlt | heq
  · exact ⟨_, e, hlt, le_max_right _ _, rfl⟩
  · -- the mantissa has been rounded up to `2 ^ p`
    obtain ⟨m, rfl⟩ : ∃ m, p = m + 1 := ⟨p - 1, by omega⟩
    have hstep : ∀ s : ℤ, s = 1 ∨ s = -1 → roundEven (q / ulp (m + 1) emin q) = s * 2 ^ (m + 1) →
        IsFloat (m + 1) emin (floatRound (m + 1) emin q) := by
      intro s hs h
      refine ⟨s * 2 ^ m, e + 1, ?_, le_add_of_le_of_nonneg (le_max_right _ _) (by norm_num), ?_⟩
      · have hone : |s| = 1 := by rcases hs with rfl | rfl <;> rfl
        rw [abs_mul, hone, one_mul, abs_of_pos (by positivity)]
        exact pow_lt_pow_right₀ (by norm_num) m.lt_succ_self
      · rw [floatRound, h, zpow_add₀ (by norm_num), zpow_one, ulp, ← he]
        push_cast
        ring
    rcases eq_or_eq_neg_of_abs_eq heq with h | h
    · exact hstep 1 (.inl rfl) (by rw [h, one_mul])
    · exact hstep (-1) (.inr rfl) (by rw [h, neg_one_mul])

lemma floatRound_of_isFloat (h : IsFloat p emin q) : floatRound p emin q = q := by
  obtain ⟨n, e, hn, he, hq⟩ := h
  rcases eq_or_ne q 0 with h0 | h0
  · rw [floatRound, h0, zero_div]
    have := roundEven_intCast 0
    rw [Int.cast_zero] at this
    rw [this, Int.cast_zero, zero_mul]
  -- the unit of `q` divides the one it is given with
  have hle : max (Int.log 2 |q| + 1 - p) emin ≤ e := by
    refine max_le ?_ he
    have hlt : |q| < (2 : ℚ) ^ ((p : ℤ) + e) := by
      have hunit : (0 : ℚ) < 2 ^ e := zpow_pos two_pos e
      rw [hq, abs_mul, abs_of_pos hunit, zpow_add₀ (by norm_num), zpow_natCast]
      have hn' : |(n : ℚ)| < 2 ^ p := by exact_mod_cast hn
      exact mul_lt_mul_of_pos_right hn' hunit
    have hlog := (Int.lt_zpow_iff_log_lt (by norm_num) (abs_pos.mpr h0)).mp
      (show |q| < ((2 : ℕ) : ℚ) ^ ((p : ℤ) + e) by exact_mod_cast hlt)
    omega
  obtain ⟨k, hk⟩ := Int.eq_ofNat_of_zero_le (sub_nonneg.mpr hle)
  have hunits : q = ((n * 2 ^ k : ℤ) : ℚ) * ulp p emin q := by
    have hsplit : e = k + max (Int.log 2 |q| + 1 - p) emin := by omega
    calc q = n * 2 ^ e := hq
      _ = n * (2 ^ (k : ℤ) * ulp p emin q) := by
        rw [ulp, ← zpow_add₀ (by norm_num), ← hsplit]
      _ = ((n * 2 ^ k : ℤ) : ℚ) * ulp p emin q := by
        push_cast
        rw [zpow_natCast]
        ring
  have hdiv : q / ulp p emin q = ((n * 2 ^ k : ℤ) : ℚ) := by
    rw [div_eq_iff ulp_pos.ne']
    exact hunits
  rw [floatRound, hdiv, roundEven_intCast]
  exact hunits.symm

lemma floatRound_floatRound (hp : 0 < p) :
    floatRound p emin (floatRound p emin q) = floatRound p emin q :=
  floatRound_of_isFloat (isFloat_floatRound hp)

lemma floatRound_zero : floatRound p emin 0 = 0 :=
  floatRound_of_isFloat ⟨0, emin, by simp, le_rfl, by simp⟩

lemma floatRound_nonneg (h : 0 ≤ q) : 0 ≤ floatRound p emin q := by
  have hscaled : -(1 / 2) ≤ q / ulp p emin q := by
    have := div_nonneg h (show 0 < ulp p emin q from ulp_pos).le
    linarith
  have hround : (0 : ℚ) ≤ roundEven (q / ulp p emin q) := by
    exact_mod_cast (roundEven_nonneg_iff _).mpr hscaled
  exact mul_nonneg hround ulp_pos.le

lemma abs_floatRound_le {s : ℚ} (hs : IsFloat p emin s) (h : |q| ≤ s) :
    |floatRound p emin q| ≤ s := by
  rcases eq_or_ne q 0 with rfl | h0
  · rw [floatRound_zero, abs_zero]
    exact (abs_nonneg _).trans h
  have hpos : 0 < |q| := abs_pos.mpr h0
  have hlog : Int.log 2 |q| ≤ Int.log 2 |s| := Int.log_mono_right hpos (h.trans (le_abs_self s))
  have hle : max (Int.log 2 |q| + 1 - p) emin ≤ max (Int.log 2 |s| + 1 - p) emin := by omega
  obtain ⟨k, hk⟩ := Int.eq_ofNat_of_zero_le (sub_nonneg.mpr hle)
  have hunits : s = ((roundEven (s / ulp p emin s) * 2 ^ k : ℤ) : ℚ) * ulp p emin q := by
    have hsplit : max (Int.log 2 |s| + 1 - p) emin = k + max (Int.log 2 |q| + 1 - p) emin := by omega
    calc s = roundEven (s / ulp p emin s) * ulp p emin s := (floatRound_of_isFloat hs).symm
      _ = roundEven (s / ulp p emin s) * (2 ^ (k : ℤ) * ulp p emin q) := by
        rw [ulp, ulp, ← zpow_add₀ (by norm_num), ← hsplit]
      _ = ((roundEven (s / ulp p emin s) * 2 ^ k : ℤ) : ℚ) * ulp p emin q := by
        push_cast
        rw [zpow_natCast]
        ring
  have hunit : 0 < ulp p emin q := ulp_pos
  have hscaled : |q / ulp p emin q| ≤ ((roundEven (s / ulp p emin s) * 2 ^ k : ℤ) : ℚ) := by
    rw [abs_div, abs_of_pos hunit, div_le_iff₀ hunit, ← hunits]
    exact h
  have hround : |(roundEven (q / ulp p emin q) : ℚ)| ≤
      ((roundEven (s / ulp p emin s) * 2 ^ k : ℤ) : ℚ) := by
    exact_mod_cast roundEven_abs_le hscaled
  rw [floatRound, abs_mul, abs_of_pos hunit]
  calc |(roundEven (q / ulp p emin q) : ℚ)| * ulp p emin q ≤ _ * ulp p emin q := by gcongr
    _ = s := hunits.symm

end IFairy
