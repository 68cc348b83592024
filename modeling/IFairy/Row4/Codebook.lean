import IFairy.Row4.Layout
import Mathlib.Data.Real.Basic
import Mathlib.Tactic.IntervalCases

/-!
# The Row4 code as a nearest codeword

Read as complex numbers `u` and `v`, the two axis codes of a group stand for the codeword
`(u.re + v.re, -u.im + v.im, u.im + v.im, u.re - v.re)`.  The quantiser chooses `u` and `v` apart,
from half-sums and half-differences of the four weights.  In exact arithmetic the choice has the
largest inner product with the weights among all sixteen codewords (`row4Code_best`), and of the
codewords that reach it the one that `axisRank` puts first: imaginary before real, then positive
before negative.  A scaled codeword is read back as its code (`row4Code_decoded`).
-/

namespace IFairy

open NdArray

/-- The operations of the quantiser in exact arithmetic. -/
def exactF32 (F : Type*) [Field F] [LinearOrder F] : F32Ops F where
  add := (· + ·)
  sub := (· - ·)
  mul := (· * ·)
  half := 1 / 2
  zero := 0
  abs := fun x => |x|
  lt a b := decide (a < b)
  isFinite _ := true

/-! ## Axes -/

/-- The real and the imaginary part of the unit that an axis code stands for. -/
def axisRe (q : ℕ) : ℤ := if q = 0 then 1 else if q = 1 then -1 else 0

def axisIm (q : ℕ) : ℤ := if q = 2 then 1 else if q = 3 then -1 else 0

/-- The order in which axis codes are chosen when they serve equally well. -/
def axisRank (q : ℕ) : ℕ := (q + 2) % 4

lemma decodeRow4Code_toInt {n : ℕ} (hn : n < 16) :
    (decodeRow4Code (UInt8.ofNat n) 0).toInt = axisRe (n % 4) + axisRe (n / 4) ∧
    (decodeRow4Code (UInt8.ofNat n) 1).toInt = -axisIm (n % 4) + axisIm (n / 4) ∧
    (decodeRow4Code (UInt8.ofNat n) 2).toInt = axisIm (n % 4) + axisIm (n / 4) ∧
    (decodeRow4Code (UInt8.ofNat n) 3).toInt = axisRe (n % 4) - axisRe (n / 4) := by
  interval_cases n <;> decide

lemma row4Code_toNat {F : Type*} (ops : F32Ops F) (a b c d : F) :
    (row4Code ops a b c d).toNat =
      (axisCode ops (ops.mul ops.half (ops.add a d)) (ops.mul ops.half (ops.sub c b))).toNat +
        4 * (axisCode ops (ops.mul ops.half (ops.sub a d))
          (ops.mul ops.half (ops.add b c))).toNat := by
  have hpack : ∀ u v : Fin 4, (UInt8.ofNat u ||| (UInt8.ofNat v <<< 2)).toNat = u + 4 * v := by
    decide
  rw [row4Code]
  set u := axisCode ops (ops.mul ops.half (ops.add a d)) (ops.mul ops.half (ops.sub c b)) with hu
  set v := axisCode ops (ops.mul ops.half (ops.sub a d)) (ops.mul ops.half (ops.add b c)) with hv
  have hcode := hpack ⟨u.toNat, axisCode_toNat_lt ops _ _⟩ ⟨v.toNat, axisCode_toNat_lt ops _ _⟩
  simpa only [UInt8.ofNat_toNat] using hcode

section Exact

variable {F : Type*} [Field F]

/-- The inner product of an axis with a pair. -/
def axisDot (q : ℕ) (re im : F) : F := (axisRe q : F) * re + (axisIm q : F) * im

/-- The inner product of a codeword with four weights. -/
def codeDot (code : UInt8) (a b c d : F) : F :=
  ((decodeRow4Code code 0).toInt : F) * a + ((decodeRow4Code code 1).toInt : F) * b +
    ((decodeRow4Code code 2).toInt : F) * c + ((decodeRow4Code code 3).toInt : F) * d

lemma codeDot_eq {n : ℕ} (hn : n < 16) (a b c d : F) :
    codeDot (UInt8.ofNat n) a b c d =
      axisDot (n % 4) (a + d) (c - b) + axisDot (n / 4) (a - d) (b + c) := by
  obtain ⟨h0, h1, h2, h3⟩ := decodeRow4Code_toInt hn
  rw [codeDot, h0, h1, h2, h3, axisDot, axisDot]
  push_cast
  ring

variable [LinearOrder F]

lemma axisCode_exact (re im : F) :
    (axisCode (exactF32 F) re im).toNat =
      if |im| < |re| then (if re < 0 then 1 else 0) else (if im < 0 then 3 else 2) := by
  simp only [axisCode, exactF32, decide_eq_true_eq]
  split_ifs <;> rfl

variable [IsStrictOrderedRing F]

lemma axisCode_best (re im : F) {q : ℕ} (hq : q < 4) :
    axisDot q re im ≤ axisDot (axisCode (exactF32 F) re im).toNat re im ∧
      (axisDot q re im = axisDot (axisCode (exactF32 F) re im).toNat re im →
        axisRank (axisCode (exactF32 F) re im).toNat ≤ axisRank q) := by
  have hre := abs_cases re
  have him := abs_cases im
  rw [axisCode_exact]
  split_ifs with haxis hsign hsign
  all_goals
    interval_cases q <;> simp only [axisDot, axisRe, axisIm, axisRank] <;> norm_num <;>
    first
      | (constructor <;> grind)
      | grind

lemma axisCode_axis {q : ℕ} (hq : q < 4) {s : F} (hs : 0 < s) :
    (axisCode (exactF32 F) (s * axisRe q) (s * axisIm q)).toNat = q := by
  have hneg : ¬ 0 < -s := by linarith
  rw [axisCode_exact]
  interval_cases q <;> simp [axisRe, axisIm, hs, abs_of_pos, not_lt.mpr hs.le]

/-- No codeword has a larger inner product with the four weights than the one chosen; of those
with the same product the chosen axes come first. -/
lemma row4Code_best (a b c d : F) {code : UInt8} (hcode : code.toNat < 16) :
    let chosen := row4Code (exactF32 F) a b c d
    codeDot code a b c d ≤ codeDot chosen a b c d ∧
      (codeDot code a b c d = codeDot chosen a b c d →
        axisRank (chosen.toNat % 4) ≤ axisRank (code.toNat % 4) ∧
          axisRank (chosen.toNat / 4) ≤ axisRank (code.toNat / 4)) := by
  intro chosen
  set u := axisCode (exactF32 F) (1 / 2 * (a + d)) (1 / 2 * (c - b)) with hu
  set v := axisCode (exactF32 F) (1 / 2 * (a - d)) (1 / 2 * (b + c)) with hv
  have hu4 : u.toNat < 4 := axisCode_toNat_lt _ _ _
  have hchosen : chosen.toNat = u.toNat + 4 * v.toNat := row4Code_toNat _ _ _ _ _
  have hmod : chosen.toNat % 4 = u.toNat := by omega
  have hdiv : chosen.toNat / 4 = v.toNat := by omega
  -- twice the product with the halves, for either code
  have hdot : ∀ {code : UInt8}, code.toNat < 16 → codeDot code a b c d =
      2 * axisDot (code.toNat % 4) (1 / 2 * (a + d)) (1 / 2 * (c - b)) +
        2 * axisDot (code.toNat / 4) (1 / 2 * (a - d)) (1 / 2 * (b + c)) := fun {code} hcode => by
    have h := codeDot_eq hcode a b c d
    rw [UInt8.ofNat_toNat] at h
    rw [h]
    simp only [axisDot]
    ring
  obtain ⟨hule, hueq⟩ := axisCode_best (1 / 2 * (a + d)) (1 / 2 * (c - b))
    (show code.toNat % 4 < 4 by omega)
  obtain ⟨hvle, hveq⟩ := axisCode_best (1 / 2 * (a - d)) (1 / 2 * (b + c))
    (show code.toNat / 4 < 4 by omega)
  rw [hdot hcode, hdot (row4Code_toNat_lt _ a b c d), hmod, hdiv]
  refine ⟨by linarith, fun heq => ⟨hueq (by linarith), hveq (by linarith)⟩⟩

lemma row4Code_decoded {code : UInt8} (hcode : code.toNat < 16) {s : F} (hs : 0 < s) :
    row4Code (exactF32 F) (s * (decodeRow4Code code 0).toInt) (s * (decodeRow4Code code 1).toInt)
      (s * (decodeRow4Code code 2).toInt) (s * (decodeRow4Code code 3).toInt) = code := by
  obtain ⟨h0, h1, h2, h3⟩ := decodeRow4Code_toInt hcode
  rw [UInt8.ofNat_toNat] at h0 h1 h2 h3
  have hu := axisCode_axis (show code.toNat % 4 < 4 by omega) hs
  have hv := axisCode_axis (show code.toNat / 4 < 4 by omega) hs
  apply UInt8.toNat_inj.mp
  rw [row4Code_toNat, h0, h1, h2, h3]
  simp only [exactF32] at hu hv ⊢
  push_cast
  ring_nf at hu hv ⊢
  rw [hu, hv]
  omega

end Exact

/-! ## Matrices -/

section Matrices

variable {F : Type*} [Field F] [LinearOrder F]

lemma quantizeRow4Codes_exact {weight : NdArray F} {groups inFeatures : ℕ}
    (hshape : weight.shape = [groups * 4, inFeatures]) (hgroups : 0 < groups) :
    ∃ codes, quantizeRow4Codes (exactF32 F) weight = .ok codes ∧
      codes.shape = [groups, inFeatures] ∧
      ∀ group < groups, ∀ col < inFeatures, codes.get [group, col] =
        row4Code (exactF32 F) (weight.get [group * 4, col]) (weight.get [group * 4 + 1, col])
          (weight.get [group * 4 + 2, col]) (weight.get [group * 4 + 3, col]) := by
  have hfinite : weight.any (fun w => !(exactF32 F).isFinite w) = false := by
    simp [NdArray.any, exactF32]
  have hok : quantizeRow4Codes (exactF32 F) weight =
      .ok (ofFn [groups * 4 / 4, inFeatures] fun idx =>
        let row := fun index => (weight.reshape [groups * 4 / 4, 4, inFeatures]).get
          [idx.getD 0 0, index, idx.getD 1 0]
        row4Code (exactF32 F) (row 0) (row 1) (row 2) (row 3)) := by
    rw [quantizeRow4Codes, hshape]
    simp only [Nat.mul_mod_left, hfinite]
    rw [if_neg (by simp), if_neg (by simp), if_neg (by omega)]
  refine ⟨_, hok, by simp, fun group hgroup col hcol => ?_⟩
  have hrow : ∀ index, (weight.reshape [groups * 4 / 4, 4, inFeatures]).get
      [group, index, col] = weight.get [group * 4 + index, col] := fun index => by
    refine get_reshape weight _ ?_
    rw [hshape]
    simp
    ring
  rw [get_ofFn _ (by simp [hgroup, hcol])]
  simp only [List.getD_cons_zero, List.getD_cons_succ]
  rw [hrow, hrow, hrow, hrow, Nat.add_zero]

/-- The decoded rows of a code matrix, scaled and laid one below the other. -/
def rescaled (s : F) (decoded : NdArray Int8) (groups inFeatures : ℕ) : NdArray F :=
  (decoded.map fun v => s * (v.toInt : F)).reshape [groups * 4, inFeatures]

lemma decodeRow4Codes_ok {codes : NdArray UInt8} {decoded : NdArray Int8} {groups inFeatures : ℕ}
    (hshape : codes.shape = [groups, inFeatures]) (hdecode : decodeRow4Codes codes = .ok decoded) :
    decoded.shape = [groups, 4, inFeatures] ∧
      ∀ g < groups, ∀ col < inFeatures, (codes.get [g, col]).toNat < 16 ∧
        ∀ ch < 4, decoded.get [g, ch, col] = decodeRow4Code (codes.get [g, col]) ch := by
  unfold decodeRow4Codes at hdecode
  split_ifs at hdecode with hany
  obtain rfl := Except.ok.inj hdecode
  refine ⟨by simp [hshape], fun g hg col hcol => ⟨?_, fun ch hch => ?_⟩⟩
  · have hle := not_of_any_eq_false (eq_false_of_ne_true hany) [g, col] (by simp [hshape, hg, hcol])
    simp only [decide_eq_false_iff_not, UInt8.lt_iff_toNat_lt, not_lt, UInt8.reduceToNat] at hle
    omega
  · rw [get_ofFn _ (by simp [hshape, hg, hch, hcol])]
    simp [hshape]

omit [LinearOrder F] in
lemma rescaled_get (s : F) {decoded : NdArray Int8} {groups inFeatures g ch col : ℕ}
    (hshape : decoded.shape = [groups, 4, inFeatures]) :
    (rescaled s decoded groups inFeatures).get [g * 4 + ch, col] =
      s * ((decoded.get [g, ch, col]).toInt : F) := by
  rw [rescaled, get_reshape _ [g, ch, col] (by simp [hshape]; ring), get_map]

/-- A code that no codeword beats: none has a larger inner product with the four weights, and of
those with the same one its axes come first. -/
def BestCode (code : UInt8) (a b c d : F) : Prop :=
  code.toNat < 16 ∧ ∀ other : UInt8, other.toNat < 16 →
    codeDot other a b c d ≤ codeDot code a b c d ∧
      (codeDot other a b c d = codeDot code a b c d →
        axisRank (code.toNat % 4) ≤ axisRank (other.toNat % 4) ∧
          axisRank (code.toNat / 4) ≤ axisRank (other.toNat / 4))

end Matrices

/-- A real matrix of at least one group gets the best code of every group and column, and a scaled
code matrix is read back. -/
theorem quantizeRow4Codes_best_and_reads_back :
    (∀ (weight : NdArray ℝ) (groups inFeatures : ℕ), weight.shape = [groups * 4, inFeatures] →
      0 < groups → ∃ codes, quantizeRow4Codes (exactF32 ℝ) weight = .ok codes ∧
        codes.shape = [groups, inFeatures] ∧
        ∀ group < groups, ∀ col < inFeatures, BestCode (codes.get [group, col])
          (weight.get [group * 4, col]) (weight.get [group * 4 + 1, col])
          (weight.get [group * 4 + 2, col]) (weight.get [group * 4 + 3, col])) ∧
    (∀ (codes : NdArray UInt8) (decoded : NdArray Int8) (groups inFeatures : ℕ) (s : ℝ),
      codes.shape = [groups, inFeatures] → 0 < groups → decodeRow4Codes codes = .ok decoded →
      0 < s → ∃ codes', quantizeRow4Codes (exactF32 ℝ) (rescaled s decoded groups inFeatures) =
          .ok codes' ∧ codes'.shape = codes.shape ∧
        ∀ group < groups, ∀ col < inFeatures, codes'.get [group, col] = codes.get [group, col]) := by
  constructor
  · intro weight groups inFeatures hshape hgroups
    obtain ⟨codes, hok, hcodes, hget⟩ := quantizeRow4Codes_exact hshape hgroups
    refine ⟨codes, hok, hcodes, fun group hgroup col hcol => ?_⟩
    rw [hget group hgroup col hcol]
    exact ⟨row4Code_toNat_lt _ _ _ _ _, fun other hother => row4Code_best _ _ _ _ hother⟩
  · intro codes decoded groups inFeatures s hshape hgroups hdecode hs
    obtain ⟨hdecoded, hentry⟩ := decodeRow4Codes_ok hshape hdecode
    have hweight : (rescaled s decoded groups inFeatures).shape = [groups * 4, inFeatures] := rfl
    obtain ⟨codes', hok, hcodes', hget⟩ := quantizeRow4Codes_exact hweight hgroups
    refine ⟨codes', hok, hcodes'.trans hshape.symm, fun group hgroup col hcol => ?_⟩
    obtain ⟨hlt, hrows⟩ := hentry group hgroup col hcol
    have hrow : ∀ ch < 4, (rescaled s decoded groups inFeatures).get [group * 4 + ch, col] =
        s * (decodeRow4Code (codes.get [group, col]) ch).toInt := fun ch hch => by
      rw [rescaled_get s hdecoded, hrows ch hch]
    rw [hget group hgroup col hcol, ← Nat.add_zero (group * 4), hrow 0 (by omega),
      Nat.add_zero, hrow 1 (by omega), hrow 2 (by omega), hrow 3 (by omega)]
    exact row4Code_decoded hlt hs

/-- The code matrix without rows is not read back: the reshape of no rows is an error. -/
theorem not_reads_back_empty :
    ¬ ∀ (codes : NdArray UInt8) (decoded : NdArray Int8) (groups inFeatures : ℕ) (s : ℝ),
      codes.shape = [groups, inFeatures] → decodeRow4Codes codes = .ok decoded → 0 < s →
      ∃ codes', quantizeRow4Codes (exactF32 ℝ) (rescaled s decoded groups inFeatures) =
        .ok codes' := by
  intro h
  obtain ⟨codes', hok⟩ := h ⟨[0, 1], fun _ => 0⟩ _ 0 1 1 rfl rfl one_pos
  simp [quantizeRow4Codes, rescaled, NdArray.any] at hok

end IFairy
