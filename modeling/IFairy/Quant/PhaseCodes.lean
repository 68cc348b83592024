import IFairy.Quant.ConvertedBytes

/-!
# When the converted codes are the directions of the weights

The converter divides by the mean magnitude of the weights of each axis.  A matrix without a weight of
one axis has no such mean: `torch` returns NaN, the clamp keeps it, and the division spreads it over
the whole matrix, where the last bit of the merged floats and the comparisons of `quantize_blocks`
lose every direction.  The same happens when a mean overflows.  Otherwise every weight has one
direction, the C reader returns its code, and the scales are those of the block (`converts_iff`).
-/

namespace IFairy

def singleInf : UInt32 := 0x7f800000

/-- `torch.clamp(m, min=1e-5)` of a magnitude. -/
def clampMin (m : UInt32) : UInt32 :=
  if singleIsNaN m then m else if m.toNat < 0x3727c5ac then 0x3727c5ac else m

/-- IEEE arithmetic at the edges: what the library functions do with NaN, zero and infinity.  `mean l`
is `l.abs().mean()`.  `1 / (1 / m)` overflows for the last three singles only. -/
structure TorchIeee (t : Torch) (mean : List UInt32 → UInt32) : Prop extends TorchLaws t where
  angle_num : ∀ a b, ¬ singleIsNaN (t.angle a b) → ¬ singleIsNaN a ∧ ¬ singleIsNaN b
  mean_nil : singleIsNaN (mean [])
  mean_num : ∀ l, l ≠ [] → (∀ a ∈ l, ¬ singleIsNaN a) → (mean l).toNat ≤ 0x7f800000
  scale_eq : ∀ l, t.scale l = t.div singleOne (clampMin (mean l))
  div_nan : ∀ a s, singleIsNaN s → singleIsNaN (t.div a s)
  div_zero_zero : singleIsNaN (t.div 0 0)
  div_one_zero : t.div singleOne 0 = singleInf
  div_negOne_zero : t.div singleNegOne 0 = singleNeg singleInf
  div_one_inf : t.div singleOne singleInf = 0
  div_one_finite : ∀ m : UInt32, 0x3727c5ac ≤ m.toNat → m.toNat < 0x7f800000 →
    PosFinite (t.div singleOne m)
  recip_recip : ∀ m : UInt32, 0x3727c5ac ≤ m.toNat → m.toNat < 0x7f800000 →
    0x37000000 ≤ (t.div singleOne (t.div singleOne m)).toNat ∧
      (t.div singleOne (t.div singleOne m)).toNat ≤ 0x7f800000 ∧
      ((t.div singleOne (t.div singleOne m)).toNat < 0x7f800000 ↔ m.toNat ≤ 0x7f7ffffc)
  add_nan : ∀ a b, singleIsNaN a ∨ singleIsNaN b → singleIsNaN (t.add a b)
  toHalf_inf : t.toHalf singleInf ≠ 0

/-! ## What is claimed, and when it holds -/

/-- The real scale of a block: the magnitude of its real weights, or zero when it has none. -/
def blockRealScale (t : Torch) (W : ComplexMatrix) (r b : ℕ) : UInt32 :=
  if (List.range 256).any fun j => isReal t W r (256 * b + j) then clearLast (realUnit t W) else 0

/-- The imaginary scale of a block. -/
def blockImagScale (t : Torch) (W : ComplexMatrix) (r b : ℕ) : UInt32 :=
  if (List.range 256).any fun j => isImag t W r (256 * b + j) then clearLast (imagUnit t W) ||| 1
  else 0

/-- Every weight has one direction, the C reader returns its code, every block has its scales, and the
repacking loses nothing. -/
structure Converts (t : Torch) (W : ComplexMatrix) : Prop where
  direction : ∀ r < W.rows, ∀ c < W.cols, ∃! d : Direction, d.mask t W r c = true
  code : ∀ r < W.rows, ∀ c < W.cols, ∀ d : Direction, d.mask t W r c = true →
    readCode (rowBlocks (convertedBlocks t W) (W.cols / 256) r) c = d.code
  scales : ∀ r < W.rows, ∀ b < W.cols / 256,
    (rowBlocks (convertedBlocks t W) (W.cols / 256) r b).dReal = t.toHalf (blockRealScale t W r b) ∧
      (rowBlocks (convertedBlocks t W) (W.cols / 256) r b).dImag = t.toHalf (blockImagScale t W r b)
  repack : ∀ m, Function.Bijective (repackIfairyBlocks : (Fin m → UInt8) → Fin m → UInt8)

/-- The matrix has weights of both axes, all of them with a phase, and their mean magnitudes do not
overflow; for the imaginary axis, neither does the reciprocal of the reciprocal. -/
structure Convertible (t : Torch) (mean : List UInt32 → UInt32) (W : ComplexMatrix) : Prop where
  phase : ∀ r < W.rows, ∀ c < W.cols, ¬ singleIsNaN (phase t W r c)
  exists_real : ∃ r < W.rows, ∃ c < W.cols, isReal t W r c
  exists_imag : ∃ r < W.rows, ∃ c < W.cols, isImag t W r c
  real_mean : (mean (select W (isReal t W) W.re)).toNat < 0x7f800000
  imag_mean : (mean (select W (isImag t W) W.im)).toNat ≤ 0x7f7ffffc

section Axis

variable {t : Torch} {mean : List UInt32 → UInt32} (laws : TorchIeee t mean) {l : List UInt32}

lemma clampMin_of_finite {m : UInt32} (h : m.toNat < 0x7f800000) :
    0x3727c5ac ≤ (clampMin m).toNat ∧ (clampMin m).toNat < 0x7f800000 ∧
      ((clampMin m).toNat ≤ 0x7f7ffffc ↔ m.toNat ≤ 0x7f7ffffc) := by
  have hnum : ¬ singleIsNaN m := by
    rw [singleIsNaN_iff]
    omega
  have hmin : (0x3727c5ac : UInt32).toNat = 0x3727c5ac := rfl
  unfold clampMin
  rw [if_neg hnum]
  split
  · rw [hmin]
    omega
  · omega

lemma clampMin_inf : clampMin singleInf = singleInf := rfl

include laws

lemma scale_of_finite (h : (mean l).toNat < 0x7f800000) :
    PosFinite (t.scale l) ∧ 0x37000000 ≤ (t.div singleOne (t.scale l)).toNat ∧
      (t.div singleOne (t.scale l)).toNat ≤ 0x7f800000 ∧
      ((t.div singleOne (t.scale l)).toNat < 0x7f800000 ↔ (mean l).toNat ≤ 0x7f7ffffc) := by
  obtain ⟨hlow, hhigh, hle⟩ := clampMin_of_finite h
  rw [laws.scale_eq, ← hle]
  exact ⟨laws.div_one_finite _ hlow hhigh, laws.recip_recip _ hlow hhigh⟩

lemma scale_of_inf (h : (mean l).toNat = 0x7f800000) : t.scale l = 0 := by
  have hinf : mean l = singleInf := UInt32.toNat_inj.1 h
  rw [laws.scale_eq, hinf, clampMin_inf, laws.div_one_inf]

lemma scale_nil : singleIsNaN (t.scale []) := by
  rw [laws.scale_eq]
  refine laws.div_nan _ _ ?_
  unfold clampMin
  rw [if_pos laws.mean_nil]
  exact laws.mean_nil

lemma unit_of_num (h : (mean l).toNat ≤ 0x7f800000) :
    0x37000000 ≤ (t.div singleOne (t.scale l)).toNat ∧
      (t.div singleOne (t.scale l)).toNat ≤ 0x7f800000 ∧
      t.div singleNegOne (t.scale l) = singleNeg (t.div singleOne (t.scale l)) := by
  rcases Nat.lt_or_ge (mean l).toNat 0x7f800000 with hfin | hinf
  · obtain ⟨hscale, hlow, hhigh, -⟩ := scale_of_finite laws hfin
    exact ⟨hlow, hhigh, laws.div_negOne _ hscale⟩
  · rw [scale_of_inf laws (Nat.le_antisymm h hinf), laws.div_one_zero, laws.div_negOne_zero]
    exact ⟨of_decide_eq_true rfl, le_rfl, rfl⟩

end Axis

section Matrix

variable {t : Torch} {mean : List UInt32 → UInt32} (laws : TorchIeee t mean) {W : ComplexMatrix}
  {r c : ℕ}

/-! ## The condition is enough -/

lemma Convertible.unitsFit (h : Convertible t mean W) (laws : TorchIeee t mean) : UnitsFit t W := by
  obtain ⟨hre, hlow, hhigh, -⟩ := scale_of_finite laws h.real_mean
  have him := h.imag_mean
  have hlt : (mean (select W (isImag t W) W.im)).toNat < 0x7f800000 := by omega
  obtain ⟨him', hlow', -, hfin⟩ := scale_of_finite laws hlt
  exact ⟨h.phase, hre, him', ⟨hlow, hhigh⟩, hlow', hfin.2 him⟩

lemma any_range_iff {p : ℕ → Bool} {n : ℕ} : (List.range n).any p = true ↔ ∃ j < n, p j := by
  simp only [List.any_eq_true, List.mem_range]

lemma UnitsFit.converts (h : UnitsFit t W) (laws : TorchLaws t) (hcols : 256 ∣ W.cols) :
    Converts t W where
  direction r hr c hc := Direction.existsUnique_mask (h.phase r hr c hc)
  code r hr c hc d hd := by
    rw [readCode_converted hcols hr hc]
    exact (merged_seen laws h hr hc hd).code
  scales r hr b hb := by
    have hsame := convertedBlocks_same t hr hb
    have hblock : 256 * b + 256 ≤ W.cols := by omega
    have hre := emittedRow_dReal laws h hr hblock
    have him := emittedRow_dImag laws h hr hblock
    refine ⟨hsame.dReal.trans ?_, hsame.dImag.trans ?_⟩
    · unfold blockRealScale
      by_cases hany : ∃ j < 256, isReal t W r (256 * b + j)
      · rw [hre.1 hany, if_pos (any_range_iff.2 hany)]
      · rw [hre.2 hany, if_neg fun hp => hany (any_range_iff.1 hp), laws.toHalf_zero]
    · unfold blockImagScale
      by_cases hany : ∃ j < 256, isImag t W r (256 * b + j)
      · rw [him.1 hany, if_pos (any_range_iff.2 hany)]
      · rw [him.2 hany, if_neg fun hp => hany (any_range_iff.1 hp), laws.toHalf_zero]
  repack := repackIfairyBlocks_bijective

/-! ## The condition is necessary -/

lemma Direction.mask_of_nan (h : singleIsNaN (phase t W r c)) (d : Direction) :
    d.mask t W r c = false := by
  cases d <;> simp [mask, realPos, realNeg, imagPos, imagNeg, singleLe, singleLt, h]

lemma Converts.phase_num (h : Converts t W) (hr : r < W.rows) (hc : c < W.cols) :
    ¬ singleIsNaN (phase t W r c) := fun hnan => by
  obtain ⟨d, hd, -⟩ := h.direction r hr c hc
  have hmask := Direction.mask_of_nan hnan d
  simp only [hmask, Bool.false_eq_true] at hd

lemma blockCode_nan {e : UInt32} (h : singleIsNaN e) (hmask : realMask e = false) :
    blockCode e = 0 := by
  simp [blockCode, hmask, singleLe, singleLt, h]

lemma flagged_nan {q : UInt32} (h : 0x7f800000 ≤ q.toNat % 2 ^ 31) :
    singleIsNaN (clearLast q ||| 1) ∧ realMask (clearLast q ||| 1) = false := by
  have hset := clearLast_or_one_toNat q
  constructor
  · rw [singleIsNaN_iff]
    omega
  · rw [← Bool.not_eq_true, realMask_iff]
    omega

lemma select_eq_nil {mask : ℕ → ℕ → Bool} {entry : ℕ → ℕ → UInt32}
    (hnone : ¬ ∃ r < W.rows, ∃ c < W.cols, mask r c) : select W mask entry = [] := by
  unfold select
  refine List.flatMap_eq_nil_iff.2 fun r hr => ?_
  rw [List.map_eq_nil_iff, List.filter_eq_nil_iff]
  exact fun c hc hmask => hnone ⟨r, List.mem_range.1 hr, c, List.mem_range.1 hc, hmask⟩

lemma select_num (h : ∀ r < W.rows, ∀ c < W.cols, ¬ singleIsNaN (phase t W r c))
    (laws : TorchIeee t mean) (mask : ℕ → ℕ → Bool) :
    (∀ a ∈ select W mask W.re, ¬ singleIsNaN a) ∧ ∀ a ∈ select W mask W.im, ¬ singleIsNaN a := by
  have hnum : ∀ entry : ℕ → ℕ → UInt32,
      (∀ r < W.rows, ∀ c < W.cols, ¬ singleIsNaN (entry r c)) →
        ∀ a ∈ select W mask entry, ¬ singleIsNaN a := by
    intro entry hentry a ha
    obtain ⟨r, hr, ha⟩ := List.mem_flatMap.1 ha
    obtain ⟨c, hc, rfl⟩ := List.mem_map.1 ha
    exact hentry r (List.mem_range.1 hr) c (List.mem_range.1 (List.mem_filter.1 hc).1)
  exact ⟨hnum W.re fun r hr c hc => (laws.angle_num _ _ (h r hr c hc)).1,
    hnum W.im fun r hr c hc => (laws.angle_num _ _ (h r hr c hc)).2⟩

lemma Converts.isReal_or_isImag (h : Converts t W) (hr : r < W.rows) (hc : c < W.cols) :
    isReal t W r c = true ∨ isImag t W r c = true := by
  obtain ⟨d, hd, -⟩ := h.direction r hr c hc
  obtain ⟨hre, him⟩ := Direction.isReal_eq (h.phase_num hr hc) hd
  rw [hre, him]
  cases d.onReal with
  | true => exact .inl rfl
  | false => exact .inr rfl

lemma Converts.not_lost (h : Converts t W) (hcols : 256 ∣ W.cols) (hr : r < W.rows)
    (hc : c < W.cols) (him : isImag t W r c) :
    ¬ (singleIsNaN (merged t W r c) ∧ realMask (merged t W r c) = false) := by
  rintro ⟨hnan, hmask⟩
  obtain ⟨d, hd, -⟩ := h.direction r hr c hc
  have haxis := (Direction.isReal_eq (h.phase_num hr hc) hd).2
  have hcode := h.code r hr c hc d hd
  rw [readCode_converted hcols hr hc, blockCode_nan hnan hmask] at hcode
  rw [him] at haxis
  cases d with
  | negReal => exact absurd haxis (by decide)
  | posReal => exact absurd haxis (by decide)
  | negImag => exact absurd hcode (by decide)
  | posImag => exact absurd hcode (by decide)

lemma parts_of_isImag (laws : TorchIeee t mean)
    (hphase : ∀ r < W.rows, ∀ c < W.cols, ¬ singleIsNaN (phase t W r c)) (hr : r < W.rows)
    (hc : c < W.cols) (him : isImag t W r c) :
    qwReal t W r c = t.div 0 (realScale t W) ∧ Proper (qwImag t W r c) ∧
      singleAbs (qwImag t W r c) = imagUnit t W := by
  have hlist := select_ne_nil W.im ⟨r, hr, c, hc, him⟩
  obtain ⟨hlow, hhigh, hneg⟩ := unit_of_num laws
    (laws.mean_num _ hlist (select_num hphase laws (isImag t W)).2)
  change 0x37000000 ≤ (imagUnit t W).toNat at hlow
  change (imagUnit t W).toNat ≤ 0x7f800000 at hhigh
  change t.div singleNegOne (imagScale t W) = singleNeg (imagUnit t W) at hneg
  obtain ⟨hpos, hpos'⟩ := proper_of_pos (show 0 < (imagUnit t W).toNat by omega) hhigh
  have habs : singleAbs (imagUnit t W) = imagUnit t W := by
    rw [← UInt32.toNat_inj, singleAbs_toNat]
    omega
  have habs' : singleAbs (singleNeg (imagUnit t W)) = imagUnit t W := by
    have htoNat := singleNeg_toNat (show (imagUnit t W).toNat < 2 ^ 31 by omega)
    rw [← UInt32.toNat_inj, singleAbs_toNat]
    omega
  rcases phase_sector (hphase r hr c hc) with ⟨-, -, hip, hin⟩ | ⟨-, -, hip, hin⟩ |
    ⟨hrp, hrn, hip, hin⟩ | ⟨hrp, hrn, hip, hin⟩
  · simp [isImag, hip, hin] at him
  · simp [isImag, hip, hin] at him
  · have hq : qwImag t W r c = imagUnit t W := by simp [qwImag, hip, hin, imagUnit]
    rw [hq]
    exact ⟨by simp [qwReal, hrp, hrn], hpos, habs⟩
  · have hq : qwImag t W r c = singleNeg (imagUnit t W) := by simp [qwImag, hin, hneg]
    rw [hq]
    exact ⟨by simp [qwReal, hrp, hrn], hpos', habs'⟩

/-- What `merge_complex_tensor` makes of a weight whose imaginary part is not zero. -/
lemma merged_flagged (h : singleAbs (qwImag t W r c) ≠ 0) :
    merged t W r c = clearLast (t.add (qwReal t W r c) (qwImag t W r c)) ||| 1 := if_pos h

lemma merged_nan (laws : TorchIeee t mean) (h : singleAbs (qwImag t W r c) ≠ 0)
    (hnan : singleIsNaN (qwReal t W r c) ∨ singleIsNaN (qwImag t W r c)) :
    singleIsNaN (merged t W r c) ∧ realMask (merged t W r c) = false := by
  have hsum := laws.add_nan _ _ hnan
  rw [singleIsNaN_iff] at hsum
  rw [merged_flagged h]
  exact flagged_nan hsum.le

lemma singleAbs_of_nan {q : UInt32} (h : singleIsNaN q) : singleAbs q ≠ 0 := fun hzero => by
  rw [singleIsNaN_iff, ← singleAbs_toNat, hzero] at h
  exact absurd h (by decide)

variable (h : Converts t W) (laws : TorchIeee t mean) (hcols : 256 ∣ W.cols)
include h laws hcols

lemma Converts.realScale_num (hr : r < W.rows) (hc : c < W.cols) (him : isImag t W r c) :
    ¬ singleIsNaN (t.div 0 (realScale t W)) := fun hnan => by
  obtain ⟨hre, hproper, -⟩ := parts_of_isImag laws (fun r hr c hc => h.phase_num hr hc) hr hc him
  exact h.not_lost hcols hr hc him (merged_nan laws hproper.ne_zero (.inl (hre ▸ hnan)))

lemma Converts.exists_real (hr : 0 < W.rows) (hc : 0 < W.cols) :
    ∃ r < W.rows, ∃ c < W.cols, isReal t W r c := by
  by_contra hnone
  have him := (h.isReal_or_isImag hr hc).resolve_left fun hre => hnone ⟨0, hr, 0, hc, hre⟩
  refine h.realScale_num laws hcols hr hc him (laws.div_nan _ _ ?_)
  unfold realScale
  rw [select_eq_nil hnone]
  exact scale_nil laws

omit hcols in
lemma Converts.toHalf_realUnit (hr : r < W.rows) (hc : c < W.cols) (hre : isReal t W r c) :
    t.toHalf (clearLast (realUnit t W)) ≠ 0 := by
  have hlist := select_ne_nil W.re ⟨r, hr, c, hc, hre⟩
  have hnum := (select_num (fun r hr c hc => h.phase_num hr hc) laws (isReal t W)).1
  obtain ⟨hlow, hhigh, -⟩ := unit_of_num laws (laws.mean_num _ hlist hnum)
  change 0x37000000 ≤ (realUnit t W).toNat at hlow
  change (realUnit t W).toNat ≤ 0x7f800000 at hhigh
  have hclear := clearLast_toNat (realUnit t W)
  rcases Nat.lt_or_ge (realUnit t W).toNat 0x7f800000 with hfin | hinf
  · have hpos := (laws.toHalf_pos (clearLast (realUnit t W)) (by omega) (by omega)).1
    intro hzero
    rw [hzero] at hpos
    exact absurd hpos (by decide)
  · have hunit : clearLast (realUnit t W) = singleInf := by
      have hval : singleInf.toNat = 0x7f800000 := rfl
      rw [← UInt32.toNat_inj]
      omega
    rw [hunit]
    exact laws.toHalf_inf

lemma Converts.exists_imag (hr : 0 < W.rows) (hc : 0 < W.cols) :
    ∃ r < W.rows, ∃ c < W.cols, isImag t W r c := by
  by_contra hnone
  have hscale : singleIsNaN (imagScale t W) := by
    unfold imagScale
    rw [select_eq_nil hnone]
    exact scale_nil laws
  have hlost : ∀ r c, realMask (merged t W r c) = false := fun r c => by
    have hnan : singleIsNaN (qwImag t W r c) := laws.div_nan _ _ hscale
    exact (merged_nan laws (singleAbs_of_nan hnan) (.inr hnan)).2
  have hre := (h.isReal_or_isImag hr hc).resolve_right fun him => hnone ⟨0, hr, 0, hc, him⟩
  have hb : 0 < W.cols / 256 := by omega
  have hzero : (emittedRow t W 0 0).dReal = 0 := by
    refine Eq.trans (congrArg t.toHalf ?_) laws.toHalf_zero
    refine (maxAbs_eq _ 0 (fun _ => False) fun j _ => .inr ⟨not_false, ?_⟩).2 ?_
    · simp [hlost, singleAbs]
    · rintro ⟨j, -, hfalse⟩
      exact hfalse
  have hany : ((List.range 256).any fun j => isReal t W 0 (256 * 0 + j)) = true :=
    any_range_iff.2 ⟨0, by decide, hre⟩
  have hdReal := (h.scales 0 hr 0 hb).1
  rw [rowBlocks, (convertedBlocks_same t hr hb).dReal, hzero, blockRealScale, if_pos hany] at hdReal
  exact h.toHalf_realUnit laws hr hc hre hdReal.symm

lemma Converts.real_mean (hr : r < W.rows) (hc : c < W.cols) (him : isImag t W r c)
    (hreal : ∃ r < W.rows, ∃ c < W.cols, isReal t W r c) :
    (mean (select W (isReal t W) W.re)).toNat < 0x7f800000 := by
  have hnum := laws.mean_num _ (select_ne_nil W.re hreal)
    (select_num (fun r hr c hc => h.phase_num hr hc) laws (isReal t W)).1
  refine lt_of_le_of_ne hnum fun hinf => h.realScale_num laws hcols hr hc him ?_
  have hzero : realScale t W = 0 := scale_of_inf laws hinf
  rw [hzero]
  exact laws.div_zero_zero

lemma Converts.imag_mean (hr : r < W.rows) (hc : c < W.cols) (him : isImag t W r c)
    (hmean : (mean (select W (isReal t W) W.re)).toNat < 0x7f800000) :
    (mean (select W (isImag t W) W.im)).toNat ≤ 0x7f7ffffc := by
  have hphase : ∀ r < W.rows, ∀ c < W.cols, ¬ singleIsNaN (phase t W r c) := fun _ hr _ hc =>
    h.phase_num hr hc
  obtain ⟨hre, hproper, habs⟩ := parts_of_isImag laws hphase hr hc him
  have hre0 : qwReal t W r c = 0 := hre.trans (laws.div_zero _ (scale_of_finite laws hmean).1)
  have hnum := laws.mean_num _ (select_ne_nil W.im ⟨r, hr, c, hc, him⟩)
    (select_num hphase laws (isImag t W)).2
  by_contra hlarge
  have hunit : 0x7f800000 ≤ (imagUnit t W).toNat := by
    rcases hnum.lt_or_eq with hfin | hinf
    · obtain ⟨-, -, -, hiff⟩ := scale_of_finite laws hfin
      exact not_lt.1 fun hlt => hlarge (hiff.1 hlt)
    · have hzero : imagScale t W = 0 := scale_of_inf laws hinf
      unfold imagUnit
      rw [hzero, laws.div_one_zero]
      exact le_rfl
  refine h.not_lost hcols hr hc him ?_
  rw [merged_flagged hproper.ne_zero, hre0, laws.zero_add _ hproper.num hproper.ne_zero]
  refine flagged_nan ?_
  rw [← singleAbs_toNat, habs]
  exact hunit

omit h in
/-- The converter assigns every weight to one direction, and the C reader finds its code and the
block's scales, exactly when the matrix is empty or has weights of both axes, all with a phase, whose
mean magnitudes do not overflow. -/
theorem converts_iff :
    Converts t W ↔ W.rows = 0 ∨ W.cols = 0 ∨ Convertible t mean W := by
  constructor
  · intro h
    rcases Nat.eq_zero_or_pos W.rows with hr | hr
    · exact .inl hr
    rcases Nat.eq_zero_or_pos W.cols with hc | hc
    · exact .inr (.inl hc)
    have hreal := h.exists_real laws hcols hr hc
    obtain ⟨r, hr, c, hc, him⟩ := h.exists_imag laws hcols hr hc
    have hmean := h.real_mean laws hcols hr hc him hreal
    exact .inr (.inr ⟨fun r hr c hc => h.phase_num hr hc, hreal, ⟨r, hr, c, hc, him⟩, hmean,
      h.imag_mean laws hcols hr hc him hmean⟩)
  · rintro (hr | hc | h)
    · have hno : ∀ r, ¬ r < W.rows := fun r => by omega
      exact ⟨fun r hr => absurd hr (hno r), fun r hr => absurd hr (hno r),
        fun r hr => absurd hr (hno r), repackIfairyBlocks_bijective⟩
    · have hno : ∀ c, ¬ c < W.cols := fun c => by omega
      have hno' : ∀ b, ¬ b < W.cols / 256 := fun b => by omega
      exact ⟨fun _ _ c hc => absurd hc (hno c), fun _ _ c hc => absurd hc (hno c),
        fun _ _ b hb => absurd hb (hno' b), repackIfairyBlocks_bijective⟩
    · exact (h.unitsFit laws).converts laws.toTorchLaws hcols

end Matrix

/-! ## A matrix of ones -/

def singleNaN : UInt32 := 0x7fc00000

/-- A reciprocal that is right at zero, one and infinity, and for which `1 / (1 / m)` overflows where
it does. -/
def recip (s : UInt32) : UInt32 :=
  if s = singleOne then singleOne
  else if s.toNat ≤ 3 then singleInf
  else UInt32.ofNat (0x7f800000 - s.toNat)

/-- The mean magnitude of a list of ones. -/
def onesMean (l : List UInt32) : UInt32 := if l = [] then singleNaN else singleOne

/-- The library functions as they act on the weights `1` and `i`, with their edges. -/
def edgeTorch : Torch where
  angle re im := if singleIsNaN re then re else if singleIsNaN im then im
    else if im = 0 then 0 else 0x3fc90fdb
  scale l := if l = [] then singleNaN else singleOne
  div a s := if singleIsNaN s then s
    else if a = 0 then (if s = 0 then singleNaN else 0)
    else if a = singleNegOne then singleNeg (recip s) else recip s
  add a b := if singleIsNaN a then a else if singleIsNaN b then b
    else if singleAbs b = 0 then a else b
  toHalf v := if v = 0 then 0 else 0x3c00

lemma edgeTorch_div_one {s : UInt32} (hs : ¬ singleIsNaN s) :
    edgeTorch.div singleOne s = recip s := by
  simp only [edgeTorch, if_neg hs]
  rfl

lemma recip_finite {m : UInt32} (hlow : 0x3727c5ac ≤ m.toNat) (hhigh : m.toNat < 0x7f800000) :
    (m = singleOne ∧ recip m = singleOne) ∨
      (recip m).toNat = 0x7f800000 - m.toNat ∧ m ≠ singleOne := by
  unfold recip
  by_cases hone : m = singleOne
  · exact .inl ⟨hone, if_pos hone⟩
  · refine .inr ⟨?_, hone⟩
    rw [if_neg hone, if_neg (by omega), UInt32.toNat_ofNat']
    omega

lemma recip_recip {m : UInt32} (hlow : 0x3727c5ac ≤ m.toNat) (hhigh : m.toNat < 0x7f800000) :
    PosFinite (recip m) ∧ 0x37000000 ≤ (recip (recip m)).toNat ∧
      (recip (recip m)).toNat ≤ 0x7f800000 ∧
      ((recip (recip m)).toNat < 0x7f800000 ↔ m.toNat ≤ 0x7f7ffffc) := by
  have hone : singleOne.toNat = 0x3f800000 := rfl
  have hinf : singleInf.toNat = 0x7f800000 := rfl
  rcases recip_finite hlow hhigh with ⟨rfl, hrecip⟩ | ⟨hrecip, -⟩
  · rw [hrecip, hrecip]
    exact ⟨⟨of_decide_eq_true rfl, of_decide_eq_true rfl⟩, of_decide_eq_true rfl⟩
  · refine ⟨⟨by omega, by omega⟩, ?_⟩
    by_cases hs : recip m = singleOne
    · have hs' : recip singleOne = singleOne := if_pos rfl
      rw [hs] at hrecip
      rw [hs, hs']
      omega
    · by_cases hsmall : (recip m).toNat ≤ 3
      · have hover : recip (recip m) = singleInf := (if_neg hs).trans (if_pos hsmall)
        rw [hover]
        omega
      · have hback : (recip (recip m)).toNat = 0x7f800000 - (recip m).toNat := by
          have heq : recip (recip m) = UInt32.ofNat (0x7f800000 - (recip m).toNat) :=
            (if_neg hs).trans (if_neg hsmall)
          rw [heq, UInt32.toNat_ofNat']
          omega
        omega

lemma PosFinite.num {s : UInt32} (h : PosFinite s) : ¬ singleIsNaN s := by
  rw [singleIsNaN_iff]
  obtain ⟨-, hhigh⟩ := h
  omega

lemma edgeTorch_laws : TorchLaws edgeTorch where
  div_negOne s hs := by
    rw [edgeTorch_div_one hs.num]
    simp only [edgeTorch, if_neg hs.num]
    rfl
  div_zero s hs := by
    have hzero : s ≠ 0 := fun h => by
      rw [h] at hs
      exact absurd hs.1 (by decide)
    simp only [edgeTorch, if_neg hs.num, if_neg hzero]
    rfl
  add_zero a hnum _ := by
    simp only [edgeTorch, if_neg hnum]
    rfl
  zero_add a hnum habs := by
    simp only [edgeTorch, if_neg hnum, if_neg habs]
    rfl
  scale_ge l hl _ := by
    simp only [edgeTorch, if_neg hl]
    exact of_decide_eq_true rfl
  toHalf_zero := rfl
  toHalf_pos v hlow _ := by
    have hv : v ≠ 0 := fun h => by
      rw [h] at hlow
      exact absurd hlow (by decide)
    simp only [edgeTorch, if_neg hv]
    decide

lemma edgeTorch_ieee : TorchIeee edgeTorch onesMean where
  toTorchLaws := edgeTorch_laws
  angle_num a b h := by
    by_cases ha : singleIsNaN a
    · simp [edgeTorch, ha] at h
    · by_cases hb : singleIsNaN b
      · simp [edgeTorch, ha, hb] at h
      · exact ⟨ha, hb⟩
  mean_nil := rfl
  mean_num l hl _ := by
    rw [onesMean, if_neg hl]
    exact of_decide_eq_true rfl
  scale_eq l := by
    unfold onesMean edgeTorch
    by_cases hl : l = []
    · simp only [if_pos hl]
      rfl
    · simp only [if_neg hl]
      rfl
  div_nan a s hs := by
    simp only [edgeTorch, if_pos hs]
    exact hs
  div_zero_zero := rfl
  div_one_zero := rfl
  div_negOne_zero := rfl
  div_one_inf := rfl
  div_one_finite m hlow hhigh := by
    have hnum : ¬ singleIsNaN m := PosFinite.num ⟨by omega, hhigh⟩
    rw [edgeTorch_div_one hnum]
    exact (recip_recip hlow hhigh).1
  recip_recip m hlow hhigh := by
    obtain ⟨hpos, hback⟩ := recip_recip hlow hhigh
    have hnum : ¬ singleIsNaN m := PosFinite.num ⟨by omega, hhigh⟩
    rw [edgeTorch_div_one hnum, edgeTorch_div_one hpos.num]
    exact hback
  add_nan a b h := by
    by_cases ha : singleIsNaN a
    · simp [edgeTorch, ha]
    · have hb := h.resolve_left ha
      simp [edgeTorch, ha, hb]
  toHalf_inf := by decide

lemma unitMatrix_axes (imag : ℕ → Bool) (r c : ℕ) :
    isReal edgeTorch (unitMatrix imag) r c = !imag c ∧
      isImag edgeTorch (unitMatrix imag) r c = imag c ∧
      ¬ singleIsNaN (phase edgeTorch (unitMatrix imag) r c) := by
  cases h : imag c <;>
    simp [isReal, isImag, realPos, realNeg, imagPos, imagNeg, phase, edgeTorch, unitMatrix, h] <;>
    decide

/-- A matrix of weights `1`: no weight is on the imaginary axis, and all directions are lost. -/
theorem not_converts_ones : TorchIeee edgeTorch onesMean ∧ 256 ∣ (unitMatrix fun _ => false).cols ∧
    ¬ Converts edgeTorch (unitMatrix fun _ => false) := by
  refine ⟨edgeTorch_ieee, ⟨2, rfl⟩, fun h => ?_⟩
  obtain ⟨r, -, c, -, him⟩ :=
    h.exists_imag edgeTorch_ieee ⟨2, rfl⟩ Nat.one_pos (show 0 < 512 by decide)
  rw [(unitMatrix_axes _ r c).2.1] at him
  exact absurd him (by decide)

/-- With `i` in the odd columns all directions are found again. -/
theorem converts_alternating : Converts edgeTorch (unitMatrix fun c => c % 2 == 1) := by
  have hreal : ∃ r < 1, ∃ c < 512, isReal edgeTorch (unitMatrix fun c => c % 2 == 1) r c :=
    ⟨0, Nat.one_pos, 0, by decide, (unitMatrix_axes _ 0 0).1⟩
  have himag : ∃ r < 1, ∃ c < 512, isImag edgeTorch (unitMatrix fun c => c % 2 == 1) r c :=
    ⟨0, Nat.one_pos, 1, by decide, (unitMatrix_axes _ 0 1).2.1⟩
  refine (converts_iff edgeTorch_ieee ⟨2, rfl⟩).2 (.inr (.inr ⟨fun r _ c _ =>
    (unitMatrix_axes _ r c).2.2, hreal, himag, ?_, ?_⟩))
  · rw [onesMean, if_neg (select_ne_nil _ hreal)]
    exact of_decide_eq_true rfl
  · rw [onesMean, if_neg (select_ne_nil _ himag)]
    exact of_decide_eq_true rfl

end IFairy
