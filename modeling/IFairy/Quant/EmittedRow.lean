import IFairy.Quant.Converter

/-!
# What the dot-product kernel reads of a converted row

A weight of the converter is one of four patterns: the common magnitude of the real weights with
its last bit cleared, the common magnitude of the imaginary weights with its last bit set, and
the two with a sign.  So a block's code recovers the weight's phase, and a block's scale depends
only on whether the block has a weight of that phase.

The kernel reads the two scales of a row in the row's first block.  It is the dot product of the
dequantised row exactly when the first block has every phase that the row has
(`vecDot_emittedRow_iff`).
-/

namespace IFairy

/-! ## Codes survive the repacking -/

lemma blockCode_lt (e : UInt32) : (blockCode e).toNat < 4 := by
  simp only [blockCode, apply_ite UInt8.toNat]
  repeat' split
  all_goals exact of_decide_eq_true rfl

lemma pairAt_quantizeBlock (toHalf : UInt32 → UInt16) (blk : ℕ → UInt32) (i : ℕ) :
    pairAt ((quantizeBlock toHalf blk).qs (i / 4)) (i % 4) = blockCode (blk i) := by
  have hpart : i % 4 < 4 := Nat.mod_lt _ (by decide)
  have h := pairAt_packPairs (fun p => blockCode (blk (4 * (i / 4) + p)))
    (fun _ _ => blockCode_lt _) hpart
  rw [Nat.div_add_mod] at h
  exact h

lemma codeAt_repack (b : BlockIfairy) (j : ℕ) :
    codeAt (repackBlock b).qs j = pairAt (b.qs (j / 4)) (j % 4) := by
  have hpart : j / 16 % 4 < 4 := Nat.mod_lt _ (by decide)
  have hbase : (j / 64 * 16 + j % 16) / 16 = j / 64 := by omega
  have hlane : (j / 64 * 16 + j % 16) % 16 = j % 16 := by omega
  have hindex : j / 64 * 64 + j % 16 + 16 * (j / 16 % 4) = j := by omega
  have h := pairAt_packPairs (fun p => pairAt (b.qs ((j / 64 * 64 + j % 16 + 16 * p) / 4))
    ((j / 64 * 64 + j % 16 + 16 * p) % 4)) (fun _ _ => pairAt_lt _ (Nat.mod_lt _ (by decide))) hpart
  rw [hindex] at h
  simp only [codeAt, repackBlock, hbase, hlane]
  exact h

/-- The code that a decoder reads for element `j` is the code of element `j`. -/
lemma codeAt_repackBlock (toHalf : UInt32 → UInt16) (blk : ℕ → UInt32) (j : ℕ) :
    codeAt (repackBlock (quantizeBlock toHalf blk)).qs j = blockCode (blk j) :=
  (codeAt_repack _ j).trans (pairAt_quantizeBlock toHalf blk j)

/-! ## Phases -/

lemma singleLe_iff {a b : UInt32} (ha : ¬ singleIsNaN a) (hb : ¬ singleIsNaN b) :
    singleLe a b ↔ singleKey a ≤ singleKey b := by
  simp [singleLe, ha, hb]

lemma singleLt_iff {a b : UInt32} (ha : ¬ singleIsNaN a) (hb : ¬ singleIsNaN b) :
    singleLt a b ↔ singleKey a < singleKey b := by
  simp [singleLt, ha, hb]

section Phases

variable {t : Torch} {W : ComplexMatrix} {r c : ℕ} (h : ¬ singleIsNaN (phase t W r c))
include h

lemma realPos_iff : realPos t W r c ↔
    -0x3f490fdb ≤ singleKey (phase t W r c) ∧ singleKey (phase t W r c) < 0x3f490fdb := by
  rw [realPos, Bool.and_eq_true, singleLe_iff (by decide) h, singleLt_iff h (by decide)]
  rfl

lemma realNeg_iff : realNeg t W r c ↔
    0x4016cbe4 ≤ singleKey (phase t W r c) ∨ singleKey (phase t W r c) < -0x4016cbe4 := by
  rw [realNeg, Bool.or_eq_true, singleLe_iff (by decide) h, singleLt_iff h (by decide)]
  rfl

lemma imagPos_iff : imagPos t W r c ↔
    0x3f490fdb ≤ singleKey (phase t W r c) ∧ singleKey (phase t W r c) < 0x4016cbe4 := by
  rw [imagPos, Bool.and_eq_true, singleLe_iff (by decide) h, singleLt_iff h (by decide)]
  rfl

lemma imagNeg_iff : imagNeg t W r c ↔
    -0x4016cbe4 ≤ singleKey (phase t W r c) ∧ singleKey (phase t W r c) < -0x3f490fdb := by
  rw [imagNeg, Bool.and_eq_true, singleLe_iff (by decide) h, singleLt_iff h (by decide)]
  rfl

lemma phase_sector :
    (realPos t W r c ∧ ¬ realNeg t W r c ∧ ¬ imagPos t W r c ∧ ¬ imagNeg t W r c) ∨
    (¬ realPos t W r c ∧ realNeg t W r c ∧ ¬ imagPos t W r c ∧ ¬ imagNeg t W r c) ∨
    (¬ realPos t W r c ∧ ¬ realNeg t W r c ∧ imagPos t W r c ∧ ¬ imagNeg t W r c) ∨
    (¬ realPos t W r c ∧ ¬ realNeg t W r c ∧ ¬ imagPos t W r c ∧ imagNeg t W r c) := by
  rw [realPos_iff h, realNeg_iff h, imagPos_iff h, imagNeg_iff h]
  omega

end Phases

/-- The four directions. -/
inductive Direction
  | negReal
  | posReal
  | negImag
  | posImag
  deriving DecidableEq

namespace Direction

/-- The mask of `forward` for a direction. -/
def mask (t : Torch) (W : ComplexMatrix) : Direction → ℕ → ℕ → Bool
  | negReal => realNeg t W
  | posReal => realPos t W
  | negImag => imagNeg t W
  | posImag => imagPos t W

/-- The code of a direction: `00`, `01`, `10` and `11`. -/
def code : Direction → UInt8
  | negReal => 0
  | posReal => 1
  | negImag => 2
  | posImag => 3

/-- The direction is on the real axis. -/
def onReal : Direction → Bool
  | negReal => true
  | posReal => true
  | negImag => false
  | posImag => false

variable {t : Torch} {W : ComplexMatrix} {r c : ℕ}

lemma existsUnique_mask (h : ¬ singleIsNaN (phase t W r c)) :
    ∃! d : Direction, d.mask t W r c = true := by
  rcases phase_sector h with ⟨hrp, hrn, hip, hin⟩ | ⟨hrp, hrn, hip, hin⟩ | ⟨hrp, hrn, hip, hin⟩ |
    ⟨hrp, hrn, hip, hin⟩
  · refine ⟨posReal, hrp, fun d hd => ?_⟩
    cases d
    exacts [absurd hd hrn, rfl, absurd hd hin, absurd hd hip]
  · refine ⟨negReal, hrn, fun d hd => ?_⟩
    cases d
    exacts [rfl, absurd hd hrp, absurd hd hin, absurd hd hip]
  · refine ⟨posImag, hip, fun d hd => ?_⟩
    cases d
    exacts [absurd hd hrn, absurd hd hrp, absurd hd hin, rfl]
  · refine ⟨negImag, hin, fun d hd => ?_⟩
    cases d
    exacts [absurd hd hrn, absurd hd hrp, rfl, absurd hd hip]

lemma isReal_eq (h : ¬ singleIsNaN (phase t W r c)) {d : Direction} (hd : d.mask t W r c = true) :
    isReal t W r c = d.onReal ∧ isImag t W r c = !d.onReal := by
  have hone : ∀ d', d' ≠ d → d'.mask t W r c = false := fun d' hne => by
    rw [← Bool.not_eq_true]
    exact fun hd' => hne ((existsUnique_mask h).unique hd' hd)
  have hrp := hone posReal
  have hrn := hone negReal
  have hip := hone posImag
  have hin := hone negImag
  simp only [mask] at hrp hrn hip hin
  unfold isReal isImag
  cases d <;> simp_all [mask, onReal]

end Direction

/-! ## The four patterns -/

/-- A magnitude that the converter can produce: at least `2 ^ -17` and finite. -/
def Magnitude (v : UInt32) : Prop := 0x37000000 ≤ v.toNat ∧ v.toNat < 0x7f800000

lemma Magnitude.posFinite {v : UInt32} (hv : Magnitude v) : PosFinite v :=
  ⟨by have := hv.1; omega, hv.2⟩

lemma realMask_iff (e : UInt32) : realMask e ↔ e.toNat % 2 = 0 := by
  have h : (e &&& 1).toNat = e.toNat % 2 :=
    (UInt32.toNat_and _ _).trans (Nat.and_two_pow_sub_one_eq_mod e.toNat 1)
  rw [realMask, decide_eq_true_iff, ← UInt32.toNat_inj, h]
  rfl

lemma singleIsNaN_iff (e : UInt32) : singleIsNaN e ↔ 0x7f800000 < e.toNat % 2 ^ 31 := by
  rw [singleIsNaN, decide_eq_true_iff, UInt32.lt_iff_toNat_lt, singleAbs_toNat]
  rfl

lemma singleKey_eq (e : UInt32) :
    singleKey e = if e.toNat < 2 ^ 31 then (e.toNat : ℤ) else -((e.toNat % 2 ^ 31 : ℕ) : ℤ) := by
  unfold singleKey
  rw [singleAbs_toNat]
  split_ifs with hlt
  · rw [Nat.mod_eq_of_lt hlt]
  · rfl

lemma singleLe_zero_iff {e : UInt32} (hfin : e.toNat % 2 ^ 31 ≤ 0x7f800000)
    (hpos : 0 < e.toNat % 2 ^ 31) : singleLe 0 e ↔ e.toNat < 2 ^ 31 := by
  have hnan : ¬ singleIsNaN e := by rw [singleIsNaN_iff]; omega
  have hkey : singleKey 0 = 0 := rfl
  rw [singleLe_iff (by decide) hnan, hkey, singleKey_eq]
  split_ifs <;> omega

lemma singleLt_zero_iff {e : UInt32} (hfin : e.toNat % 2 ^ 31 ≤ 0x7f800000)
    (hpos : 0 < e.toNat % 2 ^ 31) : singleLt e 0 ↔ 2 ^ 31 ≤ e.toNat := by
  have hnan : ¬ singleIsNaN e := by rw [singleIsNaN_iff]; omega
  have hkey : singleKey 0 = 0 := rfl
  rw [singleLt_iff hnan (by decide), hkey, singleKey_eq]
  split_ifs <;> omega

lemma blockCode_eq {e : UInt32} (hfin : e.toNat % 2 ^ 31 ≤ 0x7f800000)
    (hpos : 0 < e.toNat % 2 ^ 31) :
    blockCode e = if e.toNat % 2 = 0 then (if e.toNat < 2 ^ 31 then 1 else 0)
      else (if e.toNat < 2 ^ 31 then 3 else 2) := by
  have hmask := realMask_iff e
  have hle := singleLe_zero_iff hfin hpos
  have hlt := singleLt_zero_iff hfin hpos
  unfold blockCode
  by_cases hreal : e.toNat % 2 = 0
  · have hm : realMask e = true := hmask.mpr hreal
    simp [hm, hreal, hle]
  · have hm : realMask e = false := by
      rw [← Bool.not_eq_true]
      exact fun h => hreal (hmask.mp h)
    rcases lt_or_ge e.toNat (2 ^ 31) with hsign | hsign
    · rw [if_neg hreal, if_pos hsign]
      simp [hm, hle.mpr hsign]
    · have hneg : singleLe 0 e = false := by
        rw [← Bool.not_eq_true]
        exact fun h => absurd (hle.mp h) (not_lt.mpr hsign)
      rw [if_neg hreal, if_neg (not_lt.mpr hsign)]
      simp [hm, hneg, hlt.mpr hsign]

/-! ## The merged weights -/

/-- Adding zero keeps a number that is not zero, and the converter sees that it is not zero. -/
structure Proper (v : UInt32) : Prop where
  num : ¬ singleIsNaN v
  ne_zero : singleAbs v ≠ 0

lemma proper_of_pos {v : UInt32} (hlow : 0 < v.toNat) (hhigh : v.toNat ≤ 0x7f800000) :
    Proper v ∧ Proper (singleNeg v) := by
  have hzero : (0 : UInt32).toNat = 0 := rfl
  have hneg := singleNeg_toNat (show v.toNat < 2 ^ 31 by omega)
  refine ⟨⟨?_, fun h => ?_⟩, ⟨?_, fun h => ?_⟩⟩
  · rw [singleIsNaN_iff]; omega
  · have habs := singleAbs_toNat v
    rw [h] at habs
    omega
  · rw [singleIsNaN_iff, hneg]; omega
  · have habs := singleAbs_toNat (singleNeg v)
    rw [h, hneg] at habs
    omega

/-- What `quantize_blocks` sees of a pattern. -/
structure Seen (e : UInt32) (real : Bool) (magnitude : UInt32) (code : UInt8) : Prop where
  mask : realMask e = real
  abs : singleAbs e = magnitude
  code : blockCode e = code

lemma seen_of_toNat {e m : UInt32} (habs : e.toNat % 2 ^ 31 = m.toNat) (hpos : 0 < m.toNat)
    (hfin : m.toNat ≤ 0x7f800000) :
    (e.toNat % 2 = 0 → Seen e true m (if e.toNat < 2 ^ 31 then 1 else 0)) ∧
    (e.toNat % 2 = 1 → Seen e false m (if e.toNat < 2 ^ 31 then 3 else 2)) := by
  have hcode := blockCode_eq (e := e) (habs ▸ hfin) (habs ▸ hpos)
  have hm : singleAbs e = m := by rw [← UInt32.toNat_inj, singleAbs_toNat, habs]
  refine ⟨fun heven => ⟨(realMask_iff e).2 heven, hm, ?_⟩, fun hodd => ⟨?_, hm, ?_⟩⟩
  · rw [hcode, if_pos heven]
  · rw [← Bool.not_eq_true]
    intro hmask
    have heven := (realMask_iff e).1 hmask
    omega
  · rw [hcode, if_neg (by omega)]

lemma seen_real {v : UInt32} (hlow : 0x37000000 ≤ v.toNat) (hhigh : v.toNat ≤ 0x7f800000) :
    Seen (clearLast v) true (clearLast v) 1 ∧
      Seen (clearLast (singleNeg v)) true (clearLast v) 0 := by
  have hclear := clearLast_toNat v
  have hclear' := clearLast_toNat (singleNeg v)
  have hneg := singleNeg_toNat (show v.toNat < 2 ^ 31 by omega)
  constructor
  · have hseen := (seen_of_toNat (e := clearLast v) (m := clearLast v) (by omega) (by omega)
      (by omega)).1 (by omega)
    rwa [if_pos (by omega)] at hseen
  · have hseen := (seen_of_toNat (e := clearLast (singleNeg v)) (m := clearLast v) (by omega)
      (by omega) (by omega)).1 (by omega)
    rwa [if_neg (by omega)] at hseen

lemma seen_imag {v : UInt32} (hv : Magnitude v) :
    Seen (clearLast v ||| 1) false (clearLast v ||| 1) 3 ∧
      Seen (clearLast (singleNeg v) ||| 1) false (clearLast v ||| 1) 2 := by
  obtain ⟨hlow, hhigh⟩ := hv
  have hset := clearLast_or_one_toNat v
  have hset' := clearLast_or_one_toNat (singleNeg v)
  have hneg := singleNeg_toNat (show v.toNat < 2 ^ 31 by omega)
  constructor
  · have hseen := (seen_of_toNat (e := clearLast v ||| 1) (m := clearLast v ||| 1) (by omega)
      (by omega) (by omega)).2 (by omega)
    rwa [if_pos (by omega)] at hseen
  · have hseen := (seen_of_toNat (e := clearLast (singleNeg v) ||| 1) (m := clearLast v ||| 1)
      (by omega) (by omega) (by omega)).2 (by omega)
    rwa [if_neg (by omega)] at hseen

section Merged

variable {t : Torch} {W : ComplexMatrix}

/-- The common magnitude of the real weights, and of the imaginary ones. -/
def realUnit (t : Torch) (W : ComplexMatrix) : UInt32 := t.div singleOne (realScale t W)

def imagUnit (t : Torch) (W : ComplexMatrix) : UInt32 := t.div singleOne (imagScale t W)

namespace Direction

/-- The merged weight of a direction. -/
def pattern (t : Torch) (W : ComplexMatrix) : Direction → UInt32
  | negReal => clearLast (singleNeg (realUnit t W))
  | posReal => clearLast (realUnit t W)
  | negImag => clearLast (singleNeg (imagUnit t W)) ||| 1
  | posImag => clearLast (imagUnit t W) ||| 1

def magnitude (t : Torch) (W : ComplexMatrix) (d : Direction) : UInt32 :=
  if d.onReal then clearLast (realUnit t W) else clearLast (imagUnit t W) ||| 1

end Direction

/-- What the blocks rely on: phases that are numbers, and two units.  The real one may be infinite;
an infinite imaginary one would lose its value with its last bit set. -/
structure UnitsFit (t : Torch) (W : ComplexMatrix) : Prop where
  phase : ∀ r < W.rows, ∀ c < W.cols, ¬ singleIsNaN (phase t W r c)
  real_scale : PosFinite (realScale t W)
  imag_scale : PosFinite (imagScale t W)
  real_unit : 0x37000000 ≤ (realUnit t W).toNat ∧ (realUnit t W).toNat ≤ 0x7f800000
  imag_unit : Magnitude (imagUnit t W)

lemma select_ne_nil {mask : ℕ → ℕ → Bool} (entry : ℕ → ℕ → UInt32)
    (h : ∃ r < W.rows, ∃ c < W.cols, mask r c) : select W mask entry ≠ [] := by
  obtain ⟨r, hr, c, hc, hmask⟩ := h
  have hmem : entry r c ∈ select W mask entry :=
    List.mem_flatMap.mpr ⟨r, List.mem_range.mpr hr,
      List.mem_map.mpr ⟨c, List.mem_filter.mpr ⟨List.mem_range.mpr hc, hmask⟩, rfl⟩⟩
  exact List.ne_nil_of_mem hmem

lemma realUnit_magnitude (laws : TorchLaws t) (hW : Quantizable t W) : Magnitude (realUnit t W) :=
  ⟨laws.scale_ge _ (select_ne_nil _ hW.exists_real) hW.real_finite.1, hW.real_finite.2⟩

lemma imagUnit_magnitude (laws : TorchLaws t) (hW : Quantizable t W) : Magnitude (imagUnit t W) :=
  ⟨laws.scale_ge _ (select_ne_nil _ hW.exists_imag) hW.imag_finite.1, hW.imag_finite.2⟩

lemma Quantizable.unitsFit (laws : TorchLaws t) (hW : Quantizable t W) : UnitsFit t W where
  phase := hW.phase
  real_scale := hW.real_finite.1
  imag_scale := hW.imag_finite.1
  real_unit := ⟨(realUnit_magnitude laws hW).1, (realUnit_magnitude laws hW).2.le⟩
  imag_unit := imagUnit_magnitude laws hW

section Entry

variable {r c : ℕ} {q : UInt32} (laws : TorchLaws t)
include laws

lemma merged_of_real (hre : qwReal t W r c = q) (him : qwImag t W r c = 0) (hq : Proper q) :
    merged t W r c = clearLast q := by
  simp only [merged, hre, him, laws.add_zero _ hq.num hq.ne_zero]
  rfl

lemma merged_of_imag (hre : qwReal t W r c = 0) (him : qwImag t W r c = q) (hq : Proper q) :
    merged t W r c = clearLast q ||| 1 := by
  simp only [merged, hre, him, laws.zero_add _ hq.num hq.ne_zero]
  exact if_pos hq.ne_zero

end Entry

variable (laws : TorchLaws t) (hW : UnitsFit t W)
include laws hW

lemma merged_of_mask {r c : ℕ} (hr : r < W.rows) (hc : c < W.cols) {d : Direction}
    (hd : d.mask t W r c = true) : merged t W r c = d.pattern t W := by
  obtain ⟨hre, hreN⟩ := proper_of_pos (Nat.lt_of_lt_of_le (by decide) hW.real_unit.1)
    hW.real_unit.2
  obtain ⟨him, himN⟩ := proper_of_pos hW.imag_unit.posFinite.1 hW.imag_unit.2.le
  have hre0 : t.div 0 (realScale t W) = 0 := laws.div_zero _ hW.real_scale
  have him0 : t.div 0 (imagScale t W) = 0 := laws.div_zero _ hW.imag_scale
  have hreNeg : t.div singleNegOne (realScale t W) = singleNeg (realUnit t W) :=
    laws.div_negOne _ hW.real_scale
  have himNeg : t.div singleNegOne (imagScale t W) = singleNeg (imagUnit t W) :=
    laws.div_negOne _ hW.imag_scale
  have hone : ∀ d', d' ≠ d → d'.mask t W r c = false := fun d' hne => by
    rw [← Bool.not_eq_true]
    exact fun hd' => hne ((Direction.existsUnique_mask (hW.phase r hr c hc)).unique hd' hd)
  have hrp := hone .posReal
  have hrn := hone .negReal
  have hip := hone .posImag
  have hin := hone .negImag
  simp only [Direction.mask] at hrp hrn hip hin
  cases d with
  | negReal =>
    refine merged_of_real laws ?_ ?_ hreN
    · simp [qwReal, show realNeg t W r c = true from hd, hreNeg]
    · simp [qwImag, hip, hin, him0]
  | posReal =>
    refine merged_of_real laws ?_ ?_ hre
    · simp [qwReal, show realPos t W r c = true from hd, hrn, realUnit]
    · simp [qwImag, hip, hin, him0]
  | negImag =>
    refine merged_of_imag laws ?_ ?_ himN
    · simp [qwReal, hrp, hrn, hre0]
    · simp [qwImag, show imagNeg t W r c = true from hd, himNeg]
  | posImag =>
    refine merged_of_imag laws ?_ ?_ him
    · simp [qwReal, hrp, hrn, hre0]
    · simp [qwImag, show imagPos t W r c = true from hd, hin, imagUnit]

lemma merged_seen {r c : ℕ} (hr : r < W.rows) (hc : c < W.cols) {d : Direction}
    (hd : d.mask t W r c = true) :
    Seen (merged t W r c) d.onReal (d.magnitude t W) d.code := by
  rw [merged_of_mask laws hW hr hc hd]
  cases d with
  | negReal => exact (seen_real hW.real_unit.1 hW.real_unit.2).2
  | posReal => exact (seen_real hW.real_unit.1 hW.real_unit.2).1
  | negImag => exact (seen_imag hW.imag_unit).2
  | posImag => exact (seen_imag hW.imag_unit).1

lemma exists_merged_seen {r c : ℕ} (hr : r < W.rows) (hc : c < W.cols) :
    ∃ d : Direction, (isReal t W r c = d.onReal ∧ isImag t W r c = !d.onReal) ∧
      Seen (merged t W r c) d.onReal (d.magnitude t W) d.code := by
  obtain ⟨d, hd, -⟩ := Direction.existsUnique_mask (hW.phase r hr c hc)
  exact ⟨d, Direction.isReal_eq (hW.phase r hr c hc) hd, merged_seen laws hW hr hc hd⟩

end Merged

/-! ## The scales of a block -/

/-- The largest magnitude of a block whose values have magnitude `u` where `P` holds and zero
elsewhere. -/
lemma maxAbs_eq (value : ℕ → UInt32) (u : UInt32) (P : ℕ → Prop)
    (h : ∀ j < 256, (P j ∧ singleAbs (value j) = u) ∨ (¬ P j ∧ singleAbs (value j) = 0)) :
    ((∃ j < 256, P j) → maxAbs value = u) ∧ ((¬ ∃ j < 256, P j) → maxAbs value = 0) := by
  have hdef : ∀ a b : UInt32, max a b = if a ≤ b then b else a := fun _ _ => rfl
  -- the running maximum is `u` or zero, and only an entry of `P` raises it
  have hlarge : ∀ v : UInt32, v = u ∨ v = 0 → max v u = u := by
    rintro v (rfl | rfl)
    · rw [hdef, if_pos (UInt32.le_refl v)]
    · rw [hdef, if_pos UInt32.zero_le]
  have hsmall : ∀ v : UInt32, max v 0 = v := fun v => by
    rw [hdef]
    split_ifs with hle
    · exact UInt32.le_antisymm UInt32.zero_le hle
    · rfl
  have hprefix : ∀ n ≤ 256,
      ((∃ j < n, P j) →
        (List.range n).foldl (fun m j => max m (singleAbs (value j))) 0 = u) ∧
      ((¬ ∃ j < n, P j) →
        (List.range n).foldl (fun m j => max m (singleAbs (value j))) 0 = 0) := by
    intro n
    induction n with
    | zero => exact fun _ => ⟨fun ⟨j, hj, _⟩ => absurd hj (Nat.not_lt_zero j), fun _ => rfl⟩
    | succ n ih =>
      intro hn
      obtain ⟨hyes, hno⟩ := ih (by omega)
      rw [List.range_succ, List.foldl_append]
      simp only [List.foldl_cons, List.foldl_nil]
      rcases h n (by omega) with ⟨hP, habs⟩ | ⟨hP, habs⟩
      · rw [habs]
        refine ⟨fun _ => hlarge _ ?_, fun hnone => absurd ⟨n, n.lt_succ_self, hP⟩ hnone⟩
        by_cases hearlier : ∃ j < n, P j
        · exact Or.inl (hyes hearlier)
        · exact Or.inr (hno hearlier)
      · rw [habs, hsmall]
        refine ⟨fun ⟨j, hj, hPj⟩ => hyes ⟨j, ?_, hPj⟩,
          fun hnone => hno fun ⟨j, hj, hPj⟩ => hnone ⟨j, by omega, hPj⟩⟩
        rcases Nat.lt_succ_iff_lt_or_eq.mp hj with hj | rfl
        · exact hj
        · exact absurd hPj hP
  exact hprefix 256 le_rfl

section Blocks

variable {t : Torch} {W : ComplexMatrix} (laws : TorchLaws t)
include laws

lemma emittedRow_dReal (hW : UnitsFit t W) {r b : ℕ} (hr : r < W.rows)
    (hb : 256 * b + 256 ≤ W.cols) :
    ((∃ j < 256, isReal t W r (256 * b + j)) →
      (emittedRow t W r b).dReal = t.toHalf (clearLast (realUnit t W))) ∧
    ((¬ ∃ j < 256, isReal t W r (256 * b + j)) → (emittedRow t W r b).dReal = 0) := by
  have hmax := maxAbs_eq (fun j => if realMask (merged t W r (256 * b + j)) then
      merged t W r (256 * b + j) else 0) (clearLast (realUnit t W))
      (fun j => isReal t W r (256 * b + j)) fun j hj => by
    obtain ⟨d, ⟨hre, -⟩, hseen⟩ :=
      exists_merged_seen laws hW hr (show 256 * b + j < W.cols by omega)
    have habs := hseen.abs
    rw [hseen.mask, hre]
    unfold Direction.magnitude at habs
    cases hd : d.onReal with
    | true => exact Or.inl ⟨rfl, by simpa [hd] using habs⟩
    | false => exact Or.inr ⟨Bool.false_ne_true, by simp [singleAbs]⟩
  exact ⟨fun h => congrArg t.toHalf (hmax.1 h),
    fun h => (congrArg t.toHalf (hmax.2 h)).trans laws.toHalf_zero⟩

lemma emittedRow_dImag (hW : UnitsFit t W) {r b : ℕ} (hr : r < W.rows)
    (hb : 256 * b + 256 ≤ W.cols) :
    ((∃ j < 256, isImag t W r (256 * b + j)) →
      (emittedRow t W r b).dImag = t.toHalf (clearLast (imagUnit t W) ||| 1)) ∧
    ((¬ ∃ j < 256, isImag t W r (256 * b + j)) → (emittedRow t W r b).dImag = 0) := by
  have hmax := maxAbs_eq (fun j => if realMask (merged t W r (256 * b + j)) then 0 else
      merged t W r (256 * b + j)) (clearLast (imagUnit t W) ||| 1)
      (fun j => isImag t W r (256 * b + j)) fun j hj => by
    obtain ⟨d, ⟨-, him⟩, hseen⟩ :=
      exists_merged_seen laws hW hr (show 256 * b + j < W.cols by omega)
    have habs := hseen.abs
    rw [hseen.mask, him]
    unfold Direction.magnitude at habs
    cases hd : d.onReal with
    | true => exact Or.inr ⟨Bool.false_ne_true, by simp [singleAbs]⟩
    | false => exact Or.inl ⟨rfl, by simpa [hd] using habs⟩
  exact ⟨fun h => congrArg t.toHalf (hmax.1 h),
    fun h => (congrArg t.toHalf (hmax.2 h)).trans laws.toHalf_zero⟩

variable (hW : Quantizable t W)
include hW

lemma realUnit_toHalf_pos : 0 < halfToRat (t.toHalf (clearLast (realUnit t W))) := by
  obtain ⟨hlow, hhigh⟩ := realUnit_magnitude laws hW
  have hclear := clearLast_toNat (realUnit t W)
  obtain ⟨h0, hsign⟩ := laws.toHalf_pos (clearLast (realUnit t W)) (by omega) (by omega)
  exact halfToRat_pos h0 hsign

lemma imagUnit_toHalf_pos : 0 < halfToRat (t.toHalf (clearLast (imagUnit t W) ||| 1)) := by
  obtain ⟨hlow, hhigh⟩ := imagUnit_magnitude laws hW
  have hset := clearLast_or_one_toNat (imagUnit t W)
  obtain ⟨h0, hsign⟩ := laws.toHalf_pos (clearLast (imagUnit t W) ||| 1) (by omega) (by omega)
  exact halfToRat_pos h0 hsign

lemma emittedRow_phase {r k : ℕ} (hr : r < W.rows) (hk : k < W.cols) :
    (phaseRe (codeAt (emittedRow t W r (k / 256)).qs (k % 256)) ≠ 0 ↔ isReal t W r k) ∧
    (phaseIm (codeAt (emittedRow t W r (k / 256)).qs (k % 256)) ≠ 0 ↔ isImag t W r k) := by
  have hcode : codeAt (emittedRow t W r (k / 256)).qs (k % 256) =
      blockCode (merged t W r (256 * (k / 256) + k % 256)) := codeAt_repackBlock _ _ _
  obtain ⟨d, ⟨hre, him⟩, hseen⟩ := exists_merged_seen laws (hW.unitsFit laws) hr hk
  rw [hcode, Nat.div_add_mod, hseen.code, hre, him]
  cases d <;> simp [Direction.code, Direction.onReal, phaseRe, phaseIm]

end Blocks

/-! ## One activation at a time -/

/-- A row of activations that is one at element `c` and zero elsewhere. -/
def unitRow (c : ℕ) : ℕ → BlockIfairyQ16 := fun b =>
  { xReal := fun j => if 256 * b + j = c then 1 else 0
    xImag := fun _ => 0
    dReal := 0x3c00
    dImag := 0 }

lemma dequantQ16_unitRow (c k : ℕ) :
    dequantQ16 (unitRow c) k = ⟨if k = c then 1 else 0, 0⟩ := by
  have hre : q16Re (unitRow c (k / 256)) (k % 256) = if k = c then 1 else 0 := by
    simp only [q16Re, unitRow, Nat.div_add_mod]
    split_ifs <;> rfl
  have hone : halfToRat (unitRow c (k / 256)).dReal = 1 := halfToRat_one
  have him : q16Im (unitRow c (k / 256)) (k % 256) = 0 := rfl
  simp only [dequantQ16, hre, hone, him]
  split_ifs <;> simp

lemma dotConj_unitRow {n c : ℕ} (hc : c < n) (w : ℕ → Cplx) :
    dotConj n w (dequantQ16 (unitRow c)) = w c := by
  have hmem : c ∈ Finset.range n := Finset.mem_range.mpr hc
  simp only [dotConj, dequantQ16_unitRow, mul_ite, mul_one, mul_zero, add_zero, sub_zero,
    Finset.sum_ite_eq', hmem, if_true]

lemma dotConj_ext_iff (n : ℕ) (w w' : ℕ → Cplx) :
    (∀ x, dotConj n w (dequantQ16 x) = dotConj n w' (dequantQ16 x)) ↔ ∀ k < n, w k = w' k := by
  constructor
  · intro h k hk
    rw [← dotConj_unitRow hk w, h, dotConj_unitRow hk w']
  · exact fun h x => dotConj_congr h _

/-! ## The kernel on a converted row -/

section Row

variable {t : Torch} {W : ComplexMatrix} (laws : TorchLaws t) (hW : Quantizable t W)
include laws hW

lemma dequantRow_firstScales_iff {r : ℕ} (hr : r < W.rows) :
    (∀ k < W.cols, dequantRow (firstScales (emittedRow t W r)) k =
      dequantRow (emittedRow t W r) k) ↔ FirstBlockHasPhases t W r := by
  obtain ⟨nb, hcols⟩ := hW.cols
  have hreal := realUnit_toHalf_pos laws hW
  have himag := imagUnit_toHalf_pos laws hW
  have hnb : 0 < nb := by
    obtain ⟨_, _, c, hc, _⟩ := hW.exists_real
    exact Nat.pos_of_ne_zero fun h => by omega
  have hfirstRe := emittedRow_dReal laws (hW.unitsFit laws) hr (show 256 * 0 + 256 ≤ W.cols by omega)
  have hfirstIm := emittedRow_dImag laws (hW.unitsFit laws) hr (show 256 * 0 + 256 ≤ W.cols by omega)
  simp only [Nat.mul_zero, Nat.zero_add] at hfirstRe hfirstIm
  have hblock : ∀ k < W.cols, 256 * (k / 256) + 256 ≤ W.cols := fun k hk => by omega
  have hlast : ∀ k, k % 256 < 256 := fun k => Nat.mod_lt k (by decide)
  constructor
  · intro heq
    constructor
    · rintro ⟨k, hk, hre⟩
      by_contra hnone
      have hphase := (emittedRow_phase laws hW hr hk).1.mpr hre
      have hscale := (emittedRow_dReal laws (hW.unitsFit laws) hr (hblock k hk)).1
        ⟨k % 256, hlast k, by rwa [Nat.div_add_mod]⟩
      have hk' := congrArg Cplx.re (heq k hk)
      simp only [dequantRow, firstScales, hfirstRe.2 hnone, hscale, halfToRat_zero, mul_zero] at hk'
      exact mul_ne_zero (Int.cast_ne_zero.mpr hphase) hreal.ne' hk'.symm
    · rintro ⟨k, hk, him⟩
      by_contra hnone
      have hphase := (emittedRow_phase laws hW hr hk).2.mpr him
      have hscale := (emittedRow_dImag laws (hW.unitsFit laws) hr (hblock k hk)).1
        ⟨k % 256, hlast k, by rwa [Nat.div_add_mod]⟩
      have hk' := congrArg Cplx.im (heq k hk)
      simp only [dequantRow, firstScales, hfirstIm.2 hnone, hscale, halfToRat_zero, mul_zero] at hk'
      exact mul_ne_zero (Int.cast_ne_zero.mpr hphase) himag.ne' hk'.symm
  · rintro ⟨hallRe, hallIm⟩ k hk
    obtain ⟨hphaseRe, hphaseIm⟩ := emittedRow_phase laws hW hr hk
    simp only [dequantRow, firstScales, Cplx.mk.injEq]
    constructor
    · by_cases hre : isReal t W r k
      · have hscale := (emittedRow_dReal laws (hW.unitsFit laws) hr (hblock k hk)).1
          ⟨k % 256, hlast k, by rwa [Nat.div_add_mod]⟩
        rw [hscale, hfirstRe.1 (hallRe ⟨k, hk, hre⟩)]
      · rw [not_not.mp fun h => hre (hphaseRe.mp h), Int.cast_zero, zero_mul, zero_mul]
    · by_cases him : isImag t W r k
      · have hscale := (emittedRow_dImag laws (hW.unitsFit laws) hr (hblock k hk)).1
          ⟨k % 256, hlast k, by rwa [Nat.div_add_mod]⟩
        rw [hscale, hfirstIm.1 (hallIm ⟨k, hk, him⟩)]
      · rw [not_not.mp fun h => him (hphaseIm.mp h), Int.cast_zero, zero_mul, zero_mul]

/-- On a converted row the kernel is the dot product with the dequantised row exactly when the
row's first block has every phase that the row has. -/
theorem vecDot_emittedRow_iff {r : ℕ} (hr : r < W.rows) :
    (∀ x, vecDotIfairyQ16K W.cols (emittedRow t W r) x =
      dotConj W.cols (dequantRow (emittedRow t W r)) (dequantQ16 x)) ↔
    FirstBlockHasPhases t W r := by
  obtain ⟨nb, hcols⟩ := hW.cols
  have hkernel : ∀ x, vecDotIfairyQ16K W.cols (emittedRow t W r) x =
      dotConj W.cols (dequantRow (firstScales (emittedRow t W r))) (dequantQ16 x) := fun x => by
    rw [hcols, Nat.mul_comm]
    exact vecDotIfairyQ16K_eq nb _ x
  simp only [hkernel]
  rw [dotConj_ext_iff, dequantRow_firstScales_iff laws hW hr]

end Row

/-! ### A matrix of ones and imaginary units -/

/-- The library functions as they act on the weights `1` and `i`. -/
def unitTorch : Torch where
  angle _ im := if im = 0 then 0 else 0x3fc90fdb
  scale _ := singleOne
  div a _ := a
  add a b := if singleAbs b = 0 then a else b
  toHalf v := if v = 0 then 0 else 0x3c00

/-- One row of two blocks, with `i` in the columns of `imag` and `1` in the others. -/
def unitMatrix (imag : ℕ → Bool) : ComplexMatrix where
  rows := 1
  cols := 512
  re _ c := if imag c then 0 else singleOne
  im _ c := if imag c then singleOne else 0

lemma unitTorch_laws : TorchLaws unitTorch where
  div_negOne _ _ := show singleNegOne = singleNeg singleOne by decide
  div_zero _ _ := rfl
  add_zero _ _ _ := rfl
  zero_add _ _ habs := if_neg habs
  scale_ge _ _ _ := of_decide_eq_true rfl
  toHalf_zero := rfl
  toHalf_pos v hlow _ := by
    have hv : v ≠ 0 := fun h => by
      rw [h] at hlow
      exact absurd hlow (by decide)
    simp only [unitTorch, if_neg hv]
    decide

lemma isReal_unitMatrix (imag : ℕ → Bool) (r c : ℕ) :
    isReal unitTorch (unitMatrix imag) r c = !imag c := by
  cases h : imag c <;> simp [isReal, realPos, realNeg, phase, unitTorch, unitMatrix, h] <;> decide

lemma isImag_unitMatrix (imag : ℕ → Bool) (r c : ℕ) :
    isImag unitTorch (unitMatrix imag) r c = imag c := by
  cases h : imag c <;> simp [isImag, imagPos, imagNeg, phase, unitTorch, unitMatrix, h] <;> decide

lemma unitMatrix_quantizable {imag : ℕ → Bool} (hre : ∃ c < 512, imag c = false)
    (him : ∃ c < 512, imag c = true) : Quantizable unitTorch (unitMatrix imag) where
  cols := ⟨2, rfl⟩
  phase r _ c _ := by
    cases h : imag c <;> simp [phase, unitTorch, unitMatrix, h] <;> decide
  exists_real := ⟨0, Nat.one_pos, hre.imp fun c hc => ⟨hc.1, by simp [isReal_unitMatrix, hc.2]⟩⟩
  exists_imag := ⟨0, Nat.one_pos, him.imp fun c hc => ⟨hc.1, by simp [isImag_unitMatrix, hc.2]⟩⟩
  real_finite := ⟨⟨of_decide_eq_true rfl, of_decide_eq_true rfl⟩, of_decide_eq_true rfl⟩
  imag_finite := ⟨⟨of_decide_eq_true rfl, of_decide_eq_true rfl⟩, of_decide_eq_true rfl⟩

/-- With `i` in the odd columns the first block has both phases, and the kernel is the dot
product. -/
theorem vecDot_emittedRow_iff_alternating :
    let W := unitMatrix fun c => c % 2 == 1
    FirstBlockHasPhases unitTorch W 0 ∧ ∀ x, vecDotIfairyQ16K W.cols (emittedRow unitTorch W 0) x =
      dotConj W.cols (dequantRow (emittedRow unitTorch W 0)) (dequantQ16 x) := by
  intro W
  have hW : Quantizable unitTorch W :=
    unitMatrix_quantizable ⟨0, by decide, rfl⟩ ⟨1, by decide, rfl⟩
  have hfirst : FirstBlockHasPhases unitTorch W 0 :=
    ⟨fun _ => ⟨0, by decide, isReal_unitMatrix _ _ _⟩,
      fun _ => ⟨1, by decide, isImag_unitMatrix _ _ _⟩⟩
  exact ⟨hfirst, (vecDot_emittedRow_iff unitTorch_laws hW Nat.one_pos).mpr hfirst⟩

/-- With `i` throughout the first block and `1` throughout the second, the kernel drops the
second block: against the activation that is one at element 256 it returns zero, not one. -/
theorem vecDot_emittedRow_split :
    let W := unitMatrix fun c => c < 256
    TorchLaws unitTorch ∧ Quantizable unitTorch W ∧
      vecDotIfairyQ16K W.cols (emittedRow unitTorch W 0) (unitRow 256) = ⟨0, 0⟩ ∧
      dotConj W.cols (dequantRow (emittedRow unitTorch W 0)) (dequantQ16 (unitRow 256)) = ⟨1, 0⟩ := by
  intro W
  have hW : Quantizable unitTorch W :=
    unitMatrix_quantizable ⟨256, by decide, rfl⟩ ⟨0, by decide, rfl⟩
  have hmem : 256 < W.cols := by decide
  refine ⟨unitTorch_laws, hW, ?_, ?_⟩
  · refine (vecDotIfairyQ16K_eq 2 _ _).trans ((dotConj_unitRow hmem _).trans ?_)
    decide +kernel
  · rw [dotConj_unitRow hmem]
    decide +kernel

end IFairy
