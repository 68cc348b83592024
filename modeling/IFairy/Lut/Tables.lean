import IFairy.Framework.Avx2
import IFairy.Quant.Ifairy
import Mathlib.Tactic.FinCases

/-!
# Lookup tables of the LUT path

`ggml_ifairy_lut_preprocess_lut16` turns each pair of activations of a column into four tables of
sixteen `int8` entries, one entry per pattern of two weights.  The imaginary parts are negated
first, which folds the conjugation of the activations into the tables.

The source fills the tables in three ways, chosen by the compiler: with AVX2, with NEON, and entry
by entry.  For activations in `[-63, 63]` no entry saturates and the three agree
(`fillGroup_right`).  The columns or the groups are shared out among the workers;
`preprocess_lut` says what the buffers hold after all of them, in whatever order they ran.
-/

namespace IFairy

/-- The instruction set the kernels are compiled for. -/
inductive LutIsa
  | scalar
  | neon
  | avx2
deriving DecidableEq

/-- The four tables of a group. -/
structure GroupTables where
  ac : Fin 16 → Int8
  bd : Fin 16 → Int8
  bc : Fin 16 → Int8
  ad : Fin 16 → Int8

/-! ## The scalar tables -/

/-- Sums of `a` and `b` with the signs of the real phases: `ac_tbl` and `ad_tbl`. -/
def realTable (a b : ℤ) : Fin 16 → Int8 :=
  ![satS8 (-a - b), satS8 (a - b), satS8 (-b), satS8 (-b),
    satS8 (-a + b), satS8 (a + b), satS8 b, satS8 b,
    satS8 (-a), satS8 a, 0, 0,
    satS8 (-a), satS8 a, 0, 0]

/-- Sums of `a` and `b` with the signs of the imaginary phases: `bc_tbl`. -/
def imagTable (a b : ℤ) : Fin 16 → Int8 :=
  ![0, 0, satS8 (-a), satS8 a,
    0, 0, satS8 (-a), satS8 a,
    satS8 (-b), satS8 (-b), satS8 (-a - b), satS8 (a - b),
    satS8 b, satS8 b, satS8 (-a + b), satS8 (a + b)]

/-- The same with the opposite signs: `bd_tbl`. -/
def imagNegTable (a b : ℤ) : Fin 16 → Int8 :=
  ![0, 0, satS8 a, satS8 (-a),
    0, 0, satS8 a, satS8 (-a),
    satS8 b, satS8 b, satS8 (a + b), satS8 (-a + b),
    satS8 (-b), satS8 (-b), satS8 (a - b), satS8 (-a - b)]

def fillGroupScalar (r0 i0 r1 i1 : ℤ) : GroupTables where
  ac := realTable r0 r1
  bd := imagNegTable i0 i1
  bc := imagTable r0 r1
  ad := realTable i0 i1

/-! ## The vector tables -/

def c0Ac : Fin 16 → Int8 := ![-1, 1, 0, 0, -1, 1, 0, 0, -1, 1, 0, 0, -1, 1, 0, 0]

def c1Ac : Fin 16 → Int8 := ![-1, -1, -1, -1, 1, 1, 1, 1, 0, 0, 0, 0, 0, 0, 0, 0]

def c0Bd : Fin 16 → Int8 := ![0, 0, 1, -1, 0, 0, 1, -1, 0, 0, 1, -1, 0, 0, 1, -1]

def c1Bd : Fin 16 → Int8 := ![0, 0, 0, 0, 0, 0, 0, 0, 1, 1, 1, 1, -1, -1, -1, -1]

def c0Bc : Fin 16 → Int8 := ![0, 0, -1, 1, 0, 0, -1, 1, 0, 0, -1, 1, 0, 0, -1, 1]

def c1Bc : Fin 16 → Int8 := ![0, 0, 0, 0, 0, 0, 0, 0, -1, -1, -1, -1, 1, 1, 1, 1]

def c0Ad : Fin 16 → Int8 := ![-1, 1, 0, 0, -1, 1, 0, 0, -1, 1, 0, 0, -1, 1, 0, 0]

def c1Ad : Fin 16 → Int8 := ![-1, -1, -1, -1, 1, 1, 1, 1, 0, 0, 0, 0, 0, 0, 0, 0]

/-- The NEON tables: `vqaddq_s8 (vmulq_s8 v0 c0) (vmulq_s8 v1 c1)`. -/
def fillGroupNeon (r0 i0 r1 i1 : ℤ) : GroupTables :=
  let table (v0 v1 : ℤ) (c0 c1 : Fin 16 → Int8) : Fin 16 → Int8 :=
    Neon.vqaddq (Neon.vmulq (Neon.vdupq (Int8.ofInt v0)) c0)
      (Neon.vmulq (Neon.vdupq (Int8.ofInt v1)) c1)
  { ac := table r0 r1 c0Ac c1Ac
    bd := table i0 i1 c0Bd c1Bd
    bc := table r0 r1 c0Bc c1Bc
    ad := table i0 i1 c0Ad c1Ad }

/-- The AVX2 tables: `ac` and `bc` in the halves of one vector, `bd` and `ad` in those of
another. -/
def fillGroupAvx2 (r0 i0 r1 i1 : ℤ) : GroupTables :=
  let table (v0 v1 : ℤ) (c0 c1 : Fin 32 → Int8) : Fin 32 → Int8 :=
    Avx2.addsEpi8 (Avx2.signEpi8 (Avx2.set1Epi8 (Int8.ofInt v0)) c0)
      (Avx2.signEpi8 (Avx2.set1Epi8 (Int8.ofInt v1)) c1)
  let tblAcBc := table r0 r1 (Avx2.setrEpi8 c0Ac c0Bc) (Avx2.setrEpi8 c1Ac c1Bc)
  let tblBdAd := table i0 i1 (Avx2.setrEpi8 c0Bd c0Ad) (Avx2.setrEpi8 c1Bd c1Ad)
  { ac := Avx2.castsi128 tblAcBc
    bd := Avx2.castsi128 tblBdAd
    bc := Avx2.extracti128 tblAcBc
    ad := Avx2.extracti128 tblBdAd }

/-- The tables of `ggml_ifairy_lut_fill_group_lut16`. -/
def fillGroup (isa : LutIsa) (xr0 xi0 xr1 xi1 : ℤ) : GroupTables :=
  let r0 := xr0
  let r1 := xr1
  let i0 := -xi0
  let i1 := -xi1
  match isa with
  | .scalar => fillGroupScalar r0 i0 r1 i1
  | .neon => fillGroupNeon r0 i0 r1 i1
  | .avx2 => fillGroupAvx2 r0 i0 r1 i1

/-! ## The entries -/

def firstCode (p : ℕ) : UInt8 := UInt8.ofNat (p % 4)

def secondCode (p : ℕ) : UInt8 := UInt8.ofNat (p / 4 % 4)

/-- What a table entry is for: the contribution of the two weights of the pattern. -/
structure GroupTables.Right (t : GroupTables) (xr0 xi0 xr1 xi1 : ℤ) : Prop where
  ac : ∀ p, (t.ac p).toInt = phaseRe (firstCode p) * xr0 + phaseRe (secondCode p) * xr1
  bd : ∀ p, (t.bd p).toInt = phaseIm (firstCode p) * xi0 + phaseIm (secondCode p) * xi1
  bc : ∀ p, (t.bc p).toInt = phaseIm (firstCode p) * xr0 + phaseIm (secondCode p) * xr1
  ad : ∀ p, (t.ad p).toInt = -(phaseRe (firstCode p) * xi0 + phaseRe (secondCode p) * xi1)

/-- An activation component that the dispatch accepts. -/
def InLutRange (v : ℤ) : Prop := -63 ≤ v ∧ v ≤ 63

lemma InLutRange.neg {v : ℤ} (h : InLutRange v) : InLutRange (-v) :=
  ⟨by have := h.2; omega, by have := h.1; omega⟩

/-! ### Three ways to the same entry -/

lemma realTable_eq (a b : ℤ) (p : Fin 16) :
    realTable a b p = satS8 ((c0Ac p).toInt * a + (c1Ac p).toInt * b) := by
  have hzero : satS8 0 = 0 := rfl
  have hneg : (-1 : Int8).toInt = -1 := rfl
  fin_cases p <;> simp [realTable, c0Ac, c1Ac, hzero, hneg, sub_eq_add_neg]

lemma imagTable_eq (a b : ℤ) (p : Fin 16) :
    imagTable a b p = satS8 ((c0Bc p).toInt * a + (c1Bc p).toInt * b) := by
  have hzero : satS8 0 = 0 := rfl
  have hneg : (-1 : Int8).toInt = -1 := rfl
  fin_cases p <;> simp [imagTable, c0Bc, c1Bc, hzero, hneg, sub_eq_add_neg]

lemma imagNegTable_eq (a b : ℤ) (p : Fin 16) :
    imagNegTable a b p = satS8 ((c0Bd p).toInt * a + (c1Bd p).toInt * b) := by
  have hzero : satS8 0 = 0 := rfl
  have hneg : (-1 : Int8).toInt = -1 := rfl
  fin_cases p <;> simp [imagNegTable, c0Bd, c1Bd, hzero, hneg, sub_eq_add_neg]

/-- A lane constant of the vector tables. -/
def IsSign (c : Int8) : Prop := c = -1 ∨ c = 0 ∨ c = 1

instance : DecidablePred IsSign := fun c => inferInstanceAs (Decidable (c = -1 ∨ c = 0 ∨ c = 1))

lemma isSign_coefficients :
    (∀ p, IsSign (c0Ac p)) ∧ (∀ p, IsSign (c1Ac p)) ∧ (∀ p, IsSign (c0Bd p)) ∧
      (∀ p, IsSign (c1Bd p)) ∧ (∀ p, IsSign (c0Bc p)) ∧ ∀ p, IsSign (c1Bc p) := by
  decide

lemma IsSign.mul_toInt {c : Int8} (hc : IsSign c) {v : ℤ} (hv : InLutRange v) :
    (Int8.ofInt v * c).toInt = c.toInt * v := by
  obtain ⟨hlow, hhigh⟩ := hv
  have hofInt : (Int8.ofInt v).toInt = v := Int8.toInt_ofInt_of_le (by omega) (by omega)
  have hneg : (-1 : Int8).toInt = -1 := rfl
  rw [Int8.toInt_mul, hofInt]
  rcases hc with rfl | rfl | rfl
  · rw [hneg, Int.bmod_eq_of_le] <;> omega
  · simp
  · rw [Int8.toInt_one, Int.bmod_eq_of_le] <;> omega

lemma IsSign.sign_toInt {c : Int8} (hc : IsSign c) {v : ℤ} (hv : InLutRange v) :
    (if c < 0 then -Int8.ofInt v else if c = 0 then 0 else Int8.ofInt v).toInt = c.toInt * v := by
  obtain ⟨hlow, hhigh⟩ := hv
  have hofInt : (Int8.ofInt v).toInt = v := Int8.toInt_ofInt_of_le (by omega) (by omega)
  have hneg : (-1 : Int8).toInt = -1 := rfl
  rcases hc with rfl | rfl | rfl
  · rw [if_pos (by decide), Int8.toInt_neg, hofInt, hneg, Int.bmod_eq_of_le] <;> omega
  · simp
  · rw [if_neg (by decide), if_neg (by decide), hofInt, Int8.toInt_one, one_mul]

section Signs

variable {c0 c1 : Fin 16 → Int8} {a b : ℤ}

lemma neonTable_eq (h0 : ∀ p, IsSign (c0 p)) (h1 : ∀ p, IsSign (c1 p)) (ha : InLutRange a)
    (hb : InLutRange b) (p : Fin 16) :
    Neon.vqaddq (Neon.vmulq (Neon.vdupq (Int8.ofInt a)) c0)
      (Neon.vmulq (Neon.vdupq (Int8.ofInt b)) c1) p =
      satS8 ((c0 p).toInt * a + (c1 p).toInt * b) := by
  rw [Neon.vqaddq, Neon.vmulq, Neon.vmulq, Neon.vdupq, Neon.vdupq, (h0 p).mul_toInt ha,
    (h1 p).mul_toInt hb]

lemma avx2Table_eq {c0 c1 : Fin 32 → Int8} {l : Fin 32} (h0 : IsSign (c0 l)) (h1 : IsSign (c1 l))
    (ha : InLutRange a) (hb : InLutRange b) :
    Avx2.addsEpi8 (Avx2.signEpi8 (Avx2.set1Epi8 (Int8.ofInt a)) c0)
      (Avx2.signEpi8 (Avx2.set1Epi8 (Int8.ofInt b)) c1) l =
      satS8 ((c0 l).toInt * a + (c1 l).toInt * b) := by
  rw [Avx2.addsEpi8, Avx2.signEpi8, Avx2.signEpi8, Avx2.set1Epi8, Avx2.set1Epi8, h0.sign_toInt ha,
    h1.sign_toInt hb]

lemma signed_sum_toInt (h0 : ∀ p, IsSign (c0 p)) (h1 : ∀ p, IsSign (c1 p)) (ha : InLutRange a)
    (hb : InLutRange b) (p : Fin 16) :
    (satS8 ((c0 p).toInt * a + (c1 p).toInt * b)).toInt =
      (c0 p).toInt * a + (c1 p).toInt * b := by
  have hbound : ∀ {c : Int8} {v : ℤ}, IsSign c → InLutRange v → InLutRange (c.toInt * v) := by
    rintro c v (rfl | rfl | rfl) hv
    · simpa using hv.neg
    · exact ⟨by simp, by simp⟩
    · simpa using hv
  obtain ⟨hlow, hhigh⟩ := hbound (h0 p) ha
  obtain ⟨hlow', hhigh'⟩ := hbound (h1 p) hb
  exact satS8_toInt (by omega) (by omega)

end Signs

lemma setrEpi8_castsi128 (lower upper : Fin 16 → Int8) (p : Fin 16) :
    Avx2.setrEpi8 lower upper ⟨p, low_lt_thirtyTwo p⟩ = lower p := dif_pos p.isLt

lemma setrEpi8_extracti128 (lower upper : Fin 16 → Int8) (p : Fin 16) :
    Avx2.setrEpi8 lower upper ⟨16 + p, high_lt_thirtyTwo p⟩ = upper p := by
  have hlt : ¬ 16 + (p : ℕ) < 16 := by omega
  rw [Avx2.setrEpi8, dif_neg hlt]
  congr 1
  exact Fin.ext (Nat.add_sub_cancel_left 16 p)

section FillGroup

variable {xr0 xi0 xr1 xi1 : ℤ} (hr0 : InLutRange xr0) (hi0 : InLutRange xi0)
  (hr1 : InLutRange xr1) (hi1 : InLutRange xi1)
include hr0 hi0 hr1 hi1

lemma fillGroup_entry (isa : LutIsa) (p : Fin 16) :
    (fillGroup isa xr0 xi0 xr1 xi1).ac p =
      satS8 ((c0Ac p).toInt * xr0 + (c1Ac p).toInt * xr1) ∧
    (fillGroup isa xr0 xi0 xr1 xi1).bd p =
      satS8 ((c0Bd p).toInt * -xi0 + (c1Bd p).toInt * -xi1) ∧
    (fillGroup isa xr0 xi0 xr1 xi1).bc p =
      satS8 ((c0Bc p).toInt * xr0 + (c1Bc p).toInt * xr1) ∧
    (fillGroup isa xr0 xi0 xr1 xi1).ad p =
      satS8 ((c0Ad p).toInt * -xi0 + (c1Ad p).toInt * -xi1) := by
  obtain ⟨hAc0, hAc1, hBd0, hBd1, hBc0, hBc1⟩ := isSign_coefficients
  cases isa with
  | scalar => exact ⟨realTable_eq _ _ p, imagNegTable_eq _ _ p, imagTable_eq _ _ p,
      realTable_eq _ _ p⟩
  | neon => exact ⟨neonTable_eq hAc0 hAc1 hr0 hr1 p, neonTable_eq hBd0 hBd1 hi0.neg hi1.neg p,
      neonTable_eq hBc0 hBc1 hr0 hr1 p, neonTable_eq hAc0 hAc1 hi0.neg hi1.neg p⟩
  | avx2 =>
    -- `ac` and `bd` lie in the lower halves, `bc` and `ad` in the upper ones
    refine ⟨?_, ?_, ?_, ?_⟩
    · refine (avx2Table_eq ?_ ?_ hr0 hr1).trans ?_ <;> simp only [setrEpi8_castsi128]
      · exact hAc0 p
      · exact hAc1 p
    · refine (avx2Table_eq ?_ ?_ hi0.neg hi1.neg).trans ?_ <;> simp only [setrEpi8_castsi128]
      · exact hBd0 p
      · exact hBd1 p
    · refine (avx2Table_eq ?_ ?_ hr0 hr1).trans ?_ <;> simp only [setrEpi8_extracti128]
      · exact hBc0 p
      · exact hBc1 p
    · refine (avx2Table_eq ?_ ?_ hi0.neg hi1.neg).trans ?_ <;> simp only [setrEpi8_extracti128]
      · exact hAc0 p
      · exact hAc1 p

theorem fillGroup_right (isa : LutIsa) :
    (fillGroup isa xr0 xi0 xr1 xi1).Right xr0 xi0 xr1 xi1 := by
  have hentry := fillGroup_entry hr0 hi0 hr1 hi1 isa
  constructor <;> intro p
  · have hcode : ∀ p : Fin 16, (c0Ac p).toInt = phaseRe (firstCode p) ∧
      (c1Ac p).toInt = phaseRe (secondCode p) := by decide
    rw [(hentry p).1, signed_sum_toInt (by decide) (by decide) hr0 hr1, (hcode p).1, (hcode p).2]
  · have hcode : ∀ p : Fin 16, (c0Bd p).toInt = -phaseIm (firstCode p) ∧
      (c1Bd p).toInt = -phaseIm (secondCode p) := by decide
    rw [(hentry p).2.1, signed_sum_toInt (by decide) (by decide) hi0.neg hi1.neg, (hcode p).1,
      (hcode p).2]
    ring
  · have hcode : ∀ p : Fin 16, (c0Bc p).toInt = phaseIm (firstCode p) ∧
      (c1Bc p).toInt = phaseIm (secondCode p) := by decide
    rw [(hentry p).2.2.1, signed_sum_toInt (by decide) (by decide) hr0 hr1, (hcode p).1,
      (hcode p).2]
  · have hcode : ∀ p : Fin 16, (c0Ad p).toInt = phaseRe (firstCode p) ∧
      (c1Ad p).toInt = phaseRe (secondCode p) := by decide
    rw [(hentry p).2.2.2, signed_sum_toInt (by decide) (by decide) hi0.neg hi1.neg, (hcode p).1,
      (hcode p).2]
    ring

end FillGroup

/-! ## The buffers of a column -/

/-- The table buffer and the scale buffer, shared by all columns. -/
structure LutBuffers where
  lut : ℕ → Int8
  scales : ℕ → ℚ

/-- The four tables of a group stored, 64 bytes in the order `ac`, `bd`, `bc`, `ad`. -/
def GroupTables.store (t : GroupTables) (p : ℕ) (mem : ℕ → Int8) : ℕ → Int8 :=
  Neon.vst1q (Neon.vst1q (Neon.vst1q (Neon.vst1q mem p t.ac) (p + 16) t.bd) (p + 32) t.bc)
    (p + 48) t.ad

/-- The 64 bytes of a stored group. -/
def GroupTables.byte (t : GroupTables) (c : Fin 64) : Int8 :=
  let p : Fin 16 := ⟨c % 16, Nat.mod_lt _ (by decide)⟩
  match (c : ℕ) / 16 with
  | 0 => t.ac p
  | 1 => t.bd p
  | 2 => t.bc p
  | _ => t.ad p

/-- The tables of group `g` of a column. -/
def groupTables (isa : LutIsa) (actBlocks : ℕ → BlockIfairyQ16) (groupsPerBlock g : ℕ) :
    GroupTables :=
  let blk := g / groupsPerBlock
  let baseOff := g % groupsPerBlock * 2
  fillGroup isa (q16Re (actBlocks blk) (baseOff + 0)) (q16Im (actBlocks blk) (baseOff + 0))
    (q16Re (actBlocks blk) (baseOff + 1)) (q16Im (actBlocks blk) (baseOff + 1))

def fillScales (actBlocks : ℕ → BlockIfairyQ16) (blocks scalesOut : ℕ) (scales : ℕ → ℚ) : ℕ → ℚ :=
  (List.range blocks).foldl (fun scales blk =>
    Function.update (Function.update scales (scalesOut + (blk * 2 + 0))
      (halfToRat (actBlocks blk).dReal)) (scalesOut + (blk * 2 + 1))
      (halfToRat (actBlocks blk).dImag)) scales

/-- The tables of the groups `gs` of a column. -/
def fillTables (isa : LutIsa) (actBlocks : ℕ → BlockIfairyQ16) (groupsPerBlock lutOut : ℕ)
    (gs : List ℕ) (lut : ℕ → Int8) : ℕ → Int8 :=
  gs.foldl (fun lut g =>
    (groupTables isa actBlocks groupsPerBlock g).store (lutOut + g * 64) lut) lut

/-- `ggml_ifairy_lut_preprocess_lut16_one`, with the offsets of the column in the two buffers. -/
def preprocessLut16One (isa : LutIsa) (actBlocks : ℕ → BlockIfairyQ16)
    (blocks groupsPerBlock scalesOut lutOut g0 gstep : ℕ) (buf : LutBuffers) : LutBuffers where
  scales := if g0 = 0 then fillScales actBlocks blocks scalesOut buf.scales else buf.scales
  lut := fillTables isa actBlocks groupsPerBlock lutOut
    (fromRange g0 (blocks * groupsPerBlock) gstep) buf.lut

/-- The loop of `ggml_ifairy_lut_preprocess_lut16` over the columns of a worker. -/
def workerColumns (isa : LutIsa) (act : ℕ → ℕ → BlockIfairyQ16)
    (blocks colStart n colStep g0 gstep : ℕ) (buf : LutBuffers) : LutBuffers :=
  (fromRange colStart n colStep).foldl (fun buf col =>
    preprocessLut16One isa (act col) blocks 128 (col * blocks * 2) (col * (blocks * 128) * 64)
      g0 gstep buf) buf

/-- `ggml_ifairy_lut_preprocess_lut16`: the part of worker `ith` of `nth`. -/
def preprocessLut16 (isa : LutIsa) (k n : ℕ) (act : ℕ → ℕ → BlockIfairyQ16) (ith nth : ℕ)
    (buf : LutBuffers) : LutBuffers :=
  let nth := max nth 1
  if nth ≤ ith then buf
  else
    let blocks := k / 256
    -- with fewer columns than workers, the workers share out the groups of every column
    if nth ≤ n then workerColumns isa act blocks ith n nth 0 1 buf
    else workerColumns isa act blocks 0 n 1 ith nth buf

/-! ## After all workers -/

lemma GroupTables.store_own (t : GroupTables) (q : ℕ) (mem : ℕ → Int8) (c : Fin 64) :
    t.store (q * 64) mem (q * 64 + c) = t.byte c := by
  have hc := c.isLt
  have hmod : ∀ d, d * 16 ≤ (c : ℕ) → (c : ℕ) < d * 16 + 16 →
      (c : ℕ) / 16 = d ∧ (c : ℕ) % 16 = c - d * 16 := fun d h h' => by omega
  unfold GroupTables.store
  rcases Nat.lt_or_ge c 48 with h48 | h48
  · rw [Neon.vst1q_of_not_mem _ _ (by omega)]
    rcases Nat.lt_or_ge c 32 with h32 | h32
    · rw [Neon.vst1q_of_not_mem _ _ (by omega)]
      rcases Nat.lt_or_ge c 16 with h16 | h16
      · rw [Neon.vst1q_of_not_mem _ _ (by omega), Neon.vst1q_of_mem _ _ (by omega)]
        obtain ⟨hdiv, hmod⟩ := hmod 0 (by omega) (by omega)
        simp only [GroupTables.byte, hdiv, hmod]
        congr 2
        omega
      · rw [Neon.vst1q_of_mem _ _ (by omega)]
        obtain ⟨hdiv, hmod⟩ := hmod 1 (by omega) (by omega)
        simp only [GroupTables.byte, hdiv, hmod]
        congr 2
        omega
    · rw [Neon.vst1q_of_mem _ _ (by omega)]
      obtain ⟨hdiv, hmod⟩ := hmod 2 (by omega) (by omega)
      simp only [GroupTables.byte, hdiv, hmod]
      congr 2
      omega
  · rw [Neon.vst1q_of_mem _ _ (by omega)]
    obtain ⟨hdiv, hmod⟩ := hmod 3 (by omega) (by omega)
    simp only [GroupTables.byte, hdiv, hmod]
    congr 2
    omega

lemma GroupTables.store_other (t : GroupTables) {q q' : ℕ} (h : q' ≠ q) (mem : ℕ → Int8)
    (c : Fin 64) : t.store (q * 64) mem (q' * 64 + c) = mem (q' * 64 + c) := by
  have hc := c.isLt
  unfold GroupTables.store
  rw [Neon.vst1q_of_not_mem _ _ (by omega), Neon.vst1q_of_not_mem _ _ (by omega),
    Neon.vst1q_of_not_mem _ _ (by omega), Neon.vst1q_of_not_mem _ _ (by omega)]

lemma fillTables_own (isa : LutIsa) (actBlocks : ℕ → BlockIfairyQ16) {gpb : ℕ} (base : ℕ)
    {gs : List ℕ} {g : ℕ} (hg : g ∈ gs) (lut : ℕ → Int8) (c : Fin 64) :
    fillTables isa actBlocks gpb (base * 64) gs lut ((base + g) * 64 + c) =
      (groupTables isa actBlocks gpb g).byte c := by
  refine foldl_read_of_cover _ (fun lut : ℕ → Int8 => lut ((base + g) * 64 + c)) (fun g' => g' = g)
    _ ?_ ?_ ⟨g, hg, rfl⟩ lut
  · rintro g' - rfl lut
    rw [← Nat.add_mul]
    exact GroupTables.store_own _ _ _ c
  · intro g' _ hne lut
    rw [← Nat.add_mul]
    exact GroupTables.store_other _ (fun heq => hne (Nat.add_left_cancel heq).symm) _ c

lemma fillTables_other (isa : LutIsa) (actBlocks : ℕ → BlockIfairyQ16) {gpb base q : ℕ}
    {gs : List ℕ} (h : ∀ g ∈ gs, q ≠ base + g) (lut : ℕ → Int8) (c : Fin 64) :
    fillTables isa actBlocks gpb (base * 64) gs lut (q * 64 + c) = lut (q * 64 + c) := by
  refine foldl_read_of_not_cover _ (fun lut : ℕ → Int8 => lut (q * 64 + c)) (fun g hg lut => ?_) lut
  rw [← Nat.add_mul]
  exact GroupTables.store_other _ (h g hg) _ c

lemma fillScales_own (actBlocks : ℕ → BlockIfairyQ16) {blocks blk : ℕ} (base : ℕ)
    (hblk : blk < blocks) (scales : ℕ → ℚ) :
    fillScales actBlocks blocks (base * 2) scales ((base + blk) * 2) =
      halfToRat (actBlocks blk).dReal ∧
    fillScales actBlocks blocks (base * 2) scales ((base + blk) * 2 + 1) =
      halfToRat (actBlocks blk).dImag := by
  constructor
  · refine foldl_read_of_cover _ (fun scales : ℕ → ℚ => scales ((base + blk) * 2))
      (fun b => b = blk) _ ?_ ?_ ⟨blk, List.mem_range.mpr hblk, rfl⟩ scales
    · rintro b - rfl scales
      rw [Function.update_of_ne (by omega), Nat.add_mul]
      exact Function.update_self _ _ _
    · intro b _ hne scales
      rw [Function.update_of_ne (by omega), Function.update_of_ne (by omega)]
  · refine foldl_read_of_cover _ (fun scales : ℕ → ℚ => scales ((base + blk) * 2 + 1))
      (fun b => b = blk) _ ?_ ?_ ⟨blk, List.mem_range.mpr hblk, rfl⟩ scales
    · rintro b - rfl scales
      rw [Nat.add_mul]
      exact Function.update_self _ _ _
    · intro b _ hne scales
      rw [Function.update_of_ne (by omega), Function.update_of_ne (by omega)]

lemma fillScales_other (actBlocks : ℕ → BlockIfairyQ16) {blocks base q : ℕ}
    (h : ∀ blk < blocks, q ≠ base + blk) (scales : ℕ → ℚ) {e : ℕ} (he : e < 2) :
    fillScales actBlocks blocks (base * 2) scales (q * 2 + e) = scales (q * 2 + e) := by
  refine foldl_read_of_not_cover _ (fun scales : ℕ → ℚ => scales (q * 2 + e)) ?_ scales
  intro blk hblk scales
  have hne := h blk (List.mem_range.mp hblk)
  rw [Function.update_of_ne (by omega), Function.update_of_ne (by omega)]

/-- What the buffers hold for a column. -/
structure LutBuffers.Holds (buf : LutBuffers) (isa : LutIsa) (nb col : ℕ)
    (actBlocks : ℕ → BlockIfairyQ16) : Prop where
  group : ∀ g < nb * 128, ∀ c : Fin 64,
    buf.lut ((col * (nb * 128) + g) * 64 + c) = (groupTables isa actBlocks 128 g).byte c
  scale : ∀ blk < nb, buf.scales ((col * nb + blk) * 2) = halfToRat (actBlocks blk).dReal ∧
    buf.scales ((col * nb + blk) * 2 + 1) = halfToRat (actBlocks blk).dImag

section Columns

variable {isa : LutIsa} {act : ℕ → ℕ → BlockIfairyQ16} {gpb nb col g : ℕ} {cols gs : List ℕ}
  {one : LutBuffers → ℕ → LutBuffers}

lemma columns_group_own
    (hone : ∀ buf col, (one buf col).lut =
      fillTables isa (act col) gpb (col * (nb * gpb) * 64) gs buf.lut)
    (hgs : ∀ g ∈ gs, g < nb * gpb) (hcol : col ∈ cols) (hg : g ∈ gs) (buf : LutBuffers)
    (c : Fin 64) :
    (cols.foldl one buf).lut ((col * (nb * gpb) + g) * 64 + c) =
      (groupTables isa (act col) gpb g).byte c := by
  refine foldl_read_of_cover _
    (fun buf : LutBuffers => buf.lut ((col * (nb * gpb) + g) * 64 + c)) (fun col' => col' = col) _
    ?_ ?_ ⟨col, hcol, rfl⟩ buf
  · rintro col' - rfl buf
    rw [hone]
    exact fillTables_own isa (act col') _ hg buf.lut c
  · intro col' _ hne buf
    rw [hone]
    refine fillTables_other isa (act col') (fun g' hg' heq => hne ?_) buf.lut c
    exact (mul_add_inj (hgs g hg) (hgs g' hg') heq).1.symm

lemma columns_group_other
    (hone : ∀ buf col, (one buf col).lut =
      fillTables isa (act col) gpb (col * (nb * gpb) * 64) gs buf.lut)
    (hgs : ∀ g ∈ gs, g < nb * gpb) (hg : g < nb * gpb) (h : ¬ (col ∈ cols ∧ g ∈ gs))
    (buf : LutBuffers) (c : Fin 64) :
    (cols.foldl one buf).lut ((col * (nb * gpb) + g) * 64 + c) =
      buf.lut ((col * (nb * gpb) + g) * 64 + c) := by
  refine foldl_read_of_not_cover _
    (fun buf : LutBuffers => buf.lut ((col * (nb * gpb) + g) * 64 + c)) ?_ buf
  intro col' hcol' buf
  rw [hone]
  refine fillTables_other isa (act col') (fun g' hg' heq => h ?_) buf.lut c
  obtain ⟨rfl, rfl⟩ := mul_add_inj hg (hgs g' hg') heq
  exact ⟨hcol', hg'⟩

end Columns

section Preprocess

variable (isa : LutIsa) {nb n : ℕ} (act : ℕ → ℕ → BlockIfairyQ16)

variable {col colStart colStep g0 gstep : ℕ} (buf : LutBuffers)

lemma workerColumns_group_own (hcol : col ∈ fromRange colStart n colStep) {g : ℕ}
    (hg : g ∈ fromRange g0 (nb * 128) gstep) (hstep : 0 < gstep) (c : Fin 64) :
    (workerColumns isa act nb colStart n colStep g0 gstep buf).lut
      ((col * (nb * 128) + g) * 64 + c) = (groupTables isa (act col) 128 g).byte c :=
  columns_group_own (fun _ _ => rfl) (fun _ hg => ((mem_fromRange hstep).mp hg).2.1) hcol hg buf c

lemma workerColumns_group_other {g : ℕ} (hg : g < nb * 128) (hstep : 0 < gstep)
    (h : ¬ (col ∈ fromRange colStart n colStep ∧ g ∈ fromRange g0 (nb * 128) gstep)) (c : Fin 64) :
    (workerColumns isa act nb colStart n colStep g0 gstep buf).lut
      ((col * (nb * 128) + g) * 64 + c) = buf.lut ((col * (nb * 128) + g) * 64 + c) :=
  columns_group_other (fun _ _ => rfl) (fun _ hg => ((mem_fromRange hstep).mp hg).2.1) hg h buf c

lemma workerColumns_scale_own (hcol : col ∈ fromRange colStart n colStep) {blk : ℕ}
    (hblk : blk < nb) {e : ℕ} (he : e < 2) :
    (workerColumns isa act nb colStart n colStep 0 gstep buf).scales ((col * nb + blk) * 2 + e) =
      if e = 0 then halfToRat (act col blk).dReal else halfToRat (act col blk).dImag := by
  refine foldl_read_of_cover _
    (fun buf : LutBuffers => buf.scales ((col * nb + blk) * 2 + e)) (fun col' => col' = col) _
    ?_ ?_ ⟨col, hcol, rfl⟩ buf
  · rintro col' - rfl buf
    obtain ⟨hreal, himag⟩ := fillScales_own (act col') (col' * nb) hblk buf.scales
    rcases Nat.lt_or_ge e 1 with h | h
    · obtain rfl : e = 0 := Nat.lt_one_iff.mp h
      exact hreal
    · obtain rfl : e = 1 := by omega
      exact himag
  · intro col' _ hne buf
    refine fillScales_other (act col') (fun b hb heq => hne ?_) buf.scales he
    exact (mul_add_inj hblk hb heq).1.symm

lemma workerColumns_scale_other {blk : ℕ} (hblk : blk < nb)
    (h : ¬ (col ∈ fromRange colStart n colStep ∧ g0 = 0)) {e : ℕ} (he : e < 2) :
    (workerColumns isa act nb colStart n colStep g0 gstep buf).scales ((col * nb + blk) * 2 + e) =
      buf.scales ((col * nb + blk) * 2 + e) := by
  refine foldl_read_of_not_cover _
    (fun buf : LutBuffers => buf.scales ((col * nb + blk) * 2 + e)) ?_ buf
  intro col' hcol' buf
  simp only [preprocessLut16One]
  split_ifs with hg0
  · refine fillScales_other (act col') (fun b hb heq => h ?_) buf.scales he
    obtain ⟨rfl, -⟩ := mul_add_inj hblk hb heq
    exact ⟨hcol', hg0⟩
  · rfl

/-- A place that one worker sets and the others leave alone ends as that worker set it, in
whatever order the workers run. -/
lemma preprocess_read {σ : Type*} {k nth : ℕ} {order : List ℕ} (hall : ∀ ith < nth, ith ∈ order)
    (read : LutBuffers → σ) (v : σ) {owner : ℕ} (howner : owner < nth)
    (hown : ∀ buf, read (preprocessLut16 isa k n act owner nth buf) = v)
    (hother : ∀ ith < nth, ith ≠ owner → ∀ buf,
      read (preprocessLut16 isa k n act ith nth buf) = read buf) :
    read (order.foldl (fun buf ith => preprocessLut16 isa k n act ith nth buf) buf) = v := by
  refine foldl_read_of_cover _ read (fun ith => ith = owner) v ?_ ?_ ⟨owner, hall owner howner, rfl⟩
    buf
  · rintro ith - rfl buf
    exact hown buf
  · intro ith _ hne buf
    by_cases hith : ith < nth
    · exact hother ith hith hne buf
    · have hidle : max nth 1 ≤ ith := max_le (not_lt.mp hith) (by omega)
      simp only [preprocessLut16, if_pos hidle]

/-- After all workers, in any order, the buffers hold the tables and the scales of every
column. -/
theorem preprocess_holds {nth : ℕ} (hnth : 0 < nth) {order : List ℕ}
    (hall : ∀ ith < nth, ith ∈ order) (hcol : col < n) :
    (order.foldl (fun buf ith => preprocessLut16 isa (nb * 256) n act ith nth buf) buf).Holds
      isa nb col (act col) := by
  have hblocks : nb * 256 / 256 = nb := Nat.mul_div_cancel nb (by decide)
  have hmax : max nth 1 = nth := max_eq_left hnth
  have hone : ∀ {stop c}, c < stop → c ∈ fromRange 0 stop 1 := fun hc =>
    (mem_fromRange Nat.one_pos).mpr ⟨Nat.zero_le _, hc, one_dvd _⟩
  by_cases hshard : nth ≤ n
  · -- the columns are shared out
    have hworker : ∀ {ith} buf, ith < nth → preprocessLut16 isa (nb * 256) n act ith nth buf =
        workerColumns isa act nb ith n nth 0 1 buf := fun {ith} buf hith => by
      simp only [preprocessLut16, hmax, hblocks, if_neg (not_le.mpr hith), if_pos hshard]
    have howner : col % nth < nth := Nat.mod_lt _ hnth
    have hmem : col ∈ fromRange (col % nth) n nth := mod_mem_fromRange hnth hcol
    have hscale : ∀ blk < nb, ∀ e < 2, (order.foldl (fun buf ith =>
        preprocessLut16 isa (nb * 256) n act ith nth buf) buf).scales ((col * nb + blk) * 2 + e) =
        if e = 0 then halfToRat (act col blk).dReal else halfToRat (act col blk).dImag := by
      intro blk hblk e he
      refine preprocess_read isa act buf hall
        (fun buf => buf.scales ((col * nb + blk) * 2 + e)) _ howner (fun buf => ?_) ?_
      · rw [hworker buf howner]
        exact workerColumns_scale_own isa act buf hmem hblk he
      · intro ith hith hne buf
        rw [hworker buf hith]
        exact workerColumns_scale_other isa act buf hblk
          (fun h => hne (eq_mod_of_mem_fromRange hith h.1)) he
    refine ⟨fun g hg c => ?_, fun blk hblk =>
      ⟨hscale blk hblk 0 Nat.two_pos, hscale blk hblk 1 Nat.one_lt_two⟩⟩
    refine preprocess_read isa act buf hall
      (fun buf => buf.lut ((col * (nb * 128) + g) * 64 + c)) _ howner (fun buf => ?_) ?_
    · rw [hworker buf howner]
      exact workerColumns_group_own isa act buf hmem (hone hg) Nat.one_pos c
    · intro ith hith hne buf
      rw [hworker buf hith]
      exact workerColumns_group_other isa act buf hg Nat.one_pos
        (fun h => hne (eq_mod_of_mem_fromRange hith h.1)) c
  · -- the groups are shared out, and the first worker sets the scales
    have hworker : ∀ {ith} buf, ith < nth → preprocessLut16 isa (nb * 256) n act ith nth buf =
        workerColumns isa act nb 0 n 1 ith nth buf := fun {ith} buf hith => by
      simp only [preprocessLut16, hmax, hblocks, if_neg (not_le.mpr hith), if_neg hshard]
    have hscale : ∀ blk < nb, ∀ e < 2, (order.foldl (fun buf ith =>
        preprocessLut16 isa (nb * 256) n act ith nth buf) buf).scales ((col * nb + blk) * 2 + e) =
        if e = 0 then halfToRat (act col blk).dReal else halfToRat (act col blk).dImag := by
      intro blk hblk e he
      refine preprocess_read isa act buf hall
        (fun buf => buf.scales ((col * nb + blk) * 2 + e)) _ hnth (fun buf => ?_) ?_
      · rw [hworker buf hnth]
        exact workerColumns_scale_own isa act buf (hone hcol) hblk he
      · intro ith hith hne buf
        rw [hworker buf hith]
        exact workerColumns_scale_other isa act buf hblk (fun h => hne h.2) he
    refine ⟨fun g hg c => ?_, fun blk hblk =>
      ⟨hscale blk hblk 0 Nat.two_pos, hscale blk hblk 1 Nat.one_lt_two⟩⟩
    have howner : g % nth < nth := Nat.mod_lt _ hnth
    refine preprocess_read isa act buf hall
      (fun buf => buf.lut ((col * (nb * 128) + g) * 64 + c)) _ howner (fun buf => ?_) ?_
    · rw [hworker buf howner]
      exact workerColumns_group_own isa act buf (hone hcol) (mod_mem_fromRange hnth hg) hnth c
    · intro ith hith hne buf
      rw [hworker buf hith]
      exact workerColumns_group_other isa act buf hg hnth
        (fun h => hne (eq_mod_of_mem_fromRange hith h.2)) c

end Preprocess

end IFairy
