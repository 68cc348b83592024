import IFairy.Framework.Loops
import IFairy.Framework.Neon

/-!
# x86 vectors of any width

A vector is a function of the lane number, of which the first lanes count: sixteen, thirty-two or
sixty-four bytes.  The integer operations of the 128-bit, 256-bit and 512-bit units act alike on
every 128 bits, so that one definition serves all of them.  Lanes wrap and saturate as on the
machine.

`hsumI16x8_toInt` and `hsumI32x8_eq` say that the horizontal sums are the sums of the lanes,
and `maddubs_ones` and `maddEpi16_ones` that a multiplication by ones adds neighbours.
-/

namespace IFairy

namespace Simd

variable {α : Type*}

/-- A vector. -/
abbrev Vec (α : Type*) := ℕ → α

/-! ## Operations -/

/-- `_mm256_set1_epi8` and its relatives. -/
def set1 (v : α) : Vec α := fun _ => v

/-- `_mm_loadu_si128` and its relatives: consecutive bytes. -/
def loadu (mem : ℕ → α) (p : ℕ) : Vec α := fun l => mem (p + l)

/-- `_mm256_broadcastsi128_si256`, `_mm512_broadcast_i32x4`. -/
def broadcast128 (v : Vec α) : Vec α := fun l => v (l % 16)

/-- Two vectors, the lower of `n` lanes. -/
def join (n : ℕ) (lower upper : Vec α) : Vec α := fun l => if l < n then lower l else upper (l - n)

/-- `_mm256_inserti128_si256`, `_mm512_inserti32x4`: part number `i` of sixteen bytes replaced. -/
def insert128 (v : Vec α) (part : Vec α) (i : ℕ) : Vec α := fun l =>
  if l / 16 = i then part (l % 16) else v l

/-- The part number `i` of `n` lanes. -/
def extract (n i : ℕ) (v : Vec α) : Vec α := fun l => v (n * i + l)

/-- `_mm256_and_si256`, `_mm512_and_si512`. -/
def andSi (a b : Vec UInt8) : Vec UInt8 := fun l => a l &&& b l

/-- `_mm256_srli_epi16`, `_mm512_srli_epi16` on bytes: the bits of the upper byte of a 16-bit lane
move into the lower one. -/
def srliEpi16 (v : Vec UInt8) (s : ℕ) : Vec UInt8 := fun l =>
  if l % 2 = 0 then UInt8.ofNat (((v l).toNat + 256 * (v (l + 1)).toNat) / 2 ^ s)
  else UInt8.ofNat ((v l).toNat / 2 ^ s)

/-- `_mm256_cmpeq_epi8`. -/
def cmpeqEpi8 (a b : Vec UInt8) : Vec UInt8 := fun l => if a l = b l then 0xff else 0

/-- `_mm256_blendv_epi8`: the top bit of the mask picks the second operand. -/
def blendvEpi8 (a b : Vec Int8) (mask : Vec UInt8) : Vec Int8 := fun l =>
  if 128 ≤ (mask l).toNat then b l else a l

/-- `_mm256_sub_epi8`. -/
def subEpi8 (a b : Vec Int8) : Vec Int8 := fun l => a l - b l

/-- `_mm256_sign_epi8`: `a`, `-a` or zero by the sign of `b`. -/
def signEpi8 (a b : Vec Int8) : Vec Int8 := fun l =>
  if b l < 0 then -a l else if b l = 0 then 0 else a l

/-- `_mm256_shuffle_epi8`: a lookup within each 128 bits; a set top bit gives zero. -/
def shuffleEpi8 (table : Vec Int8) (indexes : Vec UInt8) : Vec Int8 := fun l =>
  if 128 ≤ (indexes l).toNat then 0 else table (l / 16 * 16 + (indexes l).toNat % 16)

/-- `_mm512_test_epi8_mask`. -/
def testEpi8Mask (a b : Vec UInt8) : Vec Bool := fun l => a l &&& b l ≠ 0

/-- `_mm512_mask_sub_epi8`. -/
def maskSubEpi8 (src : Vec Int8) (k : Vec Bool) (a b : Vec Int8) : Vec Int8 := fun l =>
  if k l then a l - b l else src l

/-- `_mm512_maskz_mov_epi8`. -/
def maskzMovEpi8 (k : Vec Bool) (a : Vec Int8) : Vec Int8 := fun l => if k l then a l else 0

/-- `_mm256_cvtepi8_epi16`. -/
def cvtepi8Epi16 (v : Vec Int8) : Vec (BitVec 16) := fun l => BitVec.ofInt 16 (v l).toInt

/-- `_mm256_maddubs_epi16`: unsigned times signed, neighbours added with saturation. -/
def maddubsEpi16 (a : Vec UInt8) (b : Vec Int8) : Vec (BitVec 16) := fun l =>
  BitVec.ofInt 16 (max (-32768) (min 32767
    ((a (2 * l)).toNat * (b (2 * l)).toInt + (a (2 * l + 1)).toNat * (b (2 * l + 1)).toInt)))

/-- `_mm256_madd_epi16`: neighbours multiplied and added in 32 bits. -/
def maddEpi16 (a b : Vec (BitVec 16)) : Vec (BitVec 32) := fun l =>
  BitVec.ofInt 32 ((a (2 * l)).toInt * (b (2 * l)).toInt +
    (a (2 * l + 1)).toInt * (b (2 * l + 1)).toInt)

/-- `_mm256_add_epi16`. -/
def addEpi16 (a b : Vec (BitVec 16)) : Vec (BitVec 16) := fun l => a l + b l

/-- `_mm256_add_epi32`. -/
def addEpi32 [Add α] (a b : Vec α) : Vec α := fun l => a l + b l

/-- `_mm_shuffle_epi32` with the lanes that `_MM_SHUFFLE(i3, i2, i1, i0)` names. -/
def shuffleEpi32 (v : Vec α) (i3 i2 i1 i0 : ℕ) : Vec α := fun l =>
  v (match l with
    | 0 => i0
    | 1 => i1
    | 2 => i2
    | _ => i3)

/-! ## Bytes -/

/-- The two bits number `part` of every byte, after a shift of the 16-bit lanes. -/
lemma srli_and_three (v : Vec UInt8) {part : ℕ} (hpart : part < 4) (l : ℕ) :
    andSi (srliEpi16 v (2 * part)) (set1 3) l = pairAt (v l) part := by
  have hmask : ∀ b : UInt8, (b &&& 3).toNat = b.toNat % 4 := fun b => by
    rw [UInt8.toNat_and]
    exact Nat.and_two_pow_sub_one_eq_mod b.toNat 2
  have hbits : ∀ n : ℕ, (UInt8.ofNat n &&& 3).toNat = n % 4 := fun n => by
    rw [hmask, UInt8.toNat_ofNat', Nat.mod_mod_of_dvd n (by decide)]
  apply UInt8.toNat_inj.mp
  rw [pairAt_toNat _ hpart]
  simp only [andSi, set1, srliEpi16]
  obtain rfl | rfl | rfl | rfl : part = 0 ∨ part = 1 ∨ part = 2 ∨ part = 3 := by omega
  all_goals
    split_ifs
    · rw [hbits]
      simp only [Nat.reduceMul, Nat.reducePow]
      omega
    · rw [hbits]
      simp only [Nat.reduceMul, Nat.reducePow]

lemma and_fifteen_toNat (v : Vec UInt8) (l : ℕ) :
    (andSi v (set1 0x0f) l).toNat = (v l).toNat % 16 := by
  simp only [andSi, set1, UInt8.toNat_and]
  exact Nat.and_two_pow_sub_one_eq_mod (v l).toNat 4

lemma srli_and_fifteen_toNat (v : Vec UInt8) (l : ℕ) :
    (andSi (srliEpi16 v 4) (set1 0x0f) l).toNat = (v l).toNat / 16 := by
  have hlt := (v l).toNat_lt
  rw [and_fifteen_toNat]
  simp only [srliEpi16, Nat.reducePow]
  split_ifs
  · rw [UInt8.toNat_ofNat']
    omega
  · rw [UInt8.toNat_ofNat']
    omega

/-! ## Sums of neighbours -/

lemma maddubs_ones (b : Vec Int8) (l : ℕ) :
    maddubsEpi16 (set1 1) b l = BitVec.ofInt 16 ((b (2 * l)).toInt + (b (2 * l + 1)).toInt) := by
  have h0 := (b (2 * l)).le_toInt
  have h0' := (b (2 * l)).toInt_lt
  have h1 := (b (2 * l + 1)).le_toInt
  have h1' := (b (2 * l + 1)).toInt_lt
  have hone : ((1 : UInt8).toNat : ℤ) = 1 := rfl
  simp only [maddubsEpi16, set1, hone]
  congr 1
  omega

lemma maddEpi16_ones (v : Vec (BitVec 16)) (l : ℕ) :
    maddEpi16 v (set1 1) l = BitVec.ofInt 32 ((v (2 * l)).toInt + (v (2 * l + 1)).toInt) := by
  have hone : (1 : BitVec 16).toInt = 1 := rfl
  simp only [maddEpi16, set1, hone, mul_one]

lemma toInt_ofInt {w : ℕ} {v : ℤ} (hlow : -2 ^ w ≤ v) (hhigh : v < 2 ^ w) :
    (BitVec.ofInt (w + 1) v).toInt = v := by
  rw [BitVec.toInt_ofInt]
  refine Int.bmod_eq_of_le ?_ ?_ <;> rw [Nat.pow_succ] <;> push_cast <;> omega

lemma cvtepi8Epi16_toInt (v : Vec Int8) (l : ℕ) : (cvtepi8Epi16 v l).toInt = (v l).toInt := by
  have h := (v l).le_toInt
  have h' := (v l).toInt_lt
  exact toInt_ofInt (w := 15) (by norm_num at h ⊢; omega) (by norm_num at h' ⊢; omega)

/-! ## Horizontal sums -/

/-- `ggml_ifairy_hsum_i16x8_avx2`. -/
def hsumI16x8 (v : Vec (BitVec 16)) : BitVec 32 :=
  let s32 := maddEpi16 v (set1 1)
  let s32 := addEpi32 s32 (shuffleEpi32 s32 1 0 3 2)
  addEpi32 s32 (shuffleEpi32 s32 2 3 0 1) 0

lemma shuffled_sum (s : Vec (BitVec 32)) :
    addEpi32 (addEpi32 s (shuffleEpi32 s 1 0 3 2))
      (shuffleEpi32 (addEpi32 s (shuffleEpi32 s 1 0 3 2)) 2 3 0 1) 0 = s 0 + s 1 + s 2 + s 3 := by
  simp only [addEpi32, shuffleEpi32]
  ac_rfl

lemma ofInt_sum (w : ℕ) (f : ℕ → ℤ) (n : ℕ) :
    ∑ i ∈ Finset.range n, BitVec.ofInt w (f i) = BitVec.ofInt w (∑ i ∈ Finset.range n, f i) := by
  induction n with
  | zero => simp
  | succ n ih => rw [Finset.sum_range_succ, Finset.sum_range_succ, ih, BitVec.ofInt_add]

lemma hsumI16x8_toInt (v : Vec (BitVec 16)) :
    (hsumI16x8 v).toInt = ∑ l ∈ Finset.range 8, (v l).toInt := by
  have hsum : hsumI16x8 v = BitVec.ofInt 32 (∑ l ∈ Finset.range 8, (v l).toInt) := by
    rw [hsumI16x8, shuffled_sum]
    simp only [maddEpi16_ones, ← BitVec.ofInt_add]
    congr 1
    simp only [Finset.sum_range_succ, Finset.sum_range_zero]
    ring
  have hlow := Finset.card_nsmul_le_sum (Finset.range 8) (fun l => (v l).toInt) (-32768)
    fun l _ => BitVec.le_toInt (v l)
  have hhigh := Finset.sum_le_card_nsmul (Finset.range 8) (fun l => (v l).toInt) 32768
    fun l _ => (BitVec.toInt_lt (x := v l)).le
  rw [Finset.card_range] at hlow hhigh
  rw [hsum]
  exact toInt_ofInt (w := 31) (by norm_num at hlow ⊢; omega) (by norm_num at hhigh ⊢; omega)

/-- Four times neighbours added up in 16-bit lanes, and then part number `i` of the lanes. -/
lemma hsumI16x8_maddubs {v : Vec (BitVec 16)} {bytes : ℕ → Vec Int8}
    (hv : ∀ l, v l = ∑ p ∈ Finset.range 4, maddubsEpi16 (set1 1) (bytes p) l) (i : ℕ) :
    (hsumI16x8 (extract 8 i v)).toInt =
      ∑ p ∈ Finset.range 4, ∑ t ∈ Finset.range 16, (bytes p (16 * i + t)).toInt := by
  have hlane : ∀ l, (v l).toInt =
      ∑ p ∈ Finset.range 4, ((bytes p (2 * l)).toInt + (bytes p (2 * l + 1)).toInt) := fun l => by
    have hlow := Finset.card_nsmul_le_sum (Finset.range 4)
      (fun p => (bytes p (2 * l)).toInt + (bytes p (2 * l + 1)).toInt) (-256) fun p _ =>
        add_le_add (bytes p (2 * l)).le_toInt (bytes p (2 * l + 1)).le_toInt
    have hhigh := Finset.sum_le_card_nsmul (Finset.range 4)
      (fun p => (bytes p (2 * l)).toInt + (bytes p (2 * l + 1)).toInt) 256 fun p _ =>
        add_le_add (bytes p (2 * l)).toInt_lt.le (bytes p (2 * l + 1)).toInt_lt.le
    rw [Finset.card_range] at hlow hhigh
    rw [hv]
    simp only [maddubs_ones]
    rw [ofInt_sum]
    exact toInt_ofInt (w := 15) (by norm_num at hlow ⊢; omega) (by norm_num at hhigh ⊢; omega)
  rw [hsumI16x8_toInt]
  simp only [extract, hlane]
  rw [Finset.sum_comm]
  refine Finset.sum_congr rfl fun p _ => ?_
  have hpairs := sum_range_pairs (fun t => (bytes p (16 * i + t)).toInt) 8
  rw [← hpairs]
  refine Finset.sum_congr rfl fun l _ => ?_
  rw [show 2 * (8 * i + l) = 16 * i + 2 * l by ring, Nat.add_assoc]

/-- `hsum_i32_8`. -/
def hsumI32x8 [Add α] (a : Vec α) : α :=
  let sum128 := addEpi32 (extract 4 0 a) (extract 4 1 a)
  let hi64 := shuffleEpi32 sum128 3 2 3 2
  let sum64 := addEpi32 hi64 sum128
  let hi32 := shuffleEpi32 sum64 2 3 0 1
  addEpi32 sum64 hi32 0

lemma hsumI32x8_lanes [Add α] (a : Vec α) :
    hsumI32x8 a = a 2 + a 6 + (a 0 + a 4) + (a 3 + a 7 + (a 1 + a 5)) := rfl

lemma hsumI32x8_eq (a : Vec (BitVec 32)) : hsumI32x8 a = ∑ l ∈ Finset.range 8, a l := by
  simp only [hsumI32x8_lanes, Finset.sum_range_succ, Finset.sum_range_zero]
  ac_rfl

/-! ## Signs and sums of neighbours, in any arithmetic -/

/-- What a chain of `sign_epi8`, `cvtepi8_epi16`, `madd_epi16` and `add_epi32` computes with: bytes
`β`, 16-bit lanes `γ` and 32-bit lanes `α`. -/
structure SignOps (β γ α : Type*) where
  signEpi8 : Vec Int8 → Vec Int8 → Vec β
  cvtepi8Epi16 : Vec β → Vec γ
  maddEpi16 : Vec γ → Vec γ → Vec α
  one : γ
  zero : α

def machineOps : SignOps Int8 (BitVec 16) (BitVec 32) where
  signEpi8 := signEpi8
  cvtepi8Epi16 := cvtepi8Epi16
  maddEpi16 := maddEpi16
  one := 1
  zero := 0

/-- Whether an integer fits a lane of `w` bits. -/
def inLane (w : ℕ) (v : ℤ) : Bool := -2 ^ (w - 1) ≤ v ∧ v < 2 ^ (w - 1)

/-- An integer that never wraps, and whether it and all integers it was computed from fitted
their lanes. -/
structure CheckedInt (w : ℕ) where
  value : ℤ
  fits : Bool

/-- A lane of `w` bits computed from lanes that fitted or not. -/
def CheckedInt.lane (w : ℕ) (value : ℤ) (fitted : Bool) : CheckedInt w :=
  ⟨value, fitted && inLane w value⟩

instance (w : ℕ) : Add (CheckedInt w) :=
  ⟨fun a b => CheckedInt.lane w (a.value + b.value) (a.fits && b.fits)⟩

/-- The lanes of a machine that never wraps and remembers what it should have wrapped. -/
def checkedOps : SignOps (CheckedInt 8) (CheckedInt 16) (CheckedInt 32) where
  signEpi8 := fun a b l =>
    CheckedInt.lane 8 (if b l < 0 then -(a l).toInt else if b l = 0 then 0 else (a l).toInt) true
  cvtepi8Epi16 := fun v l => CheckedInt.lane 16 (v l).value (v l).fits
  maddEpi16 := fun a b l => CheckedInt.lane 32
    ((a (2 * l)).value * (b (2 * l)).value + (a (2 * l + 1)).value * (b (2 * l + 1)).value)
    ((a (2 * l)).fits && (b (2 * l)).fits && ((a (2 * l + 1)).fits && (b (2 * l + 1)).fits))
  one := ⟨1, true⟩
  zero := ⟨0, true⟩

/-- A lane that fitted and is at most `k` in absolute value. -/
def CheckedInt.Within {w : ℕ} (a : CheckedInt w) (k : ℤ) : Prop := a.fits = true ∧ |a.value| ≤ k

lemma CheckedInt.within_lane {w : ℕ} {v k : ℤ} (hv : |v| ≤ k) (hk : k < 2 ^ (w - 1)) :
    (CheckedInt.lane w v true).Within k := by
  have hlow := neg_le_of_abs_le hv
  have hhigh := le_of_abs_le hv
  refine ⟨?_, hv⟩
  simp only [CheckedInt.lane, inLane, Bool.true_and, decide_eq_true_eq]
  omega

lemma CheckedInt.Within.add {w : ℕ} {a b : CheckedInt w} {j k : ℤ} (ha : a.Within j)
    (hb : b.Within k) (hjk : j + k < 2 ^ (w - 1)) : (a + b).Within (j + k) := by
  obtain ⟨hafits, hale⟩ := ha
  obtain ⟨hbfits, hble⟩ := hb
  have hsum : a + b = CheckedInt.lane w (a.value + b.value) true := by
    show CheckedInt.lane w _ (a.fits && b.fits) = _
    rw [hafits, hbfits, Bool.and_self]
  rw [hsum]
  exact within_lane ((abs_add_le _ _).trans (add_le_add hale hble)) hjk

lemma within_cvtepi8Epi16 {v : Vec (CheckedInt 8)} {l : ℕ} {k : ℤ} (h : (v l).Within k)
    (hk : k < 2 ^ 15) : (checkedOps.cvtepi8Epi16 v l).Within k := by
  obtain ⟨hfits, hle⟩ := h
  simp only [checkedOps, hfits]
  exact CheckedInt.within_lane hle hk

lemma within_maddEpi16_ones {v : Vec (CheckedInt 16)} {l : ℕ} {j k : ℤ} (h0 : (v (2 * l)).Within j)
    (h1 : (v (2 * l + 1)).Within k) (hjk : j + k < 2 ^ 31) :
    (checkedOps.maddEpi16 v (set1 checkedOps.one) l).Within (j + k) := by
  obtain ⟨hfits0, hle0⟩ := h0
  obtain ⟨hfits1, hle1⟩ := h1
  simp only [checkedOps, set1, hfits0, hfits1, mul_one, Bool.and_self]
  exact CheckedInt.within_lane ((abs_add_le _ _).trans (add_le_add hle0 hle1)) hjk

lemma fits_of_cvtepi8Epi16 {v : Vec (CheckedInt 8)} {l : ℕ}
    (h : (checkedOps.cvtepi8Epi16 v l).fits = true) : (v l).fits = true := by
  have hand : ((v l).fits && inLane 16 (v l).value) = true := h
  rw [Bool.and_eq_true] at hand
  exact hand.1

lemma fits_of_maddEpi16_ones {v : Vec (CheckedInt 16)} {l : ℕ}
    (h : (checkedOps.maddEpi16 v (set1 checkedOps.one) l).fits = true) :
    (v (2 * l)).fits = true ∧ (v (2 * l + 1)).fits = true := by
  have hand : ((v (2 * l)).fits && true && ((v (2 * l + 1)).fits && true) &&
      inLane 32 ((v (2 * l)).value * 1 + (v (2 * l + 1)).value * 1)) = true := h
  simp only [Bool.and_true, Bool.and_eq_true] at hand
  exact hand.1

lemma CheckedInt.fits_of_add {w : ℕ} {a b : CheckedInt w} (h : (a + b).fits = true) :
    a.fits = true ∧ b.fits = true := by
  have hand : (a.fits && b.fits && inLane w (a.value + b.value)) = true := h
  simp only [Bool.and_eq_true] at hand
  exact hand.1

lemma within_hsumI32x8 {a : Vec (CheckedInt 32)} {k : ℤ} (h : ∀ l < 8, (a l).Within k)
    (hk : 8 * k < 2 ^ 31) (hzero : 0 ≤ k) : (hsumI32x8 a).Within (8 * k) := by
  have hpair : ∀ i < 4, (a i + a (i + 4)).Within (k + k) := fun i hi =>
    (h i (by omega)).add (h (i + 4) (by omega)) (by norm_num; omega)
  have hleft := (hpair 2 (by decide)).add (hpair 0 (by decide)) (by norm_num; omega)
  have hright := (hpair 3 (by decide)).add (hpair 1 (by decide)) (by norm_num; omega)
  have hsum := hleft.add hright (by norm_num; omega)
  rw [show k + k + (k + k) + (k + k + (k + k)) = 8 * k by ring] at hsum
  exact hsum

lemma fits_of_hsumI32x8 {a : Vec (CheckedInt 32)} (h : (hsumI32x8 a).fits = true) :
    ∀ l < 8, (a l).fits = true := by
  rw [hsumI32x8_lanes] at h
  obtain ⟨hleft, hright⟩ := CheckedInt.fits_of_add h
  obtain ⟨h26, h04⟩ := CheckedInt.fits_of_add hleft
  obtain ⟨h37, h15⟩ := CheckedInt.fits_of_add hright
  intro l hl
  obtain ⟨h2, h6⟩ := CheckedInt.fits_of_add h26
  obtain ⟨h0, h4⟩ := CheckedInt.fits_of_add h04
  obtain ⟨h3, h7⟩ := CheckedInt.fits_of_add h37
  obtain ⟨h1, h5⟩ := CheckedInt.fits_of_add h15
  obtain rfl | rfl | rfl | rfl | rfl | rfl | rfl | rfl :
      l = 0 ∨ l = 1 ∨ l = 2 ∨ l = 3 ∨ l = 4 ∨ l = 5 ∨ l = 6 ∨ l = 7 := by omega
  all_goals assumption

end Simd

end IFairy
