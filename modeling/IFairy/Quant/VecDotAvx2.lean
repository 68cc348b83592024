import IFairy.Framework.Simd
import IFairy.Quant.Activations

/-!
# The AVX2 dot product

`ggml_vec_dot_ifairy_q16_K` on x86 takes 128 elements at a time: 32 bytes of codes, of which the
low and the high halves of the bytes index tables of the signs, and 4 times 32 activations, which
`_mm256_sign_epi8` multiplies by the signs.  The products are added in 32-bit lanes.

With one scale for the whole row (`vecDotIfairyQ16KTensor`) the integer sums run over all blocks;
otherwise (`vecDotIfairyQ16KAvx2`) each block is scaled on its own.  As in the reference kernel the
floating-point accumulation is exact rational arithmetic, without the rounding to `bfloat16`.

A byte `-128` cannot be negated: `_mm256_sign_epi8` leaves it as it is, where the reference kernel
adds `128`.  This is all in which the kernels differ.
-/

namespace IFairy

namespace VecDotAvx2

open Simd

/-! ## Tables of signs -/

def loadTable (entries : List Int8) : Vec Int8 := fun l => entries.getD l 0

/-- `lut_real_data`. -/
def lutRealData : List Int8 := [-1, 1, 0, 0, -1, 1, 0, 0, -1, 1, 0, 0, -1, 1, 0, 0]

/-- `lut_imag_data`. -/
def lutImagData : List Int8 := [0, 0, -1, 1, 0, 0, -1, 1, 0, 0, -1, 1, 0, 0, -1, 1]

/-- `lut_wr_idx1_data`. -/
def lutWrIdx1Data : List Int8 := [-1, -1, -1, -1, 1, 1, 1, 1, 0, 0, 0, 0, 0, 0, 0, 0]

/-- `lut_wi_idx1_data`. -/
def lutWiIdx1Data : List Int8 := [0, 0, 0, 0, 0, 0, 0, 0, -1, -1, -1, -1, 1, 1, 1, 1]

/-- `MM256_SET_M128I` of a table with itself. -/
def doubled (entries : List Int8) : Vec Int8 := join 16 (loadTable entries) (loadTable entries)

/-! ## The kernel -/

section

variable {β γ α : Type*} [Add α]

/-- `ggml_ifairy_load_2x16_bytes`. -/
def load2x16Bytes {δ : Type*} (mem : ℕ → δ) (lo hi : ℕ) : Vec δ :=
  join 16 (loadu mem lo) (loadu mem hi)

/-- `ggml_ifairy_mul_sign_sum_i8_pairs`. -/
def mulSignSumI8Pairs (ops : SignOps β γ α) (x w : Vec Int8) : Vec α :=
  let v := ops.signEpi8 x w
  let vLo16 := ops.cvtepi8Epi16 v
  let vHi16 := ops.cvtepi8Epi16 (extract 16 1 v)
  let sLo := ops.maddEpi16 vLo16 (set1 ops.one)
  let sHi := ops.maddEpi16 vHi16 (set1 ops.one)
  addEpi32 sLo sHi

/-- One of the four sums of a block: activations `xs` times the signs of the two tables.  The loop
of the source computes the four side by side. -/
def blockSum (ops : SignOps β γ α) (lut0 lut1 : Vec Int8) (qs : ℕ → UInt8) (xs : ℕ → Int8) : α :=
  let acc := [0, 128].foldl (fun (acc : Vec α × Vec α) j =>
    let wIter := j / 4
    let w01 := load2x16Bytes qs wIter (wIter + 16)
    let lowNib := andSi w01 (set1 0x0f)
    let highNib := andSi (srliEpi16 w01 4) (set1 0x0f)
    let w0 := shuffleEpi8 lut0 lowNib
    let w1 := shuffleEpi8 lut1 lowNib
    let w2 := shuffleEpi8 lut0 highNib
    let w3 := shuffleEpi8 lut1 highNib
    let x0 := load2x16Bytes xs (j + 0) (j + 64)
    let x1 := load2x16Bytes xs (j + 16) (j + 80)
    let x2 := load2x16Bytes xs (j + 32) (j + 96)
    let x3 := load2x16Bytes xs (j + 48) (j + 112)
    let acc0 := addEpi32 acc.1 (mulSignSumI8Pairs ops x0 w0)
    let acc1 := addEpi32 acc.2 (mulSignSumI8Pairs ops x1 w1)
    let acc0 := addEpi32 acc0 (mulSignSumI8Pairs ops x2 w2)
    let acc1 := addEpi32 acc1 (mulSignSumI8Pairs ops x3 w3)
    (acc0, acc1)) (set1 ops.zero, set1 ops.zero)
  hsumI32x8 (addEpi32 acc.1 acc.2)

/-- The four sums in 32-bit lanes. -/
structure LaneSums (α : Type*) where
  ac : α
  ad : α
  bc : α
  bd : α

def blockLanes (ops : SignOps β γ α) (w : BlockIfairy) (x : BlockIfairyQ16) : LaneSums α :=
  ⟨blockSum ops (doubled lutRealData) (doubled lutWrIdx1Data) w.qs (realBytes x),
    blockSum ops (doubled lutRealData) (doubled lutWrIdx1Data) w.qs (imagBytes x),
    blockSum ops (doubled lutImagData) (doubled lutWiIdx1Data) w.qs (realBytes x),
    blockSum ops (doubled lutImagData) (doubled lutWiIdx1Data) w.qs (imagBytes x)⟩

/-- The totals of `act_tensor`. -/
def rowTotals (ops : SignOps β γ α) (nb : ℕ) (w : ℕ → BlockIfairy) (x : ℕ → BlockIfairyQ16) :
    LaneSums α :=
  (List.range nb).foldl (fun total i =>
    let sum := blockLanes ops (w i) (x i)
    ⟨total.ac + sum.ac, total.ad + sum.ad, total.bc + sum.bc, total.bd + sum.bd⟩)
    ⟨ops.zero, ops.zero, ops.zero, ops.zero⟩

end

/-- The accumulators of the loop without `act_tensor`. -/
def rowAccAvx2 (nb : ℕ) (w : ℕ → BlockIfairy) (x : ℕ → BlockIfairyQ16) : RowAcc :=
  (List.range nb).foldl (fun acc i =>
    let sum := blockLanes machineOps (w i) (x i)
    let xReal := halfToRat (x i).dReal
    let xImag := halfToRat (x i).dImag
    ⟨acc.acXr + xReal * sum.ac.toInt, acc.bdXi + xImag * sum.bd.toInt,
      acc.bcXr + xReal * sum.bc.toInt, acc.adXi + xImag * sum.ad.toInt⟩) ⟨0, 0, 0, 0⟩

/-- `ggml_vec_dot_ifairy_q16_K` without `act_tensor`. -/
def vecDotIfairyQ16KAvx2 (n : ℕ) (w : ℕ → BlockIfairy) (x : ℕ → BlockIfairyQ16) : Cplx :=
  let nb := n / 256
  let acc := rowAccAvx2 nb w x
  let coeffWReal := halfToRat (w 0).dReal
  let coeffWImag := halfToRat (w 0).dImag
  ⟨coeffWReal * acc.acXr + coeffWImag * acc.bdXi, coeffWImag * acc.bcXr - coeffWReal * acc.adXi⟩

/-- `ggml_vec_dot_ifairy_q16_K` with `act_tensor`. -/
def vecDotIfairyQ16KTensor (n : ℕ) (w : ℕ → BlockIfairy) (x : ℕ → BlockIfairyQ16) : Cplx :=
  let nb := n / 256
  let total := rowTotals machineOps nb w x
  let coeffWReal := halfToRat (w 0).dReal
  let coeffWImag := halfToRat (w 0).dImag
  let xRealUniform := halfToRat (x 0).dReal
  let xImagUniform := halfToRat (x 0).dImag
  let accAcXrFused := xRealUniform * total.ac.toInt
  let accBdXiFused := xImagUniform * total.bd.toInt
  let accBcXrFused := xRealUniform * total.bc.toInt
  let accAdXiFused := xImagUniform * total.ad.toInt
  ⟨coeffWReal * accAcXrFused + coeffWImag * accBdXiFused,
    coeffWImag * accBcXrFused - coeffWReal * accAdXiFused⟩

/-! ## What the vectors hold -/

/-- A pair of tables that maps a nibble to the sign of its low and of its high code. -/
structure SignTables (lut0 lut1 : Vec Int8) (sign : UInt8 → ℤ) : Prop where
  low : ∀ n < 16, ∀ h < 2, (lut0 (h * 16 + n)).toInt = sign (UInt8.ofNat (n % 4))
  high : ∀ n < 16, ∀ h < 2, (lut1 (h * 16 + n)).toInt = sign (UInt8.ofNat (n / 4))

lemma real_signTables : SignTables (doubled lutRealData) (doubled lutWrIdx1Data) phaseRe := by
  constructor <;> decide

lemma imag_signTables : SignTables (doubled lutImagData) (doubled lutWiIdx1Data) phaseIm := by
  constructor <;> decide

/-- Where byte `t` of the two loaded halves lies. -/
lemma load2x16Bytes_apply {δ : Type*} (mem : ℕ → δ) (lo d : ℕ) {t : ℕ} (ht : t < 32) :
    load2x16Bytes mem lo (lo + d) t = mem (lo + d * (t / 16) + t % 16) := by
  unfold load2x16Bytes join loadu
  split_ifs with hlow
  · rw [Nat.div_eq_of_lt hlow, Nat.mod_eq_of_lt hlow, Nat.mul_zero, Nat.add_zero]
  · have hdiv : t / 16 = 1 := by omega
    have hmod : t % 16 = t - 16 := by omega
    rw [hdiv, hmod, Nat.mul_one]

/-- The vector of signs of part number `p` of the 128 elements from `j` on. -/
def signVec (lut0 lut1 : Vec Int8) (qs : ℕ → UInt8) (j p : ℕ) : Vec Int8 :=
  let w01 := load2x16Bytes qs (j / 4) (j / 4 + 16)
  let nib := if p < 2 then andSi w01 (set1 0x0f) else andSi (srliEpi16 w01 4) (set1 0x0f)
  if p % 2 = 0 then shuffleEpi8 lut0 nib else shuffleEpi8 lut1 nib

/-- The vector of activations of part number `p` of the 128 elements from `j` on. -/
def activationVec (xs : ℕ → Int8) (j p : ℕ) : Vec Int8 :=
  load2x16Bytes xs (j + 16 * p) (j + 16 * p + 64)

/-- Element number `t` of part `p` of the 128 elements from `128 * h` on. -/
def element (h p t : ℕ) : ℕ := 128 * h + 64 * (t / 16) + 16 * p + t % 16

lemma activationVec_apply (xs : ℕ → Int8) (h p : ℕ) {t : ℕ} (ht : t < 32) :
    activationVec xs (128 * h) p t = xs (element h p t) := by
  rw [activationVec, load2x16Bytes_apply _ _ _ ht]
  congr 1
  unfold element
  omega

lemma shuffleEpi8_apply (table : Vec Int8) {nib : Vec UInt8} {t : ℕ} (hnib : (nib t).toNat < 16) :
    shuffleEpi8 table nib t = table (t / 16 * 16 + (nib t).toNat) := by
  rw [shuffleEpi8, if_neg (by omega), Nat.mod_eq_of_lt hnib]

lemma signVec_toInt {lut0 lut1 : Vec Int8} {sign : UInt8 → ℤ} (htables : SignTables lut0 lut1 sign)
    (qs : ℕ → UInt8) {h p t : ℕ} (hp : p < 4) (ht : t < 32) :
    (signVec lut0 lut1 qs (128 * h) p t).toInt = sign (codeAt qs (element h p t)) := by
  have hcode : codeAt qs (element h p t) = pairAt (qs (32 * h + t)) p := by
    have hbyte : element h p t / 64 * 16 + element h p t % 16 = 32 * h + t := by
      unfold element
      omega
    have hpart : element h p t / 16 % 4 = p := by
      unfold element
      omega
    simp only [codeAt, hbyte, hpart]
  have hload : load2x16Bytes qs (128 * h / 4) (128 * h / 4 + 16) t = qs (32 * h + t) := by
    rw [load2x16Bytes_apply _ _ _ ht]
    congr 1
    omega
  have hhalf : t / 16 < 2 := by omega
  have hpair : codeAt qs (element h p t) = UInt8.ofNat ((qs (32 * h + t)).toNat / 4 ^ p % 4) := by
    rw [hcode]
    apply UInt8.toNat_inj.mp
    rw [pairAt_toNat _ hp, UInt8.toNat_ofNat']
    exact (Nat.mod_eq_of_lt ((Nat.mod_lt _ (by decide)).trans (by decide))).symm
  have hlt := (qs (32 * h + t)).toNat_lt
  have hlow := and_fifteen_toNat (load2x16Bytes qs (128 * h / 4) (128 * h / 4 + 16)) t
  have hhigh := srli_and_fifteen_toNat (load2x16Bytes qs (128 * h / 4) (128 * h / 4 + 16)) t
  rw [hload] at hlow hhigh
  rw [hpair]
  obtain rfl | rfl | rfl | rfl : p = 0 ∨ p = 1 ∨ p = 2 ∨ p = 3 := by omega
  · simp only [signVec]
    rw [if_pos (by decide), if_pos (by decide), shuffleEpi8_apply _ (by omega), hlow,
      htables.low _ (by omega) _ hhalf]
    congr 2
    omega
  · simp only [signVec]
    rw [if_neg (by decide), if_pos (by decide), shuffleEpi8_apply _ (by omega), hlow,
      htables.high _ (by omega) _ hhalf]
    congr 2
    omega
  · simp only [signVec]
    rw [if_pos (by decide), if_neg (by decide), shuffleEpi8_apply _ (by omega), hhigh,
      htables.low _ (by omega) _ hhalf]
    congr 2
  · simp only [signVec]
    rw [if_neg (by decide), if_neg (by decide), shuffleEpi8_apply _ (by omega), hhigh,
      htables.high _ (by omega) _ hhalf]
    congr 2
    omega

/-! ## The order of the sums -/

/-- What part `p` of the 128 elements from `128 * h` on adds to the accumulators. -/
def partSums {β γ α : Type*} [Add α] (ops : SignOps β γ α) (lut0 lut1 : Vec Int8)
    (qs : ℕ → UInt8) (xs : ℕ → Int8) (h p : ℕ) : Vec α :=
  mulSignSumI8Pairs ops (activationVec xs (128 * h) p) (signVec lut0 lut1 qs (128 * h) p)

/-- Lane `l` of the two accumulators at the end of a block. -/
def accLane {β γ α : Type*} [Add α] (ops : SignOps β γ α) (lut0 lut1 : Vec Int8)
    (qs : ℕ → UInt8) (xs : ℕ → Int8) (l : ℕ) : α :=
  let part := fun h p => partSums ops lut0 lut1 qs xs h p l
  ops.zero + part 0 0 + part 0 2 + part 1 0 + part 1 2 +
    (ops.zero + part 0 1 + part 0 3 + part 1 1 + part 1 3)

lemma blockSum_eq {β γ α : Type*} [Add α] (ops : SignOps β γ α) (lut0 lut1 : Vec Int8)
    (qs : ℕ → UInt8) (xs : ℕ → Int8) :
    blockSum ops lut0 lut1 qs xs = hsumI32x8 (accLane ops lut0 lut1 qs xs) := rfl

lemma sum_element {M : Type*} [AddCommMonoid M] (f : ℕ → M) :
    ∑ h ∈ Finset.range 2, ∑ p ∈ Finset.range 4, ∑ t ∈ Finset.range 32, f (element h p t) =
      ∑ j ∈ Finset.range 256, f j := by
  rw [show (256 : ℕ) = 2 * 128 from rfl, sum_range_mul f 2 128]
  refine Finset.sum_congr rfl fun h _ => ?_
  rw [show (128 : ℕ) = 2 * 64 from rfl, sum_range_mul _ 2 64]
  have hparts : ∀ c, ∑ q ∈ Finset.range 64, f (2 * 64 * h + (64 * c + q)) =
      ∑ p ∈ Finset.range 4, ∑ s ∈ Finset.range 16, f (2 * 64 * h + (64 * c + (16 * p + s))) :=
    fun c => sum_range_mul (fun q => f (2 * 64 * h + (64 * c + q))) 4 16
  simp only [hparts]
  refine Eq.trans (Finset.sum_congr rfl fun p _ => ?_) Finset.sum_comm
  rw [show (32 : ℕ) = 2 * 16 from rfl, sum_range_mul _ 2 16]
  refine Finset.sum_congr rfl fun c _ => Finset.sum_congr rfl fun s hs => ?_
  have hs' := Finset.mem_range.mp hs
  congr 1
  unfold element
  omega

/-! ## The sums of the machine -/

/-- What the machine adds for the activation `x` and the sign `v`: a byte `-128` keeps its value. -/
def signedByte (x : Int8) (v : ℤ) : ℤ := if v < 0 then (-x).toInt else if v = 0 then 0 else x.toInt

lemma signEpi8_toInt (a b : Vec Int8) (l : ℕ) :
    (signEpi8 a b l).toInt = signedByte (a l) (b l).toInt := by
  have hneg : b l < 0 ↔ (b l).toInt < 0 := Int8.lt_iff_toInt_lt
  have hzero : b l = 0 ↔ (b l).toInt = 0 := Int8.toInt_inj.symm
  simp only [signEpi8, signedByte, hneg, hzero]
  split_ifs <;> rfl

def IsSign (sign : UInt8 → ℤ) : Prop := ∀ c, sign c = -1 ∨ sign c = 0 ∨ sign c = 1

lemma phaseRe_isSign : IsSign phaseRe := fun c => by
  unfold phaseRe
  split_ifs <;> simp

lemma phaseIm_isSign : IsSign phaseIm := fun c => by
  unfold phaseIm
  split_ifs <;> simp

lemma signedByte_eq (x : Int8) {v : ℤ} (hv : v = -1 ∨ v = 0 ∨ v = 1) :
    signedByte x v = x.toInt * v - 256 * (if x.toInt = -128 ∧ v = -1 then 1 else 0) := by
  have hlow := x.le_toInt
  have hhigh := x.toInt_lt
  obtain rfl | rfl | rfl := hv
  · rw [signedByte, if_pos (by decide), Int8.toInt_neg]
    split_ifs with hmin
    · rw [hmin.1]
      decide
    · have hne : x.toInt ≠ -128 := fun heq => hmin ⟨heq, rfl⟩
      rw [Int.bmod_eq_of_le (by omega) (by omega)]
      omega
  · simp [signedByte]
  · simp [signedByte]

lemma signedByte_bound (x : Int8) (v : ℤ) : -128 ≤ signedByte x v ∧ signedByte x v ≤ 127 := by
  have hlow := x.le_toInt
  have hhigh := x.toInt_lt
  have hneglow := (-x).le_toInt
  have hneghigh := (-x).toInt_lt
  unfold signedByte
  split_ifs <;> omega

/-- Lane `l` of a sum of signed bytes. -/
lemma mulSignSumI8Pairs_machine (x w : Vec Int8) (l : ℕ) :
    mulSignSumI8Pairs machineOps x w l = BitVec.ofInt 32
      ((signEpi8 x w (2 * l)).toInt + (signEpi8 x w (2 * l + 1)).toInt +
        ((signEpi8 x w (16 + 2 * l)).toInt + (signEpi8 x w (16 + (2 * l + 1))).toInt)) := by
  simp only [mulSignSumI8Pairs, machineOps, addEpi32, maddEpi16_ones, cvtepi8Epi16_toInt, extract,
    ← BitVec.ofInt_add, Nat.mul_one]

lemma sum_mulSignSumI8Pairs (x w : Vec Int8) :
    ∑ l ∈ Finset.range 8, mulSignSumI8Pairs machineOps x w l =
      BitVec.ofInt 32 (∑ t ∈ Finset.range 32, (signEpi8 x w t).toInt) := by
  simp only [mulSignSumI8Pairs_machine]
  rw [ofInt_sum]
  congr 1
  rw [Finset.sum_add_distrib, sum_range_pairs (fun t => (signEpi8 x w t).toInt) 8,
    sum_range_pairs (fun t => (signEpi8 x w (16 + t)).toInt) 8, ← Finset.sum_range_add]

lemma blockSum_machine {lut0 lut1 : Vec Int8} {sign : UInt8 → ℤ}
    (htables : SignTables lut0 lut1 sign) (qs : ℕ → UInt8) (xs : ℕ → Int8) :
    blockSum machineOps lut0 lut1 qs xs =
      BitVec.ofInt 32 (∑ j ∈ Finset.range 256, signedByte (xs j) (sign (codeAt qs j))) := by
  have hpart : ∀ h, ∀ p < 4, ∑ l ∈ Finset.range 8, partSums machineOps lut0 lut1 qs xs h p l =
      BitVec.ofInt 32 (∑ t ∈ Finset.range 32,
        signedByte (xs (element h p t)) (sign (codeAt qs (element h p t)))) := fun h p hp => by
    unfold partSums
    rw [sum_mulSignSumI8Pairs]
    congr 1
    refine Finset.sum_congr rfl fun t ht => ?_
    have ht' := Finset.mem_range.mp ht
    rw [signEpi8_toInt, activationVec_apply _ _ _ ht', signVec_toInt htables _ hp ht']
  have hzero : machineOps.zero = 0 := rfl
  have horder : ∀ f : ℕ → ℕ → ℤ, (0 + BitVec.ofInt 32 (f 0 0) + BitVec.ofInt 32 (f 0 2) +
      BitVec.ofInt 32 (f 1 0) + BitVec.ofInt 32 (f 1 2) + (0 + BitVec.ofInt 32 (f 0 1) +
      BitVec.ofInt 32 (f 0 3) + BitVec.ofInt 32 (f 1 1) + BitVec.ofInt 32 (f 1 3))) =
      BitVec.ofInt 32 (∑ h ∈ Finset.range 2, ∑ p ∈ Finset.range 4, f h p) := fun f => by
    rw [zero_add, zero_add]
    simp only [← BitVec.ofInt_add]
    congr 1
    simp only [Finset.sum_range_succ, Finset.sum_range_zero]
    ring
  rw [blockSum_eq, hsumI32x8_eq, ← sum_element, ← horder]
  simp only [accLane, Finset.sum_add_distrib, hpart _ _ (show 0 < 4 by decide),
    hpart _ _ (show 1 < 4 by decide), hpart _ _ (show 2 < 4 by decide),
    hpart _ _ (show 3 < 4 by decide), hzero, Finset.sum_const_zero]

def signedSum (sign : UInt8 → ℤ) (qs : ℕ → UInt8) (xs : ℕ → Int8) : ℤ :=
  ∑ j ∈ Finset.range 256, (xs j).toInt * sign (codeAt qs j)

/-- The elements of a block whose activation should be negated and cannot be. -/
def lostElements (sign : UInt8 → ℤ) (qs : ℕ → UInt8) (xs : ℕ → Int8) : Finset ℕ :=
  (Finset.range 256).filter fun j => (xs j).toInt = -128 ∧ sign (codeAt qs j) = -1

lemma sum_signedByte {sign : UInt8 → ℤ} (hsign : IsSign sign) (qs : ℕ → UInt8) (xs : ℕ → Int8) :
    ∑ j ∈ Finset.range 256, signedByte (xs j) (sign (codeAt qs j)) =
      signedSum sign qs xs - 256 * (lostElements sign qs xs).card := by
  simp only [signedByte_eq _ (hsign _)]
  rw [Finset.sum_sub_distrib, ← Finset.mul_sum, signedSum, lostElements, Finset.card_filter]
  push_cast
  rfl

lemma sum_signedByte_bound (sign : UInt8 → ℤ) (qs : ℕ → UInt8) (xs : ℕ → Int8) :
    -32768 ≤ ∑ j ∈ Finset.range 256, signedByte (xs j) (sign (codeAt qs j)) ∧
      ∑ j ∈ Finset.range 256, signedByte (xs j) (sign (codeAt qs j)) ≤ 32767 := by
  have hlow := Finset.card_nsmul_le_sum (Finset.range 256)
    (fun j => signedByte (xs j) (sign (codeAt qs j))) (-128) fun j _ => (signedByte_bound _ _).1
  have hhigh := Finset.sum_le_card_nsmul (Finset.range 256)
    (fun j => signedByte (xs j) (sign (codeAt qs j))) 127 fun j _ => (signedByte_bound _ _).2
  rw [Finset.card_range] at hlow hhigh
  simp only [nsmul_eq_mul] at hlow hhigh
  push_cast at hlow hhigh
  constructor <;> linarith

/-- A sum of a block on the machine never wraps, but it loses `256` at every lost element. -/
lemma blockSum_toInt {lut0 lut1 : Vec Int8} {sign : UInt8 → ℤ} (hsign : IsSign sign)
    (htables : SignTables lut0 lut1 sign) (qs : ℕ → UInt8) (xs : ℕ → Int8) :
    (blockSum machineOps lut0 lut1 qs xs).toInt =
      signedSum sign qs xs - 256 * (lostElements sign qs xs).card := by
  obtain ⟨hlow, hhigh⟩ := sum_signedByte_bound sign qs xs
  rw [blockSum_machine htables, toInt_ofInt (w := 31) (by norm_num; omega) (by norm_num; omega),
    sum_signedByte hsign]

lemma blockSum_bound {lut0 lut1 : Vec Int8} {sign : UInt8 → ℤ}
    (htables : SignTables lut0 lut1 sign) (qs : ℕ → UInt8) (xs : ℕ → Int8) :
    -32768 ≤ (blockSum machineOps lut0 lut1 qs xs).toInt ∧
      (blockSum machineOps lut0 lut1 qs xs).toInt ≤ 32767 := by
  obtain ⟨hlow, hhigh⟩ := sum_signedByte_bound sign qs xs
  rw [blockSum_machine htables, toInt_ofInt (w := 31) (by norm_num; omega) (by norm_num; omega)]
  exact ⟨hlow, hhigh⟩

/-! ## Lanes that fit -/

lemma checked_signEpi8 {sign : ℤ} {a b : Vec Int8} {l : ℕ} (hsign : (b l).toInt = sign)
    (hcases : sign = -1 ∨ sign = 0 ∨ sign = 1) :
    checkedOps.signEpi8 a b l = CheckedInt.lane 8 ((a l).toInt * sign) true := by
  have hneg : b l < 0 ↔ (b l).toInt < 0 := Int8.lt_iff_toInt_lt
  have hzero : b l = 0 ↔ (b l).toInt = 0 := Int8.toInt_inj.symm
  simp only [checkedOps, hneg, hzero, hsign]
  obtain rfl | rfl | rfl := hcases
  · rw [if_pos (by decide), mul_neg_one]
  · rw [if_neg (by decide), if_pos rfl, mul_zero]
  · rw [if_neg (by decide), if_neg (by decide), mul_one]

lemma signed_fits_iff (x : Int8) {sign : ℤ} (hcases : sign = -1 ∨ sign = 0 ∨ sign = 1) :
    (CheckedInt.lane 8 (x.toInt * sign) true).fits = true ↔ ¬(x.toInt = -128 ∧ sign = -1) := by
  have hlow := x.le_toInt
  have hhigh := x.toInt_lt
  simp only [CheckedInt.lane, inLane, Bool.true_and, decide_eq_true_eq]
  obtain rfl | rfl | rfl := hcases <;> omega

lemma signed_within {x : Int8} {sign : ℤ} (hcases : sign = -1 ∨ sign = 0 ∨ sign = 1)
    (hok : ¬(x.toInt = -128 ∧ sign = -1)) :
    (CheckedInt.lane 8 (x.toInt * sign) true).Within 128 := by
  have hlow := x.le_toInt
  have hhigh := x.toInt_lt
  refine ⟨(signed_fits_iff x hcases).mpr hok, abs_le.mpr ?_⟩
  simp only [CheckedInt.lane]
  obtain rfl | rfl | rfl := hcases <;> constructor <;> omega

lemma mulSignSumI8Pairs_within {x w : Vec Int8} {l : ℕ} (hl : l < 8)
    (h : ∀ t < 32, (checkedOps.signEpi8 x w t).Within 128) :
    (mulSignSumI8Pairs checkedOps x w l).Within 512 := by
  have hlo : ∀ t < 16, (checkedOps.cvtepi8Epi16 (checkedOps.signEpi8 x w) t).Within 128 :=
    fun t ht => within_cvtepi8Epi16 (h t (by omega)) (by decide)
  have hhi : ∀ t < 16,
      (checkedOps.cvtepi8Epi16 (extract 16 1 (checkedOps.signEpi8 x w)) t).Within 128 :=
    fun t ht => within_cvtepi8Epi16 (h (16 * 1 + t) (by omega)) (by decide)
  have hsLo := within_maddEpi16_ones (hlo (2 * l) (by omega)) (hlo (2 * l + 1) (by omega))
    (by decide)
  have hsHi := within_maddEpi16_ones (hhi (2 * l) (by omega)) (hhi (2 * l + 1) (by omega))
    (by decide)
  exact hsLo.add hsHi (by decide)

lemma signs_fit_of_mulSignSum {x w : Vec Int8}
    (h : ∀ l < 8, (mulSignSumI8Pairs checkedOps x w l).fits = true) :
    ∀ t < 32, (checkedOps.signEpi8 x w t).fits = true := by
  intro t ht
  obtain ⟨hsLo, hsHi⟩ := CheckedInt.fits_of_add (h (t % 16 / 2) (by omega))
  obtain ⟨hlo0, hlo1⟩ := fits_of_maddEpi16_ones hsLo
  obtain ⟨hhi0, hhi1⟩ := fits_of_maddEpi16_ones hsHi
  have hplace : t = 2 * (t % 16 / 2) ∨ t = 2 * (t % 16 / 2) + 1 ∨ t = 16 * 1 + 2 * (t % 16 / 2) ∨
      t = 16 * 1 + (2 * (t % 16 / 2) + 1) := by omega
  obtain heq | heq | heq | heq := hplace <;> rw [heq]
  · exact fits_of_cvtepi8Epi16 hlo0
  · exact fits_of_cvtepi8Epi16 hlo1
  · exact fits_of_cvtepi8Epi16 hhi0
  · exact fits_of_cvtepi8Epi16 hhi1

lemma checked_element {lut0 lut1 : Vec Int8} {sign : UInt8 → ℤ} (hsign : IsSign sign)
    (htables : SignTables lut0 lut1 sign) (qs : ℕ → UInt8) (xs : ℕ → Int8) {h p t : ℕ} (hp : p < 4)
    (ht : t < 32) :
    checkedOps.signEpi8 (activationVec xs (128 * h) p) (signVec lut0 lut1 qs (128 * h) p) t =
      CheckedInt.lane 8 ((xs (element h p t)).toInt * sign (codeAt qs (element h p t))) true := by
  rw [checked_signEpi8 (signVec_toInt htables qs hp ht) (hsign _), activationVec_apply xs h p ht]

lemma element_lt {h p t : ℕ} (hh : h < 2) (hp : p < 4) (ht : t < 32) : element h p t < 256 := by
  unfold element
  omega

lemma blockSum_within {lut0 lut1 : Vec Int8} {sign : UInt8 → ℤ} (hsign : IsSign sign)
    (htables : SignTables lut0 lut1 sign) {qs : ℕ → UInt8} {xs : ℕ → Int8}
    (hlost : lostElements sign qs xs = ∅) :
    (blockSum checkedOps lut0 lut1 qs xs).Within 32768 := by
  have hpart : ∀ h < 2, ∀ p < 4, ∀ l < 8,
      (partSums checkedOps lut0 lut1 qs xs h p l).Within 512 := by
    intro h hh p hp l hl
    refine mulSignSumI8Pairs_within hl fun t ht => ?_
    rw [checked_element hsign htables qs xs hp ht]
    refine signed_within (hsign _) fun hbad => ?_
    have hmem : element h p t ∈ lostElements sign qs xs :=
      Finset.mem_filter.mpr ⟨Finset.mem_range.mpr (element_lt hh hp ht), hbad⟩
    rw [hlost] at hmem
    exact absurd hmem (Finset.notMem_empty _)
  have hzero : (checkedOps.zero).Within 0 := ⟨rfl, le_refl _⟩
  have hlane : ∀ l < 8, (accLane checkedOps lut0 lut1 qs xs l).Within 4096 := by
    intro l hl
    have hacc : ∀ p q, p < 4 → q < 4 → (checkedOps.zero +
        partSums checkedOps lut0 lut1 qs xs 0 p l + partSums checkedOps lut0 lut1 qs xs 0 q l +
        partSums checkedOps lut0 lut1 qs xs 1 p l +
        partSums checkedOps lut0 lut1 qs xs 1 q l).Within 2048 := fun p q hp hq =>
      (((hzero.add (hpart 0 (by decide) p hp l hl) (by decide)).add
        (hpart 0 (by decide) q hq l hl) (by decide)).add
        (hpart 1 (by decide) p hp l hl) (by decide)).add
        (hpart 1 (by decide) q hq l hl) (by decide)
    exact (hacc 0 2 (by decide) (by decide)).add (hacc 1 3 (by decide) (by decide)) (by decide)
  rw [blockSum_eq]
  exact within_hsumI32x8 hlane (by decide) (by decide)

lemma lostElements_of_fits {lut0 lut1 : Vec Int8} {sign : UInt8 → ℤ} (hsign : IsSign sign)
    (htables : SignTables lut0 lut1 sign) {qs : ℕ → UInt8} {xs : ℕ → Int8}
    (hfits : (blockSum checkedOps lut0 lut1 qs xs).fits = true) :
    lostElements sign qs xs = ∅ := by
  have hlanes := fits_of_hsumI32x8 (a := accLane checkedOps lut0 lut1 qs xs) hfits
  have hpart : ∀ h < 2, ∀ p < 4, ∀ l < 8,
      (partSums checkedOps lut0 lut1 qs xs h p l).fits = true := by
    intro h hh p hp l hl
    obtain ⟨heven, hodd⟩ := CheckedInt.fits_of_add (hlanes l hl)
    obtain ⟨heven, h12⟩ := CheckedInt.fits_of_add heven
    obtain ⟨heven, h10⟩ := CheckedInt.fits_of_add heven
    obtain ⟨heven, h02⟩ := CheckedInt.fits_of_add heven
    have h00 := (CheckedInt.fits_of_add heven).2
    obtain ⟨hodd, h13⟩ := CheckedInt.fits_of_add hodd
    obtain ⟨hodd, h11⟩ := CheckedInt.fits_of_add hodd
    obtain ⟨hodd, h03⟩ := CheckedInt.fits_of_add hodd
    have h01 := (CheckedInt.fits_of_add hodd).2
    obtain rfl | rfl : h = 0 ∨ h = 1 := by omega
    · obtain rfl | rfl | rfl | rfl : p = 0 ∨ p = 1 ∨ p = 2 ∨ p = 3 := by omega
      exacts [h00, h01, h02, h03]
    · obtain rfl | rfl | rfl | rfl : p = 0 ∨ p = 1 ∨ p = 2 ∨ p = 3 := by omega
      exacts [h10, h11, h12, h13]
  refine Finset.filter_eq_empty_iff.mpr fun j hj hbad => ?_
  have hj' := Finset.mem_range.mp hj
  have hat : element (j / 128) (j / 16 % 4) (16 * (j / 64 % 2) + j % 16) = j := by
    unfold element
    omega
  have hsigns := signs_fit_of_mulSignSum (hpart (j / 128) (by omega) (j / 16 % 4) (by omega))
    (16 * (j / 64 % 2) + j % 16) (by omega)
  rw [checked_element hsign htables qs xs (by omega) (by omega), hat, signed_fits_iff _ (hsign _)]
    at hsigns
  exact hsigns hbad

/-! ## Totals of a row -/

/-- A total over the blocks of a row. -/
def total {α : Type*} [Add α] (zero : α) (nb : ℕ) (f : ℕ → α) : α :=
  (List.range nb).foldl (fun t i => t + f i) zero

lemma total_succ {α : Type*} [Add α] (zero : α) (nb : ℕ) (f : ℕ → α) :
    total zero (nb + 1) f = total zero nb f + f nb := by
  unfold total
  rw [List.range_succ, List.foldl_append, List.foldl_cons, List.foldl_nil]

lemma rowTotals_eq {β γ α : Type*} [Add α] (ops : SignOps β γ α) (nb : ℕ) (w : ℕ → BlockIfairy)
    (x : ℕ → BlockIfairyQ16) :
    rowTotals ops nb w x =
      ⟨total ops.zero nb fun i => (blockLanes ops (w i) (x i)).ac,
        total ops.zero nb fun i => (blockLanes ops (w i) (x i)).ad,
        total ops.zero nb fun i => (blockLanes ops (w i) (x i)).bc,
        total ops.zero nb fun i => (blockLanes ops (w i) (x i)).bd⟩ := by
  induction nb with
  | zero => rfl
  | succ nb ih =>
    simp only [total_succ, rowTotals, List.range_succ, List.foldl_append, List.foldl_cons,
      List.foldl_nil] at ih ⊢
    rw [ih]

lemma total_within {nb : ℕ} {f : ℕ → CheckedInt 32} (h : ∀ i < nb, (f i).Within 32768)
    (hnb : nb < 65536) : (total checkedOps.zero nb f).Within (nb * 32768) := by
  induction nb with
  | zero => exact ⟨rfl, le_refl _⟩
  | succ nb ih =>
    have hsum := (ih (fun i hi => h i (Nat.lt_succ_of_lt hi)) (Nat.lt_of_succ_lt hnb)).add
      (h nb nb.lt_succ_self) (by norm_num; omega)
    rw [total_succ]
    rw [show (nb : ℤ) * 32768 + 32768 = (nb + 1 : ℕ) * 32768 by push_cast; ring] at hsum
    exact hsum

lemma fits_of_total {nb : ℕ} {f : ℕ → CheckedInt 32}
    (h : (total checkedOps.zero nb f).fits = true) : ∀ i < nb, (f i).fits = true := by
  induction nb with
  | zero => exact fun i hi => absurd hi (Nat.not_lt_zero i)
  | succ nb ih =>
    rw [total_succ] at h
    obtain ⟨hrest, hlast⟩ := CheckedInt.fits_of_add h
    intro i hi
    obtain hlt | rfl := Nat.lt_succ_iff_lt_or_eq.mp hi
    · exact ih hrest i hlt
    · exact hlast

/-- A total on the machine does not wrap below `2 ^ 16` blocks. -/
lemma total_toInt {nb : ℕ} {f : ℕ → BitVec 32}
    (h : ∀ i, -32768 ≤ (f i).toInt ∧ (f i).toInt ≤ 32767) (hnb : nb < 65536) :
    (total machineOps.zero nb f).toInt = ∑ i ∈ Finset.range nb, (f i).toInt := by
  have hlow := Finset.card_nsmul_le_sum (Finset.range nb) (fun i => (f i).toInt) (-32768)
    fun i _ => (h i).1
  have hhigh := Finset.sum_le_card_nsmul (Finset.range nb) (fun i => (f i).toInt) 32767
    fun i _ => (h i).2
  have htotal : total machineOps.zero nb f =
      BitVec.ofInt 32 (∑ i ∈ Finset.range nb, (f i).toInt) := by
    rw [← ofInt_sum]
    simp only [BitVec.ofInt_toInt]
    exact (foldl_accumulate (fun t i => t + f i) id f nb (fun _ _ _ => rfl) _).trans (zero_add _)
  rw [Finset.card_range] at hlow hhigh
  simp only [nsmul_eq_mul] at hlow hhigh
  rw [htotal]
  exact toInt_ofInt (w := 31) (by norm_num; linarith [show (nb : ℤ) < 65536 by exact_mod_cast hnb])
    (by norm_num; linarith [show (nb : ℤ) < 65536 by exact_mod_cast hnb])

/-! ## The sums of the blocks -/

lemma blockLanes_toInt (w : BlockIfairy) (x : BlockIfairyQ16) :
    (blockLanes machineOps w x).ac.toInt =
      (blockSums w x).ac - 256 * (lostElements phaseRe w.qs (realBytes x)).card ∧
    (blockLanes machineOps w x).ad.toInt =
      (blockSums w x).ad - 256 * (lostElements phaseRe w.qs (imagBytes x)).card ∧
    (blockLanes machineOps w x).bc.toInt =
      (blockSums w x).bc - 256 * (lostElements phaseIm w.qs (realBytes x)).card ∧
    (blockLanes machineOps w x).bd.toInt =
      (blockSums w x).bd - 256 * (lostElements phaseIm w.qs (imagBytes x)).card := by
  obtain ⟨hac, had, hbc, hbd⟩ := blockSums_eq w x
  rw [hac, had, hbc, hbd]
  exact ⟨blockSum_toInt phaseRe_isSign real_signTables w.qs (realBytes x),
    blockSum_toInt phaseRe_isSign real_signTables w.qs (imagBytes x),
    blockSum_toInt phaseIm_isSign imag_signTables w.qs (realBytes x),
    blockSum_toInt phaseIm_isSign imag_signTables w.qs (imagBytes x)⟩

lemma rowAccAvx2_eq (nb : ℕ) (w : ℕ → BlockIfairy) (x : ℕ → BlockIfairyQ16) :
    rowAccAvx2 nb w x =
      ⟨∑ i ∈ Finset.range nb, halfToRat (x i).dReal * (blockLanes machineOps (w i) (x i)).ac.toInt,
        ∑ i ∈ Finset.range nb, halfToRat (x i).dImag * (blockLanes machineOps (w i) (x i)).bd.toInt,
        ∑ i ∈ Finset.range nb, halfToRat (x i).dReal * (blockLanes machineOps (w i) (x i)).bc.toInt,
        ∑ i ∈ Finset.range nb, halfToRat (x i).dImag *
          (blockLanes machineOps (w i) (x i)).ad.toInt⟩ := by
  induction nb with
  | zero => rfl
  | succ nb ih =>
    simp only [rowAccAvx2, List.range_succ, List.foldl_append, List.foldl_cons, List.foldl_nil,
      Finset.sum_range_succ] at ih ⊢
    rw [ih]

/-! ## Where the kernels agree -/

/-- Whether no activation `-128` meets a weight `-1` or `-i`. -/
def NothingLost (nb : ℕ) (w : ℕ → BlockIfairy) (x : ℕ → BlockIfairyQ16) : Prop :=
  ∀ i < nb, ∀ j < 256, codeAt (w i).qs j = 0 ∨ codeAt (w i).qs j = 2 →
    q16Re (x i) j ≠ -128 ∧ q16Im (x i) j ≠ -128

/-- The scaled count of the lost elements of a row. -/
def rowLost (nb : ℕ) (sign : UInt8 → ℤ) (bytes : BlockIfairyQ16 → ℕ → Int8)
    (scale : BlockIfairyQ16 → UInt16) (w : ℕ → BlockIfairy) (x : ℕ → BlockIfairyQ16) : ℚ :=
  ∑ i ∈ Finset.range nb,
    halfToRat (scale (x i)) * (lostElements sign (w i).qs (bytes (x i))).card

/-- Whether the scaled counts of the lost elements cancel in both parts of the result. -/
def LostCancels (nb : ℕ) (w : ℕ → BlockIfairy) (x : ℕ → BlockIfairyQ16) : Prop :=
  halfToRat (w 0).dReal * rowLost nb phaseRe realBytes BlockIfairyQ16.dReal w x +
      halfToRat (w 0).dImag * rowLost nb phaseIm imagBytes BlockIfairyQ16.dImag w x = 0 ∧
    halfToRat (w 0).dImag * rowLost nb phaseIm realBytes BlockIfairyQ16.dReal w x -
      halfToRat (w 0).dReal * rowLost nb phaseRe imagBytes BlockIfairyQ16.dImag w x = 0

/-- Whether all blocks carry the scales of the first. -/
def SameScales (nb : ℕ) (x : ℕ → BlockIfairyQ16) : Prop :=
  ∀ i < nb, (x i).dReal = (x 0).dReal ∧ (x i).dImag = (x 0).dImag

/-- Whether every integer of the kernel fits the lane it is computed in. -/
def TotalsFit (nb : ℕ) (w : ℕ → BlockIfairy) (x : ℕ → BlockIfairyQ16) : Prop :=
  let total := rowTotals checkedOps nb w x
  total.ac.fits = true ∧ total.ad.fits = true ∧ total.bc.fits = true ∧ total.bd.fits = true

lemma mem_lostElements {sign : UInt8 → ℤ} {qs : ℕ → UInt8} {xs : ℕ → Int8} {j : ℕ} :
    j ∈ lostElements sign qs xs ↔ j < 256 ∧ (xs j).toInt = -128 ∧ sign (codeAt qs j) = -1 := by
  rw [lostElements, Finset.mem_filter, Finset.mem_range]

lemma phaseRe_eq_neg_one {c : UInt8} : phaseRe c = -1 ↔ c = 0 := by
  unfold phaseRe
  split_ifs <;> simp_all

lemma phaseIm_eq_neg_one {c : UInt8} : phaseIm c = -1 ↔ c = 2 := by
  unfold phaseIm
  split_ifs <;> simp_all

lemma nothingLost_iff {nb : ℕ} {w : ℕ → BlockIfairy} {x : ℕ → BlockIfairyQ16} :
    NothingLost nb w x ↔ ∀ i < nb, lostElements phaseRe (w i).qs (realBytes (x i)) = ∅ ∧
      lostElements phaseRe (w i).qs (imagBytes (x i)) = ∅ ∧
      lostElements phaseIm (w i).qs (realBytes (x i)) = ∅ ∧
      lostElements phaseIm (w i).qs (imagBytes (x i)) = ∅ := by
  simp only [Finset.eq_empty_iff_forall_notMem, mem_lostElements, phaseRe_eq_neg_one,
    phaseIm_eq_neg_one]
  constructor
  · intro h i hi
    exact ⟨fun j hj => (h i hi j hj.1 (.inl hj.2.2)).1 hj.2.1,
      fun j hj => (h i hi j hj.1 (.inl hj.2.2)).2 hj.2.1,
      fun j hj => (h i hi j hj.1 (.inr hj.2.2)).1 hj.2.1,
      fun j hj => (h i hi j hj.1 (.inr hj.2.2)).2 hj.2.1⟩
  · intro h i hi j hj hcode
    obtain ⟨hrr, hri, hir, hii⟩ := h i hi
    obtain hcode | hcode := hcode
    · exact ⟨fun hx => hrr j ⟨hj, hx, hcode⟩, fun hx => hri j ⟨hj, hx, hcode⟩⟩
    · exact ⟨fun hx => hir j ⟨hj, hx, hcode⟩, fun hx => hii j ⟨hj, hx, hcode⟩⟩

lemma sum_lost (nb : ℕ) (sign : UInt8 → ℤ) (bytes : BlockIfairyQ16 → ℕ → Int8)
    (scale : BlockIfairyQ16 → UInt16) (w : ℕ → BlockIfairy) (x : ℕ → BlockIfairyQ16)
    {lane exact : ℕ → ℤ} (h : ∀ i, lane i =
      exact i - 256 * (lostElements sign (w i).qs (bytes (x i))).card) :
    ∑ i ∈ Finset.range nb, halfToRat (scale (x i)) * (lane i : ℚ) =
      ∑ i ∈ Finset.range nb, halfToRat (scale (x i)) * (exact i : ℚ) -
        256 * rowLost nb sign bytes scale w x := by
  rw [rowLost, Finset.mul_sum, ← Finset.sum_sub_distrib]
  refine Finset.sum_congr rfl fun i _ => ?_
  rw [h i]
  push_cast
  ring

/-- The kernel differs from the reference by the scaled counts of the lost elements. -/
theorem vecDotIfairyQ16KAvx2_eq (nb : ℕ) (w : ℕ → BlockIfairy) (x : ℕ → BlockIfairyQ16) :
    vecDotIfairyQ16KAvx2 (nb * 256) w x =
      ⟨(vecDotIfairyQ16K (nb * 256) w x).re - 256 *
          (halfToRat (w 0).dReal * rowLost nb phaseRe realBytes BlockIfairyQ16.dReal w x +
            halfToRat (w 0).dImag * rowLost nb phaseIm imagBytes BlockIfairyQ16.dImag w x),
        (vecDotIfairyQ16K (nb * 256) w x).im - 256 *
          (halfToRat (w 0).dImag * rowLost nb phaseIm realBytes BlockIfairyQ16.dReal w x -
            halfToRat (w 0).dReal * rowLost nb phaseRe imagBytes BlockIfairyQ16.dImag w x)⟩ := by
  obtain ⟨hacXr, hbdXi, hbcXr, hadXi⟩ := rowAcc_eq nb w x
  have hac := sum_lost nb phaseRe realBytes BlockIfairyQ16.dReal w x
    fun i => (blockLanes_toInt (w i) (x i)).1
  have had := sum_lost nb phaseRe imagBytes BlockIfairyQ16.dImag w x
    fun i => (blockLanes_toInt (w i) (x i)).2.1
  have hbc := sum_lost nb phaseIm realBytes BlockIfairyQ16.dReal w x
    fun i => (blockLanes_toInt (w i) (x i)).2.2.1
  have hbd := sum_lost nb phaseIm imagBytes BlockIfairyQ16.dImag w x
    fun i => (blockLanes_toInt (w i) (x i)).2.2.2
  rw [← hacXr] at hac
  rw [← hadXi] at had
  rw [← hbcXr] at hbc
  rw [← hbdXi] at hbd
  simp only [vecDotIfairyQ16KAvx2, vecDotIfairyQ16K, rowAccAvx2_eq,
    Nat.mul_div_cancel _ (show 0 < 256 by decide), hac, had, hbc, hbd]
  congr 1 <;> ring

/-- With the same scales in all blocks the integer totals give what the scaled blocks give. -/
theorem vecDotIfairyQ16KTensor_eq {nb : ℕ} {w : ℕ → BlockIfairy} {x : ℕ → BlockIfairyQ16}
    (hnb : nb < 65536) (hscales : SameScales nb x) :
    vecDotIfairyQ16KTensor (nb * 256) w x = vecDotIfairyQ16KAvx2 (nb * 256) w x := by
  have hreal : ∀ f : ℕ → ℤ, ∑ i ∈ Finset.range nb, halfToRat (x i).dReal * (f i : ℚ) =
      halfToRat (x 0).dReal * ∑ i ∈ Finset.range nb, (f i : ℚ) := fun f => by
    rw [Finset.mul_sum]
    exact Finset.sum_congr rfl fun i hi => by rw [(hscales i (Finset.mem_range.mp hi)).1]
  have himag : ∀ f : ℕ → ℤ, ∑ i ∈ Finset.range nb, halfToRat (x i).dImag * (f i : ℚ) =
      halfToRat (x 0).dImag * ∑ i ∈ Finset.range nb, (f i : ℚ) := fun f => by
    rw [Finset.mul_sum]
    exact Finset.sum_congr rfl fun i hi => by rw [(hscales i (Finset.mem_range.mp hi)).2]
  have hac : (total machineOps.zero nb fun i => (blockLanes machineOps (w i) (x i)).ac).toInt = _ :=
    total_toInt (fun i => blockSum_bound real_signTables (w i).qs (realBytes (x i))) hnb
  have had : (total machineOps.zero nb fun i => (blockLanes machineOps (w i) (x i)).ad).toInt = _ :=
    total_toInt (fun i => blockSum_bound real_signTables (w i).qs (imagBytes (x i))) hnb
  have hbc : (total machineOps.zero nb fun i => (blockLanes machineOps (w i) (x i)).bc).toInt = _ :=
    total_toInt (fun i => blockSum_bound imag_signTables (w i).qs (realBytes (x i))) hnb
  have hbd : (total machineOps.zero nb fun i => (blockLanes machineOps (w i) (x i)).bd).toInt = _ :=
    total_toInt (fun i => blockSum_bound imag_signTables (w i).qs (imagBytes (x i))) hnb
  simp only [vecDotIfairyQ16KTensor, vecDotIfairyQ16KAvx2, rowAccAvx2_eq, rowTotals_eq,
    Nat.mul_div_cancel _ (show 0 < 256 by decide), hreal, himag, hac, had, hbc, hbd, Int.cast_sum]

/-- Below `2 ^ 16` blocks every integer fits its lane exactly when nothing is lost. -/
theorem totalsFit_iff {nb : ℕ} {w : ℕ → BlockIfairy} {x : ℕ → BlockIfairyQ16} (hnb : nb < 65536) :
    TotalsFit nb w x ↔ NothingLost nb w x := by
  rw [nothingLost_iff, TotalsFit, rowTotals_eq]
  constructor
  · rintro ⟨hac, had, hbc, hbd⟩ i hi
    exact ⟨lostElements_of_fits phaseRe_isSign real_signTables (fits_of_total hac i hi),
      lostElements_of_fits phaseRe_isSign real_signTables (fits_of_total had i hi),
      lostElements_of_fits phaseIm_isSign imag_signTables (fits_of_total hbc i hi),
      lostElements_of_fits phaseIm_isSign imag_signTables (fits_of_total hbd i hi)⟩
  · intro h
    exact ⟨(total_within (fun i hi =>
        blockSum_within phaseRe_isSign real_signTables (h i hi).1) hnb).1,
      (total_within (fun i hi =>
        blockSum_within phaseRe_isSign real_signTables (h i hi).2.1) hnb).1,
      (total_within (fun i hi =>
        blockSum_within phaseIm_isSign imag_signTables (h i hi).2.2.1) hnb).1,
      (total_within (fun i hi =>
        blockSum_within phaseIm_isSign imag_signTables (h i hi).2.2.2) hnb).1⟩

/-- The vector kernels on a row: the blockwise one returns the reference value, and for rows of
less than `2 ^ 24` elements every integer fits its lane and the kernel with one scale returns the
reference value too, where all blocks carry the same scales. -/
structure AgreesWithGeneric (nb : ℕ) (w : ℕ → BlockIfairy) (x : ℕ → BlockIfairyQ16) : Prop where
  blockwise : vecDotIfairyQ16KAvx2 (nb * 256) w x = vecDotIfairyQ16K (nb * 256) w x
  fits : nb * 256 < 2 ^ 24 → TotalsFit nb w x
  tensor : nb * 256 < 2 ^ 24 → SameScales nb x →
    vecDotIfairyQ16KTensor (nb * 256) w x = vecDotIfairyQ16K (nb * 256) w x

lemma rowLost_of_nothingLost {nb : ℕ} {sign : UInt8 → ℤ} {bytes : BlockIfairyQ16 → ℕ → Int8}
    {w : ℕ → BlockIfairy} {x : ℕ → BlockIfairyQ16}
    (h : ∀ i < nb, lostElements sign (w i).qs (bytes (x i)) = ∅)
    (scale : BlockIfairyQ16 → UInt16) : rowLost nb sign bytes scale w x = 0 := by
  refine Finset.sum_eq_zero fun i hi => ?_
  rw [h i (Finset.mem_range.mp hi), Finset.card_empty, Nat.cast_zero, mul_zero]

lemma lostCancels_of_nothingLost {nb : ℕ} {w : ℕ → BlockIfairy} {x : ℕ → BlockIfairyQ16}
    (h : NothingLost nb w x) : LostCancels nb w x := by
  rw [nothingLost_iff] at h
  rw [LostCancels, rowLost_of_nothingLost fun i hi => (h i hi).1,
    rowLost_of_nothingLost fun i hi => (h i hi).2.1,
    rowLost_of_nothingLost fun i hi => (h i hi).2.2.1,
    rowLost_of_nothingLost fun i hi => (h i hi).2.2.2]
  constructor <;> ring

lemma blockwise_iff {nb : ℕ} {w : ℕ → BlockIfairy} {x : ℕ → BlockIfairyQ16} :
    vecDotIfairyQ16KAvx2 (nb * 256) w x = vecDotIfairyQ16K (nb * 256) w x ↔
      LostCancels nb w x := by
  rw [vecDotIfairyQ16KAvx2_eq, Cplx.ext_iff, LostCancels]
  simp only [sub_eq_self, mul_eq_zero, OfNat.ofNat_ne_zero, false_or]

lemma agrees_of_nothingLost {nb : ℕ} {w : ℕ → BlockIfairy} {x : ℕ → BlockIfairyQ16}
    (h : NothingLost nb w x) : AgreesWithGeneric nb w x := by
  have hblockwise := blockwise_iff.mpr (lostCancels_of_nothingLost h)
  exact ⟨hblockwise, fun hshort => (totalsFit_iff (by omega)).mpr h, fun hshort hscales =>
    (vecDotIfairyQ16KTensor_eq (by omega) hscales).trans hblockwise⟩

/-- The kernels agree on a row exactly when no `-128` is to be negated; for rows of `2 ^ 24`
elements or more it is enough that the losses cancel. -/
theorem agreesWithGeneric_iff (nb : ℕ) (w : ℕ → BlockIfairy) (x : ℕ → BlockIfairyQ16) :
    AgreesWithGeneric nb w x ↔
      NothingLost nb w x ∨ 2 ^ 24 ≤ nb * 256 ∧ LostCancels nb w x := by
  constructor
  · intro h
    by_cases hlong : 2 ^ 24 ≤ nb * 256
    · exact .inr ⟨hlong, blockwise_iff.mp h.blockwise⟩
    · exact .inl ((totalsFit_iff (by omega)).mp (h.fits (by omega)))
  · rintro (h | ⟨hlong, h⟩)
    · exact agrees_of_nothingLost h
    · exact ⟨blockwise_iff.mpr h, fun hshort => absurd hshort (by omega),
        fun hshort => absurd hshort (by omega)⟩

/-- The kernels agree on every row that the tensor quantiser writes. -/
theorem agrees_quantizeRowIfairyQ16Tensor {F : Type} {ops : FloatOps F} (isa : LutIsa) (nb : ℕ)
    (w : ℕ → BlockIfairy) (words : ℕ → UInt32) :
    AgreesWithGeneric nb w (quantizeRowIfairyQ16Tensor ops isa (nb * 256) words) ∧
      SameScales nb (quantizeRowIfairyQ16Tensor ops isa (nb * 256) words) := by
  refine ⟨agrees_of_nothingLost fun i _ j _ _ => ?_, fun i _ => ?_⟩
  swap
  · constructor <;> simp only [quantizeRowIfairyQ16Tensor, quantizeByMax, quantizeBlockQ16]
  have hmin : (-128 : ℤ) < -63 := by decide
  have hrange : InLutRange (q16Re (quantizeRowIfairyQ16Tensor ops isa (nb * 256) words i) j) ∧
      InLutRange (q16Im (quantizeRowIfairyQ16Tensor ops isa (nb * 256) words i) j) :=
    quantizeRowIfairyQ16Tensor_inLutRange isa (nb * 256) words i j
  exact ⟨(hmin.trans_le hrange.1.1).ne', (hmin.trans_le hrange.2.1).ne'⟩

/-- A block of weights `-1` and one of activations `-128` with unit scales. -/
def minusOnes : BlockIfairy := ⟨fun _ => 0, 0x3c00, 0x3c00⟩

def minInts : BlockIfairyQ16 := ⟨fun _ => 0x80, fun _ => 0, 0x3c00, 0x3c00⟩

/-- The reference kernel adds `128` for every element, the vector kernel `-128`. -/
theorem not_agrees_minInts : ¬AgreesWithGeneric 1 (fun _ => minusOnes) (fun _ => minInts) := by
  intro h
  have hcode : ∀ j, codeAt minusOnes.qs j = 0 := fun j => by
    rw [← UInt8.toNat_inj, codeAt, pairAt_toNat _ (Nat.mod_lt _ (by decide))]
    simp [minusOnes]
  have hreal : lostElements phaseRe minusOnes.qs (realBytes minInts) = Finset.range 256 :=
    Finset.filter_true_of_mem fun j _ =>
      ⟨show ((0x80 : UInt8).toInt8).toInt = -128 by decide, by rw [hcode]; decide⟩
  have himag : lostElements phaseIm minusOnes.qs (imagBytes minInts) = ∅ :=
    Finset.filter_false_of_mem fun j _ hbad =>
      absurd hbad.1 (show ((0 : UInt8).toInt8).toInt ≠ -128 by decide)
  have hre := congrArg Cplx.re h.blockwise
  rw [vecDotIfairyQ16KAvx2_eq] at hre
  simp only [rowLost, Finset.sum_range_one, hreal, himag, Finset.card_range, Finset.card_empty,
    show minusOnes.dReal = 0x3c00 from rfl, show minInts.dReal = 0x3c00 from rfl,
    halfToRat_one] at hre
  norm_num at hre

end VecDotAvx2

end IFairy
