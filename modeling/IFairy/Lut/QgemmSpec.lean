import IFairy.Lut.Qgemm

/-!
# The LUT kernels compute the same sums

`laneValue` is what each kernel leaves in an output: over the blocks of a row, the four table sums
of a lane, scaled.  The scalar kernel adds in `int`; a 16-bit lane of a vector kernel adds 128
entries of eight bits, so it does not overflow (`laneSumOf_bound`).  Every kernel writes the outputs
of the rows below `m` and no others, whatever the tile they belong to.
-/

namespace IFairy

/-! ## The sum of a lane -/

/-- The two entries of channel `ch` that a byte of a lane picks. -/
def entryPair (lutBlk : ℕ → Int8) (wt : LutWtile16) (lane ch byteIdx : ℕ) : ℤ :=
  (lutBlk (byteIdx * 128 + ch * 16 + (lowNibble (wt.qs byteIdx lane)).toNat)).toInt +
    (lutBlk (byteIdx * 128 + 64 + ch * 16 + (highNibble (wt.qs byteIdx lane)).toNat)).toInt

/-- The entries of channel `ch` that the first `n` bytes of a lane pick, summed. -/
def laneSumOf (n : ℕ) (lutBlk : ℕ → Int8) (wt : LutWtile16) (lane ch : ℕ) : ℤ :=
  ∑ byteIdx ∈ Finset.range n, entryPair lutBlk wt lane ch byteIdx

/-- The entries of channel `ch` that a lane picks, summed over a block. -/
def laneSum (lutBlk : ℕ → Int8) (wt : LutWtile16) (lane ch : ℕ) : ℤ :=
  ∑ byteIdx ∈ Finset.range 64, entryPair lutBlk wt lane ch byteIdx

lemma entryPair_bound (lutBlk : ℕ → Int8) (wt : LutWtile16) (lane ch byteIdx : ℕ) :
    -256 ≤ entryPair lutBlk wt lane ch byteIdx ∧ entryPair lutBlk wt lane ch byteIdx ≤ 254 := by
  have hbound := fun a => And.intro (Int8.le_toInt (lutBlk a)) (Int8.toInt_lt (lutBlk a))
  obtain ⟨hlow, hhigh⟩ :=
    hbound (byteIdx * 128 + ch * 16 + (lowNibble (wt.qs byteIdx lane)).toNat)
  obtain ⟨hlow', hhigh'⟩ :=
    hbound (byteIdx * 128 + 64 + ch * 16 + (highNibble (wt.qs byteIdx lane)).toNat)
  unfold entryPair
  omega

lemma laneSumOf_bound (lutBlk : ℕ → Int8) (wt : LutWtile16) (lane ch : ℕ) {n : ℕ} (hn : n ≤ 64) :
    -2 ^ 15 ≤ laneSumOf n lutBlk wt lane ch ∧ laneSumOf n lutBlk wt lane ch < 2 ^ 15 := by
  have hle := Finset.sum_le_card_nsmul (Finset.range n) (entryPair lutBlk wt lane ch) 254
    fun byteIdx _ => (entryPair_bound lutBlk wt lane ch byteIdx).2
  have hge := Finset.card_nsmul_le_sum (Finset.range n) (entryPair lutBlk wt lane ch) (-256)
    fun byteIdx _ => (entryPair_bound lutBlk wt lane ch byteIdx).1
  rw [Finset.card_range, nsmul_eq_mul] at hle hge
  unfold laneSumOf
  have hcast : (n : ℤ) ≤ 64 := by exact_mod_cast hn
  constructor <;> norm_num <;> linarith

/-- A 16-bit lane that gains the entries of `n` bytes ends with their sum. -/
lemma foldl_lane16 {β : Type*} (lutBlk : ℕ → Int8) (wt : LutWtile16) {lane ch : ℕ} (n : ℕ)
    (step : β → ℕ → β) (read : β → BitVec 16) {s : β} (hzero : read s = 0)
    (hstep : ∀ s byteIdx,
      read (step s byteIdx) = read s + BitVec.ofInt 16 (entryPair lutBlk wt lane ch byteIdx)) :
    read ((List.range n).foldl step s) = BitVec.ofInt 16 (laneSumOf n lutBlk wt lane ch) := by
  have hsum : ∀ n, ∑ i ∈ Finset.range n, BitVec.ofInt 16 (entryPair lutBlk wt lane ch i) =
      BitVec.ofInt 16 (∑ i ∈ Finset.range n, entryPair lutBlk wt lane ch i) := by
    intro n
    induction n with
    | zero => rfl
    | succ n ih => rw [Finset.sum_range_succ, Finset.sum_range_succ, ih, BitVec.ofInt_add]
  rw [foldl_accumulate step read (fun i => BitVec.ofInt 16 (entryPair lutBlk wt lane ch i)) n
    (fun s i _ => hstep s i), hzero, zero_add, hsum, laneSumOf]

lemma toInt_ofInt_laneSumOf (lutBlk : ℕ → Int8) (wt : LutWtile16) (lane ch : ℕ) {n : ℕ}
    (hn : n ≤ 64) :
    (BitVec.ofInt 16 (laneSumOf n lutBlk wt lane ch)).toInt = laneSumOf n lutBlk wt lane ch := by
  obtain ⟨hlow, hhigh⟩ := laneSumOf_bound lutBlk wt lane ch hn
  rw [BitVec.toInt_ofInt]
  exact Int.bmod_eq_of_le (by norm_num at hlow ⊢; exact hlow) (by norm_num at hhigh ⊢; exact hhigh)

lemma toInt_ofInt_laneSum (lutBlk : ℕ → Int8) (wt : LutWtile16) (lane ch : ℕ) :
    (BitVec.ofInt 16 (laneSum lutBlk wt lane ch)).toInt = laneSum lutBlk wt lane ch :=
  toInt_ofInt_laneSumOf lutBlk wt lane ch le_rfl

/-! ## Nibbles as indexes -/

lemma and_mask_toNat (b : UInt8) : (b &&& 0x0f).toNat = (lowNibble b).toNat := rfl

lemma shift_mask (b : UInt8) : (b >>> 4) &&& 0x0f = highNibble b := by
  apply UInt8.toNat_inj.mp
  have hlt : (highNibble b).toNat < 16 := by
    have h := highNibble_toNat b
    have hb := b.toNat_lt
    omega
  exact (lowNibble_toNat (highNibble b)).trans (Nat.mod_eq_of_lt hlt)

lemma lowNibble_idem {b : UInt8} (hb : b.toNat < 16) : (b &&& 0x0f).toNat = b.toNat := by
  rw [and_mask_toNat, lowNibble_toNat, Nat.mod_eq_of_lt hb]

/-! ## The sums of each kernel -/

section Sums

variable (lutBlk : ℕ → Int8) (wt : LutWtile16)

/-- The loop of the scalar kernel over the first `n` bytes of a lane. -/
def scalarSumsOf (n lane : ℕ) : LaneSums :=
  (List.range n).foldl (fun sum byteIdx =>
    let packed := wt.qs byteIdx lane
    let tbl0 := fun a => lutBlk (byteIdx * 2 * 64 + a)
    let tbl1 := fun a => tbl0 (64 + a)
    (sum.addEntries (packed &&& 0x0f) tbl0).addEntries ((packed >>> 4) &&& 0x0f) tbl1) ⟨0, 0, 0, 0⟩

lemma scalarSumsOf_eq (n lane : ℕ) :
    scalarSumsOf lutBlk wt n lane = ⟨laneSumOf n lutBlk wt lane 0, laneSumOf n lutBlk wt lane 2,
      laneSumOf n lutBlk wt lane 3, laneSumOf n lutBlk wt lane 1⟩ := by
  have hlow : ∀ b : UInt8, (b &&& 0x0f &&& 0x0f).toNat = (lowNibble b).toNat := fun b =>
    lowNibble_idem (lowNibble_lt b)
  have hhigh : ∀ b : UInt8, (b >>> 4 &&& 0x0f &&& 0x0f).toNat = (highNibble b).toNat := fun b => by
    rw [shift_mask, lowNibble_idem (highNibble_lt b)]
  have hread : ∀ (read : LaneSums → ℤ) (ch : ℕ), read ⟨0, 0, 0, 0⟩ = 0 →
      (∀ sum code tbl, read (LaneSums.addEntries sum code tbl) =
        read sum + (tbl (ch * 16 + (code &&& 0x0f).toNat)).toInt) →
      read (scalarSumsOf lutBlk wt n lane) = laneSumOf n lutBlk wt lane ch := by
    intro read ch hzero hadd
    refine (foldl_accumulate _ read (entryPair lutBlk wt lane ch) n
      (fun sum byteIdx _ => ?_) _).trans (by rw [hzero, zero_add, laneSumOf])
    rw [hadd, hadd, hlow, hhigh, add_assoc, entryPair]
    congr 3 <;> congr 1 <;> ring_nf
  have hac := hread LaneSums.ac 0 rfl fun _ _ _ => rfl
  have hbc := hread LaneSums.bc 2 rfl fun _ _ _ => rfl
  have had := hread LaneSums.ad 3 rfl fun _ _ _ => rfl
  have hbd := hread LaneSums.bd 1 rfl fun _ _ _ => rfl
  rw [← hac, ← hbc, ← had, ← hbd]

lemma scalarSums_eq (lane : ℕ) :
    scalarSums lutBlk wt lane = ⟨laneSum lutBlk wt lane 0, laneSum lutBlk wt lane 2,
      laneSum lutBlk wt lane 3, laneSum lutBlk wt lane 1⟩ :=
  scalarSumsOf_eq lutBlk wt 64 lane

/-- Lane `8 * h + l` of a NEON sum gains two entries. -/
lemma neonAdd_lane (sum : Fin 2 → Fin 8 → BitVec 16) (v0 v1 : Fin 16 → Int8) (h : Fin 2)
    (l : Fin 8) {i : Fin 16} (hi : (i : ℕ) = 8 * h + l) :
    neonAdd sum v0 v1 h l = sum h l + BitVec.ofInt 16 ((v0 i).toInt + (v1 i).toInt) := by
  rw [BitVec.ofInt_add, ← add_assoc]
  obtain rfl | rfl : h = 0 ∨ h = 1 := by omega
  · have hindex : i = ⟨l, by omega⟩ := Fin.ext (by simpa using hi)
    rw [hindex]
    rfl
  · have hindex : i = ⟨8 + l, by omega⟩ := Fin.ext (by simpa using hi)
    rw [hindex]
    rfl

lemma vqtbl1q_apply (mem : ℕ → Int8) (p : ℕ) {idx : Fin 16 → UInt8} {l : Fin 16}
    (h : (idx l).toNat < 16) : Neon.vqtbl1q (Neon.vld1q mem p) idx l = mem (p + (idx l).toNat) :=
  dif_pos h

/-- Two lookups of channel `ch` in lane `8 * h + l`. -/
lemma neonAdd_lookup (s : Fin 2 → Fin 8 → BitVec 16) (byteIdx ch : ℕ) (h : Fin 2) (l : Fin 8) :
    neonAdd s
      (Neon.vqtbl1q (Neon.vld1q lutBlk (byteIdx * 128 + 0 + ch * 16))
        (Neon.vandq (Neon.vld1q (wt.qs byteIdx) 0) (Neon.vdupq 0x0f)))
      (Neon.vqtbl1q (Neon.vld1q lutBlk (byteIdx * 128 + 64 + ch * 16))
        (Neon.vandq (Neon.vshrq (Neon.vld1q (wt.qs byteIdx) 0) 4) (Neon.vdupq 0x0f))) h l =
    s h l + BitVec.ofInt 16 (entryPair lutBlk wt (8 * h + l) ch byteIdx) := by
  have hlane : 8 * (h : ℕ) + l < 16 := by omega
  have hlo : Neon.vandq (Neon.vld1q (wt.qs byteIdx) 0) (Neon.vdupq 0x0f) ⟨8 * h + l, hlane⟩ =
      lowNibble (wt.qs byteIdx (8 * h + l)) := by
    simp [Neon.vandq, Neon.vld1q, Neon.vdupq, lowNibble]
  have hhi : Neon.vandq (Neon.vshrq (Neon.vld1q (wt.qs byteIdx) 0) 4) (Neon.vdupq 0x0f)
      ⟨8 * h + l, hlane⟩ = highNibble (wt.qs byteIdx (8 * h + l)) := by
    refine Eq.trans ?_ (shift_mask _)
    simp [Neon.vandq, Neon.vshrq, Neon.vld1q, Neon.vdupq]
  rw [neonAdd_lane s _ _ h l (i := ⟨8 * h + l, hlane⟩) rfl,
    vqtbl1q_apply _ _ (by rw [hlo]; exact lowNibble_lt _),
    vqtbl1q_apply _ _ (by rw [hhi]; exact highNibble_lt _), hlo, hhi, Nat.add_zero]
  rfl

/-- The NEON sums after `n` bytes. -/
lemma neonSumsOf_eq (n : ℕ) (h : Fin 2) (l : Fin 8) :
    let sum := (List.range n).foldl (neonAccumulate lutBlk wt) NeonSums.zero
    let lane := 8 * (h : ℕ) + l
    sum.ac h l = BitVec.ofInt 16 (laneSumOf n lutBlk wt lane 0) ∧
    sum.bd h l = BitVec.ofInt 16 (laneSumOf n lutBlk wt lane 1) ∧
    sum.bc h l = BitVec.ofInt 16 (laneSumOf n lutBlk wt lane 2) ∧
    sum.ad h l = BitVec.ofInt 16 (laneSumOf n lutBlk wt lane 3) :=
  ⟨foldl_lane16 lutBlk wt n _ (fun s : NeonSums => s.ac h l) rfl
      fun s byteIdx => neonAdd_lookup lutBlk wt s.ac byteIdx 0 h l,
    foldl_lane16 lutBlk wt n _ (fun s : NeonSums => s.bd h l) rfl
      fun s byteIdx => neonAdd_lookup lutBlk wt s.bd byteIdx 1 h l,
    foldl_lane16 lutBlk wt n _ (fun s : NeonSums => s.bc h l) rfl
      fun s byteIdx => neonAdd_lookup lutBlk wt s.bc byteIdx 2 h l,
    foldl_lane16 lutBlk wt n _ (fun s : NeonSums => s.ad h l) rfl
      fun s byteIdx => neonAdd_lookup lutBlk wt s.ad byteIdx 3 h l⟩

lemma neonSums_eq (h : Fin 2) (l : Fin 8) :
    let sum := (List.range 64).foldl (neonAccumulate lutBlk wt) NeonSums.zero
    let lane := 8 * (h : ℕ) + l
    sum.ac h l = BitVec.ofInt 16 (laneSum lutBlk wt lane 0) ∧
    sum.bd h l = BitVec.ofInt 16 (laneSum lutBlk wt lane 1) ∧
    sum.bc h l = BitVec.ofInt 16 (laneSum lutBlk wt lane 2) ∧
    sum.ad h l = BitVec.ofInt 16 (laneSum lutBlk wt lane 3) :=
  neonSumsOf_eq lutBlk wt 64 h l

/-- A lookup in a table of two channels: half `c` reads the second one for `c = 1`. -/
lemma shuffle_loadu (mem : ℕ → Int8) (p : ℕ) {idx : Fin 32 → UInt8} {l : Fin 32}
    (h : (idx l).toNat < 16) :
    Avx2.shuffleEpi8 (Avx2.loadu mem p) idx l = mem (p + l / 16 * 16 + (idx l).toNat) := by
  have hlt : ¬ 128 ≤ (idx l).toNat := by omega
  rw [Avx2.shuffleEpi8, if_neg hlt, Avx2.loadu]
  simp only [Nat.mod_eq_of_lt h, Nat.add_assoc]

lemma shift_or_mask (a b : UInt8) : ((a >>> 4) ||| (b <<< (8 - 4))) &&& 0x0f = highNibble a := by
  have hb : (b <<< (8 - 4)) &&& 0x0f = 0 := by
    apply UInt8.toNat_inj.mp
    have hmask := Nat.and_two_pow_sub_one_eq_mod (b <<< (8 - 4)).toNat 4
    have hshift : (b <<< (8 - 4)).toNat = b.toNat * 16 % 256 := by
      rw [UInt8.toNat_shiftLeft, Nat.shiftLeft_eq]
      rfl
    refine hmask.trans ?_
    rw [hshift]
    have hzero : (0 : UInt8).toNat = 0 := rfl
    omega
  rw [← shift_mask a]
  apply UInt8.toNat_inj.mp
  have hb' := congrArg UInt8.toNat hb
  rw [UInt8.toNat_and] at hb'
  rw [UInt8.toNat_and, UInt8.toNat_or, Nat.and_or_distrib_right, hb', UInt8.toNat_and]
  exact Nat.or_zero _

/-- Byte `16 * c + lane` of the two lookups in the tables at `off`. -/
lemma avx2_lookup (byteIdx off : ℕ) {c lane : ℕ} (hc : c < 2) (hlane : lane < 16) :
    Avx2.shuffleEpi8 (Avx2.loadu lutBlk (byteIdx * 2 * 64 + off))
      (Avx2.andSi256 (Avx2.broadcastsi128 fun l : Fin 16 => wt.qs byteIdx l)
        (Avx2.set1Epi8 0x0f)) ⟨16 * c + lane, by omega⟩ =
      lutBlk (byteIdx * 128 + off + c * 16 + (lowNibble (wt.qs byteIdx lane)).toNat) ∧
    Avx2.shuffleEpi8 (Avx2.loadu lutBlk (byteIdx * 2 * 64 + off))
      (Avx2.andSi256 (Avx2.srliEpi16 (Avx2.broadcastsi128 fun l : Fin 16 => wt.qs byteIdx l) 4)
        (Avx2.set1Epi8 0x0f)) ⟨16 * c + lane, by omega⟩ =
      lutBlk (byteIdx * 128 + off + c * 16 + (highNibble (wt.qs byteIdx lane)).toNat) := by
  have hmod : (16 * c + lane) % 16 = lane := by omega
  have hdiv : (16 * c + lane) / 16 = c := by omega
  have hlo : Avx2.andSi256 (Avx2.broadcastsi128 fun l : Fin 16 => wt.qs byteIdx l)
      (Avx2.set1Epi8 0x0f) ⟨16 * c + lane, by omega⟩ = lowNibble (wt.qs byteIdx lane) := by
    simp only [Avx2.andSi256, Avx2.broadcastsi128, Avx2.set1Epi8, hmod]
    rfl
  have hhi : Avx2.andSi256 (Avx2.srliEpi16 (Avx2.broadcastsi128 fun l : Fin 16 =>
      wt.qs byteIdx l) 4) (Avx2.set1Epi8 0x0f) ⟨16 * c + lane, by omega⟩ =
      highNibble (wt.qs byteIdx lane) := by
    simp only [Avx2.andSi256, Avx2.srliEpi16, Avx2.broadcastsi128, Avx2.set1Epi8, hmod]
    split_ifs
    · exact shift_or_mask _ _
    · exact shift_mask _
  rw [shuffle_loadu _ _ (by rw [hlo]; exact lowNibble_lt _),
    shuffle_loadu _ _ (by rw [hhi]; exact highNibble_lt _), hlo, hhi]
  simp only [hdiv, Nat.mul_assoc]
  exact ⟨trivial, trivial⟩

/-- The AVX2 sums after `n` bytes. -/
lemma avx2SumsOf_eq (n : ℕ) {c i : ℕ} (hc : c < 2) (hi : i < 8) :
    let sum := (List.range n).foldl (fun sum byteIdx => avx2Accumulate lutBlk wt byteIdx sum)
      Avx2Sums.zero
    sum.s01Lo ⟨8 * c + i, half_lt_sixteen hc hi⟩ = BitVec.ofInt 16 (laneSumOf n lutBlk wt i c) ∧
    sum.s01Hi ⟨8 * c + i, half_lt_sixteen hc hi⟩ = BitVec.ofInt 16 (laneSumOf n lutBlk wt (8 + i) c) ∧
    sum.s23Lo ⟨8 * c + i, half_lt_sixteen hc hi⟩ = BitVec.ofInt 16 (laneSumOf n lutBlk wt i (2 + c)) ∧
    sum.s23Hi ⟨8 * c + i, half_lt_sixteen hc hi⟩ = BitVec.ofInt 16 (laneSumOf n lutBlk wt (8 + i) (2 + c)) := by
  intro sum
  have hlane : i < 16 := by omega
  have hlane' : 8 + i < 16 := by omega
  refine ⟨?_, ?_, ?_, ?_⟩
  · refine foldl_lane16 lutBlk wt n _ (fun s : Avx2Sums => s.s01Lo ⟨8 * c + i, by omega⟩) rfl
      fun s byteIdx => ?_
    refine congrArg (s.s01Lo _ + ·) ((Avx2.maddubs_unpacklo _ _ hc hi).trans ?_)
    rw [(avx2_lookup lutBlk wt byteIdx 0 hc hlane).1, (avx2_lookup lutBlk wt byteIdx 64 hc hlane).2]
    rfl
  · refine foldl_lane16 lutBlk wt n _ (fun s : Avx2Sums => s.s01Hi ⟨8 * c + i, by omega⟩) rfl
      fun s byteIdx => ?_
    refine congrArg (s.s01Hi _ + ·) ((Avx2.maddubs_unpackhi _ _ hc hi).trans ?_)
    simp only [Nat.add_assoc (16 * c) 8 i]
    rw [(avx2_lookup lutBlk wt byteIdx 0 hc hlane').1,
      (avx2_lookup lutBlk wt byteIdx 64 hc hlane').2]
    rfl
  · refine foldl_lane16 lutBlk wt n _ (fun s : Avx2Sums => s.s23Lo ⟨8 * c + i, by omega⟩) rfl
      fun s byteIdx => ?_
    refine congrArg (s.s23Lo _ + ·) ((Avx2.maddubs_unpacklo _ _ hc hi).trans ?_)
    rw [(avx2_lookup lutBlk wt byteIdx 32 hc hlane).1,
      (avx2_lookup lutBlk wt byteIdx 96 hc hlane).2, entryPair, Nat.add_mul, ← Nat.add_assoc,
      ← Nat.add_assoc]
  · refine foldl_lane16 lutBlk wt n _ (fun s : Avx2Sums => s.s23Hi ⟨8 * c + i, by omega⟩) rfl
      fun s byteIdx => ?_
    refine congrArg (s.s23Hi _ + ·) ((Avx2.maddubs_unpackhi _ _ hc hi).trans ?_)
    simp only [Nat.add_assoc (16 * c) 8 i]
    rw [(avx2_lookup lutBlk wt byteIdx 32 hc hlane').1,
      (avx2_lookup lutBlk wt byteIdx 96 hc hlane').2, entryPair, Nat.add_mul, ← Nat.add_assoc,
      ← Nat.add_assoc]

lemma avx2Sums_eq {c i : ℕ} (hc : c < 2) (hi : i < 8) :
    let sum := (List.range 64).foldl (fun sum byteIdx => avx2Accumulate lutBlk wt byteIdx sum)
      Avx2Sums.zero
    sum.s01Lo ⟨8 * c + i, half_lt_sixteen hc hi⟩ = BitVec.ofInt 16 (laneSum lutBlk wt i c) ∧
    sum.s01Hi ⟨8 * c + i, half_lt_sixteen hc hi⟩ = BitVec.ofInt 16 (laneSum lutBlk wt (8 + i) c) ∧
    sum.s23Lo ⟨8 * c + i, half_lt_sixteen hc hi⟩ = BitVec.ofInt 16 (laneSum lutBlk wt i (2 + c)) ∧
    sum.s23Hi ⟨8 * c + i, half_lt_sixteen hc hi⟩ = BitVec.ofInt 16 (laneSum lutBlk wt (8 + i) (2 + c)) :=
  avx2SumsOf_eq lutBlk wt 64 hc hi

end Sums

/-! ## The value of a lane -/

/-- A complex rational added to another. -/
def Cplx.plus (a b : Cplx) : Cplx := ⟨a.re + b.re, a.im + b.im⟩

lemma Cplx.zero_plus (a : Cplx) : Cplx.plus ⟨0, 0⟩ a = a := by
  simp [Cplx.plus]

section Kernels

variable (blocks : ℕ) (wtiles : ℕ → LutWtile16) (lutCol : ℕ → Int8) (scales : ℕ → ℚ)

/-- What a lane of a tile gains: its four sums in every block, scaled. -/
def laneValue (tile lane : ℕ) : Cplx :=
  let wt := fun blk => wtiles (tile * blocks + blk)
  let sum := fun blk ch => (laneSum (fun a => lutCol (blk * 128 * 64 + a)) (wt blk) lane ch : ℚ)
  ⟨∑ blk ∈ Finset.range blocks,
      (sum blk 0 * (scales (blk * 2 + 0) * (wt blk).dReal lane) +
        sum blk 1 * (scales (blk * 2 + 1) * (wt blk).dImag lane)),
    ∑ blk ∈ Finset.range blocks,
      (sum blk 2 * (scales (blk * 2 + 0) * (wt blk).dImag lane) +
        sum blk 3 * (scales (blk * 2 + 1) * (wt blk).dReal lane))⟩

lemma foldl_laneValue {β : Type*} (step : β → ℕ → β) (read : β → Cplx) (tile lane : ℕ) (s : β)
    (hstep : ∀ s blk, blk < blocks → read (step s blk) =
      scaledAdd (read s) (scales (blk * 2 + 0)) (scales (blk * 2 + 1))
        ((wtiles (tile * blocks + blk)).dReal lane) ((wtiles (tile * blocks + blk)).dImag lane)
        (laneSum (fun a => lutCol (blk * 128 * 64 + a)) (wtiles (tile * blocks + blk)) lane 0)
        (laneSum (fun a => lutCol (blk * 128 * 64 + a)) (wtiles (tile * blocks + blk)) lane 2)
        (laneSum (fun a => lutCol (blk * 128 * 64 + a)) (wtiles (tile * blocks + blk)) lane 3)
        (laneSum (fun a => lutCol (blk * 128 * 64 + a)) (wtiles (tile * blocks + blk)) lane 1)) :
    read ((List.range blocks).foldl step s) =
      (read s).plus (laneValue blocks wtiles lutCol scales tile lane) := by
  have hre := foldl_accumulate step (fun s => (read s).re) _ blocks
    (fun s blk hblk => congrArg Cplx.re (hstep s blk hblk)) s
  have him := foldl_accumulate step (fun s => (read s).im) _ blocks
    (fun s blk hblk => congrArg Cplx.im (hstep s blk hblk)) s
  exact Cplx.ext hre him

/-! ## Row by row -/

lemma scalarRow_eq (out : Cplx) (row : ℕ) :
    scalarRow blocks wtiles lutCol scales out row =
      out.plus (laneValue blocks wtiles lutCol scales (row / 16) (row % 16)) := by
  refine foldl_laneValue blocks wtiles lutCol scales _ (fun out => out) _ _ out fun out blk _ => ?_
  simp only [scalarSums_eq]

lemma qgemmScalar_apply (m : ℕ) (add : Bool) (dst : ℕ → Cplx) (row : ℕ) :
    qgemmScalar blocks m wtiles lutCol scales add dst row =
      if row < m then (if add then dst row else ⟨0, 0⟩ : Cplx).plus
        (laneValue blocks wtiles lutCol scales (row / 16) (row % 16))
      else dst row := by
  refine (foldl_update_range (fun row out => scalarRow blocks wtiles lutCol scales
    (if add then out else ⟨0, 0⟩) row) m dst row).trans ?_
  rw [scalarRow_eq]

/-! ## NEON -/

/-- The accumulators of a tile: lane `l` of quad `q` is lane `4 * q + l` of the tile. -/
lemma neonTile_eq (t : ℕ) (q l : Fin 4) :
    neonTile blocks wtiles lutCol scales t q l =
      laneValue blocks wtiles lutCol scales t (4 * q + l) := by
  refine (foldl_laneValue blocks wtiles lutCol scales _ (fun acc : Fin 4 → Fin 4 → Cplx => acc q l)
    t (4 * q + l) _ fun acc blk _ => ?_).trans (Cplx.zero_plus _)
  set lutBlk := fun a => lutCol (blk * 128 * 64 + a) with hlutBlk
  set wt := wtiles (t * blocks + blk) with hwt
  -- lane `4 * q + l` lies in lane `(4 * q + l) % 8` of vector `(4 * q + l) / 8`
  have hquad : ∀ s : Fin 2 → Fin 8 → BitVec 16, neonQuad s q l =
      s ⟨(4 * q + l) / 8, by omega⟩ ⟨(4 * q + l) % 8, by omega⟩ := by
    intro s
    fin_cases q <;> fin_cases l <;> rfl
  obtain ⟨hac, hbd, hbc, had⟩ := neonSums_eq lutBlk wt ⟨(4 * (q : ℕ) + l) / 8, by omega⟩
    ⟨(4 * (q : ℕ) + l) % 8, by omega⟩
  simp only [Nat.div_add_mod] at hac hbd hbc had
  simp only [applyTileSumsArm, hquad, hac, hbd, hbc, had, toInt_ofInt_laneSum]

/-- A tile stores its rows below `m`. -/
lemma storeTileArm_apply {tile m : ℕ} (htile : tile * 16 < m) (acc : Fin 4 → Fin 4 → Cplx)
    (dst : ℕ → Cplx) (row : ℕ) :
    storeTileArm tile m acc dst row =
      if row / 16 = tile ∧ row < m then acc (Fin.ofNat 4 (row % 16 / 4)) (Fin.ofNat 4 (row % 16))
      else dst row := by
  have hcount : (if 16 ≤ m - tile * 16 then 16 else m - tile * 16) = min 16 (m - tile * 16) := by
    rw [min_def]
  unfold storeTileArm
  simp only [hcount]
  split_ifs with h
  · obtain ⟨htile', hrow⟩ := h
    refine foldl_update_of_mem (tile * 16 + ·) _
      (fun row => acc (Fin.ofNat 4 (row % 16 / 4)) (Fin.ofNat 4 (row % 16))) (fun lane hlane => ?_)
      dst ⟨row % 16, List.mem_range.mpr (by omega), by omega⟩
    have hlt : lane < 16 := by
      have := List.mem_range.mp hlane
      omega
    have hmod : (tile * 16 + lane) % 16 = lane := by omega
    simp only [hmod]
  · refine foldl_update_of_not_mem (tile * 16 + ·) _ dst ?_
    rintro ⟨lane, hlane, rfl⟩
    have := List.mem_range.mp hlane
    exact h ⟨by omega, by omega⟩

lemma qgemmNeon_apply (m : ℕ) (dst : ℕ → Cplx) (row : ℕ) :
    qgemmNeon blocks m wtiles lutCol scales dst row =
      if row < m then laneValue blocks wtiles lutCol scales (row / 16) (row % 16)
      else dst row := by
  have hmem : ∀ t, t ∈ (List.range ((m + 15) / 16)).takeWhile (fun t => t * 16 < m) ↔
      t * 16 < m := by
    intro t
    rw [mem_takeWhile_range fun i j hij hj => by
      have hj := of_decide_eq_true hj
      exact decide_eq_true (by omega)]
    rw [decide_eq_true_iff]
    omega
  unfold qgemmNeon
  split_ifs with hrow
  · refine foldl_read_of_cover _ (fun dst : ℕ → Cplx => dst row) (fun t => t = row / 16) _ ?_ ?_
      ⟨row / 16, (hmem _).mpr (by omega), rfl⟩ dst
    · rintro t ht rfl dst
      rw [storeTileArm_apply ((hmem _).mp ht), if_pos ⟨rfl, hrow⟩, neonTile_eq]
      congr 1
      simp only [Fin.ofNat]
      omega
    · intro t ht hne dst
      rw [storeTileArm_apply ((hmem _).mp ht), if_neg fun h => hne h.1.symm]
  · refine foldl_read_of_not_cover _ (fun dst : ℕ → Cplx => dst row) (fun t ht dst => ?_) dst
    rw [storeTileArm_apply ((hmem _).mp ht), if_neg fun h => hrow h.2]

/-! ## AVX2 -/

lemma foldl_hasTile {σ : Type*} (has : ℕ → Prop) [DecidablePred has] (step : ℕ → ℕ → σ → σ)
    (l : List ℕ) (s : ℕ → σ) {j : ℕ} (hj : has j) :
    l.foldl (fun s i => fun j => if has j then step j i (s j) else s j) s j =
      l.foldl (fun s i => step j i s) (s j) := by
  induction l generalizing s with
  | nil => rfl
  | cons i l ih => rw [List.foldl_cons, ih, List.foldl_cons, if_pos hj]

/-- The accumulators of a tile of a pass: lanes `i` and `8 + i`. -/
lemma avx2Pass_eq {tiles t0 j : ℕ} (hj : hasTile tiles t0 j) (i : Fin 8) :
    (avx2Pass blocks tiles wtiles lutCol scales t0 j).lo i =
      laneValue blocks wtiles lutCol scales (t0 + j) i ∧
    (avx2Pass blocks tiles wtiles lutCol scales t0 j).hi i =
      laneValue blocks wtiles lutCol scales (t0 + j) (8 + i) := by
  have hsums := fun blk => avx2Sums_eq (fun a => lutCol (blk * 128 * 64 + a))
    (wtiles ((t0 + j) * blocks + blk)) (c := 0) (i := i) Nat.two_pos i.isLt
  have hsums' := fun blk => avx2Sums_eq (fun a => lutCol (blk * 128 * 64 + a))
    (wtiles ((t0 + j) * blocks + blk)) (c := 1) (i := i) Nat.one_lt_two i.isLt
  simp only [Nat.mul_zero, Nat.zero_add, Nat.mul_one] at hsums hsums'
  constructor
  · refine (foldl_laneValue blocks wtiles lutCol scales _ (fun acc : ℕ → Avx2Acc => (acc j).lo i)
      (t0 + j) i _ fun acc blk _ => ?_).trans (Cplx.zero_plus _)
    obtain ⟨hac, -, hbc, -⟩ := hsums blk
    obtain ⟨hbd, -, had, -⟩ := hsums' blk
    simp only [if_pos hj, foldl_hasTile (hasTile tiles t0) (fun j byteIdx sum => avx2Accumulate
      (fun a => lutCol (blk * 128 * 64 + a)) (wtiles ((t0 + j) * blocks + blk)) byteIdx sum) _ _ hj,
      applyTileSumsAvx2, Avx2.castEpi16, Avx2.extractEpi16, hac, hbc, hbd, had,
      toInt_ofInt_laneSum, Nat.zero_add]
  · refine (foldl_laneValue blocks wtiles lutCol scales _ (fun acc : ℕ → Avx2Acc => (acc j).hi i)
      (t0 + j) (8 + i) _ fun acc blk _ => ?_).trans (Cplx.zero_plus _)
    obtain ⟨-, hac, -, hbc⟩ := hsums blk
    obtain ⟨-, hbd, -, had⟩ := hsums' blk
    simp only [if_pos hj, foldl_hasTile (hasTile tiles t0) (fun j byteIdx sum => avx2Accumulate
      (fun a => lutCol (blk * 128 * 64 + a)) (wtiles ((t0 + j) * blocks + blk)) byteIdx sum) _ _ hj,
      applyTileSumsAvx2, Avx2.castEpi16, Avx2.extractEpi16, hac, hbc, hbd, had,
      toInt_ofInt_laneSum]

/-- A tile stores its rows below `m`. -/
lemma storeTileAvx2_apply (tile m : ℕ) (acc : Avx2Acc) (dst : ℕ → Cplx) (row : ℕ) :
    storeTileAvx2 tile m acc dst row =
      if row / 16 = tile ∧ row < m then
        (if row % 16 < 8 then acc.lo (Fin.ofNat 8 (row % 16)) else acc.hi (Fin.ofNat 8 (row % 16)))
      else dst row := by
  have hmem : ∀ lane, lane ∈ (List.range 16).takeWhile (fun lane => tile * 16 + lane < m) ↔
      lane < 16 ∧ tile * 16 + lane < m := by
    intro lane
    rw [mem_takeWhile_range fun i j hij hj => by
      have hj := of_decide_eq_true hj
      exact decide_eq_true (by omega)]
    rw [decide_eq_true_iff]
  unfold storeTileAvx2
  by_cases h : row / 16 = tile ∧ row < m
  · rw [if_pos h]
    obtain ⟨htile, hrow⟩ := h
    refine foldl_update_of_mem (tile * 16 + ·) _ (fun row => if row % 16 < 8 then
      acc.lo (Fin.ofNat 8 (row % 16)) else acc.hi (Fin.ofNat 8 (row % 16))) (fun lane hlane => ?_)
      dst ⟨row % 16, (hmem _).mpr ⟨by omega, by omega⟩, by omega⟩
    have hmod : (tile * 16 + lane) % 16 = lane := by
      have := ((hmem lane).mp hlane).1
      omega
    simp only [hmod]
  · rw [if_neg h]
    refine foldl_update_of_not_mem (tile * 16 + ·) _ dst ?_
    rintro ⟨lane, hlane, rfl⟩
    obtain ⟨hlt, hrow⟩ := (hmem lane).mp hlane
    exact h ⟨by omega, hrow⟩

lemma qgemmAvx2_apply (m : ℕ) (dst : ℕ → Cplx) (row : ℕ) :
    qgemmAvx2 blocks m wtiles lutCol scales dst row =
      if row < m then laneValue blocks wtiles lutCol scales (row / 16) (row % 16)
      else dst row := by
  have hpass : ∀ t0 ∈ stepRange ((m + 15) / 16) 4, t0 < (m + 15) / 16 ∧ 4 ∣ t0 := fun t0 ht0 =>
    (mem_stepRange (by decide)).mp ht0
  unfold qgemmAvx2
  split_ifs with hrow
  · refine foldl_read_of_cover _ (fun dst : ℕ → Cplx => dst row) (fun t0 => t0 = row / 16 / 4 * 4)
      _ ?_ ?_ ⟨row / 16 / 4 * 4, (mem_stepRange (by decide)).mpr ⟨by omega, Dvd.intro_left _ rfl⟩,
        rfl⟩ dst
    · rintro t0 ht0 rfl dst
      have htile : row / 16 / 4 * 4 + row / 16 % 4 = row / 16 := by omega
      refine foldl_read_of_cover _ (fun dst : ℕ → Cplx => dst row) (fun j => j = row / 16 % 4) _
        ?_ ?_ ⟨row / 16 % 4, List.mem_range.mpr (Nat.mod_lt _ (by decide)), rfl⟩ dst
      · rintro j - rfl dst
        have hhas : hasTile ((m + 15) / 16) (row / 16 / 4 * 4) (row / 16 % 4) :=
          Or.inr (by omega)
        rw [if_pos hhas, storeTileAvx2_apply, if_pos ⟨htile.symm, hrow⟩,
          (avx2Pass_eq blocks wtiles lutCol scales hhas _).1,
          (avx2Pass_eq blocks wtiles lutCol scales hhas _).2, htile]
        split_ifs with hlow <;> congr 1 <;> simp only [Fin.ofNat] <;> omega
      · intro j hj hne dst
        split_ifs with hhas
        · rw [storeTileAvx2_apply, if_neg fun h => hne (by omega)]
        · rfl
    · intro t0 ht0 hne dst
      refine foldl_read_of_not_cover _ (fun dst : ℕ → Cplx => dst row) (fun j hj dst => ?_) dst
      obtain ⟨-, c, rfl⟩ := hpass t0 ht0
      have hj := List.mem_range.mp hj
      split_ifs with hhas
      · rw [storeTileAvx2_apply, if_neg fun h => hne (by omega)]
      · rfl
  · refine foldl_read_of_not_cover _ (fun dst : ℕ → Cplx => dst row) (fun t0 ht0 dst => ?_) dst
    refine foldl_read_of_not_cover _ (fun dst : ℕ → Cplx => dst row) (fun j hj dst => ?_) dst
    split_ifs with hhas
    · rw [storeTileAvx2_apply, if_neg fun h => hrow h.2]
    · rfl

/-! ## Every kernel -/

/-- Whatever the instruction set, a column gains the values of its lanes, and only the rows
below `m` are written. -/
theorem qgemmLut16One_apply (isa : LutIsa) (m : ℕ) (add : Bool) (dst : ℕ → Cplx) (row : ℕ) :
    qgemmLut16One isa blocks m wtiles lutCol scales add dst row =
      if row < m then (if add then dst row else ⟨0, 0⟩ : Cplx).plus
        (laneValue blocks wtiles lutCol scales (row / 16) (row % 16))
      else dst row := by
  cases add with
  | true => exact qgemmScalar_apply blocks wtiles lutCol scales m true dst row
  | false =>
    have hzero : (if false = true then dst row else ⟨0, 0⟩ : Cplx) = ⟨0, 0⟩ := rfl
    rw [hzero, Cplx.zero_plus]
    cases isa with
    | scalar =>
      refine (qgemmScalar_apply blocks wtiles lutCol scales m false dst row).trans ?_
      rw [hzero, Cplx.zero_plus]
    | neon => exact qgemmNeon_apply blocks wtiles lutCol scales m dst row
    | avx2 => exact qgemmAvx2_apply blocks wtiles lutCol scales m dst row

end Kernels

end IFairy
