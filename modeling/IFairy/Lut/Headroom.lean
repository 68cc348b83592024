import IFairy.Wide.QgemmFour

/-!
# Headroom of the LUT path

The tables are filled with eight-bit lanes and the kernels add their entries in sixteen-bit lanes,
the scalar kernel in `int`.  Here both are written over any arithmetic of lanes: with the machine's
they are the code of `Tables` and `Qgemm`, with the checked one every lane remembers whether it and
all lanes it was computed from fitted their width (`Simd.CheckedInt`).

For activations in `[-63, 63]` every lane fits: a table entry is at most `126`, an entry pair `252`,
and the `64` pairs of a block at most `16128`.  So the machine's sums are the integer sums over the
weights of the block (`fillGroup_headroom`, `kernels_headroom`).
-/

namespace IFairy

open Simd Wide

/-! ## Filling the tables -/

/-- What the tables are filled with: the conversion to a byte, the saturation of the scalar code,
and the three vector operations. -/
structure ByteOps (β : Type*) where
  cast : ℤ → β
  sat : ℤ → β
  mul : β → Int8 → β
  sign : β → Int8 → β
  adds : β → β → β

def machineBytes : ByteOps Int8 where
  cast := Int8.ofInt
  sat := satS8
  mul a c := a * c
  sign a c := if c < 0 then -a else if c = 0 then 0 else a
  adds a b := satS8 (a.toInt + b.toInt)

/-- Bytes that remember what did not fit. -/
def checkedBytes : ByteOps (CheckedInt 8) where
  cast v := .lane 8 v true
  sat v := .lane 8 v true
  mul a c := .lane 8 (a.value * c.toInt) a.fits
  sign a c := .lane 8 (if c < 0 then -a.value else if c = 0 then 0 else a.value) a.fits
  adds a b := .lane 8 (a.value + b.value) (a.fits && b.fits)

/-- Four tables of entries `β`. -/
structure TablesOf (β : Type*) where
  ac : Fin 16 → β
  bd : Fin 16 → β
  bc : Fin 16 → β
  ad : Fin 16 → β

section Fill

variable {β : Type*} (ops : ByteOps β)

/-- The integers that `realTable`, `imagTable` and `imagNegTable` saturate. -/
def realSums (a b : ℤ) : Fin 16 → ℤ :=
  ![-a - b, a - b, -b, -b, -a + b, a + b, b, b, -a, a, 0, 0, -a, a, 0, 0]

def imagSums (a b : ℤ) : Fin 16 → ℤ :=
  ![0, 0, -a, a, 0, 0, -a, a, -b, -b, -a - b, a - b, b, b, -a + b, a + b]

def imagNegSums (a b : ℤ) : Fin 16 → ℤ :=
  ![0, 0, a, -a, 0, 0, a, -a, b, b, a + b, -a + b, -b, -b, a - b, -a - b]

def mulTable (v0 v1 : ℤ) (c0 c1 : Fin 16 → Int8) (p : Fin 16) : β :=
  ops.adds (ops.mul (ops.cast v0) (c0 p)) (ops.mul (ops.cast v1) (c1 p))

/-- A half of a table of the AVX2 code. -/
def signTable (v0 v1 : ℤ) (c0 c1 : Fin 16 → Int8) (p : Fin 16) : β :=
  ops.adds (ops.sign (ops.cast v0) (c0 p)) (ops.sign (ops.cast v1) (c1 p))

/-- `ggml_ifairy_lut_fill_group_lut16` over any bytes. -/
def fillGroupOf (isa : LutIsa) (xr0 xi0 xr1 xi1 : ℤ) : TablesOf β :=
  let r0 := xr0
  let r1 := xr1
  let i0 := -xi0
  let i1 := -xi1
  match isa with
  | .scalar =>
    ⟨fun p => ops.sat (realSums r0 r1 p), fun p => ops.sat (imagNegSums i0 i1 p),
      fun p => ops.sat (imagSums r0 r1 p), fun p => ops.sat (realSums i0 i1 p)⟩
  | .neon =>
    ⟨mulTable ops r0 r1 c0Ac c1Ac, mulTable ops i0 i1 c0Bd c1Bd, mulTable ops r0 r1 c0Bc c1Bc,
      mulTable ops i0 i1 c0Ad c1Ad⟩
  | .avx2 =>
    ⟨signTable ops r0 r1 c0Ac c1Ac, signTable ops i0 i1 c0Bd c1Bd, signTable ops r0 r1 c0Bc c1Bc,
      signTable ops i0 i1 c0Ad c1Ad⟩

end Fill

/-- The tables of the code as tables of bytes. -/
def GroupTables.toTables (t : GroupTables) : TablesOf Int8 := ⟨t.ac, t.bd, t.bc, t.ad⟩

lemma satS8_realSums (a b : ℤ) : (fun p => satS8 (realSums a b p)) = realTable a b := by
  funext p
  fin_cases p <;> rfl

lemma satS8_imagSums (a b : ℤ) : (fun p => satS8 (imagSums a b p)) = imagTable a b := by
  funext p
  fin_cases p <;> rfl

lemma satS8_imagNegSums (a b : ℤ) : (fun p => satS8 (imagNegSums a b p)) = imagNegTable a b := by
  funext p
  fin_cases p <;> rfl

lemma fillGroupOf_machine (isa : LutIsa) (xr0 xi0 xr1 xi1 : ℤ) :
    fillGroupOf machineBytes isa xr0 xi0 xr1 xi1 = (fillGroup isa xr0 xi0 xr1 xi1).toTables := by
  cases isa with
  | scalar =>
    simp only [fillGroupOf, machineBytes, fillGroup, fillGroupScalar, GroupTables.toTables,
      satS8_realSums, satS8_imagSums, satS8_imagNegSums]
  | neon => rfl
  | avx2 =>
    simp only [fillGroupOf, fillGroup, fillGroupAvx2, GroupTables.toTables, TablesOf.mk.injEq]
    refine ⟨?_, ?_, ?_, ?_⟩
    all_goals
      funext p
      simp only [Avx2.castsi128, Avx2.extracti128, Avx2.addsEpi8, Avx2.signEpi8, Avx2.set1Epi8,
        setrEpi8_castsi128, setrEpi8_extracti128]
      rfl

/-! ### No byte overflows -/

lemma realSums_eq (a b : ℤ) (p : Fin 16) :
    realSums a b p = (c0Ac p).toInt * a + (c1Ac p).toInt * b := by
  have hneg : (-1 : Int8).toInt = -1 := rfl
  fin_cases p <;> simp [realSums, c0Ac, c1Ac, hneg, sub_eq_add_neg]

lemma imagSums_eq (a b : ℤ) (p : Fin 16) :
    imagSums a b p = (c0Bc p).toInt * a + (c1Bc p).toInt * b := by
  have hneg : (-1 : Int8).toInt = -1 := rfl
  fin_cases p <;> simp [imagSums, c0Bc, c1Bc, hneg, sub_eq_add_neg]

lemma imagNegSums_eq (a b : ℤ) (p : Fin 16) :
    imagNegSums a b p = (c0Bd p).toInt * a + (c1Bd p).toInt * b := by
  have hneg : (-1 : Int8).toInt = -1 := rfl
  fin_cases p <;> simp [imagNegSums, c0Bd, c1Bd, hneg, sub_eq_add_neg]

/-- A checked entry that fitted, with the integer it should hold. -/
def CheckedInt.Is {w : ℕ} (a : CheckedInt w) (v : ℤ) : Prop := a.fits = true ∧ a.value = v

lemma isSign_mul_bound {c : Int8} (hc : IsSign c) {v : ℤ} (hv : InLutRange v) :
    -63 ≤ c.toInt * v ∧ c.toInt * v ≤ 63 := by
  obtain ⟨hlow, hhigh⟩ := hv
  have hneg : (-1 : Int8).toInt = -1 := rfl
  rcases hc with rfl | rfl | rfl
  · rw [hneg]
    omega
  · simp
  · rw [Int8.toInt_one]
    omega

lemma lane_is {w : ℕ} {v : ℤ} (hlow : -2 ^ (w - 1) ≤ v) (hhigh : v < 2 ^ (w - 1)) :
    CheckedInt.Is (CheckedInt.lane w v true) v := by
  refine ⟨?_, rfl⟩
  simp only [CheckedInt.lane, inLane, Bool.true_and, decide_eq_true_eq]
  exact ⟨hlow, hhigh⟩

section Entries

variable {c0 c1 : Int8} (h0 : IsSign c0) (h1 : IsSign c1) {a b : ℤ} (ha : InLutRange a)
  (hb : InLutRange b)
include h0 ha

lemma checked_mul_is :
    CheckedInt.Is (checkedBytes.mul (checkedBytes.cast a) c0) (c0.toInt * a) := by
  obtain ⟨hlow, hhigh⟩ := isSign_mul_bound h0 ha
  have hcast : CheckedInt.Is (checkedBytes.cast a) a := lane_is (by norm_num; have := ha.1; omega)
    (by norm_num; have := ha.2; omega)
  show CheckedInt.Is (CheckedInt.lane 8 ((checkedBytes.cast a).value * c0.toInt)
    (checkedBytes.cast a).fits) _
  rw [hcast.1, hcast.2, mul_comm]
  exact lane_is (by norm_num; omega) (by norm_num; omega)

lemma checked_sign_is :
    CheckedInt.Is (checkedBytes.sign (checkedBytes.cast a) c0) (c0.toInt * a) := by
  have hcast : CheckedInt.Is (checkedBytes.cast a) a := lane_is (by norm_num; have := ha.1; omega)
    (by norm_num; have := ha.2; omega)
  have hvalue : (if c0 < 0 then -a else if c0 = 0 then 0 else a) = c0.toInt * a := by
    have hneg : (-1 : Int8).toInt = -1 := rfl
    rcases h0 with rfl | rfl | rfl
    · rw [if_pos (by decide), hneg, neg_one_mul]
    · simp
    · rw [if_neg (by decide), if_neg (by decide), Int8.toInt_one, one_mul]
  obtain ⟨hlow, hhigh⟩ := isSign_mul_bound h0 ha
  show CheckedInt.Is (CheckedInt.lane 8 (if c0 < 0 then -(checkedBytes.cast a).value
    else if c0 = 0 then 0 else (checkedBytes.cast a).value) (checkedBytes.cast a).fits) _
  rw [hcast.1, hcast.2, hvalue]
  exact lane_is (by norm_num; omega) (by norm_num; omega)

include h1 hb

lemma checked_sat_is :
    CheckedInt.Is (checkedBytes.sat (c0.toInt * a + c1.toInt * b))
      (c0.toInt * a + c1.toInt * b) := by
  obtain ⟨hlow, hhigh⟩ := isSign_mul_bound h0 ha
  obtain ⟨hlow', hhigh'⟩ := isSign_mul_bound h1 hb
  exact lane_is (by norm_num; omega) (by norm_num; omega)

lemma checked_adds_is {x y : CheckedInt 8} (hx : CheckedInt.Is x (c0.toInt * a))
    (hy : CheckedInt.Is y (c1.toInt * b)) :
    CheckedInt.Is (checkedBytes.adds x y) (c0.toInt * a + c1.toInt * b) := by
  have hsat := checked_sat_is h0 h1 ha hb
  show CheckedInt.Is (CheckedInt.lane 8 (x.value + y.value) (x.fits && y.fits)) _
  rw [hx.1, hx.2, hy.1, hy.2]
  exact hsat

/-- An entry of sum `s`, filled in each of the three ways. -/
lemma checked_entry_is {s : ℤ} (hs : s = c0.toInt * a + c1.toInt * b) :
    CheckedInt.Is (checkedBytes.sat s) (c0.toInt * a + c1.toInt * b) ∧
    CheckedInt.Is (checkedBytes.adds (checkedBytes.mul (checkedBytes.cast a) c0)
      (checkedBytes.mul (checkedBytes.cast b) c1)) (c0.toInt * a + c1.toInt * b) ∧
    CheckedInt.Is (checkedBytes.adds (checkedBytes.sign (checkedBytes.cast a) c0)
      (checkedBytes.sign (checkedBytes.cast b) c1)) (c0.toInt * a + c1.toInt * b) := by
  refine ⟨?_, ?_, ?_⟩
  · rw [hs]
    exact checked_sat_is h0 h1 ha hb
  · exact checked_adds_is h0 h1 ha hb (checked_mul_is h0 ha) (checked_mul_is h1 hb)
  · exact checked_adds_is h0 h1 ha hb (checked_sign_is h0 ha) (checked_sign_is h1 hb)

end Entries

/-- An entry of a table: the checked one fitted and holds the machine's value. -/
def EntryFits (machine : Fin 16 → Int8) (checked : Fin 16 → CheckedInt 8) : Prop :=
  ∀ p, CheckedInt.Is (checked p) (machine p).toInt

section FillHeadroom

variable {xr0 xi0 xr1 xi1 : ℤ} (hr0 : InLutRange xr0) (hi0 : InLutRange xi0)
  (hr1 : InLutRange xr1) (hi1 : InLutRange xi1)
include hr0 hi0 hr1 hi1

lemma fillGroup_eq_scalar (isa : LutIsa) :
    fillGroup isa xr0 xi0 xr1 xi1 = fillGroup .scalar xr0 xi0 xr1 xi1 := by
  have h := fillGroup_entry hr0 hi0 hr1 hi1 isa
  have hscalar := fillGroup_entry hr0 hi0 hr1 hi1 .scalar
  have hext : ∀ t t' : GroupTables, t.ac = t'.ac → t.bd = t'.bd → t.bc = t'.bc → t.ad = t'.ad →
      t = t' := by
    rintro ⟨⟩ ⟨⟩ rfl rfl rfl rfl
    rfl
  refine hext _ _ (funext fun p => ?_) (funext fun p => ?_) (funext fun p => ?_)
    (funext fun p => ?_)
  · rw [(h p).1, (hscalar p).1]
  · rw [(h p).2.1, (hscalar p).2.1]
  · rw [(h p).2.2.1, (hscalar p).2.2.1]
  · rw [(h p).2.2.2, (hscalar p).2.2.2]

lemma fillGroupOf_fits (isa : LutIsa) :
    let machine := fillGroup isa xr0 xi0 xr1 xi1
    let checked := fillGroupOf checkedBytes isa xr0 xi0 xr1 xi1
    EntryFits machine.ac checked.ac ∧ EntryFits machine.bd checked.bd ∧
      EntryFits machine.bc checked.bc ∧ EntryFits machine.ad checked.ad := by
  intro machine checked
  have h := fillGroup_entry hr0 hi0 hr1 hi1 isa
  obtain ⟨hAc0, hAc1, hBd0, hBd1, hBc0, hBc1⟩ := isSign_coefficients
  have had : ∀ p, satS8 ((c0Ad p).toInt * -xi0 + (c1Ad p).toInt * -xi1) =
      satS8 ((c0Ac p).toInt * -xi0 + (c1Ac p).toInt * -xi1) := fun _ => rfl
  refine ⟨fun p => ?_, fun p => ?_, fun p => ?_, fun p => ?_⟩
  · rw [(h p).1, signed_sum_toInt hAc0 hAc1 hr0 hr1]
    have hentry := checked_entry_is (hAc0 p) (hAc1 p) hr0 hr1 (realSums_eq xr0 xr1 p)
    cases isa with
    | scalar => exact hentry.1
    | neon => exact hentry.2.1
    | avx2 => exact hentry.2.2
  · rw [(h p).2.1, signed_sum_toInt hBd0 hBd1 hi0.neg hi1.neg]
    have hentry := checked_entry_is (hBd0 p) (hBd1 p) hi0.neg hi1.neg
      (imagNegSums_eq (-xi0) (-xi1) p)
    cases isa with
    | scalar => exact hentry.1
    | neon => exact hentry.2.1
    | avx2 => exact hentry.2.2
  · rw [(h p).2.2.1, signed_sum_toInt hBc0 hBc1 hr0 hr1]
    have hentry := checked_entry_is (hBc0 p) (hBc1 p) hr0 hr1 (imagSums_eq xr0 xr1 p)
    cases isa with
    | scalar => exact hentry.1
    | neon => exact hentry.2.1
    | avx2 => exact hentry.2.2
  · rw [(h p).2.2.2, had, signed_sum_toInt hAc0 hAc1 hi0.neg hi1.neg]
    have hentry := checked_entry_is (hAc0 p) (hAc1 p) hi0.neg hi1.neg
      (realSums_eq (-xi0) (-xi1) p)
    cases isa with
    | scalar => exact hentry.1
    | neon => exact hentry.2.1
    | avx2 => exact hentry.2.2

end FillHeadroom

/-! ## Adding the entries of a block -/

/-- What the kernels add with: the widening addition of NEON, and the product with ones and the
addition of AVX2. -/
structure LaneOps (γ : Type*) where
  zero : γ
  vaddw : γ → Int8 → γ
  maddubs : UInt8 → Int8 → UInt8 → Int8 → γ
  add : γ → γ → γ

def machineLanes : LaneOps (BitVec 16) where
  zero := 0
  vaddw s v := s + BitVec.ofInt 16 v.toInt
  maddubs a0 b0 a1 b1 :=
    BitVec.ofInt 16 (max (-32768) (min 32767 (a0.toNat * b0.toInt + a1.toNat * b1.toInt)))
  add := (· + ·)

/-- Lanes that remember what did not fit. -/
def checkedLanes : LaneOps (CheckedInt 16) where
  zero := ⟨0, true⟩
  vaddw s v := .lane 16 (s.value + v.toInt) s.fits
  maddubs a0 b0 a1 b1 := .lane 16 (a0.toNat * b0.toInt + a1.toNat * b1.toInt) true
  add := (· + ·)

section Kernels

variable {γ : Type*} (ops : LaneOps γ) (lutBlk : ℕ → Int8) (wt : LutWtile16)

/-- The sums of a tile in the NEON kernel. -/
structure NeonLanes (γ : Type*) where
  ac : Fin 2 → Fin 8 → γ
  bc : Fin 2 → Fin 8 → γ
  ad : Fin 2 → Fin 8 → γ
  bd : Fin 2 → Fin 8 → γ

/-- `neonAdd` over any lanes. -/
def neonAddOf (sum : Fin 2 → Fin 8 → γ) (v0 v1 : Fin 16 → Int8) : Fin 2 → Fin 8 → γ :=
  ![fun l => ops.vaddw (ops.vaddw (sum ⟨0, Nat.two_pos⟩ l) (Neon.vgetLow v0 l)) (Neon.vgetLow v1 l),
    fun l => ops.vaddw (ops.vaddw (sum ⟨1, Nat.one_lt_two⟩ l) (Neon.vgetHigh v0 l))
      (Neon.vgetHigh v1 l)]

/-- `neonAccumulate` over any lanes. -/
def neonAccumulateOf (sum : NeonLanes γ) (byteIdx : ℕ) : NeonLanes γ :=
  let packed := Neon.vld1q (wt.qs byteIdx) 0
  let idxLo := Neon.vandq packed (Neon.vdupq 0x0f)
  let idxHi := Neon.vandq (Neon.vshrq packed 4) (Neon.vdupq 0x0f)
  let lutPtr := byteIdx * 128
  let ilut0 := fun c => Neon.vld1q lutBlk (lutPtr + 0 + c * 16)
  let ilut1 := fun c => Neon.vld1q lutBlk (lutPtr + 64 + c * 16)
  { ac := neonAddOf ops sum.ac (Neon.vqtbl1q (ilut0 0) idxLo) (Neon.vqtbl1q (ilut1 0) idxHi)
    bd := neonAddOf ops sum.bd (Neon.vqtbl1q (ilut0 1) idxLo) (Neon.vqtbl1q (ilut1 1) idxHi)
    bc := neonAddOf ops sum.bc (Neon.vqtbl1q (ilut0 2) idxLo) (Neon.vqtbl1q (ilut1 2) idxHi)
    ad := neonAddOf ops sum.ad (Neon.vqtbl1q (ilut0 3) idxLo) (Neon.vqtbl1q (ilut1 3) idxHi) }

/-- The NEON sums over `bytes` bytes of every lane. -/
def neonBlockOf (bytes : ℕ) : NeonLanes γ :=
  (List.range bytes).foldl (neonAccumulateOf ops lutBlk wt)
    ⟨fun _ _ => ops.zero, fun _ _ => ops.zero, fun _ _ => ops.zero, fun _ _ => ops.zero⟩

/-- The sums of a tile in the AVX2 kernels. -/
structure Avx2Lanes (γ : Type*) where
  s01Lo : Fin 16 → γ
  s01Hi : Fin 16 → γ
  s23Lo : Fin 16 → γ
  s23Hi : Fin 16 → γ

/-- `_mm256_add_epi16` of `_mm256_maddubs_epi16` over any lanes. -/
def addMaddubsOf (sum : Fin 16 → γ) (a : Fin 32 → UInt8) (b : Fin 32 → Int8) : Fin 16 → γ :=
  fun l =>
    let even : Fin 32 := ⟨2 * l, even_lt_thirtyTwo l⟩
    let odd : Fin 32 := ⟨2 * l + 1, odd_lt_thirtyTwo l⟩
    ops.add (sum l) (ops.maddubs (a even) (b even) (a odd) (b odd))

/-- `avx2Accumulate` over any lanes. -/
def avx2AccumulateOf (byteIdx : ℕ) (sum : Avx2Lanes γ) : Avx2Lanes γ :=
  let one : Fin 32 → UInt8 := Avx2.set1Epi8 1
  let maskIdx : Fin 32 → UInt8 := Avx2.set1Epi8 0x0f
  let lutBase := byteIdx * 2 * 64
  let packed := Avx2.broadcastsi128 fun l : Fin 16 => wt.qs byteIdx l
  let idxLo := Avx2.andSi256 packed maskIdx
  let idxHi := Avx2.andSi256 (Avx2.srliEpi16 packed 4) maskIdx
  let out01_0 := Avx2.shuffleEpi8 (Avx2.loadu lutBlk (lutBase + 0)) idxLo
  let out23_0 := Avx2.shuffleEpi8 (Avx2.loadu lutBlk (lutBase + 32)) idxLo
  let out01_1 := Avx2.shuffleEpi8 (Avx2.loadu lutBlk (lutBase + 64)) idxHi
  let out23_1 := Avx2.shuffleEpi8 (Avx2.loadu lutBlk (lutBase + 96)) idxHi
  { s01Lo := addMaddubsOf ops sum.s01Lo one (Avx2.unpackloEpi8 out01_0 out01_1)
    s01Hi := addMaddubsOf ops sum.s01Hi one (Avx2.unpackhiEpi8 out01_0 out01_1)
    s23Lo := addMaddubsOf ops sum.s23Lo one (Avx2.unpackloEpi8 out23_0 out23_1)
    s23Hi := addMaddubsOf ops sum.s23Hi one (Avx2.unpackhiEpi8 out23_0 out23_1) }

/-- The AVX2 sums over `bytes` bytes of every lane. -/
def avx2BlockOf (bytes : ℕ) : Avx2Lanes γ :=
  (List.range bytes).foldl (fun sum byteIdx => avx2AccumulateOf ops lutBlk wt byteIdx sum)
    ⟨fun _ => ops.zero, fun _ => ops.zero, fun _ => ops.zero, fun _ => ops.zero⟩

end Kernels

lemma neonBlockOf_machine (lutBlk : ℕ → Int8) (wt : LutWtile16) (bytes : ℕ) :
    let sum := (List.range bytes).foldl (neonAccumulate lutBlk wt) NeonSums.zero
    neonBlockOf machineLanes lutBlk wt bytes = ⟨sum.ac, sum.bc, sum.ad, sum.bd⟩ := by
  induction bytes with
  | zero => rfl
  | succ bytes ih =>
    simp only [neonBlockOf, List.range_succ, List.foldl_append, List.foldl_cons, List.foldl_nil]
      at ih ⊢
    rw [ih]
    rfl

lemma avx2BlockOf_machine (lutBlk : ℕ → Int8) (wt : LutWtile16) (bytes : ℕ) :
    let sum := (List.range bytes).foldl (fun sum byteIdx => avx2Accumulate lutBlk wt byteIdx sum)
      Avx2Sums.zero
    avx2BlockOf machineLanes lutBlk wt bytes = ⟨sum.s01Lo, sum.s01Hi, sum.s23Lo, sum.s23Hi⟩ := by
  induction bytes with
  | zero => rfl
  | succ bytes ih =>
    simp only [avx2BlockOf, List.range_succ, List.foldl_append, List.foldl_cons, List.foldl_nil]
      at ih ⊢
    rw [ih]
    rfl

/-! ### No lane overflows -/

/-- A lane of the machine that holds what the checked lane holds, and this fitted and is at most
`k`. -/
def Holds16 (machine : BitVec 16) (checked : CheckedInt 16) (k : ℤ) : Prop :=
  checked.Within k ∧ machine = BitVec.ofInt 16 checked.value

/-- Entries of a table of activations in range. -/
def SmallByte (v : Int8) : Prop := |v.toInt| ≤ 126

lemma smallByte_zero : SmallByte 0 := by
  simp [SmallByte]

lemma Holds16.zero : Holds16 machineLanes.zero checkedLanes.zero 0 :=
  ⟨⟨rfl, by simp [checkedLanes]⟩, rfl⟩

lemma Holds16.vaddw {m : BitVec 16} {c : CheckedInt 16} {k : ℤ} (h : Holds16 m c k) {v : Int8}
    (hv : SmallByte v) (hk : k + 126 < 2 ^ 15) :
    Holds16 (machineLanes.vaddw m v) (checkedLanes.vaddw c v) (k + 126) := by
  obtain ⟨⟨hfits, hle⟩, rfl⟩ := h
  refine ⟨?_, ?_⟩
  · show (CheckedInt.lane 16 (c.value + v.toInt) c.fits).Within _
    rw [hfits]
    exact CheckedInt.within_lane ((abs_add_le _ _).trans (add_le_add hle hv)) hk
  · exact (BitVec.ofInt_add ..).symm

lemma Holds16.addMaddubs {m : BitVec 16} {c : CheckedInt 16} {k : ℤ} (h : Holds16 m c k)
    {b0 b1 : Int8} (h0 : SmallByte b0) (h1 : SmallByte b1) (hk : k + 252 < 2 ^ 15) :
    Holds16 (machineLanes.add m (machineLanes.maddubs 1 b0 1 b1))
      (checkedLanes.add c (checkedLanes.maddubs 1 b0 1 b1)) (k + 252) := by
  obtain ⟨hc, rfl⟩ := h
  have hone : ((1 : UInt8).toNat : ℤ) = 1 := rfl
  have hsum : |b0.toInt + b1.toInt| ≤ 252 :=
    (abs_add_le _ _).trans ((add_le_add h0 h1).trans (by norm_num))
  have hmaddubs : checkedLanes.maddubs 1 b0 1 b1 =
      CheckedInt.lane 16 (b0.toInt + b1.toInt) true := by
    simp only [checkedLanes, hone, one_mul]
  have hmachine : machineLanes.maddubs 1 b0 1 b1 = BitVec.ofInt 16 (b0.toInt + b1.toInt) := by
    have hlow := neg_le_of_abs_le hsum
    have hhigh := le_of_abs_le hsum
    simp only [machineLanes, hone, one_mul]
    rw [min_eq_right (by omega), max_eq_right (by omega)]
  have hpair := CheckedInt.within_lane (w := 16) hsum (by norm_num)
  refine ⟨?_, ?_⟩
  · rw [hmaddubs]
    exact hc.add hpair hk
  · rw [hmaddubs, hmachine]
    exact (BitVec.ofInt_add ..).symm

section Bounds

variable {lutBlk : ℕ → Int8} {wt : LutWtile16} {bytes : ℕ}

/-- The tables of the first `bytes` pairs of groups have small entries. -/
def SmallTables (lutBlk : ℕ → Int8) (bytes : ℕ) : Prop := ∀ a < bytes * 128, SmallByte (lutBlk a)

lemma smallByte_vqtbl1q {mem : ℕ → Int8} {p : ℕ} (h : ∀ i < 16, SmallByte (mem (p + i)))
    (idx : Fin 16 → UInt8) (l : Fin 16) : SmallByte (Neon.vqtbl1q (Neon.vld1q mem p) idx l) := by
  unfold Neon.vqtbl1q
  split_ifs with hidx
  · exact h _ hidx
  · exact smallByte_zero

lemma smallByte_shuffle {mem : ℕ → Int8} {p : ℕ} (h : ∀ i < 32, SmallByte (mem (p + i)))
    (idx : Fin 32 → UInt8) (l : Fin 32) :
    SmallByte (Avx2.shuffleEpi8 (Avx2.loadu mem p) idx l) := by
  unfold Avx2.shuffleEpi8
  split_ifs
  · exact smallByte_zero
  · exact h _ (by omega)

lemma smallByte_unpack {a b : Fin 32 → Int8} (ha : ∀ l, SmallByte (a l))
    (hb : ∀ l, SmallByte (b l)) (l : Fin 32) :
    SmallByte (Avx2.unpackloEpi8 a b l) ∧ SmallByte (Avx2.unpackhiEpi8 a b l) := by
  unfold Avx2.unpackloEpi8 Avx2.unpackhiEpi8
  split_ifs
  · exact ⟨ha _, ha _⟩
  · exact ⟨hb _, hb _⟩

lemma holds16_neonAdd {m : Fin 2 → Fin 8 → BitVec 16} {c : Fin 2 → Fin 8 → CheckedInt 16} {k : ℤ}
    (h : ∀ i l, Holds16 (m i l) (c i l) k) {v0 v1 : Fin 16 → Int8} (h0 : ∀ l, SmallByte (v0 l))
    (h1 : ∀ l, SmallByte (v1 l)) (hk : k + 252 < 2 ^ 15) (i : Fin 2) (l : Fin 8) :
    Holds16 (neonAddOf machineLanes m v0 v1 i l) (neonAddOf checkedLanes c v0 v1 i l)
      (k + 252) := by
  rw [show k + 252 = k + 126 + 126 by ring]
  obtain rfl | rfl : i = 0 ∨ i = 1 := by omega
  · exact ((h 0 l).vaddw (h0 _) (by omega)).vaddw (h1 _) (by omega)
  · exact ((h 1 l).vaddw (h0 _) (by omega)).vaddw (h1 _) (by omega)

lemma holds16_addMaddubs {m : Fin 16 → BitVec 16} {c : Fin 16 → CheckedInt 16} {k : ℤ}
    (h : ∀ l, Holds16 (m l) (c l) k) {b : Fin 32 → Int8} (hb : ∀ l, SmallByte (b l))
    (hk : k + 252 < 2 ^ 15) (l : Fin 16) :
    Holds16 (addMaddubsOf machineLanes m (Avx2.set1Epi8 1) b l)
      (addMaddubsOf checkedLanes c (Avx2.set1Epi8 1) b l) (k + 252) :=
  (h l).addMaddubs (hb _) (hb _) hk

/-- The invariant of the NEON loop: after `bytes` bytes a lane is at most `252` for each. -/
lemma neonBlockOf_holds (wt : LutWtile16) (hsmall : SmallTables lutBlk bytes)
    (hbytes : bytes ≤ 64) :
    let machine := neonBlockOf machineLanes lutBlk wt bytes
    let checked := neonBlockOf checkedLanes lutBlk wt bytes
    (∀ i l, Holds16 (machine.ac i l) (checked.ac i l) (bytes * 252)) ∧
    (∀ i l, Holds16 (machine.bc i l) (checked.bc i l) (bytes * 252)) ∧
    (∀ i l, Holds16 (machine.ad i l) (checked.ad i l) (bytes * 252)) ∧
    (∀ i l, Holds16 (machine.bd i l) (checked.bd i l) (bytes * 252)) := by
  induction bytes with
  | zero =>
    simp only [Nat.cast_zero, zero_mul]
    exact ⟨fun _ _ => .zero, fun _ _ => .zero, fun _ _ => .zero, fun _ _ => .zero⟩
  | succ bytes ih =>
    obtain ⟨hac, hbc, had, hbd⟩ := ih (fun a ha => hsmall a (by omega)) (by omega)
    have hk : (bytes : ℤ) * 252 + 252 < 2 ^ 15 := by norm_num; omega
    have hcast : ((bytes + 1 : ℕ) : ℤ) * 252 = bytes * 252 + 252 := by push_cast; ring
    have hlookup : ∀ off, off + 16 ≤ 128 → ∀ idx l,
        SmallByte (Neon.vqtbl1q (Neon.vld1q lutBlk (bytes * 128 + off)) idx l) :=
      fun off hoff => smallByte_vqtbl1q fun i hi => hsmall _ (by omega)
    simp only [neonBlockOf, List.range_succ, List.foldl_append, List.foldl_cons, List.foldl_nil,
      hcast] at hac hbc had hbd ⊢
    refine ⟨?_, ?_, ?_, ?_⟩
    · exact holds16_neonAdd hac (hlookup 0 (by decide) _) (hlookup 64 (by decide) _) hk
    · exact holds16_neonAdd hbc (hlookup 32 (by decide) _) (hlookup 96 (by decide) _) hk
    · exact holds16_neonAdd had (hlookup 48 (by decide) _) (hlookup 112 (by decide) _) hk
    · exact holds16_neonAdd hbd (hlookup 16 (by decide) _) (hlookup 80 (by decide) _) hk

lemma avx2BlockOf_holds (wt : LutWtile16) (hsmall : SmallTables lutBlk bytes)
    (hbytes : bytes ≤ 64) :
    let machine := avx2BlockOf machineLanes lutBlk wt bytes
    let checked := avx2BlockOf checkedLanes lutBlk wt bytes
    (∀ l, Holds16 (machine.s01Lo l) (checked.s01Lo l) (bytes * 252)) ∧
    (∀ l, Holds16 (machine.s01Hi l) (checked.s01Hi l) (bytes * 252)) ∧
    (∀ l, Holds16 (machine.s23Lo l) (checked.s23Lo l) (bytes * 252)) ∧
    (∀ l, Holds16 (machine.s23Hi l) (checked.s23Hi l) (bytes * 252)) := by
  induction bytes with
  | zero =>
    simp only [Nat.cast_zero, zero_mul]
    exact ⟨fun _ => .zero, fun _ => .zero, fun _ => .zero, fun _ => .zero⟩
  | succ bytes ih =>
    obtain ⟨h01Lo, h01Hi, h23Lo, h23Hi⟩ := ih (fun a ha => hsmall a (by omega)) (by omega)
    have hk : (bytes : ℤ) * 252 + 252 < 2 ^ 15 := by norm_num; omega
    have hcast : ((bytes + 1 : ℕ) : ℤ) * 252 = bytes * 252 + 252 := by push_cast; ring
    have hlookup : ∀ off, off + 32 ≤ 128 → ∀ idx l,
        SmallByte (Avx2.shuffleEpi8 (Avx2.loadu lutBlk (bytes * 2 * 64 + off)) idx l) :=
      fun off hoff => smallByte_shuffle fun i hi => hsmall _ (by omega)
    have hpair : ∀ off idx idx', off + 96 ≤ 128 → ∀ l, _ := fun off idx idx' hoff =>
      smallByte_unpack (hlookup off (by omega) idx) (hlookup (off + 64) (by omega) idx')
    simp only [avx2BlockOf, List.range_succ, List.foldl_append, List.foldl_cons, List.foldl_nil,
      hcast] at h01Lo h01Hi h23Lo h23Hi ⊢
    refine ⟨?_, ?_, ?_, ?_⟩
    · exact holds16_addMaddubs h01Lo (fun l => (hpair 0 _ _ (by decide) l).1) hk
    · exact holds16_addMaddubs h01Hi (fun l => (hpair 0 _ _ (by decide) l).2) hk
    · exact holds16_addMaddubs h23Lo (fun l => (hpair 32 _ _ (by decide) l).1) hk
    · exact holds16_addMaddubs h23Hi (fun l => (hpair 32 _ _ (by decide) l).2) hk

end Bounds

/-! ## The sums of a block -/

/-- A block of a tile and its tables: what the packing and the table pass leave for the kernels.
Lane `lane` of the tile holds block `blk` of the row `w lane`. -/
structure BlockLoaded (isa : LutIsa) (gpb nb blk : ℕ) (x : ℕ → BlockIfairyQ16)
    (w : ℕ → ℕ → BlockIfairy) (lutBlk : ℕ → Int8) (wt : LutWtile16) : Prop where
  blk_lt : blk < nb
  tables : ∀ g < gpb, ∀ c : Fin 64,
    lutBlk (g * 64 + c) = (groupTables isa x gpb (blk * gpb + g)).byte c
  codes : ∀ lane < 16, ∀ byte : Fin (gpb / 2),
    wt.qs byte lane = patternByte gpb (w lane) (nb * (2 * gpb)) blk byte
  range : ∀ j < 2 * gpb, InLutRange (q16Re (x blk) j) ∧ InLutRange (q16Im (x blk) j)

/-- A lane of a kernel is exact: nothing it was computed from left its width, and both the checked
and the machine's lane hold the integer `v`. -/
structure LaneExact (machine : BitVec 16) (checked : CheckedInt 16) (v : ℤ) : Prop where
  fits : checked.fits = true
  checked_eq : checked.value = v
  machine_eq : machine.toInt = v

/-- The sum over the weights of a lane's block that channel `ch` stands for. -/
def weightSum (gpb blk : ℕ) (x : ℕ → BlockIfairyQ16) (w : ℕ → ℕ → BlockIfairy) (lane ch : ℕ) : ℤ :=
  ∑ j ∈ Finset.range (2 * gpb), channelTerm (w lane blk) (x blk) ch j

section Exact

variable {isa : LutIsa} {gpb nb blk : ℕ} {x : ℕ → BlockIfairyQ16} {w : ℕ → ℕ → BlockIfairy}
  {lutBlk : ℕ → Int8} {wt : LutWtile16}

lemma smallByte_fillGroup {xr0 xi0 xr1 xi1 : ℤ} (hr0 : InLutRange xr0) (hi0 : InLutRange xi0)
    (hr1 : InLutRange xr1) (hi1 : InLutRange xi1) (c : Fin 64) :
    SmallByte ((fillGroup isa xr0 xi0 xr1 xi1).byte c) := by
  have hentry := fillGroup_entry hr0 hi0 hr1 hi1 isa
  have hbound : ∀ {c0 c1 : Fin 16 → Int8} {a b : ℤ}, (∀ p, IsSign (c0 p)) → (∀ p, IsSign (c1 p)) →
      InLutRange a → InLutRange b → ∀ p,
      SmallByte (satS8 ((c0 p).toInt * a + (c1 p).toInt * b)) := by
    intro c0 c1 a b h0 h1 ha hb p
    obtain ⟨hlow, hhigh⟩ := isSign_mul_bound (h0 p) ha
    obtain ⟨hlow', hhigh'⟩ := isSign_mul_bound (h1 p) hb
    rw [SmallByte, signed_sum_toInt h0 h1 ha hb, abs_le]
    constructor <;> omega
  unfold GroupTables.byte
  split
  · rw [(hentry _).1]
    exact hbound (by decide) (by decide) hr0 hr1 _
  · rw [(hentry _).2.1]
    exact hbound (by decide) (by decide) hi0.neg hi1.neg _
  · rw [(hentry _).2.2.1]
    exact hbound (by decide) (by decide) hr0 hr1 _
  · rw [(hentry _).2.2.2]
    exact hbound (by decide) (by decide) hi0.neg hi1.neg _

lemma BlockLoaded.smallTables (h : BlockLoaded isa gpb nb blk x w lutBlk wt) (heven : 2 ∣ gpb) :
    SmallTables lutBlk (gpb / 2) := by
  intro a ha
  have hg : a / 64 < gpb := by omega
  have hdiv : (blk * gpb + a / 64) / gpb = blk := by
    rw [Nat.mul_comm, Nat.mul_add_div (by omega), Nat.div_eq_of_lt hg, Nat.add_zero]
  have hmod : (blk * gpb + a / 64) % gpb = a / 64 := by
    rw [Nat.mul_comm, Nat.mul_add_mod, Nat.mod_eq_of_lt hg]
  have hbyte := h.tables (a / 64) hg ⟨a % 64, Nat.mod_lt _ (by decide)⟩
  simp only [Nat.div_add_mod'] at hbyte
  rw [hbyte]
  simp only [groupTables, hdiv, hmod]
  obtain ⟨hr0, hi0⟩ := h.range (a / 64 * 2 + 0) (by omega)
  obtain ⟨hr1, hi1⟩ := h.range (a / 64 * 2 + 1) (by omega)
  exact smallByte_fillGroup hr0 hi0 hr1 hi1 _

lemma BlockLoaded.laneSumOf_eq (h : BlockLoaded isa gpb nb blk x w lutBlk wt) (heven : 2 ∣ gpb)
    {lane ch : ℕ} (hlane : lane < 16) (hch : ch < 4) :
    laneSumOf (gpb / 2) lutBlk wt lane ch = weightSum gpb blk x w lane ch :=
  IFairy.laneSumOf_eq heven h.tables h.blk_lt h.range (h.codes lane hlane) hch

lemma Holds16.exact {m m' : BitVec 16} {c : CheckedInt 16} {n : ℕ} (h : Holds16 m c (n * 252))
    (hn : n ≤ 64) (hmm : m = m') {lane ch : ℕ}
    (hm : m' = BitVec.ofInt 16 (laneSumOf n lutBlk wt lane ch)) :
    LaneExact m' c (laneSumOf n lutBlk wt lane ch) := by
  obtain ⟨⟨hfits, hle⟩, hmc⟩ := h
  have hvalue : m'.toInt = laneSumOf n lutBlk wt lane ch := by
    rw [hm]
    exact toInt_ofInt_laneSumOf lutBlk wt lane ch hn
  have hchecked : m.toInt = c.value := by
    have hlow := neg_le_of_abs_le hle
    have hhigh := le_of_abs_le hle
    rw [hmc]
    exact toInt_ofInt (w := 15) (by norm_num; omega) (by norm_num; omega)
  exact ⟨hfits, by rw [← hchecked, hmm, hvalue], hvalue⟩

lemma abs_laneSumOf_le (hsmall : SmallTables lutBlk (gpb / 2)) {lane ch n : ℕ} (hch : ch < 4)
    (hn : n ≤ gpb / 2) : |laneSumOf n lutBlk wt lane ch| ≤ n * 252 := by
  have hpair : ∀ byteIdx < n, |entryPair lutBlk wt lane ch byteIdx| ≤ 252 := fun byteIdx hb => by
    have hlow := lowNibble_lt (wt.qs byteIdx lane)
    have hhigh := highNibble_lt (wt.qs byteIdx lane)
    have h0 := hsmall (byteIdx * 128 + ch * 16 + (lowNibble (wt.qs byteIdx lane)).toNat) (by omega)
    have h1 := hsmall (byteIdx * 128 + 64 + ch * 16 + (highNibble (wt.qs byteIdx lane)).toNat)
      (by omega)
    exact (abs_add_le _ _).trans ((add_le_add h0 h1).trans (by norm_num))
  have hsum := Finset.abs_sum_le_sum_abs (entryPair lutBlk wt lane ch) (Finset.range n)
  have hcard := Finset.sum_le_card_nsmul (Finset.range n)
    (fun byteIdx => |entryPair lutBlk wt lane ch byteIdx|) 252
    fun byteIdx hb => hpair byteIdx (Finset.mem_range.mp hb)
  rw [Finset.card_range, nsmul_eq_mul] at hcard
  exact hsum.trans hcard

end Exact

/-! ## Headroom -/

/-- A table pass is exact: the vector code fills what the scalar code fills, no byte it computes
overflows or saturates, and an entry is the integer that its two weights contribute. -/
structure FillExact (isa : LutIsa) (xr0 xi0 xr1 xi1 : ℤ) : Prop where
  eq_scalar : fillGroup isa xr0 xi0 xr1 xi1 = fillGroup .scalar xr0 xi0 xr1 xi1
  ac : EntryFits (fillGroup isa xr0 xi0 xr1 xi1).ac (fillGroupOf checkedBytes isa xr0 xi0 xr1 xi1).ac
  bd : EntryFits (fillGroup isa xr0 xi0 xr1 xi1).bd (fillGroupOf checkedBytes isa xr0 xi0 xr1 xi1).bd
  bc : EntryFits (fillGroup isa xr0 xi0 xr1 xi1).bc (fillGroupOf checkedBytes isa xr0 xi0 xr1 xi1).bc
  ad : EntryFits (fillGroup isa xr0 xi0 xr1 xi1).ad (fillGroupOf checkedBytes isa xr0 xi0 xr1 xi1).ad
  right : (fillGroup isa xr0 xi0 xr1 xi1).Right xr0 xi0 xr1 xi1

lemma fillExact {xr0 xi0 xr1 xi1 : ℤ} (isa : LutIsa) (hr0 : InLutRange xr0) (hi0 : InLutRange xi0)
    (hr1 : InLutRange xr1) (hi1 : InLutRange xi1) : FillExact isa xr0 xi0 xr1 xi1 := by
  obtain ⟨hac, hbd, hbc, had⟩ := fillGroupOf_fits hr0 hi0 hr1 hi1 isa
  exact ⟨fillGroup_eq_scalar hr0 hi0 hr1 hi1 isa, hac, hbd, hbc, had,
    fillGroup_right hr0 hi0 hr1 hi1 isa⟩

section Kernels

variable (gpb blk : ℕ) (x : ℕ → BlockIfairyQ16) (w : ℕ → ℕ → BlockIfairy) (lutBlk : ℕ → Int8)
  (wt : LutWtile16)

/-- The sums of the NEON kernel over a block are exact. -/
def NeonExact : Prop :=
  let machine := (List.range (gpb / 2)).foldl (neonAccumulate lutBlk wt) NeonSums.zero
  let checked := neonBlockOf checkedLanes lutBlk wt (gpb / 2)
  ∀ (i : Fin 2) (l : Fin 8),
    LaneExact (machine.ac i l) (checked.ac i l) (weightSum gpb blk x w (8 * i + l) 0) ∧
    LaneExact (machine.bd i l) (checked.bd i l) (weightSum gpb blk x w (8 * i + l) 1) ∧
    LaneExact (machine.bc i l) (checked.bc i l) (weightSum gpb blk x w (8 * i + l) 2) ∧
    LaneExact (machine.ad i l) (checked.ad i l) (weightSum gpb blk x w (8 * i + l) 3)

/-- The sums of the AVX2 kernel over a block. -/
def avx2BlockSums : Avx2Sums :=
  (List.range (gpb / 2)).foldl (fun sum byteIdx => avx2Accumulate lutBlk wt byteIdx sum)
    Avx2Sums.zero

def Avx2Exact : Prop :=
  let machine := avx2BlockSums gpb lutBlk wt
  let checked := avx2BlockOf checkedLanes lutBlk wt (gpb / 2)
  ∀ (c : ℕ) (hc : c < 2) (i : ℕ) (hi : i < 8), let l : Fin 16 := ⟨8 * c + i, half_lt_sixteen hc hi⟩
    LaneExact (machine.s01Lo l) (checked.s01Lo l) (weightSum gpb blk x w i c) ∧
    LaneExact (machine.s01Hi l) (checked.s01Hi l) (weightSum gpb blk x w (8 + i) c) ∧
    LaneExact (machine.s23Lo l) (checked.s23Lo l) (weightSum gpb blk x w i (2 + c)) ∧
    LaneExact (machine.s23Hi l) (checked.s23Hi l) (weightSum gpb blk x w (8 + i) (2 + c))

/-- The sums of the scalar kernel over a block are exact, and small after every byte. -/
def ScalarExact : Prop :=
  ∀ lane < 16,
    scalarSumsOf lutBlk wt (gpb / 2) lane = ⟨weightSum gpb blk x w lane 0,
      weightSum gpb blk x w lane 2, weightSum gpb blk x w lane 3, weightSum gpb blk x w lane 1⟩ ∧
    ∀ n ≤ gpb / 2, let sum := scalarSumsOf lutBlk wt n lane
      |sum.ac| ≤ 16128 ∧ |sum.bc| ≤ 16128 ∧ |sum.ad| ≤ 16128 ∧ |sum.bd| ≤ 16128

end Kernels

/-- For activations in `[-63, 63]` and any weights, tables and kernels are exact, with blocks of 256
weights and of 64, those of the fused AVX2 kernel among them. -/
theorem lut_headroom {isa : LutIsa} {gpb nb blk : ℕ} {x : ℕ → BlockIfairyQ16}
    {w : ℕ → ℕ → BlockIfairy} {lutBlk : ℕ → Int8} {wt : LutWtile16} (hgpb : gpb = 128 ∨ gpb = 32)
    (h : BlockLoaded isa gpb nb blk x w lutBlk wt) :
    (∀ isa' xr0 xi0 xr1 xi1, InLutRange xr0 → InLutRange xi0 → InLutRange xr1 → InLutRange xi1 →
      FillExact isa' xr0 xi0 xr1 xi1) ∧
    NeonExact gpb blk x w lutBlk wt ∧ Avx2Exact gpb blk x w lutBlk wt ∧
    ScalarExact gpb blk x w lutBlk wt ∧
    (gpb = 32 → ∀ wt' : LutWtile16,
      (accumulatePairChannels wt wt' lutBlk).1 = avx2BlockSums gpb lutBlk wt ∧
      (accumulatePairChannels wt' wt lutBlk).2 = avx2BlockSums gpb lutBlk wt) := by
  have heven : 2 ∣ gpb := by omega
  have hbytes : gpb / 2 ≤ 64 := by omega
  have hsmall := h.smallTables heven
  refine ⟨fun isa' _ _ _ _ hr0 hi0 hr1 hi1 => fillExact isa' hr0 hi0 hr1 hi1, ?_, ?_, ?_, ?_⟩
  · intro i l
    have hlane : 8 * (i : ℕ) + l < 16 := by omega
    have hsums := fun {ch} (hch : ch < 4) => h.laneSumOf_eq heven hlane hch
    have hmachine := neonBlockOf_machine lutBlk wt (gpb / 2)
    obtain ⟨hac, hbc, had, hbd⟩ := neonBlockOf_holds wt hsmall hbytes
    obtain ⟨mac, mbd, mbc, mad⟩ := neonSumsOf_eq lutBlk wt (gpb / 2) i l
    simp only [hmachine] at hac hbc had hbd
    rw [← hsums (show 0 < 4 by decide), ← hsums (show 1 < 4 by decide),
      ← hsums (show 2 < 4 by decide), ← hsums (show 3 < 4 by decide)]
    exact ⟨(hac i l).exact hbytes rfl mac, (hbd i l).exact hbytes rfl mbd,
      (hbc i l).exact hbytes rfl mbc, (had i l).exact hbytes rfl mad⟩
  · intro c hc i hi
    have hmachine := avx2BlockOf_machine lutBlk wt (gpb / 2)
    obtain ⟨h01Lo, h01Hi, h23Lo, h23Hi⟩ := avx2BlockOf_holds wt hsmall hbytes
    obtain ⟨m01Lo, m01Hi, m23Lo, m23Hi⟩ := avx2SumsOf_eq lutBlk wt (gpb / 2) hc hi
    simp only [hmachine] at h01Lo h01Hi h23Lo h23Hi
    rw [← h.laneSumOf_eq heven (show i < 16 by omega) (show c < 4 by omega),
      ← h.laneSumOf_eq heven (show 8 + i < 16 by omega) (show c < 4 by omega),
      ← h.laneSumOf_eq heven (show i < 16 by omega) (show 2 + c < 4 by omega),
      ← h.laneSumOf_eq heven (show 8 + i < 16 by omega) (show 2 + c < 4 by omega)]
    exact ⟨(h01Lo _).exact hbytes rfl m01Lo, (h01Hi _).exact hbytes rfl m01Hi,
      (h23Lo _).exact hbytes rfl m23Lo, (h23Hi _).exact hbytes rfl m23Hi⟩
  · intro lane hlane
    have hsums := fun {ch} (hch : ch < 4) => h.laneSumOf_eq heven hlane hch
    refine ⟨?_, fun n hn => ?_⟩
    · rw [scalarSumsOf_eq, hsums (by decide), hsums (by decide), hsums (by decide),
        hsums (by decide)]
    · have hbound : ∀ ch < 4, |laneSumOf n lutBlk wt lane ch| ≤ 16128 := fun ch hch => by
        refine (abs_laneSumOf_le hsmall hch hn).trans ?_
        have hcast : (n : ℤ) ≤ 64 := by exact_mod_cast hn.trans hbytes
        linarith
      simp only [scalarSumsOf_eq]
      exact ⟨hbound 0 (by decide), hbound 2 (by decide), hbound 3 (by decide),
        hbound 1 (by decide)⟩
  · rintro rfl wt'
    rw [accumulatePairChannels_eq, accumulatePairChannels_eq]
    exact ⟨rfl, rfl⟩

/-- The tables of a block whose activations are all `63 - 63i`, and a tile of code zero. -/
theorem lut_headroom_edge :
    let x : ℕ → BlockIfairyQ16 := fun _ => ⟨fun _ => 0x3f, fun _ => 0xc1, 0x3c00, 0x3c00⟩
    let w : ℕ → ℕ → BlockIfairy := fun _ _ => ⟨fun _ => 0, 0x3c00, 0x3c00⟩
    let lutBlk : ℕ → Int8 := fun a =>
      (groupTables .avx2 x 128 (a / 64)).byte ⟨a % 64, Nat.mod_lt a (by decide)⟩
    let wt : LutWtile16 :=
      ⟨fun byte lane => patternByte 128 (w lane) 256 0 byte, fun _ => 1, fun _ => 1⟩
    NeonExact 128 0 x w lutBlk wt := by
  intro x w lutBlk wt
  have hload : BlockLoaded .avx2 128 1 0 x w lutBlk wt := by
    refine ⟨by decide, fun g hg c => ?_, fun lane _ byte => rfl, fun j _ => ?_⟩
    · have hdiv : (g * 64 + c) / 64 = g := by omega
      have hmod : (g * 64 + c) % 64 = c := by omega
      simp only [lutBlk, hdiv, hmod, Nat.zero_mul, Nat.zero_add]
    · simp [InLutRange, q16Re, q16Im, x]
  exact (lut_headroom (.inl rfl) hload).2.1

end IFairy
