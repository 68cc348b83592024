import IFairy.Framework.Simd
import IFairy.Quant.Ifairy

/-!
# Block sums of the fused kernel

The fused kernel of `ifairy_wide_linear_w2` takes blocks of 64 elements: `block_ifairy64` and
`block_ifairy64_q16` are laid out as the larger blocks are, with one chunk instead of four.  It adds
up four sums for each of four weights at a time: in scalar code, in two 256-bit accumulations, or in
one 512-bit accumulation (`accumulateFour`).

The sums are those of the products with the phases, whatever the variant
(`accumulateFour_eq`), as long as no activation is `-128`.
-/

namespace IFairy

/-- `block_ifairy64`. -/
abbrev BlockIfairy64 := BlockIfairy

/-- `block_ifairy64_q16`. -/
abbrev BlockIfairy64Q16 := BlockIfairyQ16

namespace Wide

open Simd

/-- The sums of a block for the four weights. -/
structure FourSums where
  u0 : BlockSums
  u1 : BlockSums
  w0 : BlockSums
  w1 : BlockSums

/-! ## Scalar code -/

/-- `ggml_ifairy64_fuse_accumulate_block_scalar`. -/
def accumulateBlockScalar (w : BlockIfairy64) (x : BlockIfairy64Q16) (sums : BlockSums) :
    BlockSums :=
  (List.range 4).foldl (fun sums part =>
    (List.range 16).foldl (fun sums lane =>
      let idx := part * 16 + lane
      let code := pairAt (w.qs lane) part
      let xr := (realBytes x idx).toInt
      let xi := (imagBytes x idx).toInt
      if code = 0 then { sums with ac := sums.ac - xr, ad := sums.ad - xi }
      else if code = 1 then { sums with ac := sums.ac + xr, ad := sums.ad + xi }
      else if code = 2 then { sums with bc := sums.bc - xr, bd := sums.bd - xi }
      else { sums with bc := sums.bc + xr, bd := sums.bd + xi }) sums) sums

/-! ## 256-bit code -/

/-- The accumulators of the four sums. -/
structure Channels where
  c0 : Vec (BitVec 16)
  c1 : Vec (BitVec 16)
  c2 : Vec (BitVec 16)
  c3 : Vec (BitVec 16)

def Channels.zero : Channels := ⟨set1 0, set1 0, set1 0, set1 0⟩

/-- The horizontal sums of sixteen bytes of weights. -/
def Channels.sums (acc : Channels) (i : ℕ) : BlockSums where
  ac := (hsumI16x8 (extract 8 i acc.c0)).toInt
  ad := (hsumI16x8 (extract 8 i acc.c1)).toInt
  bc := (hsumI16x8 (extract 8 i acc.c2)).toInt
  bd := (hsumI16x8 (extract 8 i acc.c3)).toInt

/-- `ggml_ifairy64_pack_weight_pair`. -/
def packWeightPair (w0 w1 : BlockIfairy64) : Vec UInt8 :=
  insert128 (loadu w0.qs 0) (loadu w1.qs 0) 1

/-- `ggml_ifairy64_fuse_accumulate_code_pair_avx2`. -/
def accumulateCodePairAvx2 (codes : Vec UInt8) (xr xi negXr negXi : Vec Int8) (acc : Channels) :
    Channels :=
  let zero : Vec Int8 := set1 0
  let maddOnes : Vec UInt8 := set1 1
  let positiveMask := cmpeqEpi8 (andSi codes (set1 1)) (set1 1)
  let realMask := cmpeqEpi8 (andSi codes (set1 2)) (set1 0)
  let imagMask := cmpeqEpi8 (andSi codes (set1 2)) (set1 2)
  let signedXr := blendvEpi8 negXr xr positiveMask
  let signedXi := blendvEpi8 negXi xi positiveMask
  { c0 := addEpi16 acc.c0 (maddubsEpi16 maddOnes (blendvEpi8 zero signedXr realMask))
    c1 := addEpi16 acc.c1 (maddubsEpi16 maddOnes (blendvEpi8 zero signedXi realMask))
    c2 := addEpi16 acc.c2 (maddubsEpi16 maddOnes (blendvEpi8 zero signedXr imagMask))
    c3 := addEpi16 acc.c3 (maddubsEpi16 maddOnes (blendvEpi8 zero signedXi imagMask)) }

/-- `ggml_ifairy64_fuse_accumulate_block_four_avx2`. -/
def accumulateBlockFourAvx2 (u0 u1 w0 w1 : BlockIfairy64) (x : BlockIfairy64Q16) : FourSums :=
  let packedU := packWeightPair u0 u1
  let packedW := packWeightPair w0 w1
  let acc := (List.range 4).foldl (fun (acc : Channels × Channels) part =>
    let xr := broadcast128 (loadu (realBytes x) (part * 16))
    let xi := broadcast128 (loadu (imagBytes x) (part * 16))
    let negXr := subEpi8 (set1 0) xr
    let negXi := subEpi8 (set1 0) xi
    let codesU := andSi (srliEpi16 packedU (2 * part)) (set1 3)
    let codesW := andSi (srliEpi16 packedW (2 * part)) (set1 3)
    (accumulateCodePairAvx2 codesU xr xi negXr negXi acc.1,
      accumulateCodePairAvx2 codesW xr xi negXr negXi acc.2)) (.zero, .zero)
  ⟨acc.1.sums 0, acc.1.sums 1, acc.2.sums 0, acc.2.sums 1⟩

/-! ## 512-bit code -/

/-- `ggml_ifairy64_pack_weight_four_avx512`. -/
def packWeightFourAvx512 (u0 u1 w0 w1 : BlockIfairy64) : Vec UInt8 :=
  insert128 (insert128 (insert128 (loadu u0.qs 0) (loadu u1.qs 0) 1) (loadu w0.qs 0) 2)
    (loadu w1.qs 0) 3

/-- `ggml_ifairy64_fuse_apply_sign_avx512`. -/
def applySignAvx512 (values : Vec Int8) (positive : Vec Bool) : Vec Int8 :=
  maskSubEpi8 values (fun l => !positive l) (set1 0) values

/-- `ggml_ifairy64_fuse_accumulate_block_four_avx512`. -/
def accumulateBlockFourAvx512 (u0 u1 w0 w1 : BlockIfairy64) (x : BlockIfairy64Q16) : FourSums :=
  let packed := packWeightFourAvx512 u0 u1 w0 w1
  let maddOnes : Vec UInt8 := set1 1
  let acc := (List.range 4).foldl (fun (acc : Channels) part =>
    let xr := broadcast128 (loadu (realBytes x) (part * 16))
    let xi := broadcast128 (loadu (imagBytes x) (part * 16))
    let codes := andSi (srliEpi16 packed (2 * part)) (set1 3)
    let positive := testEpi8Mask codes (set1 1)
    let imag := testEpi8Mask codes (set1 2)
    let real : Vec Bool := fun l => !imag l
    let signedXr := applySignAvx512 xr positive
    let signedXi := applySignAvx512 xi positive
    { c0 := addEpi16 acc.c0 (maddubsEpi16 maddOnes (maskzMovEpi8 real signedXr))
      c1 := addEpi16 acc.c1 (maddubsEpi16 maddOnes (maskzMovEpi8 real signedXi))
      c2 := addEpi16 acc.c2 (maddubsEpi16 maddOnes (maskzMovEpi8 imag signedXr))
      c3 := addEpi16 acc.c3 (maddubsEpi16 maddOnes (maskzMovEpi8 imag signedXi)) }) .zero
  ⟨acc.sums 0, acc.sums 1, acc.sums 2, acc.sums 3⟩

/-! ## The variants -/

/-- The instruction sets that the kernel is compiled for. -/
inductive WideIsa
  | scalar
  | avx2
  | avx512
deriving DecidableEq

/-- The sums of a block, as each variant has them. -/
def accumulateFour (isa : WideIsa) (u0 u1 w0 w1 : BlockIfairy64) (x : BlockIfairy64Q16) :
    FourSums :=
  match isa with
  | .avx512 => accumulateBlockFourAvx512 u0 u1 w0 w1 x
  | .avx2 => accumulateBlockFourAvx2 u0 u1 w0 w1 x
  | .scalar =>
    ⟨accumulateBlockScalar u0 x ⟨0, 0, 0, 0⟩, accumulateBlockScalar u1 x ⟨0, 0, 0, 0⟩,
      accumulateBlockScalar w0 x ⟨0, 0, 0, 0⟩, accumulateBlockScalar w1 x ⟨0, 0, 0, 0⟩⟩

/-! ## The sums of the products -/

/-- The products of the activations with the phases, added up. -/
def productSums (w : BlockIfairy64) (x : BlockIfairy64Q16) : BlockSums where
  ac := ∑ j ∈ Finset.range 64, q16Re x j * phaseRe (codeAt w.qs j)
  ad := ∑ j ∈ Finset.range 64, q16Im x j * phaseRe (codeAt w.qs j)
  bc := ∑ j ∈ Finset.range 64, q16Re x j * phaseIm (codeAt w.qs j)
  bd := ∑ j ∈ Finset.range 64, q16Im x j * phaseIm (codeAt w.qs j)

lemma sum_parts {M : Type*} [AddCommMonoid M] (f : ℕ → M) :
    ∑ p ∈ Finset.range 4, ∑ t ∈ Finset.range 16, f (16 * p + t) = ∑ j ∈ Finset.range 64, f j :=
  (sum_range_mul f 4 16).symm

lemma codeAt_part (qs : ℕ → UInt8) {p t : ℕ} (hp : p < 4) (ht : t < 16) :
    codeAt qs (16 * p + t) = pairAt (qs t) p := by
  have hbyte : (16 * p + t) / 64 * 16 + (16 * p + t) % 16 = t := by omega
  have hpart : (16 * p + t) / 16 % 4 = p := by omega
  simp only [codeAt, hbyte, hpart]

lemma code_cases {c : UInt8} (hc : c.toNat < 4) : c = 0 ∨ c = 1 ∨ c = 2 ∨ c = 3 := by
  simp only [← UInt8.toNat_inj]
  have h0 : (0 : UInt8).toNat = 0 := rfl
  have h1 : (1 : UInt8).toNat = 1 := rfl
  have h2 : (2 : UInt8).toNat = 2 := rfl
  have h3 : (3 : UInt8).toNat = 3 := rfl
  omega

lemma bmod_neg_toInt {x : Int8} (hx : x.toInt ≠ -128) : (-x.toInt).bmod 256 = -x.toInt := by
  have hlow := x.le_toInt
  have hhigh := x.toInt_lt
  exact Int.bmod_eq_of_le (by omega) (by omega)

/-! ## Selected bytes -/

/-- The bytes that a sum takes of the activations, by the codes of the weights. -/
abbrev Select := Vec UInt8 → Vec Int8 → Vec Int8

/-- The bytes are the multiples of the activations by the sign of the codes. -/
def Select.Multiplies (sel : Select) (sign : UInt8 → ℤ) : Prop :=
  ∀ (codes : Vec UInt8) (x : Vec Int8) (l : ℕ), (codes l).toNat < 4 → (x l).toInt ≠ -128 →
    (sel codes x l).toInt = (x l).toInt * sign (codes l)

/-- The bytes of the 256-bit code, `0` for real weights and `2` for imaginary ones. -/
def selectAvx2 (bit : UInt8) : Select := fun codes x =>
  blendvEpi8 (set1 0) (blendvEpi8 (subEpi8 (set1 0) x) x
    (cmpeqEpi8 (andSi codes (set1 1)) (set1 1))) (cmpeqEpi8 (andSi codes (set1 2)) (set1 bit))

/-- The bytes of the 512-bit code. -/
def selectAvx512 (imaginary : Bool) : Select := fun codes x =>
  maskzMovEpi8 (fun l => if imaginary then testEpi8Mask codes (set1 2) l
    else !testEpi8Mask codes (set1 2) l) (applySignAvx512 x (testEpi8Mask codes (set1 1)))

lemma blendv_cmpeq (a b : Vec Int8) (u v : Vec UInt8) (l : ℕ) :
    blendvEpi8 a b (cmpeqEpi8 u v) l = if u l = v l then b l else a l := by
  unfold blendvEpi8 cmpeqEpi8
  by_cases h : u l = v l
  · rw [if_pos h, if_pos h, if_pos (by decide)]
  · rw [if_neg h, if_neg h, if_neg (by decide)]

lemma selectAvx2_apply (bit : UInt8) (codes : Vec UInt8) (x : Vec Int8) (l : ℕ) :
    selectAvx2 bit codes x l =
      if codes l &&& 2 = bit then (if codes l &&& 1 = 1 then x l else 0 - x l) else 0 := by
  rw [selectAvx2, blendv_cmpeq, blendv_cmpeq]
  rfl

lemma selectAvx2_real : (selectAvx2 0).Multiplies phaseRe := by
  intro codes x l hc hx
  rw [selectAvx2_apply]
  obtain h | h | h | h := code_cases hc <;> simp +decide [h, phaseRe, bmod_neg_toInt hx]

lemma selectAvx2_imag : (selectAvx2 2).Multiplies phaseIm := by
  intro codes x l hc hx
  rw [selectAvx2_apply]
  obtain h | h | h | h := code_cases hc <;> simp +decide [h, phaseIm, bmod_neg_toInt hx]

lemma selectAvx512_real : (selectAvx512 false).Multiplies phaseRe := by
  intro codes x l hc hx
  unfold selectAvx512 maskzMovEpi8 applySignAvx512 maskSubEpi8 testEpi8Mask set1
  obtain h | h | h | h := code_cases hc <;> simp +decide [h, phaseRe, bmod_neg_toInt hx]

lemma selectAvx512_imag : (selectAvx512 true).Multiplies phaseIm := by
  intro codes x l hc hx
  unfold selectAvx512 maskzMovEpi8 applySignAvx512 maskSubEpi8 testEpi8Mask set1
  obtain h | h | h | h := code_cases hc <;> simp +decide [h, phaseIm, bmod_neg_toInt hx]

/-! ## Vector code -/

/-- Whether all activations of a block can be negated. -/
def Negatable (x : BlockIfairy64Q16) : Prop := ∀ j < 64, q16Re x j ≠ -128 ∧ q16Im x j ≠ -128

/-- The codes of part `p` in a vector of weights. -/
def codesVec (packed : Vec UInt8) (p : ℕ) : Vec UInt8 := andSi (srliEpi16 packed (2 * p)) (set1 3)

/-- The activations of part `p`, once for every sixteen bytes of weights. -/
def activationsVec (xs : ℕ → Int8) (p : ℕ) : Vec Int8 := broadcast128 (loadu xs (p * 16))

section Vector

variable {packed : Vec UInt8} {w : BlockIfairy64} {i : ℕ}

lemma codesVec_apply (hpacked : ∀ t < 16, packed (16 * i + t) = w.qs t) {p t : ℕ} (hp : p < 4)
    (ht : t < 16) : codesVec packed p (16 * i + t) = codeAt w.qs (16 * p + t) := by
  rw [codesVec, srli_and_three packed hp, hpacked t ht, codeAt_part _ hp ht]

lemma activationsVec_apply (xs : ℕ → Int8) (i p : ℕ) {t : ℕ} (ht : t < 16) :
    activationsVec xs p (16 * i + t) = xs (16 * p + t) := by
  unfold activationsVec broadcast128 loadu
  congr 1
  omega

lemma channel_products {σ : Type*} (step : σ → ℕ → σ) (read : σ → Vec (BitVec 16)) {s : σ}
    {sel : Select} {sign : UInt8 → ℤ} {xs : ℕ → Int8} (hsel : sel.Multiplies sign)
    (hpacked : ∀ t < 16, packed (16 * i + t) = w.qs t) (hxs : ∀ j < 64, (xs j).toInt ≠ -128)
    (hstart : read s = set1 0)
    (hstep : ∀ s p, read (step s p) = addEpi16 (read s)
      (maddubsEpi16 (set1 1) (sel (codesVec packed p) (activationsVec xs p)))) :
    (hsumI16x8 (extract 8 i (read ((List.range 4).foldl step s)))).toInt =
      ∑ j ∈ Finset.range 64, (xs j).toInt * sign (codeAt w.qs j) := by
  have hlanes : ∀ l, read ((List.range 4).foldl step s) l = ∑ p ∈ Finset.range 4,
      maddubsEpi16 (set1 1) (sel (codesVec packed p) (activationsVec xs p)) l := fun l => by
    rw [foldl_accumulate step (fun s => read s l) _ 4 fun s p _ => congrFun (hstep s p) l, hstart]
    exact zero_add _
  rw [hsumI16x8_maddubs hlanes, ← sum_parts]
  refine Finset.sum_congr rfl fun p hp => Finset.sum_congr rfl fun t ht => ?_
  have hp' := Finset.mem_range.mp hp
  have ht' := Finset.mem_range.mp ht
  have hcode := codesVec_apply hpacked hp' ht'
  have hact := activationsVec_apply xs i p ht'
  rw [hsel _ _ _ (by rw [hcode, codeAt_part _ hp' ht']; exact pairAt_lt _ hp')
    (by rw [hact]; exact hxs _ (by omega)), hcode, hact]

/-- One of the two accumulations of the 256-bit code. -/
def pairStep (packed : Vec UInt8) (x : BlockIfairy64Q16) (acc : Channels) (part : ℕ) : Channels :=
  let xr := activationsVec (realBytes x) part
  let xi := activationsVec (imagBytes x) part
  accumulateCodePairAvx2 (codesVec packed part) xr xi (subEpi8 (set1 0) xr) (subEpi8 (set1 0) xi)
    acc

lemma accumulateBlockFourAvx2_eq (u0 u1 w0 w1 : BlockIfairy64) (x : BlockIfairy64Q16) :
    let accU := (List.range 4).foldl (pairStep (packWeightPair u0 u1) x) .zero
    let accW := (List.range 4).foldl (pairStep (packWeightPair w0 w1) x) .zero
    accumulateBlockFourAvx2 u0 u1 w0 w1 x =
      ⟨accU.sums 0, accU.sums 1, accW.sums 0, accW.sums 1⟩ := rfl

/-- The accumulation of the 512-bit code. -/
def fourStep (packed : Vec UInt8) (x : BlockIfairy64Q16) (acc : Channels) (part : ℕ) : Channels :=
  let xr := activationsVec (realBytes x) part
  let xi := activationsVec (imagBytes x) part
  let codes := codesVec packed part
  { c0 := addEpi16 acc.c0 (maddubsEpi16 (set1 1) (selectAvx512 false codes xr))
    c1 := addEpi16 acc.c1 (maddubsEpi16 (set1 1) (selectAvx512 false codes xi))
    c2 := addEpi16 acc.c2 (maddubsEpi16 (set1 1) (selectAvx512 true codes xr))
    c3 := addEpi16 acc.c3 (maddubsEpi16 (set1 1) (selectAvx512 true codes xi)) }

lemma accumulateBlockFourAvx512_eq (u0 u1 w0 w1 : BlockIfairy64) (x : BlockIfairy64Q16) :
    let acc := (List.range 4).foldl (fourStep (packWeightFourAvx512 u0 u1 w0 w1) x) .zero
    accumulateBlockFourAvx512 u0 u1 w0 w1 x = ⟨acc.sums 0, acc.sums 1, acc.sums 2, acc.sums 3⟩ :=
  rfl

variable {x : BlockIfairy64Q16}

lemma pairStep_sums (hpacked : ∀ t < 16, packed (16 * i + t) = w.qs t) (hx : Negatable x) :
    ((List.range 4).foldl (pairStep packed x) .zero).sums i = productSums w x := by
  have hr : ∀ j < 64, (realBytes x j).toInt ≠ -128 := fun j hj => (hx j hj).1
  have hi : ∀ j < 64, (imagBytes x j).toInt ≠ -128 := fun j hj => (hx j hj).2
  unfold Channels.sums productSums
  rw [BlockSums.mk.injEq]
  have hreal := selectAvx2_real
  have himag := selectAvx2_imag
  exact ⟨channel_products (pairStep packed x) Channels.c0 hreal hpacked hr rfl fun _ _ => rfl,
    channel_products (pairStep packed x) Channels.c1 hreal hpacked hi rfl fun _ _ => rfl,
    channel_products (pairStep packed x) Channels.c2 himag hpacked hr rfl fun _ _ => rfl,
    channel_products (pairStep packed x) Channels.c3 himag hpacked hi rfl fun _ _ => rfl⟩

lemma fourStep_sums (hpacked : ∀ t < 16, packed (16 * i + t) = w.qs t) (hx : Negatable x) :
    ((List.range 4).foldl (fourStep packed x) .zero).sums i = productSums w x := by
  have hr : ∀ j < 64, (realBytes x j).toInt ≠ -128 := fun j hj => (hx j hj).1
  have hi : ∀ j < 64, (imagBytes x j).toInt ≠ -128 := fun j hj => (hx j hj).2
  unfold Channels.sums productSums
  rw [BlockSums.mk.injEq]
  have hreal := selectAvx512_real
  have himag := selectAvx512_imag
  exact ⟨channel_products (fourStep packed x) Channels.c0 hreal hpacked hr rfl fun _ _ => rfl,
    channel_products (fourStep packed x) Channels.c1 hreal hpacked hi rfl fun _ _ => rfl,
    channel_products (fourStep packed x) Channels.c2 himag hpacked hr rfl fun _ _ => rfl,
    channel_products (fourStep packed x) Channels.c3 himag hpacked hi rfl fun _ _ => rfl⟩

end Vector

/-! ## Scalar sums -/

def scalarStep (w : BlockIfairy64) (x : BlockIfairy64Q16) (part : ℕ) (sums : BlockSums)
    (lane : ℕ) : BlockSums :=
  let j := 16 * part + lane
  let code := pairAt (w.qs lane) part
  ⟨sums.ac + q16Re x j * phaseRe code, sums.ad + q16Im x j * phaseRe code,
    sums.bc + q16Re x j * phaseIm code, sums.bd + q16Im x j * phaseIm code⟩

lemma accumulateBlockScalar_eq (w : BlockIfairy64) (x : BlockIfairy64Q16) (sums : BlockSums) :
    accumulateBlockScalar w x sums = (List.range 4).foldl (fun sums part =>
      (List.range 16).foldl (scalarStep w x part) sums) sums := by
  unfold accumulateBlockScalar
  refine List.foldl_ext _ _ _ fun sums part hpart => List.foldl_ext _ _ _ fun sums lane _ => ?_
  have hidx : part * 16 + lane = 16 * part + lane := by omega
  have hreal : ∀ j, (realBytes x j).toInt = q16Re x j := fun _ => rfl
  have himag : ∀ j, (imagBytes x j).toInt = q16Im x j := fun _ => rfl
  simp only [scalarStep, hidx, hreal, himag]
  obtain h | h | h | h := code_cases (pairAt_lt (w.qs lane) (List.mem_range.mp hpart)) <;>
    simp [h, phaseRe, phaseIm, sub_eq_add_neg]

lemma accumulateBlockScalar_sums (w : BlockIfairy64) (x : BlockIfairy64Q16) :
    accumulateBlockScalar w x ⟨0, 0, 0, 0⟩ = productSums w x := by
  have hread : ∀ (read : BlockSums → ℤ) (act : ℕ → ℤ) (sign : UInt8 → ℤ),
      (∀ p s t, read (scalarStep w x p s t) =
        read s + act (16 * p + t) * sign (pairAt (w.qs t) p)) → read ⟨0, 0, 0, 0⟩ = 0 →
      read (accumulateBlockScalar w x ⟨0, 0, 0, 0⟩) =
        ∑ j ∈ Finset.range 64, act j * sign (codeAt w.qs j) := by
    intro read act sign hstep hzero
    rw [accumulateBlockScalar_eq, foldl_accumulate _ read (fun p => ∑ t ∈ Finset.range 16,
      act (16 * p + t) * sign (codeAt w.qs (16 * p + t))) 4 (fun s p hp => ?_), hzero, zero_add,
      sum_parts fun j => act j * sign (codeAt w.qs j)]
    exact foldl_accumulate _ read _ 16 (fun s t ht => by rw [hstep, codeAt_part _ hp ht]) s
  have hext : ∀ s s' : BlockSums, s.ac = s'.ac → s.ad = s'.ad → s.bc = s'.bc → s.bd = s'.bd →
      s = s' := by
    rintro ⟨⟩ ⟨⟩ rfl rfl rfl rfl
    rfl
  exact hext _ _ (hread BlockSums.ac (q16Re x) phaseRe (fun _ _ _ => rfl) rfl)
    (hread BlockSums.ad (q16Im x) phaseRe (fun _ _ _ => rfl) rfl)
    (hread BlockSums.bc (q16Re x) phaseIm (fun _ _ _ => rfl) rfl)
    (hread BlockSums.bd (q16Im x) phaseIm (fun _ _ _ => rfl) rfl)

/-! ## All variants -/

theorem accumulateFour_eq (isa : WideIsa) (u0 u1 w0 w1 : BlockIfairy64) {x : BlockIfairy64Q16}
    (hx : isa = .scalar ∨ Negatable x) :
    accumulateFour isa u0 u1 w0 w1 x =
      ⟨productSums u0 x, productSums u1 x, productSums w0 x, productSums w1 x⟩ := by
  cases isa with
  | scalar => simp only [accumulateFour, accumulateBlockScalar_sums]
  | avx2 =>
    have hx' : Negatable x := hx.resolve_left (by decide)
    have hlow : ∀ (a b : BlockIfairy64), ∀ t < 16, packWeightPair a b (16 * 0 + t) = a.qs t :=
      fun a b t ht => by
        rw [packWeightPair, insert128, if_neg (by omega), loadu]
        congr 1
        omega
    have hhigh : ∀ (a b : BlockIfairy64), ∀ t < 16, packWeightPair a b (16 * 1 + t) = b.qs t :=
      fun a b t ht => by
        rw [packWeightPair, insert128, if_pos (by omega), loadu]
        congr 1
        omega
    simp only [accumulateFour, accumulateBlockFourAvx2_eq]
    rw [pairStep_sums (hlow u0 u1) hx', pairStep_sums (hhigh u0 u1) hx',
      pairStep_sums (hlow w0 w1) hx', pairStep_sums (hhigh w0 w1) hx']
  | avx512 =>
    have hx' : Negatable x := hx.resolve_left (by decide)
    have hpacked : ∀ t, packWeightFourAvx512 u0 u1 w0 w1 t = if t / 16 = 3 then w1.qs (t % 16)
        else if t / 16 = 2 then w0.qs (t % 16) else if t / 16 = 1 then u1.qs (t % 16)
        else u0.qs t := fun t => by
      simp only [packWeightFourAvx512, insert128, loadu, Nat.zero_add]
    have h0 : ∀ t < 16, packWeightFourAvx512 u0 u1 w0 w1 (16 * 0 + t) = u0.qs t := fun t ht => by
      rw [hpacked, if_neg (by omega), if_neg (by omega), if_neg (by omega)]
      congr 1
      omega
    have h1 : ∀ t < 16, packWeightFourAvx512 u0 u1 w0 w1 (16 * 1 + t) = u1.qs t := fun t ht => by
      rw [hpacked, if_neg (by omega), if_neg (by omega), if_pos (by omega)]
      congr 1
      omega
    have h2 : ∀ t < 16, packWeightFourAvx512 u0 u1 w0 w1 (16 * 2 + t) = w0.qs t := fun t ht => by
      rw [hpacked, if_neg (by omega), if_pos (by omega)]
      congr 1
      omega
    have h3 : ∀ t < 16, packWeightFourAvx512 u0 u1 w0 w1 (16 * 3 + t) = w1.qs t := fun t ht => by
      rw [hpacked, if_pos (by omega)]
      congr 1
      omega
    simp only [accumulateFour, accumulateBlockFourAvx512_eq]
    rw [fourStep_sums h0 hx', fourStep_sums h1 hx', fourStep_sums h2 hx', fourStep_sums h3 hx']

end Wide

end IFairy
