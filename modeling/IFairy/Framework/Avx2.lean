import IFairy.Framework.Neon

/-!
# AVX2 vectors

The operations of a 256-bit AVX2 unit that table-lookup kernels use.  A vector is a function on
its lanes, of bytes or of 16-bit integers.  Most byte operations act on the two 128-bit halves
separately, which is where an index goes wrong easily; `maddubs_unpacklo` and `maddubs_unpackhi`
say where the pairwise sums of two interleaved vectors end up.
-/

namespace IFairy

namespace Avx2

variable {α : Type*}

/-- `_mm256_set1_epi8`. -/
def set1Epi8 (v : α) : Fin 32 → α := fun _ => v

/-- `_mm256_loadu_si256`: thirty-two consecutive bytes. -/
def loadu (mem : ℕ → α) (p : ℕ) : Fin 32 → α := fun l => mem (p + l)

/-- The lower and the upper half of a vector of bytes. -/
def castsi128 (v : Fin 32 → α) : Fin 16 → α := fun l => v ⟨l, low_lt_thirtyTwo l⟩

def extracti128 (v : Fin 32 → α) : Fin 16 → α := fun l => v ⟨16 + l, high_lt_thirtyTwo l⟩

/-- The same on vectors of 16-bit lanes. -/
def castEpi16 (v : Fin 16 → α) : Fin 8 → α := fun l => v ⟨l, low_lt_sixteen l⟩

def extractEpi16 (v : Fin 16 → α) : Fin 8 → α := fun l => v ⟨8 + l, high_lt_sixteen l⟩

/-- `_mm256_setr_epi8` from its two halves. -/
def setrEpi8 (lower upper : Fin 16 → α) : Fin 32 → α := fun l =>
  if h : (l : ℕ) < 16 then lower ⟨l, h⟩ else upper ⟨l - 16, by omega⟩

/-- `_mm256_broadcastsi128_si256`. -/
def broadcastsi128 (v : Fin 16 → α) : Fin 32 → α := fun l => v ⟨l % 16, Nat.mod_lt _ (by decide)⟩

/-- `_mm256_sign_epi8`: `a`, `-a` or zero by the sign of `b`. -/
def signEpi8 (a b : Fin 32 → Int8) : Fin 32 → Int8 := fun l =>
  if b l < 0 then -a l else if b l = 0 then 0 else a l

/-- `_mm256_adds_epi8`: saturating addition. -/
def addsEpi8 (a b : Fin 32 → Int8) : Fin 32 → Int8 := fun l => satS8 ((a l).toInt + (b l).toInt)

/-- `_mm256_and_si256`. -/
def andSi256 (a b : Fin 32 → UInt8) : Fin 32 → UInt8 := fun l => a l &&& b l

/-- `_mm256_srli_epi16` on bytes, for a shift below eight: the lower byte of a 16-bit lane
receives bits of the upper one. -/
def srliEpi16 (v : Fin 32 → UInt8) (s : UInt8) : Fin 32 → UInt8 := fun l =>
  if h : (l : ℕ) % 2 = 0 then (v l >>> s) ||| (v ⟨l + 1, by omega⟩ <<< (8 - s)) else v l >>> s

/-- `_mm256_shuffle_epi8`: a lookup within each half; a set top bit gives zero. -/
def shuffleEpi8 (table : Fin 32 → Int8) (indexes : Fin 32 → UInt8) : Fin 32 → Int8 := fun l =>
  if 128 ≤ (indexes l).toNat then 0
  else table ⟨l / 16 * 16 + (indexes l).toNat % 16, by omega⟩

/-- `_mm256_unpacklo_epi8`: the lower eight bytes of each half, interleaved. -/
def unpackloEpi8 (a b : Fin 32 → α) : Fin 32 → α := fun l =>
  (if (l : ℕ) % 2 = 0 then a else b) ⟨l / 16 * 16 + l % 16 / 2, by omega⟩

/-- `_mm256_unpackhi_epi8`: the upper eight bytes of each half, interleaved. -/
def unpackhiEpi8 (a b : Fin 32 → α) : Fin 32 → α := fun l =>
  (if (l : ℕ) % 2 = 0 then a else b) ⟨l / 16 * 16 + 8 + l % 16 / 2, by omega⟩

/-- `_mm256_maddubs_epi16`: unsigned times signed, adjacent products added with saturation. -/
def maddubsEpi16 (a : Fin 32 → UInt8) (b : Fin 32 → Int8) : Fin 16 → BitVec 16 := fun l =>
  let even : Fin 32 := ⟨2 * l, by omega⟩
  let odd : Fin 32 := ⟨2 * l + 1, by omega⟩
  BitVec.ofInt 16 (max (-32768) (min 32767
    ((a even).toNat * (b even).toInt + (a odd).toNat * (b odd).toInt)))

/-- `_mm256_add_epi16`. -/
def addEpi16 (a b : Fin 16 → BitVec 16) : Fin 16 → BitVec 16 := fun l => a l + b l

/-! ## Pairwise sums -/

private lemma madd_one (a b : Int8) :
    max (-32768) (min 32767 (((1 : UInt8).toNat : ℤ) * a.toInt + ((1 : UInt8).toNat : ℤ) * b.toInt)) =
      a.toInt + b.toInt := by
  have ha := a.le_toInt
  have ha' := a.toInt_lt
  have hb := b.le_toInt
  have hb' := b.toInt_lt
  have hone : ((1 : UInt8).toNat : ℤ) = 1 := rfl
  rw [hone]
  omega

/-- Half `h`, lane `i < 8` of the pairwise sums of the lower bytes. -/
lemma maddubs_unpacklo (a b : Fin 32 → Int8) {h i : ℕ} (hh : h < 2) (hi : i < 8) :
    maddubsEpi16 (set1Epi8 1) (unpackloEpi8 a b) ⟨8 * h + i, by omega⟩ =
      BitVec.ofInt 16 ((a ⟨16 * h + i, by omega⟩).toInt + (b ⟨16 * h + i, by omega⟩).toInt) := by
  have heven : 2 * (8 * h + i) % 2 = 0 := by omega
  have hodd : ¬ (2 * (8 * h + i) + 1) % 2 = 0 := by omega
  have hindex : 2 * (8 * h + i) / 16 * 16 + 2 * (8 * h + i) % 16 / 2 = 16 * h + i := by omega
  have hindex' : (2 * (8 * h + i) + 1) / 16 * 16 + (2 * (8 * h + i) + 1) % 16 / 2 = 16 * h + i := by
    omega
  simp only [maddubsEpi16, unpackloEpi8, set1Epi8, heven, hodd, hindex, hindex', if_true, if_false,
    madd_one]

/-- Half `h`, lane `i < 8` of the pairwise sums of the upper bytes. -/
lemma maddubs_unpackhi (a b : Fin 32 → Int8) {h i : ℕ} (hh : h < 2) (hi : i < 8) :
    maddubsEpi16 (set1Epi8 1) (unpackhiEpi8 a b) ⟨8 * h + i, by omega⟩ =
      BitVec.ofInt 16
        ((a ⟨16 * h + 8 + i, by omega⟩).toInt + (b ⟨16 * h + 8 + i, by omega⟩).toInt) := by
  have heven : 2 * (8 * h + i) % 2 = 0 := by omega
  have hodd : ¬ (2 * (8 * h + i) + 1) % 2 = 0 := by omega
  have hindex : 2 * (8 * h + i) / 16 * 16 + 8 + 2 * (8 * h + i) % 16 / 2 = 16 * h + 8 + i := by
    omega
  have hindex' : (2 * (8 * h + i) + 1) / 16 * 16 + 8 + (2 * (8 * h + i) + 1) % 16 / 2 =
      16 * h + 8 + i := by omega
  simp only [maddubsEpi16, unpackhiEpi8, set1Epi8, heven, hodd, hindex, hindex', if_true, if_false,
    madd_one]

end Avx2

end IFairy
