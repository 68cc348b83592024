import Mathlib.Algebra.Order.Ring.Rat
import Mathlib.Data.Nat.Log
import Mathlib.Tactic.LinearCombination
import IFairy.Framework.Loops
import IFairy.Framework.WalshHadamard

/-!
# The Turbo rotation

`ggml/src/ggml-turbo-quant.c` rotates a group of values by a Walsh-Hadamard transform between two
diagonals of signs.  The transform runs in place: stage `h` replaces every pair of values `h` apart
by its sum and its difference, for `h = 1, 2, 4, …`.

After the stages below `2 ^ k` every aligned block of `2 ^ k` values holds its own transform
(`stages_apply`), so the loop computes the transform of the group (`butterflies_apply`).  The inverse
undoes the signs in the opposite order and is an inverse up to the factor `n * c ^ 2`, where `c` is
the stored approximation of `1 / sqrt n`.

The threads of `ggml_compute_forward_turbo_wht` take the groups of a tensor in turn, and a second
node takes the rotation back.

Arithmetic is exact: values are rationals.
-/

namespace IFairy

open WalshHadamard

/-! ## The code -/

/-- `turbo_cpu_s1`. -/
def turboCpuS1 : List ℤ :=
  [-1, 1, 1, -1, -1, 1, -1, 1, -1, -1, 1, 1, 1, 1, 1, 1, 1, -1, 1, -1, 1, -1, -1, 1, 1, 1, -1, 1, 1,
   -1, -1, -1, -1, 1, 1, -1, 1, 1, -1, 1, -1, 1, 1, -1, -1, 1, -1, 1, 1, 1, 1, -1, -1, -1, -1, -1,
   1, -1, 1, 1, 1, 1, -1, 1, -1, -1, 1, -1, -1, -1, 1, -1, -1, -1, 1, -1, -1, -1, 1, 1, 1, -1, -1,
   1, 1, 1, -1, -1, 1, 1, -1, 1, 1, -1, 1, -1, -1, 1, 1, -1, 1, -1, 1, -1, 1, 1, 1, 1, -1, 1, -1, 1,
   1, -1, 1, 1, -1, -1, -1, -1, -1, 1, 1, -1, 1, 1, -1, 1]

/-- `turbo_cpu_s2`. -/
def turboCpuS2 : List ℤ :=
  [1, 1, 1, 1, -1, 1, 1, -1, 1, -1, -1, -1, 1, -1, -1, -1, 1, 1, -1, -1, 1, -1, 1, -1, 1, -1, -1, 1,
   -1, 1, 1, 1, 1, 1, -1, -1, -1, 1, -1, -1, -1, -1, -1, -1, 1, 1, 1, -1, 1, -1, 1, 1, 1, -1, -1, 1,
   -1, -1, -1, -1, -1, -1, 1, 1, 1, -1, 1, -1, -1, -1, -1, 1, -1, 1, -1, 1, -1, -1, 1, 1, -1, 1, -1,
   1, 1, -1, 1, -1, -1, -1, -1, 1, -1, -1, 1, -1, 1, -1, 1, 1, 1, -1, -1, 1, -1, 1, -1, 1, 1, -1, -1,
   1, -1, 1, -1, 1, 1, -1, 1, -1, 1, -1, -1, -1, -1, -1, 1, -1]

/-- The `float` nearest to `1 / sqrt 128`, and `1 / sqrt 64`. -/
def invSqrt (groupSize : ℕ) : ℚ := if groupSize = 128 then 11863283 / 2 ^ 27 else 1 / 8

/-- The loop that multiplies every element by a factor. -/
def scaleLoop (n : ℕ) (factor : ℕ → ℚ) (x : ℕ → ℚ) : ℕ → ℚ :=
  (List.range n).foldl (fun x i => Function.update x i (x i * factor i)) x

/-- The counter values of `for (h = 1; h < n; h *= 2)`. -/
def doublingRange (n : ℕ) : List ℕ := (List.range (Nat.clog 2 n)).map (2 ^ ·)

/-- One butterfly: the values at `j` and `j + h` become their sum and their difference. -/
def butterfly (h : ℕ) (x : ℕ → ℚ) (j : ℕ) : ℕ → ℚ :=
  let a := x j
  let b := x (j + h)
  Function.update (Function.update x j (a + b)) (j + h) (a - b)

/-- The stage of width `h`. -/
def butterflyStage (n : ℕ) (x : ℕ → ℚ) (h : ℕ) : ℕ → ℚ :=
  (stepRange n (h * 2)).foldl (fun x i =>
    (List.range h).foldl (fun x d => butterfly h x (i + d)) x) x

def butterflies (n : ℕ) (x : ℕ → ℚ) : ℕ → ℚ := (doublingRange n).foldl (butterflyStage n) x

/-- `turbo_cpu_fwht_forward`, for any sign vectors. -/
def turboCpuFwhtForward (s1 s2 : ℕ → ℚ) (groupSize : ℕ) (x : ℕ → ℚ) : ℕ → ℚ :=
  let x := scaleLoop groupSize s1 x
  let x := butterflies groupSize x
  scaleLoop groupSize (fun i => invSqrt groupSize * s2 i) x

/-- `turbo_cpu_fwht_inverse`, for any sign vectors. -/
def turboCpuFwhtInverse (s1 s2 : ℕ → ℚ) (groupSize : ℕ) (x : ℕ → ℚ) : ℕ → ℚ :=
  let x := scaleLoop groupSize s2 x
  let x := butterflies groupSize x
  scaleLoop groupSize (fun i => invSqrt groupSize * s1 i) x

/-! ## Loops -/

lemma scaleLoop_of_lt {n i : ℕ} (factor x : ℕ → ℚ) (hi : i < n) :
    scaleLoop n factor x i = x i * factor i := by
  refine foldl_read_once (fun x i => Function.update x i (x i * factor i)) (fun x : ℕ → ℚ => x i)
    List.nodup_range (List.mem_range.mpr hi) (fun v => v * factor i) (fun x => ?_)
    (fun j _ hj x => ?_) x
  · exact Function.update_self _ _ _
  · exact Function.update_of_ne hj.symm _ _

lemma scaleLoop_of_le {n i : ℕ} (factor x : ℕ → ℚ) (hi : n ≤ i) : scaleLoop n factor x i = x i := by
  refine foldl_read_of_not_cover (fun x i => Function.update x i (x i * factor i))
    (fun x : ℕ → ℚ => x i) (fun j hj x => Function.update_of_ne ?_ _ _) x
  have := List.mem_range.mp hj
  omega

lemma doublingRange_two_pow (k : ℕ) : doublingRange (2 ^ k) = (List.range k).map (2 ^ ·) := by
  rw [doublingRange, Nat.clog_pow 2 k Nat.one_lt_two]

/-- The lower ends of the pairs that a stage combines, in its order. -/
def pairStarts (n h : ℕ) : List ℕ :=
  (stepRange n (h * 2)).flatMap fun i => (List.range h).map (i + ·)

lemma butterflyStage_eq (n h : ℕ) (x : ℕ → ℚ) :
    butterflyStage n x h = (pairStarts n h).foldl (butterfly h) x := by
  rw [pairStarts, List.foldl_flatMap]
  simp only [List.foldl_map]
  rfl

section Stage

variable {h : ℕ} (hh : 0 < h) (m : ℕ)

include hh in
lemma mem_pairStarts {p : ℕ} :
    p ∈ pairStarts (m * (h * 2)) h ↔ p < m * (h * 2) ∧ p % (h * 2) < h := by
  simp only [pairStarts, stepRange_mul m (Nat.mul_pos hh Nat.two_pos), List.mem_flatMap, List.mem_map,
    List.mem_range]
  constructor
  · rintro ⟨i, ⟨a, ha, rfl⟩, d, hd, rfl⟩
    have hblock : (a + 1) * (h * 2) ≤ m * (h * 2) := Nat.mul_le_mul_right _ ha
    rw [Nat.mul_add_mod, Nat.mod_eq_of_lt (by omega)]
    refine ⟨?_, hd⟩
    calc h * 2 * a + d < (a + 1) * (h * 2) := by rw [Nat.add_mul, Nat.mul_comm a]; omega
      _ ≤ m * (h * 2) := hblock
  · rintro ⟨hp, hmod⟩
    refine ⟨h * 2 * (p / (h * 2)), ⟨p / (h * 2), ?_, rfl⟩, p % (h * 2), hmod, Nat.div_add_mod _ _⟩
    exact Nat.div_lt_of_lt_mul (Nat.mul_comm m _ ▸ hp)

include hh in
lemma nodup_pairStarts : (pairStarts (m * (h * 2)) h).Nodup := by
  rw [pairStarts, stepRange_mul m (Nat.mul_pos hh Nat.two_pos), List.flatMap_map]
  refine List.nodup_flatMap.mpr ⟨fun a _ => List.nodup_range.map fun _ _ e => Nat.add_left_cancel e,
    List.nodup_range.imp fun {a b} hab => ?_⟩
  rintro p hpa hpb
  obtain ⟨d, hd, rfl⟩ := List.mem_map.mp hpa
  obtain ⟨e, he, heq⟩ := List.mem_map.mp hpb
  have hd' := List.mem_range.mp hd
  have he' := List.mem_range.mp he
  rw [Nat.mul_comm _ a, Nat.mul_comm _ b] at heq
  exact hab (mul_add_inj (by omega) (by omega) heq).1.symm

lemma butterflyStage_pair (x : ℕ → ℚ) {p : ℕ} (hp : p ∈ pairStarts (m * (h * 2)) h) :
    butterflyStage (m * (h * 2)) x h p = x p + x (p + h) ∧
      butterflyStage (m * (h * 2)) x h (p + h) = x p - x (p + h) := by
  have hh : 0 < h := by
    obtain ⟨i, -, hd⟩ := List.mem_flatMap.mp hp
    obtain ⟨d, hd, -⟩ := List.mem_map.mp hd
    have := List.mem_range.mp hd
    omega
  have hpair : (fun x : ℕ → ℚ => (x p, x (p + h))) (butterflyStage (m * (h * 2)) x h) =
      (fun v : ℚ × ℚ => (v.1 + v.2, v.1 - v.2)) (x p, x (p + h)) := by
    rw [butterflyStage_eq]
    refine foldl_read_once (butterfly h) (fun x : ℕ → ℚ => (x p, x (p + h)))
      (nodup_pairStarts hh m) hp (fun v : ℚ × ℚ => (v.1 + v.2, v.1 - v.2)) (fun x => ?_)
      (fun j hj hjp x => ?_) x
    · have hne : p ≠ p + h := by omega
      simp only [butterfly, Function.update_self, Function.update_of_ne hne]
    · -- another pair has neither end in common with this one
      have hpmod := ((mem_pairStarts hh m).mp hp).2
      have hjmod := ((mem_pairStarts hh m).mp hj).2
      have hup : ∀ q, q % (h * 2) < h → (q + h) % (h * 2) = q % (h * 2) + h := by
        intro q hq
        rw [Nat.add_mod, Nat.mod_eq_of_lt (show h < h * 2 by omega), Nat.mod_eq_of_lt (by omega)]
      have hjh : j + h ≠ p := fun e => by
        have := hup j hjmod
        rw [e] at this
        omega
      have hph : p + h ≠ j := fun e => by
        have := hup p hpmod
        rw [e] at this
        omega
      have hends : p + h ≠ j + h := by omega
      simp only [butterfly, Function.update_of_ne hjh.symm, Function.update_of_ne hjp.symm,
        Function.update_of_ne hends, Function.update_of_ne hph]
  exact ⟨congrArg Prod.fst hpair, congrArg Prod.snd hpair⟩

include hh in
lemma butterflyStage_of_le (x : ℕ → ℚ) {p : ℕ} (hp : m * (h * 2) ≤ p) :
    butterflyStage (m * (h * 2)) x h p = x p := by
  rw [butterflyStage_eq]
  refine foldl_read_of_not_cover (butterfly h) (fun x : ℕ → ℚ => x p) (fun j hj x => ?_) x
  obtain ⟨hjlt, hjmod⟩ := (mem_pairStarts hh m).mp hj
  have hjh : j + h < m * (h * 2) := by
    have hdiv : j / (h * 2) < m := Nat.div_lt_of_lt_mul (Nat.mul_comm m _ ▸ hjlt)
    have hblock : (j / (h * 2) + 1) * (h * 2) ≤ m * (h * 2) := Nat.mul_le_mul_right _ hdiv
    have hj' := Nat.div_add_mod j (h * 2)
    rw [Nat.add_mul, Nat.mul_comm (j / (h * 2))] at hblock
    omega
  simp only [butterfly]
  rw [Function.update_of_ne (by omega), Function.update_of_ne (by omega)]

end Stage

/-! ## The stages -/

/-- The stages of width below `2 ^ k`, on an array of `2 ^ K` values. -/
def stages (K k : ℕ) (x : ℕ → ℚ) : ℕ → ℚ :=
  ((List.range k).map (2 ^ ·)).foldl (butterflyStage (2 ^ K)) x

lemma stages_succ (K k : ℕ) (x : ℕ → ℚ) :
    stages K (k + 1) x = butterflyStage (2 ^ K) (stages K k x) (2 ^ k) := by
  rw [stages, List.range_succ, List.map_append, List.foldl_append]
  rfl

lemma two_pow_eq_mul {K k : ℕ} (hk : k < K) : 2 ^ K = 2 ^ (K - (k + 1)) * (2 ^ k * 2) := by
  rw [← Nat.pow_succ, ← Nat.pow_add, Nat.sub_add_cancel hk]

/-- The start of the block of size `2 ^ k` that holds `p`. -/
def blockStart (k p : ℕ) : ℕ := p / 2 ^ k * 2 ^ k

/-- A pair of stage `2 ^ k` spans the two halves of a block. -/
lemma blockStart_of_mod_lt {k p : ℕ} (h : p % (2 ^ k * 2) < 2 ^ k) :
    blockStart k p = blockStart (k + 1) p ∧
      blockStart k (p + 2 ^ k) = blockStart (k + 1) p + 2 ^ k ∧
      blockStart (k + 1) (p + 2 ^ k) = blockStart (k + 1) p ∧
      p.testBit k = false ∧ (p + 2 ^ k).testBit k = true := by
  have hpos := Nat.two_pow_pos k
  have hp := Nat.div_add_mod p (2 ^ k * 2)
  generalize hq : p / (2 ^ k * 2) = q at hp
  generalize hr : p % (2 ^ k * 2) = r at hp h
  have hp' : p = (2 * q) * 2 ^ k + r := by rw [← hp]; ring
  have hup : p + 2 ^ k = (2 * q + 1) * 2 ^ k + r := by rw [← hp]; ring
  have hup' : p + 2 ^ k = q * (2 ^ k * 2) + (2 ^ k + r) := by rw [← hp]; ring
  have hdiv : p / 2 ^ k = 2 * q := by rw [hp', (mul_add_div_mod h).1]
  have hdivUp : (p + 2 ^ k) / 2 ^ k = 2 * q + 1 := by rw [hup, (mul_add_div_mod h).1]
  have hdivBlock : (p + 2 ^ k) / (2 ^ k * 2) = q := by
    rw [hup', (mul_add_div_mod (by omega)).1]
  simp only [blockStart, Nat.pow_succ, hdiv, hdivUp, hdivBlock, hq,
    Nat.testBit_eq_decide_div_mod_eq]
  refine ⟨by ring, by ring, trivial, ?_, ?_⟩
  · rw [Nat.mul_mod_right]
    rfl
  · rw [Nat.mul_add_mod]
    rfl

/-- After the stages below `2 ^ k` every aligned block of that size holds its own transform. -/
theorem stages_apply {K : ℕ} (x : ℕ → ℚ) : ∀ {k}, k ≤ K → ∀ {p}, p < 2 ^ K →
    stages K k x p = walsh k (fun i => x (blockStart k p + i)) p := by
  intro k
  induction k with
  | zero =>
    intro _ p _
    rw [walsh_zero, blockStart, Nat.pow_zero, Nat.div_one, Nat.mul_one]
    rfl
  | succ k ih =>
    intro hk p hp
    have hcut := two_pow_eq_mul hk
    have hlow : p % (2 ^ k * 2) < 2 ^ k ∨ ∃ q, p = q + 2 ^ k ∧ q % (2 ^ k * 2) < 2 ^ k := by
      by_cases hmod : p % (2 ^ k * 2) < 2 ^ k
      · exact Or.inl hmod
      · have hlt := Nat.mod_lt p (Nat.mul_pos (Nat.two_pow_pos k) Nat.two_pos)
        have hle := Nat.mod_le p (2 ^ k * 2)
        refine Or.inr ⟨p - 2 ^ k, by omega, ?_⟩
        have hdecomp := Nat.div_add_mod p (2 ^ k * 2)
        rw [show p - 2 ^ k = 2 ^ k * 2 * (p / (2 ^ k * 2)) + (p % (2 ^ k * 2) - 2 ^ k) by omega,
          Nat.mul_add_mod, Nat.mod_eq_of_lt (by omega)]
        omega
    -- the two ends of the pair that contains `p`
    have hpair : ∀ q, q % (2 ^ k * 2) < 2 ^ k → q < 2 ^ K →
        stages K (k + 1) x q = walsh (k + 1) (fun i => x (blockStart (k + 1) q + i)) q ∧
        stages K (k + 1) x (q + 2 ^ k) =
          walsh (k + 1) (fun i => x (blockStart (k + 1) (q + 2 ^ k) + i)) (q + 2 ^ k) := by
      intro q hq hqK
      obtain ⟨hstart, hstartUp, hblock, hbit, hbitUp⟩ := blockStart_of_mod_lt hq
      have hqUp : q + 2 ^ k < 2 ^ K := by
        have hdiv : q / (2 ^ k * 2) < 2 ^ (K - (k + 1)) := by
          apply Nat.div_lt_of_lt_mul
          rwa [Nat.mul_comm, ← hcut]
        have hle : (q / (2 ^ k * 2) + 1) * (2 ^ k * 2) ≤ 2 ^ K := by
          rw [hcut]
          exact Nat.mul_le_mul_right _ hdiv
        have hq' := Nat.div_add_mod q (2 ^ k * 2)
        rw [Nat.add_mul, Nat.mul_comm (q / _)] at hle
        omega
      have hmem : q ∈ pairStarts (2 ^ (K - (k + 1)) * (2 ^ k * 2)) (2 ^ k) :=
        (mem_pairStarts (Nat.two_pow_pos k) _).mpr ⟨hcut ▸ hqK, hq⟩
      obtain ⟨hsum, hdiff⟩ := butterflyStage_pair _ (stages K k x) hmem
      rw [← hcut, ← stages_succ] at hsum hdiff
      have hrow : walsh k (fun i => x (blockStart k (q + 2 ^ k) + i)) (q + 2 ^ k) =
          walsh k (fun i => x (blockStart (k + 1) q + (2 ^ k + i))) q := by
        rw [hstartUp, walsh_congr_row _ (Nat.add_mod_right q (2 ^ k))]
        simp only [Nat.add_assoc]
      have hrowUp : ∀ y : ℕ → ℚ, walsh k y (q + 2 ^ k) = walsh k y q := fun y =>
        walsh_congr_row y (Nat.add_mod_right q (2 ^ k))
      have hk' : k ≤ K := Nat.le_of_succ_le hk
      rw [hsum, hdiff, ih hk' hqK, ih hk' hqUp, hrow, walsh_succ, walsh_succ, hblock, hstart, hbit,
        hbitUp, hrowUp, hrowUp]
      constructor
      · simp
      · simp [sub_eq_add_neg]
    rcases hlow with hmod | ⟨q, rfl, hmod⟩
    · exact (hpair p hmod hp).1
    · exact (hpair q hmod (by omega)).2

theorem butterflies_apply {K p : ℕ} (x : ℕ → ℚ) (hp : p < 2 ^ K) :
    butterflies (2 ^ K) x p = walsh K x p := by
  have h := stages_apply x (le_refl K) hp
  rw [blockStart, Nat.div_eq_of_lt hp, Nat.zero_mul] at h
  simp only [Nat.zero_add] at h
  rw [butterflies, doublingRange_two_pow]
  exact h

lemma butterflies_of_le {K p : ℕ} (x : ℕ → ℚ) (hp : 2 ^ K ≤ p) :
    butterflies (2 ^ K) x p = x p := by
  rw [butterflies, doublingRange_two_pow]
  refine foldl_read_of_not_cover (butterflyStage (2 ^ K)) (fun x : ℕ → ℚ => x p)
    (fun h hh x => ?_) x
  obtain ⟨k, hk, rfl⟩ := List.mem_map.mp hh
  have hcut := two_pow_eq_mul (List.mem_range.mp hk)
  rw [hcut] at hp ⊢
  exact butterflyStage_of_le (Nat.two_pow_pos k) _ x hp

/-! ## The rotation -/

def SignsBelow (n : ℕ) (s : ℕ → ℚ) : Prop := ∀ i < n, s i = 1 ∨ s i = -1

lemma SignsBelow.mul_self {n : ℕ} {s : ℕ → ℚ} (h : SignsBelow n s) {i : ℕ} (hi : i < n) :
    s i * s i = 1 := by
  rcases h i hi with hs | hs <;> rw [hs] <;> norm_num

lemma signsBelow_getD (signs : List ℤ) (hsigns : ∀ s ∈ signs, s = 1 ∨ s = -1) :
    SignsBelow signs.length fun i => (signs.getD i 0 : ℚ) := by
  intro i hi
  simp only [List.getD_eq_getElem _ _ hi]
  rcases hsigns _ (List.getElem_mem hi) with h | h
  · left
    exact_mod_cast h
  · right
    exact_mod_cast h

lemma signsBelow_turboCpuS1 : SignsBelow 128 fun i => (turboCpuS1.getD i 0 : ℚ) :=
  signsBelow_getD turboCpuS1 (by decide +kernel)

lemma signsBelow_turboCpuS2 : SignsBelow 128 fun i => (turboCpuS2.getD i 0 : ℚ) :=
  signsBelow_getD turboCpuS2 (by decide +kernel)

section Rotation

variable {K : ℕ} {s1 s2 : ℕ → ℚ}

lemma scaled_butterflies_apply (s t x : ℕ → ℚ) (c : ℚ) {p : ℕ} (hp : p < 2 ^ K) :
    scaleLoop (2 ^ K) (fun i => c * t i) (butterflies (2 ^ K) (scaleLoop (2 ^ K) s x)) p =
      c * t p * walsh K (fun i => s i * x i) p := by
  rw [scaleLoop_of_lt _ _ hp, butterflies_apply _ hp,
    walsh_congr (fun i hi => (scaleLoop_of_lt s x hi).trans (mul_comm _ _)), mul_comm]

lemma scaled_butterflies_of_le (s t x : ℕ → ℚ) (c : ℚ) {p : ℕ} (hp : 2 ^ K ≤ p) :
    scaleLoop (2 ^ K) (fun i => c * t i) (butterflies (2 ^ K) (scaleLoop (2 ^ K) s x)) p = x p := by
  rw [scaleLoop_of_le _ _ hp, butterflies_of_le _ hp, scaleLoop_of_le _ _ hp]

lemma turboCpuFwhtForward_apply (x : ℕ → ℚ) {p : ℕ} (hp : p < 2 ^ K) :
    turboCpuFwhtForward s1 s2 (2 ^ K) x p =
      invSqrt (2 ^ K) * s2 p * walsh K (fun i => s1 i * x i) p :=
  scaled_butterflies_apply s1 s2 x _ hp

lemma turboCpuFwhtForward_of_le (x : ℕ → ℚ) {p : ℕ} (hp : 2 ^ K ≤ p) :
    turboCpuFwhtForward s1 s2 (2 ^ K) x p = x p :=
  scaled_butterflies_of_le s1 s2 x _ hp

lemma turboCpuFwhtInverse_eq (n : ℕ) (x : ℕ → ℚ) :
    turboCpuFwhtInverse s1 s2 n x = turboCpuFwhtForward s2 s1 n x := rfl

/-- The inverse after the forward rotation multiplies by `n * c ^ 2`. -/
lemma inverse_forward (h1 : SignsBelow (2 ^ K) s1) (h2 : SignsBelow (2 ^ K) s2) (x : ℕ → ℚ) {p : ℕ}
    (hp : p < 2 ^ K) :
    turboCpuFwhtInverse s1 s2 (2 ^ K) (turboCpuFwhtForward s1 s2 (2 ^ K) x) p =
      2 ^ K * invSqrt (2 ^ K) ^ 2 * x p := by
  rw [turboCpuFwhtInverse_eq, turboCpuFwhtForward_apply _ hp]
  -- the signs applied last are undone first
  have hundo : ∀ i < 2 ^ K, s2 i * turboCpuFwhtForward s1 s2 (2 ^ K) x i =
      invSqrt (2 ^ K) * walsh K (fun i => s1 i * x i) i := by
    intro i hi
    calc s2 i * turboCpuFwhtForward s1 s2 (2 ^ K) x i
        = s2 i * s2 i * (invSqrt (2 ^ K) * walsh K (fun i => s1 i * x i) i) := by
          rw [turboCpuFwhtForward_apply x hi]
          ring
      _ = invSqrt (2 ^ K) * walsh K (fun i => s1 i * x i) i := by rw [h2.mul_self hi, one_mul]
  rw [walsh_congr hundo, walsh_const_mul, walsh_walsh _ hp]
  linear_combination (2 : ℚ) ^ K * invSqrt (2 ^ K) ^ 2 * x p * h1.mul_self hp

lemma invSqrt_ne_zero (n : ℕ) : invSqrt n ≠ 0 := by
  unfold invSqrt
  split_ifs <;> norm_num

def roundTripFactor (K : ℕ) : ℚ := 2 ^ K * invSqrt (2 ^ K) ^ 2

lemma roundTripFactor_ne_zero (K : ℕ) : roundTripFactor K ≠ 0 :=
  mul_ne_zero (pow_ne_zero _ two_ne_zero) (pow_ne_zero _ (invSqrt_ne_zero _))

/-- The inner product of the first `n` values. -/
def innerProduct (n : ℕ) (x y : ℕ → ℚ) : ℚ := ∑ i ∈ Finset.range n, x i * y i

lemma innerProduct_forward (h1 : SignsBelow (2 ^ K) s1) (h2 : SignsBelow (2 ^ K) s2)
    (x y : ℕ → ℚ) :
    innerProduct (2 ^ K) (turboCpuFwhtForward s1 s2 (2 ^ K) x)
        (turboCpuFwhtForward s1 s2 (2 ^ K) y) =
      roundTripFactor K * innerProduct (2 ^ K) x y := by
  have hsign : ∀ i ∈ Finset.range (2 ^ K), turboCpuFwhtForward s1 s2 (2 ^ K) x i *
      turboCpuFwhtForward s1 s2 (2 ^ K) y i = invSqrt (2 ^ K) ^ 2 *
        (walsh K (fun i => s1 i * x i) i * walsh K (fun i => s1 i * y i) i) := by
    intro i hi
    have hi' := Finset.mem_range.mp hi
    rw [turboCpuFwhtForward_apply x hi', turboCpuFwhtForward_apply y hi']
    linear_combination invSqrt (2 ^ K) ^ 2 * walsh K (fun i => s1 i * x i) i *
      walsh K (fun i => s1 i * y i) i * h2.mul_self hi'
  rw [innerProduct, Finset.sum_congr rfl hsign, ← Finset.mul_sum, sum_walsh_mul_walsh,
    innerProduct, roundTripFactor, Finset.mul_sum, Finset.mul_sum, Finset.mul_sum]
  refine Finset.sum_congr rfl fun i hi => ?_
  linear_combination (2 : ℚ) ^ K * invSqrt (2 ^ K) ^ 2 * x i * y i *
    h1.mul_self (Finset.mem_range.mp hi)

lemma injective_forward (h1 : SignsBelow (2 ^ K) s1) (h2 : SignsBelow (2 ^ K) s2) :
    Function.Injective (turboCpuFwhtForward s1 s2 (2 ^ K)) := by
  intro x y hxy
  funext p
  by_cases hp : p < 2 ^ K
  · have hx := inverse_forward h1 h2 x hp
    rw [hxy, inverse_forward h1 h2 y hp] at hx
    exact (mul_left_cancel₀ (roundTripFactor_ne_zero K) hx).symm
  · have hx : turboCpuFwhtForward s1 s2 (2 ^ K) x p = x p :=
      turboCpuFwhtForward_of_le x (Nat.le_of_not_lt hp)
    rwa [hxy, turboCpuFwhtForward_of_le y (Nat.le_of_not_lt hp), eq_comm] at hx

lemma surjective_forward (h1 : SignsBelow (2 ^ K) s1) (h2 : SignsBelow (2 ^ K) s2) :
    Function.Surjective (turboCpuFwhtForward s1 s2 (2 ^ K)) := by
  intro y
  let scaled : ℕ → ℚ := fun p => if p < 2 ^ K then (roundTripFactor K)⁻¹ * y p else y p
  refine ⟨turboCpuFwhtForward s2 s1 (2 ^ K) scaled, ?_⟩
  funext p
  by_cases hp : p < 2 ^ K
  · rw [← turboCpuFwhtInverse_eq, inverse_forward h2 h1 scaled hp]
    change roundTripFactor K * scaled p = y p
    simp only [scaled, if_pos hp]
    exact mul_inv_cancel_left₀ (roundTripFactor_ne_zero K) _
  · rw [turboCpuFwhtForward_of_le _ (Nat.le_of_not_lt hp),
      turboCpuFwhtForward_of_le _ (Nat.le_of_not_lt hp)]
    exact if_neg hp

end Rotation

/-! ## The rotation and its inverse -/

/-- The butterfly loop computes the Walsh-Hadamard transform, which is its own inverse up to its
length and multiplies squared norms by it; for every choice of signs the inverse rotation undoes the
forward one up to `n * c ^ 2`, and the forward rotation is a bijection that preserves inner products
up to that factor. -/
theorem turbo_rotation_spec (K : ℕ) (s1 s2 : ℕ → ℚ) (h1 : SignsBelow (2 ^ K) s1)
    (h2 : SignsBelow (2 ^ K) s2) :
    (∀ (x : ℕ → ℚ), ∀ p < 2 ^ K, butterflies (2 ^ K) x p = walsh K x p ∧
      butterflies (2 ^ K) (butterflies (2 ^ K) x) p = (2 ^ K : ℕ) * x p) ∧
    (∀ x : ℕ → ℚ, innerProduct (2 ^ K) (butterflies (2 ^ K) x) (butterflies (2 ^ K) x) =
      (2 ^ K : ℕ) * innerProduct (2 ^ K) x x) ∧
    (∀ (x : ℕ → ℚ), ∀ p < 2 ^ K,
      turboCpuFwhtInverse s1 s2 (2 ^ K) (turboCpuFwhtForward s1 s2 (2 ^ K) x) p =
        (2 ^ K : ℕ) * invSqrt (2 ^ K) ^ 2 * x p) ∧
    Function.Bijective (turboCpuFwhtForward s1 s2 (2 ^ K)) ∧
    ∀ x y : ℕ → ℚ, innerProduct (2 ^ K) (turboCpuFwhtForward s1 s2 (2 ^ K) x)
        (turboCpuFwhtForward s1 s2 (2 ^ K) y) =
      (2 ^ K : ℕ) * invSqrt (2 ^ K) ^ 2 * innerProduct (2 ^ K) x y := by
  have hcast : ((2 ^ K : ℕ) : ℚ) = 2 ^ K := by push_cast; rfl
  rw [hcast]
  refine ⟨fun x p hp => ⟨butterflies_apply x hp, ?_⟩, fun x => ?_,
    fun x p hp => inverse_forward h1 h2 x hp, ⟨injective_forward h1 h2, surjective_forward h1 h2⟩,
    innerProduct_forward h1 h2⟩
  · rw [butterflies_apply _ hp, walsh_congr (fun i hi => butterflies_apply x hi), walsh_walsh x hp]
  · rw [innerProduct, Finset.sum_congr rfl fun i hi => by
      rw [butterflies_apply x (Finset.mem_range.mp hi)], sum_walsh_mul_walsh, innerProduct]

/-- The rotation of 128 values with the stored sign vectors. -/
theorem turbo_rotation_spec_stored :
    Function.Bijective (turboCpuFwhtForward (fun i => (turboCpuS1.getD i 0 : ℚ))
      (fun i => (turboCpuS2.getD i 0 : ℚ)) 128) :=
  (turbo_rotation_spec 7 _ _ signsBelow_turboCpuS1 signsBelow_turboCpuS2).2.2.2.1

/-! ## The operation on a tensor -/

/-- The signs in front of the butterflies. -/
def turboSigns1 (i : ℕ) : ℚ := turboCpuS1.getD i 0

def turboSigns2 (i : ℕ) : ℚ := turboCpuS2.getD i 0

def turboWhtGroup (direction : ℤ) (scale : Option (ℕ → ℚ)) (x : ℕ → ℚ) : ℕ → ℚ :=
  let scaled := fun x => scale.elim x fun s => scaleLoop 128 s x
  let out := if direction = 0 then scaled x else x
  let out := if direction = 0 then turboCpuFwhtForward turboSigns1 turboSigns2 128 out
    else turboCpuFwhtInverse turboSigns1 turboSigns2 128 out
  if direction = 1 then scaled out else out

/-- The groups of thread `ith` of `nth`. -/
def turboWhtThread (rotate : (ℕ → ℚ) → ℕ → ℚ) (groups nth : ℕ) (src : ℕ → ℚ) (dst : ℕ → ℚ)
    (ith : ℕ) : ℕ → ℚ :=
  let first := groups * ith / nth
  let last := groups * (ith + 1) / nth
  ((List.range (last - first)).map (first + ·)).foldl (fun dst group a =>
    if a / 128 = group then rotate (fun i => src (group * 128 + i)) (a % 128) else dst a) dst

/-- `ggml_compute_forward_turbo_wht`, thread after thread. -/
def turboWht (direction : ℤ) (scale : Option (ℕ → ℚ)) (groups nth : ℕ) (src dst : ℕ → ℚ) :
    ℕ → ℚ :=
  (List.range nth).foldl (turboWhtThread (turboWhtGroup direction scale) groups nth src) dst

/-- Whatever the number of threads, every group of the destination is the rotated group of the
source, and nothing else is written. -/
lemma turboWht_apply (direction : ℤ) (scale : Option (ℕ → ℚ)) {groups nth : ℕ} (hnth : 0 < nth)
    (src dst : ℕ → ℚ) (a : ℕ) :
    turboWht direction scale groups nth src dst a =
      if a / 128 < groups then
        turboWhtGroup direction scale (fun i => src (a / 128 * 128 + i)) (a % 128)
      else dst a := by
  have hmono : Monotone fun ith => groups * ith / nth := fun i j hij =>
    Nat.div_le_div_right (Nat.mul_le_mul_left _ hij)
  have hall := flatMap_range_pieces (by simp : groups * 0 / nth = 0) hmono nth
  rw [Nat.mul_div_cancel _ hnth] at hall
  have hrun : turboWht direction scale groups nth src dst =
      (List.range groups).foldl (fun dst group a =>
        if a / 128 = group then
          turboWhtGroup direction scale (fun i => src (group * 128 + i)) (a % 128)
        else dst a) dst := by
    rw [← hall, List.foldl_flatMap]
    rfl
  rw [hrun]
  split_ifs with hgroup
  · refine foldl_store_of_cover _ (fun group a => a / 128 = group)
      (fun a => turboWhtGroup direction scale (fun i => src (a / 128 * 128 + i)) (a % 128))
      (fun group _ mem a h => ?_) (fun group _ mem a h => if_neg h) dst
      ⟨a / 128, List.mem_range.mpr hgroup, rfl⟩
    subst h
    exact if_pos rfl
  · refine foldl_store_of_not_cover _ (fun group a => a / 128 = group)
      (fun group _ mem a h => if_neg h) dst fun group hmem h => hgroup ?_
    rw [h]
    exact List.mem_range.mp hmem

lemma turboCpuFwhtInverse_congr {x y : ℕ → ℚ} (h : ∀ i < 128, x i = y i) {p : ℕ} (hp : p < 128) :
    turboCpuFwhtInverse turboSigns1 turboSigns2 128 x p =
      turboCpuFwhtInverse turboSigns1 turboSigns2 128 y p := by
  have hpow : p < 2 ^ 7 := hp
  rw [show (128 : ℕ) = 2 ^ 7 from rfl, turboCpuFwhtInverse_eq, turboCpuFwhtInverse_eq,
    turboCpuFwhtForward_apply x hpow, turboCpuFwhtForward_apply y hpow,
    walsh_congr fun i hi => by rw [h i hi]]

lemma scaled_apply (scale : Option (ℕ → ℚ)) (x : ℕ → ℚ) {i : ℕ} (hi : i < 128) :
    scale.elim x (fun s => scaleLoop 128 s x) i = x i * scale.elim 1 (· i) := by
  cases scale with
  | none => exact (mul_one _).symm
  | some s => exact scaleLoop_of_lt s x hi

/-- A tensor that is rotated and rotated back by any numbers of threads, with scales that undo each
other, is the tensor times the factor of the round trip; what lies behind it is left alone. -/
theorem turboWht_roundTrip {groups nth nth' : ℕ} (hnth : 0 < nth) (hnth' : 0 < nth')
    {scale scale' : Option (ℕ → ℚ)}
    (hscale : ∀ i < 128, scale.elim 1 (· i) * scale'.elim 1 (· i) = 1) (src dst dst' : ℕ → ℚ)
    (a : ℕ) :
    turboWht 1 scale' groups nth' (turboWht 0 scale groups nth src dst) dst' a =
      if a / 128 < groups then roundTripFactor 7 * src a else dst' a := by
  have hmod : a % 128 < 128 := Nat.mod_lt _ (by norm_num)
  rw [turboWht_apply _ _ hnth']
  refine if_ctx_congr Iff.rfl (fun ha => ?_) fun _ => rfl
  -- the group that the second rotation reads is the first rotation's
  have hgroup : ∀ i < 128, turboWht 0 scale groups nth src dst (a / 128 * 128 + i) =
      turboCpuFwhtForward turboSigns1 turboSigns2 128 (scale.elim
        (fun i => src (a / 128 * 128 + i)) fun s => scaleLoop 128 s fun i =>
          src (a / 128 * 128 + i)) i := by
    intro i hi
    obtain ⟨hdiv, hrem⟩ := mul_add_div_mod (n := 128) (a := a / 128) (r := i) hi
    rw [turboWht_apply _ _ hnth, hdiv, hrem, if_pos ha]
    rfl
  have hback := inverse_forward (K := 7) signsBelow_turboCpuS1 signsBelow_turboCpuS2
    (scale.elim (fun i => src (a / 128 * 128 + i)) fun s => scaleLoop 128 s fun i =>
      src (a / 128 * 128 + i)) hmod
  have hunscaled : turboWhtGroup 1 scale'
      (fun i => turboWht 0 scale groups nth src dst (a / 128 * 128 + i)) (a % 128) =
        turboCpuFwhtInverse turboSigns1 turboSigns2 128
          (fun i => turboWht 0 scale groups nth src dst (a / 128 * 128 + i)) (a % 128) *
            scale'.elim 1 (· (a % 128)) := scaled_apply scale' _ hmod
  rw [hunscaled, turboCpuFwhtInverse_congr hgroup hmod]
  refine (congrArg (· * _) hback).trans ?_
  rw [scaled_apply scale _ hmod, Nat.div_add_mod' a 128, roundTripFactor]
  linear_combination (2 : ℚ) ^ 7 * invSqrt (2 ^ 7) ^ 2 * src a * hscale (a % 128) hmod

/-- Three threads rotate two groups with a scale, and two threads rotate them back. -/
theorem turboWht_roundTrip_twoGroups :
    turboWht 1 (some fun _ => 1 / 2) 2 2 (turboWht 0 (some fun _ => 2) 2 3 (fun a => a) 0) 0 130 =
      roundTripFactor 7 * 130 := by
  have h : turboWht 1 (some fun _ => 1 / 2) 2 2 (turboWht 0 (some fun _ => 2) 2 3 (fun a => a) 0)
      0 130 = if 130 / 128 < 2 then roundTripFactor 7 * (130 : ℕ) else 0 :=
    turboWht_roundTrip (by norm_num) (by norm_num) (fun _ _ => by norm_num) (fun a => a) 0 0 130
  exact h.trans (if_pos (by norm_num))

end IFairy
