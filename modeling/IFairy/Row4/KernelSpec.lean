import IFairy.Row4.Kernels

/-!
# What the Row4 kernels store

Every kernel is a tiled traversal of the same sum.  The file first says which weights and which
activations the vector loads return, then evaluates the accumulators of each kernel: all of them
are `rowSum`, the sum that the scalar loop computes.
-/

namespace IFairy

open Neon

/-! ## The weights that the vector loads return -/

lemma decodeSplit8_apply (codes : GgmlTensor) {ot kt group split channel : ℕ} (hgroup : group < 4)
    (hchannel : channel < 4) (hsplit : split < 8) (l : Fin 16) :
    decodeSplit8 codes ot kt group split channel l =
      row4WeightAt codes (16 * ot + 4 * group + channel) (128 * kt + 16 * split + l) := by
  have hl := l.2
  set address := ot * codes.nb 3 + kt * codes.nb 2 + group * codes.nb 1 + split * 8 with haddress
  have hindex := vcombine_apply (fun l => lowNibble (vld1 codes.data address l))
    (fun l => highNibble (vld1 codes.data address l))
    (fun h l => if h = 0 then lowNibble (codes.data (address + l))
      else highNibble (codes.data (address + l))) (fun _ => rfl) (fun _ => rfl) l
  have hlt : (if (l : ℕ) / 8 = 0 then lowNibble (codes.data (address + l % 8))
      else highNibble (codes.data (address + l % 8))).toNat < 16 := by
    split_ifs
    · exact lowNibble_lt _
    · exact highNibble_lt _
  have hot : (16 * ot + 4 * group + channel) / 16 = ot := by omega
  have hg : (16 * ot + 4 * group + channel) % 16 / 4 = group := by omega
  have hc : (16 * ot + 4 * group + channel) % 16 % 4 = channel := by omega
  have hkt : (128 * kt + 16 * split + (l : ℕ)) / 128 = kt := by omega
  have hs : (128 * kt + 16 * split + (l : ℕ)) % 128 / 16 = split := by omega
  have hlane : (128 * kt + 16 * split + (l : ℕ)) % 128 % 16 = l := by omega
  have hhalf : (l : ℕ) / 8 = 0 ↔ (l : ℕ) < 8 := by omega
  simp only [hhalf] at hindex hlt
  simp only [decodeSplit8, vqtbl1q, ← haddress, hindex, row4WeightAt, hot, hg, hc,
    hkt, hs, hlane, ← Nat.add_assoc, row4CodebookAt, vld1q, Nat.zero_add]
  exact dif_pos hlt

lemma w8Load_apply (codes : GgmlTensor) {ot kt row ik : ℕ} (hrow : row < 16) (hik : ik + 16 ≤ 128)
    (l : Fin 16) :
    vld1q (fun n => (codes.data n).toInt8)
      (ot * codes.nb 3 + kt * codes.nb 2 + row * codes.nb 1 + ik) l =
      w8WeightAt codes (16 * ot + row) (128 * kt + ik + l) := by
  have hl := l.2
  have hot : (16 * ot + row) / 16 = ot := by omega
  have hr : (16 * ot + row) % 16 = row := by omega
  have hkt : (128 * kt + ik + (l : ℕ)) / 128 = kt := by omega
  have hinner : (128 * kt + ik + (l : ℕ)) % 128 = ik + l := by omega
  simp only [vld1q, w8WeightAt, hot, hr, hkt, hinner]
  rw [Nat.add_assoc (_ + _) ik]

lemma weights16_apply (op : LinearOp) {row0 ik row : ℕ} (hrow0 : 4 ∣ row0) (hik : 16 ∣ ik)
    (hrow : row < 4) (l : Fin 16) :
    weights16 op row0 ik row l = op.weightAt (row0 + row) (ik + l) := by
  have hcol : 128 * (ik / 128) + 16 * (ik % 128 / 16) + (l : ℕ) = ik + l := by omega
  unfold weights16 LinearOp.weightAt
  split_ifs
  · have hout : 16 * (row0 / 16) + 4 * (row0 % 16 / 4) + row = row0 + row := by omega
    rw [decodeRow4Group16, decodeSplit8_apply _ (by omega) hrow (by omega), hout, hcol]
  · have hout : 16 * ((row0 + row) / 16) + (row0 + row) % 16 = row0 + row := by omega
    have hcol' : 128 * (ik / 128) + ik % 128 + (l : ℕ) = ik + l := by omega
    rw [loadW8Row16, w8Load_apply _ (by omega) (by omega), hout, hcol']

/-! ## Row sums -/

section RowSum

variable (op : LinearOp) (activations : ℕ → Int8)

def rowTerm (token row ik : ℕ) : BitVec 32 :=
  widen (op.weightAt row ik) * widen (activations (token * op.k + ik))

/-- The sum that every kernel computes for one output. -/
def rowSum (token row : ℕ) : BitVec 32 := ∑ ik ∈ Finset.range op.k, rowTerm op activations token row ik

theorem scalarAccumulator_eq (token row : ℕ) :
    scalarAccumulator op activations token row = rowSum op activations token row := by
  have hfold := foldl_accumulate (fun (accumulator : BitVec 32) ik =>
    accumulator + widen (op.weightAt row ik) * widen (activations (token * op.k + ik))) id
    (rowTerm op activations token row) op.k (fun _ _ _ => rfl) 0
  simpa [scalarAccumulator, rowSum] using hfold

variable {op activations}

lemma rowSum_tiles (hk : 128 ∣ op.k) (token row : ℕ) :
    ∑ kt ∈ Finset.range (op.k / 128), ∑ split ∈ Finset.range 8, ∑ l ∈ Finset.range 16,
      rowTerm op activations token row (128 * kt + (16 * split + l)) =
      rowSum op activations token row := by
  have htile : ∀ kt, ∑ split ∈ Finset.range 8, ∑ l ∈ Finset.range 16,
      rowTerm op activations token row (128 * kt + (16 * split + l)) =
      ∑ inner ∈ Finset.range 128, rowTerm op activations token row (128 * kt + inner) := fun kt =>
    (sum_range_mul (fun inner => rowTerm op activations token row (128 * kt + inner)) 8 16).symm
  rw [rowSum, ← Nat.div_mul_cancel hk, sum_range_mul]
  exact Finset.sum_congr (by rw [Nat.div_mul_cancel hk]) fun kt _ => htile kt

/-! ## Dot-product kernels -/

/-- One step of sixteen columns from `offset` on adds their products to the lane sum of `row`. -/
lemma vaddvq_rowTerm {token row offset : ℕ} (acc : Fin 4 → BitVec 32) {weights : Fin 16 → Int8}
    {address : ℕ} (hweights : ∀ l : Fin 16, weights l = op.weightAt row (offset + l))
    (haddress : address = token * op.k + offset) :
    vaddvq (vdotq acc weights (vld1q activations address)) =
      vaddvq acc + ∑ l ∈ Finset.range 16, rowTerm op activations token row (offset + l) := by
  rw [vaddvq_vdotq acc (w := fun l => op.weightAt row (offset + l))
    (x := fun l => activations (token * op.k + (offset + l))) hweights]
  · rfl
  · intro l
    rw [vld1q, haddress, Nat.add_assoc]

lemma vaddvq_zero : vaddvq (fun _ => 0) = 0 := by simp [vaddvq]

/-- A nest of loops over tiles and steps of sixteen columns, in which every step adds its products
to the lane sum of `row`, ends with the row sum. -/
lemma foldl_tiles_eq_rowSum (hk : 128 ∣ op.k) {token row o : ℕ}
    (step : ℕ → (ℕ → Fin 4 → BitVec 32) → ℕ → ℕ → Fin 4 → BitVec 32)
    (hstep : ∀ kt sums split, split < 8 → vaddvq (step kt sums split row) =
      vaddvq (sums row) + ∑ l ∈ Finset.range 16,
        rowTerm op activations token o (128 * kt + (16 * split + l))) :
    vaddvq ((List.range (op.k / 128)).foldl (fun sums kt => (List.range 8).foldl (step kt) sums)
      (fun _ _ => 0) row) = rowSum op activations token o := by
  have htile := fun sums kt => foldl_accumulate (step kt) (fun sums => vaddvq (sums row))
    (fun split => ∑ l ∈ Finset.range 16,
      rowTerm op activations token o (128 * kt + (16 * split + l))) 8 (hstep kt) sums
  have htotal := foldl_accumulate (fun sums kt => (List.range 8).foldl (step kt) sums)
    (fun sums => vaddvq (sums row))
    (fun kt => ∑ split ∈ Finset.range 8, ∑ l ∈ Finset.range 16,
      rowTerm op activations token o (128 * kt + (16 * split + l))) (op.k / 128)
    (fun sums kt _ => htile sums kt) (fun _ _ => 0)
  rwa [rowSum_tiles hk, vaddvq_zero, zero_add] at htotal

lemma row4DotprodSums_eq (hrow4 : op.row4 = true) (hk : 128 ∣ op.k) (token ot : ℕ) {row : ℕ}
    (hrow : row < 16) :
    vaddvq (row4DotprodSums op activations token ot row) =
      rowSum op activations token (ot * 16 + row) := by
  refine foldl_tiles_eq_rowSum hk _ fun kt sums split hsplit => ?_
  have hweights : ∀ l : Fin 16, decodeSplit8 op.codes ot kt (row / 4) split (row % 4) l =
      op.weightAt (ot * 16 + row) (128 * kt + 16 * split + l) := by
    intro l
    have hout : 16 * ot + 4 * (row / 4) + row % 4 = ot * 16 + row := by omega
    rw [decodeSplit8_apply _ (by omega) (by omega) hsplit, hout, LinearOp.weightAt, if_pos hrow4]
  have haddress : token * op.k + kt * 128 + split * 16 =
      token * op.k + (128 * kt + 16 * split) := by omega
  simpa only [Nat.add_assoc] using vaddvq_rowTerm (sums row) hweights haddress

lemma w8DotprodSums_eq (hrow4 : op.row4 = false) (hk : 128 ∣ op.k) (token ot : ℕ) {row : ℕ}
    (hrow : row < 16) :
    vaddvq (w8DotprodSums op activations token ot row) =
      rowSum op activations token (ot * 16 + row) := by
  have hsteps : stepRange 128 16 = (List.range 8).map (16 * ·) := stepRange_mul 8 (by decide)
  simp only [w8DotprodSums, hsteps, List.foldl_map]
  refine foldl_tiles_eq_rowSum hk _ fun kt sums split hsplit => ?_
  have hweights : ∀ l : Fin 16, vld1q (fun n => (op.codes.data n).toInt8)
      (ot * op.codes.nb 3 + kt * op.codes.nb 2 + row * op.codes.nb 1 + 16 * split) l =
      op.weightAt (ot * 16 + row) (128 * kt + 16 * split + l) := by
    intro l
    rw [w8Load_apply _ hrow (by omega), LinearOp.weightAt, hrow4, Nat.mul_comm 16 ot]
    rfl
  have haddress : token * op.k + kt * 128 + 16 * split =
      token * op.k + (128 * kt + 16 * split) := by omega
  simpa only [Nat.add_assoc] using vaddvq_rowTerm (sums row) hweights haddress

theorem dotprodJob_eq (hk : 128 ∣ op.k) (job : ℕ) :
    dotprodJob op activations job = (List.range 16).map fun row =>
      ⟨job / (op.o / 16), job % (op.o / 16) * 16 + row,
        rowSum op activations (job / (op.o / 16)) (job % (op.o / 16) * 16 + row)⟩ := by
  refine List.map_congr_left fun row hrow => ?_
  have hrow16 : row < 16 := List.mem_range.mp hrow
  cases hrow4 : op.row4 with
  | true => simp only [if_true, row4DotprodSums_eq hrow4 hk _ _ hrow16]
  | false => simp only [Bool.false_eq_true, if_false, w8DotprodSums_eq hrow4 hk _ _ hrow16]

/-! ## The direct i8mm kernel -/

lemma vmmlaq_twice (acc : Fin 4 → BitVec 32) {inputLo inputHi weightLo weightHi : Fin 16 → Int8}
    {x w : ℕ → ℕ → Int8} (hinputLo : ∀ l, inputLo l = x (l / 8) (l % 8))
    (hinputHi : ∀ l, inputHi l = x (l / 8) (8 + l % 8))
    (hweightLo : ∀ l, weightLo l = w (l / 8) (l % 8))
    (hweightHi : ∀ l, weightHi l = w (l / 8) (8 + l % 8)) (lane : Fin 4) :
    vmmlaq (vmmlaq acc inputLo weightLo) inputHi weightHi lane =
      acc lane + ∑ l ∈ Finset.range 16, widen (x (lane / 2) l) * widen (w (lane % 2) l) := by
  rw [vmmlaq_lane _ (x := fun i l => x i (8 + l)) (w := fun j l => w j (8 + l)) hinputHi hweightHi,
    vmmlaq_lane _ hinputLo hweightLo, add_assoc,
    show (16 : ℕ) = 8 + 8 from rfl, Finset.sum_range_add]

/-- Lane `2 * i + j` of a tile is the row sum of token `token0 + i` and row `row0 + 2 * rowPair + j`;
the lanes of a token past the end are not specified. -/
lemma i8mmDirectSums_eq (hk : 16 ∣ op.k) {token0 row0 rowPair : ℕ} (hrow0 : 4 ∣ row0)
    (hrowPair : rowPair < 2) (lane : Fin 4) (hlane : (lane : ℕ) / 2 = 0 ∨ token0 + 1 < op.tokens) :
    i8mmDirectSums op activations token0 row0 rowPair lane =
      rowSum op activations (token0 + lane / 2) (row0 + 2 * rowPair + lane % 2) := by
  obtain ⟨n, hn⟩ := hk
  rw [Nat.mul_comm] at hn
  have hstart : (0 : BitVec 32) + rowSum op activations (token0 + lane / 2)
      (row0 + 2 * rowPair + lane % 2) = rowSum op activations (token0 + lane / 2)
      (row0 + 2 * rowPair + lane % 2) := zero_add _
  rw [← hstart, rowSum, i8mmDirectSums]
  simp only [hn]
  refine foldl_stepRange_accumulate _ (fun sums : ℕ → Fin 4 → BitVec 32 => sums rowPair lane)
    (rowTerm op activations (token0 + lane / 2) (row0 + 2 * rowPair + lane % 2)) (by decide) n
    (fun sums a _ => ?_) _
  set ik := 16 * a with hik
  -- the two activation rows of the tile, and the four weight rows
  let x : ℕ → ℕ → Int8 := fun i l => if i = 0 ∨ token0 + 1 < op.tokens then
    activations ((token0 + i) * op.k + (ik + l)) else 0
  let w : ℕ → ℕ → Int8 := fun j l => op.weightAt (row0 + 2 * rowPair + j) (ik + l)
  have hweights : ∀ j < 2, ∀ l : Fin 16, weights16 op row0 ik (2 * rowPair + j) l = w j l := by
    intro j hj l
    rw [weights16_apply op hrow0 ⟨a, rfl⟩ (by omega), ← Nat.add_assoc]
  have hterm : ∀ l, rowTerm op activations (token0 + lane / 2) (row0 + 2 * rowPair + lane % 2)
      (ik + l) = widen (x (lane / 2) l) * widen (w (lane % 2) l) := by
    intro l
    rw [rowTerm, mul_comm]
    simp only [x, w, if_pos hlane]
  simp only [hterm, ← hn]
  refine vmmlaq_twice _ (vcombine_apply _ _ x ?_ ?_)
    (vcombine_apply _ _ (fun i l => x i (8 + l)) ?_ ?_)
    (vcombine_apply _ _ w (fun l => hweights 0 (by decide) ⟨l, by omega⟩)
      (fun l => hweights 1 (by decide) ⟨l, by omega⟩))
    (vcombine_apply _ _ (fun j l => w j (8 + l)) (fun l => hweights 0 (by decide) ⟨8 + l, by omega⟩)
      (fun l => hweights 1 (by decide) ⟨8 + l, by omega⟩)) lane
  · intro l
    simp [x, vgetLow, vld1q, Nat.add_assoc]
  · intro l
    by_cases h : token0 + 1 < op.tokens
    · simp [x, vgetLow, vld1q, h, Nat.add_assoc]
    · simp [x, vgetLow, h]
  · intro l
    simp [x, vgetHigh, vld1q, Nat.add_assoc]
  · intro l
    by_cases h : token0 + 1 < op.tokens
    · simp [x, vgetHigh, vld1q, h, Nat.add_assoc]
    · simp [x, vgetHigh, h]

end RowSum

/-! ## The panel kernel -/

section Panel

variable {op : LinearOp}

/-- The two vector stores of one half step. -/
def panelHalf (op : LinearOp) (row0 ik p : ℕ) (panel : ℕ → Int8) (half : ℕ) : ℕ → Int8 :=
  let weights := weights16 op row0 ik
  let panelOffset := (ik / 8 + half) * 32
  let weight := fun r => if half = 0 then vgetLow (weights r) else vgetHigh (weights r)
  vst1q (vst1q panel (p + panelOffset) (vcombine (weight 0) (weight 1)))
    (p + panelOffset + 16) (vcombine (weight 2) (weight 3))

/-- The weight that a panel starting at `p` holds at address `a`. -/
def panelWeight (op : LinearOp) (row0 p a : ℕ) : Int8 :=
  op.weightAt (row0 + (a - p) % 32 / 8) (8 * ((a - p) / 32) + (a - p) % 8)

lemma panelHalf_of_mem {row0 ik p half a : ℕ} (hrow0 : 4 ∣ row0) (hik : 16 ∣ ik) (hhalf : half < 2)
    (panel : ℕ → Int8) (ha : p + (ik / 8 + half) * 32 ≤ a ∧ a < p + (ik / 8 + half) * 32 + 32) :
    panelHalf op row0 ik p panel half a = panelWeight op row0 p a := by
  obtain ⟨n, rfl⟩ := hik
  have hoffset : (16 * n / 8 + half) * 32 = 32 * (2 * n + half) := by omega
  rw [hoffset] at ha
  have hweight : ∀ r < 4, ∀ l : Fin 8,
      (if half = 0 then vgetLow (weights16 op row0 (16 * n) r)
        else vgetHigh (weights16 op row0 (16 * n) r)) l =
        op.weightAt (row0 + r) (8 * (2 * n + half) + l) := by
    intro r hr l
    split_ifs with h0
    · rw [vgetLow, weights16_apply op hrow0 ⟨n, rfl⟩ hr]
      congr 1
      dsimp only
      omega
    · rw [vgetHigh, weights16_apply op hrow0 ⟨n, rfl⟩ hr]
      congr 1
      dsimp only
      omega
  have hdiv : (a - p) / 32 = 2 * n + half := by omega
  simp only [panelHalf, hoffset, panelWeight, hdiv]
  by_cases hlow : a < p + 32 * (2 * n + half) + 16
  · rw [vst1q_of_not_mem _ _ (by omega), vst1q_of_mem _ _ (by omega),
      vcombine_apply _ _ (fun r l => op.weightAt (row0 + r) (8 * (2 * n + half) + l))
        (hweight 0 (by decide)) (hweight 1 (by decide))]
    dsimp only
    congr 1 <;> omega
  · rw [vst1q_of_mem _ _ (by omega),
      vcombine_apply _ _ (fun r l => op.weightAt (row0 + 2 + r) (8 * (2 * n + half) + l))
        (hweight 2 (by decide)) (hweight 3 (by decide))]
    dsimp only
    congr 1 <;> omega

lemma panelHalf_of_not_mem {row0 ik p half a : ℕ} (panel : ℕ → Int8)
    (ha : ¬ (p + (ik / 8 + half) * 32 ≤ a ∧ a < p + (ik / 8 + half) * 32 + 32)) :
    panelHalf op row0 ik p panel half a = panel a := by
  simp only [panelHalf]
  rw [vst1q_of_not_mem _ _ (by omega), vst1q_of_not_mem _ _ (by omega)]

theorem expandFourRows_of_mem {row0 p a : ℕ} (hk : 16 ∣ op.k) (hrow0 : 4 ∣ row0)
    (panel : ℕ → Int8) (ha : p ≤ a ∧ a < p + 4 * op.k) :
    expandFourRows op row0 p panel a = panelWeight op row0 p a := by
  refine foldl_store_of_cover (fun mem ik => (List.range 2).foldl (panelHalf op row0 ik p) mem)
    (fun ik b => ∃ half ∈ List.range 2,
      p + (ik / 8 + half) * 32 ≤ b ∧ b < p + (ik / 8 + half) * 32 + 32) (panelWeight op row0 p)
    (fun ik hik mem b hb => ?_) (fun ik hik mem b hb => ?_) panel ?_
  · have h16 := ((mem_stepRange (by decide)).mp hik).2
    exact foldl_store_of_cover (panelHalf op row0 ik p)
      (fun half b => p + (ik / 8 + half) * 32 ≤ b ∧ b < p + (ik / 8 + half) * 32 + 32)
      (panelWeight op row0 p) (fun half hhalf mem b hb => panelHalf_of_mem hrow0 h16 (List.mem_range.mp hhalf) mem hb)
      (fun half _ mem b hb => panelHalf_of_not_mem mem hb) mem hb
  · exact foldl_store_of_not_cover (panelHalf op row0 ik p)
      (fun half b => p + (ik / 8 + half) * 32 ≤ b ∧ b < p + (ik / 8 + half) * 32 + 32)
      (fun half _ mem b hb => panelHalf_of_not_mem mem hb) mem
      fun half hhalf hcover => hb ⟨half, hhalf, hcover⟩
  · obtain ⟨n, hn⟩ := hk
    refine ⟨16 * ((a - p) / 64), (mem_stepRange (by decide)).mpr ⟨by omega, by simp⟩,
      (a - p) % 64 / 32, List.mem_range.mpr (by omega), by omega, by omega⟩

lemma expandFourRows_of_not_mem {row0 p a : ℕ} (hk : 16 ∣ op.k)
    (panel : ℕ → Int8) (ha : ¬ (p ≤ a ∧ a < p + 4 * op.k)) :
    expandFourRows op row0 p panel a = panel a := by
  have hskip : ∀ ik ∈ stepRange op.k 16, ∀ mem : ℕ → Int8,
      (List.range 2).foldl (panelHalf op row0 ik p) mem a = mem a := by
    intro ik hik mem
    obtain ⟨hlt, m, rfl⟩ := (mem_stepRange (by decide)).mp hik
    obtain ⟨n, hn⟩ := hk
    simp only [List.range_succ, List.range_zero, List.nil_append, List.foldl_append,
      List.foldl_cons, List.foldl_nil]
    rw [panelHalf_of_not_mem _ (by omega), panelHalf_of_not_mem _ (by omega)]
  refine foldl_store_of_not_cover
    (fun mem ik => (List.range 2).foldl (panelHalf op row0 ik p) mem) (fun _ b => b ≠ a)
    (fun ik hik mem b hb => ?_) panel
    fun _ _ h => h rfl
  obtain rfl := not_not.mp hb
  exact hskip ik hik mem

/-! ## Activation buffers -/

lemma activationRows_apply (x : ℕ → ℕ → Int8) {tokens k token i : ℕ} (buffer : ℕ → Int8)
    (htoken : token < tokens) (hi : i < k) :
    activationRows x tokens k buffer (token * k + i) = x token i := by
  have hcell : ∀ t, ∀ j < k, x t j = x ((t * k + j) / k) ((t * k + j) % k) := fun t j hj => by
    rw [Nat.mul_comm t, Nat.mul_add_div (by omega), Nat.mul_add_mod, Nat.div_eq_of_lt hj,
      Nat.mod_eq_of_lt hj, Nat.add_zero]
  rw [hcell token i hi]
  exact foldl_store_of_cover (fun mem t => quantizeActivationRow (x t) (t * k) k mem)
    (fun t b => ∃ j ∈ List.range k, t * k + j = b) (fun b => x (b / k) (b % k))
    (fun t _ mem b hb => foldl_update_of_mem (t * k + ·) (x t) (fun b => x (b / k) (b % k))
      (fun j hj => hcell t j (List.mem_range.mp hj)) mem hb)
    (fun t _ mem b hb => foldl_update_of_not_mem (t * k + ·) (x t) mem hb) buffer
    ⟨token, List.mem_range.mpr htoken, i, List.mem_range.mpr hi, rfl⟩

/-- The row that the panel buffer holds for a token: zero past the last one. -/
def paddedRow (x : ℕ → ℕ → Int8) (tokens token : ℕ) : ℕ → Int8 :=
  if token < tokens then x token else fun _ => 0

/-- Address of column `8 * c + lane` of a token in the paired layout. -/
def panelAddress (k token c lane : ℕ) : ℕ :=
  token / 2 * (2 * k) + c * 16 + token % 2 * 8 + lane

/-- What the paired layout holds at an address, read back from the address. -/
def panelCell (x : ℕ → ℕ → Int8) (tokens k b : ℕ) : Int8 :=
  paddedRow x tokens (2 * (b / (2 * k)) + b % (2 * k) % 16 / 8)
    (8 * (b % (2 * k) / 16) + b % (2 * k) % 8)

lemma panelCell_panelAddress (x : ℕ → ℕ → Int8) {tokens k token c lane : ℕ}
    (hc : 8 * c + 8 ≤ k) (hlane : lane < 8) :
    panelCell x tokens k (panelAddress k token c lane) = paddedRow x tokens token (8 * c + lane) := by
  have hrest : c * 16 + token % 2 * 8 + lane < 2 * k := by omega
  have haddress : panelAddress k token c lane =
      2 * k * (token / 2) + (c * 16 + token % 2 * 8 + lane) := by
    rw [panelAddress, Nat.mul_comm (2 * k)]
    omega
  rw [panelCell, haddress, Nat.mul_add_div (by omega), Nat.mul_add_mod, Nat.div_eq_of_lt hrest,
    Nat.mod_eq_of_lt hrest]
  congr 1 <;> omega

lemma quantizeActivationPanelRow_apply (x : ℕ → ℕ → Int8) {tokens n : ℕ} (t : ℕ)
    (mem : ℕ → Int8) (b : ℕ) :
    ((∃ c ∈ List.range n, ∃ l ∈ List.range 8, panelAddress (8 * n) t c l = b) →
      quantizeActivationPanelRow (paddedRow x tokens t) t (8 * n) mem b =
        panelCell x tokens (8 * n) b) ∧
    (¬ (∃ c ∈ List.range n, ∃ l ∈ List.range 8, panelAddress (8 * n) t c l = b) →
      quantizeActivationPanelRow (paddedRow x tokens t) t (8 * n) mem b = mem b) := by
  have hsteps : stepRange (8 * n) 8 = (List.range n).map (8 * ·) := by
    rw [Nat.mul_comm]
    exact stepRange_mul n (by decide)
  have hcell : ∀ c < n, ∀ l < 8, paddedRow x tokens t (8 * c + l) =
      panelCell x tokens (8 * n) (panelAddress (8 * n) t c l) := fun c hc l hl =>
    (panelCell_panelAddress x (by omega) hl).symm
  have heq : quantizeActivationPanelRow (paddedRow x tokens t) t (8 * n) mem =
      (List.range n).foldl (fun buffer c => (List.range 8).foldl (fun buffer l =>
        Function.update buffer (panelAddress (8 * n) t c l) (paddedRow x tokens t (8 * c + l)))
        buffer) mem := by
    simp only [quantizeActivationPanelRow, hsteps, List.foldl_map, panelAddress,
      Nat.mul_div_cancel_left _ (show 0 < 8 by decide)]
  rw [heq]
  refine ⟨fun hb => ?_, fun hb => ?_⟩
  · exact foldl_store_of_cover _ (fun c b => ∃ l ∈ List.range 8, panelAddress (8 * n) t c l = b)
      (panelCell x tokens (8 * n))
      (fun c hc mem b hb => foldl_update_of_mem (panelAddress (8 * n) t c)
        (fun l => paddedRow x tokens t (8 * c + l)) _
        (fun l hl => hcell c (List.mem_range.mp hc) l (List.mem_range.mp hl)) mem hb)
      (fun c _ mem b hb => foldl_update_of_not_mem (panelAddress (8 * n) t c)
        (fun l => paddedRow x tokens t (8 * c + l)) mem hb) mem hb
  · exact foldl_store_of_not_cover _
      (fun c b => ∃ l ∈ List.range 8, panelAddress (8 * n) t c l = b)
      (fun c _ mem b hb => foldl_update_of_not_mem (panelAddress (8 * n) t c)
        (fun l => paddedRow x tokens t (8 * c + l)) mem hb) mem fun c hc h => hb ⟨c, hc, h⟩

/-- The paired buffer holds, for every pair of tokens, eight columns of the one and eight of the
other in turn; rows past the last token are zero. -/
lemma activationPanel_apply (x : ℕ → ℕ → Int8) {tokens k token c lane : ℕ} (buffer : ℕ → Int8)
    (hk : 8 ∣ k) (htoken : token < alignPanelTokens tokens) (hc : 8 * c < k) (hlane : lane < 8) :
    activationPanel x tokens k buffer (panelAddress k token c lane) =
      paddedRow x tokens token (8 * c + lane) := by
  obtain ⟨n, rfl⟩ := hk
  rw [← panelCell_panelAddress x (by omega : 8 * c + 8 ≤ 8 * n) hlane]
  exact foldl_store_of_cover
    (fun mem t => quantizeActivationPanelRow (paddedRow x tokens t) t (8 * n) mem)
    (fun t b => ∃ c ∈ List.range n, ∃ l ∈ List.range 8, panelAddress (8 * n) t c l = b)
    (panelCell x tokens (8 * n))
    (fun t _ mem b => (quantizeActivationPanelRow_apply x t mem b).1)
    (fun t _ mem b => (quantizeActivationPanelRow_apply x t mem b).2) buffer
    ⟨token, List.mem_range.mpr htoken, c, List.mem_range.mpr (by omega), lane,
      List.mem_range.mpr hlane, rfl⟩

/-! ## Panel accumulators -/

lemma panel_weights_apply {panel : ℕ → Int8} {row0 c rowPair : ℕ} (hrowPair : rowPair < 4)
    (hk : 8 ∣ op.k) (hc : 8 * c < op.k)
    (hlow : ∀ a < 4 * op.k, panel a = panelWeight op row0 0 a)
    (hhigh : ∀ a, 4 * op.k ≤ a → a < 8 * op.k → panel a = panelWeight op (row0 + 4) (4 * op.k) a)
    (l : Fin 16) :
    vld1q panel (rowPair / 2 * (4 * op.k) + c * 32 + rowPair % 2 * 16) l =
      op.weightAt (row0 + 2 * rowPair + l / 8) (8 * c + l % 8) := by
  obtain ⟨n, hn⟩ := hk
  have hl := l.2
  rw [vld1q]
  rcases Nat.lt_or_ge rowPair 2 with h | h
  · have hhalf : rowPair / 2 = 0 := by omega
    rw [hhalf, hlow _ (by omega), panelWeight]
    congr 1 <;> omega
  · have hhalf : rowPair / 2 = 1 := by omega
    rw [hhalf, hhigh _ (by omega) (by omega), panelWeight]
    congr 1 <;> omega

theorem panelSums_eq (x : ℕ → ℕ → Int8) {panel buffer : ℕ → Int8} {token0 row0 pair rowPair : ℕ}
    (hk : 8 ∣ op.k) (htoken0 : 8 ∣ token0) (htokens : token0 < op.tokens) (hpair : pair < 4)
    (hrowPair : rowPair < 4)
    (hlow : ∀ a < 4 * op.k, panel a = panelWeight op row0 0 a)
    (hhigh : ∀ a, 4 * op.k ≤ a → a < 8 * op.k → panel a = panelWeight op (row0 + 4) (4 * op.k) a)
    (lane : Fin 4) :
    panelSums op (activationPanel x op.tokens op.k buffer) panel token0 pair rowPair lane =
      op.rowDot (paddedRow x op.tokens) (token0 + 2 * pair + lane / 2)
        (row0 + 2 * rowPair + lane % 2) := by
  obtain ⟨n, hn⟩ := hk
  obtain ⟨m, rfl⟩ := htoken0
  have hkn : op.k = n * 8 := by omega
  have hstart := zero_add (op.rowDot (paddedRow x op.tokens) (8 * m + 2 * pair + lane / 2)
    (row0 + 2 * rowPair + lane % 2))
  rw [← hstart, LinearOp.rowDot, panelSums]
  set token := 8 * m + 2 * pair + (lane : ℕ) / 2 with htoken
  set row := row0 + 2 * rowPair + (lane : ℕ) % 2 with hrow
  have hfold := foldl_stepRange_accumulate
    (fun (sums : ℕ → ℕ → Fin 4 → BitVec 32) ik pair rowPair => vmmlaq (sums pair rowPair)
      (vld1q (activationPanel x op.tokens op.k buffer)
        (8 * m / 2 * (2 * op.k) + ik / 8 * 16 + pair * (2 * op.k)))
      (vld1q panel (rowPair / 2 * (4 * op.k) + ik / 8 * 32 + rowPair % 2 * 16)))
    (fun sums => sums pair rowPair lane)
    (fun ik => widen (op.weightAt row ik) * widen (paddedRow x op.tokens token ik))
    (m := 8) (by decide) n ?_ (fun _ _ _ => 0)
  · rw [← hkn] at hfold
    exact hfold
  · intro sums c hc
    simp only [Nat.mul_div_cancel_left _ (show 0 < 8 by decide)]
    rw [vmmlaq_lane (sums pair rowPair)
      (x := fun i l => paddedRow x op.tokens (8 * m + 2 * pair + i) (8 * c + l))
      (w := fun j l => op.weightAt (row0 + 2 * rowPair + j) (8 * c + l))]
    · refine congrArg (_ + ·) (Finset.sum_congr rfl fun l _ => mul_comm _ _)
    · intro l
      have haddress : 8 * m / 2 * (2 * op.k) + c * 16 + pair * (2 * op.k) + (l : ℕ) =
          panelAddress op.k (8 * m + 2 * pair + l / 8) c (l % 8) := by
        have hl := l.2
        have hhalf : (8 * m + 2 * pair + (l : ℕ) / 8) / 2 = 4 * m + pair := by omega
        have hodd : (8 * m + 2 * pair + (l : ℕ) / 8) % 2 = l / 8 := by omega
        have hm : 8 * m / 2 = 4 * m := by omega
        rw [panelAddress, hhalf, hodd, hm, Nat.add_mul]
        omega
      rw [vld1q, haddress, activationPanel_apply x buffer ⟨n, hn⟩ _ (by omega) (by omega)]
      have hl := l.2
      rw [alignPanelTokens]
      omega
    · exact panel_weights_apply hrowPair ⟨n, hn⟩ (by omega) hlow hhigh

end Panel

end IFairy
