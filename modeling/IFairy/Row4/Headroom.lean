import IFairy.Row4.Compute

/-!
# Headroom of the Row4 accumulators

`validate_op` asks that the inner dimension `K` be a multiple of 128 and asks nothing else of it,
while every kernel adds all `K` products in 32-bit lanes.  A Row4 weight is at most `2` in
magnitude, a W8A8 weight any signed byte.  With weights of magnitude at most `W` no sum of products
leaves `int32` as long as `K * W * 128 < 2 ^ 31`, and then every store passes the exact dot product.
Past that bound the accumulators wrap around.
-/

namespace IFairy

/-! ## Weights -/

/-- The largest magnitude of a weight of the format. -/
def LinearOp.maxWeight (op : LinearOp) : ℕ := if op.row4 then 2 else 128

lemma natAbs_row4CodebookAt_le (channel : ℕ) (code : UInt8) :
    (row4CodebookAt channel code).toInt.natAbs ≤ 2 := by
  have hall : row4Codebook.all (·.all fun weight => weight.toInt.natAbs ≤ 2) = true := by decide
  have hrows : ∀ row ∈ row4Codebook, ∀ weight ∈ row, weight.toInt.natAbs ≤ 2 := by
    simpa only [List.all_eq_true, decide_eq_true_eq] using hall
  have hrow : ∀ weight ∈ row4Codebook.getD channel [], weight.toInt.natAbs ≤ 2 := by
    by_cases h : channel < row4Codebook.length
    · rw [List.getD_eq_getElem _ _ h]
      exact hrows _ (List.getElem_mem h)
    · rw [List.getD_eq_default _ _ (Nat.le_of_not_lt h)]
      exact fun _ hmem => absurd hmem List.not_mem_nil
  unfold row4CodebookAt
  by_cases h : code.toNat < (row4Codebook.getD channel []).length
  · rw [List.getD_eq_getElem _ _ h]
    exact hrow _ (List.getElem_mem h)
  · rw [List.getD_eq_default _ _ (Nat.le_of_not_lt h)]
    decide

lemma natAbs_toInt_le (b : Int8) : b.toInt.natAbs ≤ 128 := by
  have hlo := b.le_toInt
  have hhi := b.toInt_lt
  omega

lemma natAbs_weightAt_le (op : LinearOp) (row ik : ℕ) :
    (op.weightAt row ik).toInt.natAbs ≤ op.maxWeight := by
  unfold LinearOp.weightAt LinearOp.maxWeight
  split_ifs
  · exact natAbs_row4CodebookAt_le _ _
  · exact natAbs_toInt_le _

/-! ## Sums of products -/

/-- The exact product of a weight and an activation. -/
def LinearOp.product (op : LinearOp) (x : ℕ → ℕ → Int8) (token row ik : ℕ) : ℤ :=
  (op.weightAt row ik).toInt * (x token ik).toInt

lemma abs_sum_product_le {op : LinearOp} {W row : ℕ}
    (hweights : ∀ ik < op.k, (op.weightAt row ik).toInt.natAbs ≤ W) (x : ℕ → ℕ → Int8) (token : ℕ)
    {part : Finset ℕ} (hpart : part ⊆ Finset.range op.k) :
    |∑ ik ∈ part, op.product x token row ik| ≤ (op.k * (W * 128) : ℕ) := by
  have hone : ∀ ik ∈ part, |op.product x token row ik| ≤ (W * 128 : ℕ) := by
    intro ik hik
    have hweight := hweights ik (Finset.mem_range.mp (hpart hik))
    have hx := natAbs_toInt_le (x token ik)
    rw [LinearOp.product, Int.abs_eq_natAbs, Int.natAbs_mul]
    exact_mod_cast Nat.mul_le_mul hweight hx
  calc |∑ ik ∈ part, op.product x token row ik|
      ≤ ∑ ik ∈ part, |op.product x token row ik| := Finset.abs_sum_le_sum_abs _ _
    _ ≤ part.card • ((W * 128 : ℕ) : ℤ) := Finset.sum_le_card_nsmul _ _ _ hone
    _ ≤ (op.k * (W * 128) : ℕ) := by
      have hcard : part.card ≤ op.k := by
        simpa using Finset.card_le_card hpart
      rw [nsmul_eq_mul]
      exact_mod_cast Nat.mul_le_mul_right _ hcard

/-- An integer that `int32` holds. -/
def FitsInt32 (n : ℤ) : Prop := -2 ^ 31 ≤ n ∧ n < 2 ^ 31

instance (n : ℤ) : Decidable (FitsInt32 n) := inferInstanceAs (Decidable (_ ∧ _))

lemma toInt_ofInt_of_fits {n : ℤ} (h : FitsInt32 n) : (BitVec.ofInt 32 n).toInt = n :=
  BitVec.toInt_ofInt_eq_self (Nat.succ_pos 31) h.1 h.2

/-! ## Stores -/

/-- A run's stores pass the exact sums, and no sum of some of their products leaves `int32`. -/
def StoresExact (op : LinearOp) (x : ℕ → ℕ → Int8) (log : List StoreResult) : Prop :=
  ∀ w ∈ log,
    w.accumulator.toInt = ∑ ik ∈ Finset.range op.k, op.product x w.token w.o ik ∧
    ∀ part ⊆ Finset.range op.k, FitsInt32 (∑ ik ∈ part, op.product x w.token w.o ik)

lemma accumulator_eq_ofInt {dst : Row4Node} (hvalid : validateOp dst = true) {path : Row4Path}
    {nth : ℕ} (hnth : 0 < nth) {x : ℕ → ℕ → Int8} {buffer : ℕ → Int8} {scratch : ℕ → ℕ → Int8}
    {log : List StoreResult} {done : Bool}
    (hrun : computeRun dst.linearOp path nth x buffer scratch log done) :
    ∀ w ∈ log, w.o < dst.linearOp.o ∧ w.accumulator = BitVec.ofInt 32
      (∑ ik ∈ Finset.range dst.linearOp.k, dst.linearOp.product x w.token w.o ik) := by
  obtain ⟨ho, hk, -, -⟩ := validateOp_dvd hvalid
  obtain ⟨σ, d, law, hperforms⟩ := computeRun_law (x := x) dst.linearOp path buffer scratch hnth
  have hvalues := (performs_spec law (fun job hjob => jobBody_stored hk hjob) (tiling_jobKeys ho)
    ((hperforms log done).mp hrun)).1
  intro w hw
  obtain ⟨htoken, hout, hacc⟩ := hvalues w hw
  exact ⟨hout, hacc.trans (scalarAccumulator_activationRows buffer htoken w.o).2⟩

lemma exists_run_done {dst : Row4Node} (hvalid : validateOp dst = true) (path : Row4Path)
    {nth : ℕ} (hnth : 0 < nth) (x : ℕ → ℕ → Int8) (buffer : ℕ → Int8) (scratch : ℕ → ℕ → Int8) :
    ∃ log, computeRun dst.linearOp path nth x buffer scratch log true ∧
      ∀ token < dst.linearOp.tokens, ∀ o < dst.linearOp.o, ∃ w ∈ log, w.At token o := by
  obtain ⟨ho, hk, -, -⟩ := validateOp_dvd hvalid
  obtain ⟨σ, d, law, hperforms⟩ := computeRun_law (x := x) dst.linearOp path buffer scratch hnth
  have hstart : PoolReachable d (jobBody dst.linearOp path x buffer scratch) d.start := .refl
  obtain ⟨s, hsteps, hdone⟩ := hstart.exists_done law
  have hlog : Performs nth d (jobBody dst.linearOp path x buffer scratch) s.log true :=
    ⟨s, hsteps, rfl, by simp [hdone]⟩
  have hspec := performs_spec law (fun job hjob => jobBody_stored hk hjob) (tiling_jobKeys ho) hlog
  refine ⟨s.log, (hperforms s.log true).mpr hlog, fun token htoken o hout => ?_⟩
  have hone := hspec.2.2.1 rfl token htoken o hout
  obtain ⟨w, hw, hat⟩ := List.countP_pos_iff.mp (hone ▸ Nat.one_pos)
  exact ⟨w, hw, of_decide_eq_true hat⟩

/-- For every admitted node, on every path and with every number of threads: the format's weights
are bounded, and when weights bounded by `W` leave `K * W * 128` below `2 ^ 31`, no accumulator
overflows. -/
theorem stores_exact_of_headroom (dst : Row4Node) (hvalid : validateOp dst = true)
    (path : Row4Path) (nth : ℕ) (hnth : 0 < nth) (x : ℕ → ℕ → Int8) (buffer : ℕ → Int8)
    (scratch : ℕ → ℕ → Int8) (log : List StoreResult) (done : Bool)
    (hrun : computeRun dst.linearOp path nth x buffer scratch log done) :
    (∀ row ik, (dst.linearOp.weightAt row ik).toInt.natAbs ≤ dst.linearOp.maxWeight) ∧
    ∀ W, (∀ row < dst.linearOp.o, ∀ ik < dst.linearOp.k,
        (dst.linearOp.weightAt row ik).toInt.natAbs ≤ W) →
      dst.linearOp.k * (W * 128) < 2 ^ 31 → StoresExact dst.linearOp x log := by
  refine ⟨natAbs_weightAt_le dst.linearOp, fun W hweights hbound w hw => ?_⟩
  obtain ⟨ho, hacc⟩ := accumulator_eq_ofInt hvalid hnth hrun w hw
  have hfits : ∀ part ⊆ Finset.range dst.linearOp.k,
      FitsInt32 (∑ ik ∈ part, dst.linearOp.product x w.token w.o ik) := by
    intro part hpart
    have hle := abs_le.mp (abs_sum_product_le (hweights w.o ho) x w.token hpart)
    have hint : ((dst.linearOp.k * (W * 128) : ℕ) : ℤ) < 2 ^ 31 := by exact_mod_cast hbound
    exact ⟨by linarith [hle.1], by linarith [hle.2]⟩
  refine ⟨?_, hfits⟩
  rw [hacc]
  exact toInt_ofInt_of_fits (hfits _ (Finset.Subset.refl _))

/-- The small node runs to the end with weights of magnitude at most two, all sums exact. -/
theorem stores_exact_of_headroom_smallNode : ∃ log,
    computeRun smallNode.linearOp .dotprod 2 (fun _ _ => -128) (fun _ => 0) (fun _ _ => 0) log true ∧
    StoresExact smallNode.linearOp (fun _ _ => -128) log := by
  have hvalid : validateOp smallNode = true := by decide
  obtain ⟨log, hlog, -⟩ := exists_run_done hvalid .dotprod Nat.two_pos (fun _ _ => -128)
    (fun _ => 0) (fun _ _ => 0)
  have hspec := stores_exact_of_headroom smallNode hvalid .dotprod 2 (by decide) (fun _ _ => -128)
    (fun _ => 0) (fun _ _ => 0) log true hlog
  exact ⟨log, hlog, hspec.2 2 (fun row _ ik _ => hspec.1 row ik) (by decide)⟩

/-- A W8A8 node with `132224` inputs, all weights `-127`. -/
def wideNode : Row4Node where
  data := fun _ => 0
  ne := ![128, 1, 1, 1]
  nb := ![4, 512, 512, 512]
  type := .f32
  op := .w8a8Linear
  version := 1
  logicalO := 128
  logicalK := 132224
  src := ![some ⟨⟨fun _ => 0, ![132224, 1, 1, 1], ![4, 528896, 528896, 528896]⟩, .f32⟩,
    some ⟨⟨fun _ => 129, ![128, 16, 1033, 8], ![1, 128, 2048, 2115584]⟩, .i8⟩,
    some ⟨⟨fun _ => 0, ![128, 1, 1, 1], ![4, 512, 512, 512]⟩, .f32⟩,
    none, none, none, none, none, none, none]

/-- Not every admitted node has the headroom: the rows of the wide node add up to more than `int32`
holds, and its stores wrap around. -/
theorem not_stores_exact_wideNode :
    ¬ ∀ (dst : Row4Node), validateOp dst = true → ∀ (path : Row4Path) (nth : ℕ), 0 < nth →
      ∀ (x : ℕ → ℕ → Int8) (buffer : ℕ → Int8) (scratch : ℕ → ℕ → Int8) (log : List StoreResult)
        (done : Bool), computeRun dst.linearOp path nth x buffer scratch log done →
      ∀ w ∈ log, w.accumulator.toInt =
        ∑ ik ∈ Finset.range dst.linearOp.k, dst.linearOp.product x w.token w.o ik := by
  intro hclaim
  have hvalid : validateOp wideNode = true := by decide
  obtain ⟨log, hlog, hall⟩ := exists_run_done hvalid .scalar Nat.one_pos (fun _ _ => -128)
    (fun _ => 0) (fun _ _ => 0)
  obtain ⟨w, hw, -⟩ := hall 0 (by decide) 0 (by decide)
  have hsum : ∑ ik ∈ Finset.range wideNode.linearOp.k,
      wideNode.linearOp.product (fun _ _ => -128) w.token w.o ik = 132224 * 16256 := by
    have hone : ∀ ik, wideNode.linearOp.product (fun _ _ => -128) w.token w.o ik = 16256 := by
      intro ik
      rfl
    rw [Finset.sum_congr rfl fun ik _ => hone ik, Finset.sum_const, Finset.card_range]
    rfl
  have hexact := hclaim wideNode hvalid .scalar 1 Nat.one_pos _ _ _ log true hlog w hw
  rw [(accumulator_eq_ofInt hvalid Nat.one_pos hlog w hw).2, hsum] at hexact
  exact absurd hexact (by decide)

end IFairy
