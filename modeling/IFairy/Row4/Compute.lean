import IFairy.Framework.Schedules
import IFairy.Row4.Stores

/-!
# The Row4 operation, on any number of threads

`validate_op` admits an operation, `ggml_row4_cpu_compute` quantises its activations and then runs
the kernel of the chosen path on `nth` threads.  A run is a run of a pool of workers
(`Framework.JobPool`) with the schedule of that path: a range of outputs per thread for the
scalar kernel, strided job numbers for the static kernels, a shared counter for the others.

The main theorem says that the stores of a run, for every interleaving of the threads, are those
of the scalar kernel: never a wrong value, never an output twice, and every output once all
threads are done.
-/

namespace IFairy

/-! ## Admission -/

/-- The element types that the operation tells apart; any other comes with its block size and
byte size. -/
inductive GgmlType
  | f32
  | bf16
  | i8
  | row4Codes
  | row4CodesPair2
  | other (blckSize typeSize : ℕ)
deriving DecidableEq

/-- `ggml_blck_size`. -/
def GgmlType.blckSize : GgmlType → ℕ
  | .other blckSize _ => blckSize
  | _ => 1

/-- `ggml_type_size`. -/
def GgmlType.typeSize : GgmlType → ℕ
  | .f32 => 4
  | .bf16 => 2
  | .other _ typeSize => typeSize
  | _ => 1

inductive GgmlOp
  | row4Linear
  | w8a8Linear
  | other
deriving DecidableEq

/-- A tensor with its element type. -/
structure TypedTensor extends GgmlTensor where
  type : GgmlType

/-- `ggml_is_contiguous`: an extent of one may have any stride. -/
def TypedTensor.isContiguous (t : TypedTensor) : Bool :=
  if t.ne 0 ≠ t.type.blckSize ∧ t.nb 0 ≠ t.type.typeSize then false
  else
    let nb0 := t.type.typeSize * (t.ne 0 / t.type.blckSize)
    ([1, 2, 3].foldl (fun (state : Bool × ℕ) (i : Fin 4) =>
      if t.ne i = 1 then state
      else (state.1 && decide (t.nb i = state.2), state.2 * t.ne i)) (true, nb0)).1

/-- `ggml_nrows`. -/
def GgmlTensor.nrows (t : GgmlTensor) : ℕ := t.ne 1 * t.ne 2 * t.ne 3

/-- The node of a row-quantised linear operation: its kind, its `op_params` and its sources. -/
structure Row4Node extends TypedTensor where
  op : GgmlOp
  version : ℤ
  logicalO : ℤ
  logicalK : ℤ
  src : Fin 10 → Option TypedTensor

/-- `validate_op`. -/
def validateOp (dst : Row4Node) : Bool :=
  if dst.op ≠ .row4Linear ∧ dst.op ≠ .w8a8Linear then false
  else
    match dst.src 0, dst.src 1, dst.src 2 with
    | some x, some codes, some scales =>
      if x.type ≠ .f32 ∨ dst.type ≠ .f32 then false
      -- schema v2 is the layout of another backend
      else if codes.type = .row4CodesPair2 then false
      else if ∃ i : Fin 10, 3 ≤ i ∧ (dst.src i).isSome then false
      else if !x.isContiguous || !codes.isContiguous || !scales.isContiguous ||
          !dst.isContiguous then false
      else
        let o := dst.logicalO
        let k := dst.logicalK
        if dst.version ≠ 1 ∨ o ≤ 0 ∨ k ≤ 0 ∨ o % 128 ≠ 0 ∨ k % 128 ≠ 0 ∨ x.ne 0 ≠ k ∨ dst.ne 0 ≠ o ∨
            dst.ne 1 ≠ x.ne 1 ∨ dst.ne 2 ≠ x.ne 2 ∨ dst.ne 3 ≠ x.ne 3 then false
        else if scales.ne 0 ≠ o ∨ scales.ne 1 ≠ 1 ∨ scales.ne 2 ≠ 1 ∨ scales.ne 3 ≠ 1 then false
        else if dst.op = .row4Linear then
          codes.type = .row4Codes && scales.type = .bf16 && codes.ne 0 = 64 && codes.ne 1 = 4 &&
            codes.ne 2 = k / 128 && codes.ne 3 = o / 16
        else
          codes.type = .i8 && scales.type = .f32 && codes.ne 0 = 128 && codes.ne 1 = 16 &&
            codes.ne 2 = k / 128 && codes.ne 3 = o / 16
    | _, _, _ => false

/-- What the kernels read of an admitted node. -/
def Row4Node.linearOp (dst : Row4Node) : LinearOp where
  row4 := dst.op = .row4Linear
  codes := ((dst.src 1).map (·.toGgmlTensor)).getD ⟨fun _ => 0, fun _ => 0, fun _ => 0⟩
  tokens := ((dst.src 0).map (·.nrows)).getD 0
  o := dst.ne 0
  k := ((dst.src 0).map (·.ne 0)).getD 0

lemma validateOp_dvd {dst : Row4Node} (h : validateOp dst = true) :
    128 ∣ dst.linearOp.o ∧ 128 ∣ dst.linearOp.k ∧ 0 < dst.linearOp.o ∧ 0 < dst.linearOp.k := by
  unfold validateOp at h
  split at h
  · cases h
  · split at h
    · rename_i x codes scales hx hcodes hscales
      dsimp only at h
      iterate 4
        split at h
        · cases h
      split at h
      · cases h
      · rename_i hdims
        simp only [not_or, not_le, ne_eq, not_not] at hdims
        simp only [Row4Node.linearOp, hx, Option.map_some, Option.getD_some]
        omega
    · cases h

/-! ## Runs -/

/-- `row4_path`. -/
inductive Row4Path
  | scalar
  | dotprod
  | i8mm
deriving DecidableEq

section Compute

variable (op : LinearOp) (path : Row4Path) (nth : ℕ) (x : ℕ → ℕ → Int8) (buffer : ℕ → Int8)
  (scratch : ℕ → ℕ → Int8)

/-- The path that pads and pairs its activations. -/
def usesPanel : Bool := path = .i8mm && 8 ≤ op.tokens

/-- The activation buffer when the kernels start: `buffer` is what the workspace held. -/
def activations : ℕ → Int8 :=
  if usesPanel op path then activationPanel x op.tokens op.k buffer
  else activationRows x op.tokens op.k buffer

/-- The number of jobs of the path's kernel. -/
def jobCount : ℕ :=
  match path with
  | .scalar => op.tokens * op.o
  | .dotprod => op.tokens * (op.o / 16)
  | .i8mm => if 8 ≤ op.tokens then op.o / 16 else (op.tokens + 1) / 2 * (op.o / 4)

/-- The job of the path's kernel; `scratch ot` is what the panel held when job `ot` began. -/
def jobBody : ℕ → List StoreResult :=
  match path with
  | .scalar => scalarJob op (activations op path x buffer)
  | .dotprod => dotprodJob op (activations op path x buffer)
  | .i8mm =>
    if 8 ≤ op.tokens then fun ot => i8mmPanelJob op (activations op path x buffer) (scratch ot) ot
    else i8mmDirectJob op (activations op path x buffer)

def jobKeys : ℕ → List (ℕ × ℕ) :=
  match path with
  | .scalar => scalarKeys op
  | .dotprod => dotprodKeys op
  | .i8mm => if 8 ≤ op.tokens then i8mmPanelKeys op else i8mmDirectKeys op

/-- A pool with this dispenser can have performed the writes `log`, with all workers done or not. -/
def Performs {σ W : Type} (d : Dispenser nth σ) (body : ℕ → List W) (log : List W)
    (done : Bool) : Prop :=
  ∃ s, PoolReachable d body s ∧ s.log = log ∧ (done = true ↔ s.Done)

/-- `ggml_row4_cpu_compute`: the stores that `nth` threads can have made, in their order. -/
def computeRun (log : List StoreResult) (done : Bool) : Prop :=
  let jobs := jobCount op path
  let body := jobBody op path x buffer scratch
  match path with
  | .scalar => Performs nth (ranged nth fun t => op.tokens * op.o * t / nth) body log done
  | .dotprod =>
    if op.tokens = 1 then Performs nth (sharedCounter nth jobs) body log done
    else Performs nth (strided nth jobs) body log done
  | .i8mm =>
    if 8 ≤ op.tokens then Performs nth (sharedCounter nth jobs) body log done
    else Performs nth (strided nth jobs) body log done

/-! ## Every job stores its outputs' dot products -/

variable {op path nth x buffer scratch}

lemma jobBody_stored (hk : 128 ∣ op.k) {job : ℕ} (hjob : job < jobCount op path) :
    jobBody op path x buffer scratch job = (jobKeys op path job).map (op.stored x) := by
  have hk16 : 16 ∣ op.k := Dvd.dvd.trans (by decide) hk
  cases path with
  | scalar => exact scalarJob_stored hjob
  | dotprod => exact dotprodJob_stored hk hjob
  | i8mm =>
    by_cases htokens : 8 ≤ op.tokens
    · simp only [jobBody, jobKeys, activations, usesPanel, htokens, decide_true, Bool.and_true,
        if_true]
      exact i8mmPanelJob_stored hk16 (scratch job) job
    · simp only [jobCount, htokens, if_false] at hjob
      simp only [jobBody, jobKeys, activations, usesPanel, htokens, decide_false, Bool.and_false,
        if_false, Bool.false_eq_true]
      exact i8mmDirectJob_stored hk16 hjob

lemma tiling_jobKeys (ho : 128 ∣ op.o) : Tiling op (jobCount op path) (jobKeys op path) := by
  have ho16 : 16 ∣ op.o := Dvd.dvd.trans (by decide) ho
  cases path with
  | scalar => exact tiling_scalar
  | dotprod => exact tiling_dotprod ho16
  | i8mm =>
    by_cases htokens : 8 ≤ op.tokens
    · simp only [jobCount, jobKeys, htokens, if_true]
      exact tiling_i8mmPanel ho16
    · simp only [jobCount, jobKeys, htokens, if_false]
      exact tiling_i8mmDirect (Dvd.dvd.trans (by decide) ho)

/-! ## The stores of a run -/

/-- The store goes to this output. -/
def StoreResult.At (w : StoreResult) (token o : ℕ) : Prop := w.token = token ∧ w.o = o

instance (w : StoreResult) (token o : ℕ) : Decidable (w.At token o) :=
  inferInstanceAs (Decidable (_ ∧ _))

lemma countP_stored {jobs : ℕ} {keys : ℕ → List (ℕ × ℕ)} (htiling : Tiling op jobs keys)
    {token o : ℕ} (htoken : token < op.tokens) (ho : o < op.o) :
    (((List.range jobs).flatMap keys).map (op.stored x)).countP (fun w => w.At token o) = 1 := by
  have hone := List.count_eq_one_of_mem htiling.nodup ((htiling.mem token o).mpr ⟨htoken, ho⟩)
  rw [List.countP_map, ← hone, List.count]
  refine List.countP_congr fun key _ => ?_
  simp only [Function.comp_apply, StoreResult.At, LinearOp.stored, beq_iff_eq, Prod.ext_iff]
  exact decide_eq_true_iff

/-- What a distribution of tiled jobs performs: right values, nothing twice, and everything once
the workers are done; and the workers always get done. -/
lemma performs_spec {σ : Type} {d : Dispenser nth σ} {jobs : ℕ} (law : d.Law jobs)
    {body : ℕ → List StoreResult} {keys : ℕ → List (ℕ × ℕ)}
    (hbody : ∀ job < jobs, body job = (keys job).map (op.stored x))
    (htiling : Tiling op jobs keys) {log : List StoreResult} {done : Bool}
    (hrun : Performs nth d body log done) :
    (∀ w ∈ log, w.token < op.tokens ∧ w.o < op.o ∧ w.accumulator = op.rowDot x w.token w.o) ∧
    (∀ token < op.tokens, ∀ o < op.o, log.countP (fun w => w.At token o) ≤ 1) ∧
    (done = true → ∀ token < op.tokens, ∀ o < op.o, log.countP (fun w => w.At token o) = 1) ∧
    ∃ log', log <+: log' ∧ Performs nth d body log' true := by
  obtain ⟨s, hreach, rfl, hdone⟩ := hrun
  have hall : ∑ j ∈ Finset.range jobs, (body j : Multiset StoreResult) =
      (((List.range jobs).flatMap keys).map (op.stored x) : List StoreResult) := by
    rw [sum_range_coe_eq_flatMap, List.map_flatMap]
    congr 1
    exact List.flatMap_congr fun job hjob => hbody job (List.mem_range.mp hjob)
  have hle := hreach.log_le law
  rw [hall] at hle
  refine ⟨fun w hw => ?_, fun token htoken o ho => ?_, fun hd token htoken o ho => ?_, ?_⟩
  · obtain ⟨key, hkey, rfl⟩ := List.mem_map.mp (Multiset.mem_coe.mp (Multiset.mem_of_le hle hw))
    obtain ⟨htoken, ho⟩ := (htiling.mem key.1 key.2).mp hkey
    exact ⟨htoken, ho, rfl⟩
  · have hcount := Multiset.countP_le_of_le (fun w : StoreResult => w.At token o) hle
    rw [Multiset.coe_countP, Multiset.coe_countP, countP_stored htiling htoken ho] at hcount
    exact hcount
  · have heq := hreach.log_eq law (hdone.mp hd)
    rw [hall] at heq
    rw [(Multiset.coe_eq_coe.mp heq).countP_eq, countP_stored htiling htoken ho]
  · obtain ⟨s', hsteps, hdone'⟩ := hreach.exists_done law
    exact ⟨s'.log, log_prefix_of_steps hsteps, s', hreach.trans hsteps, rfl, by simp [hdone']⟩

lemma computeRun_law (op : LinearOp) (path : Row4Path) (buffer : ℕ → Int8)
    (scratch : ℕ → ℕ → Int8) (hnth : 0 < nth) :
    ∃ (σ : Type) (d : Dispenser nth σ) (_ : d.Law (jobCount op path)), ∀ log done,
      computeRun op path nth x buffer scratch log done ↔
        Performs nth d (jobBody op path x buffer scratch) log done := by
  cases path with
  | scalar =>
    have hlast : op.tokens * op.o * nth / nth = op.tokens * op.o := Nat.mul_div_cancel _ hnth
    have hmono : Monotone fun t => op.tokens * op.o * t / nth := fun a b hab =>
      Nat.div_le_div_right (Nat.mul_le_mul_left _ hab)
    have law : (ranged nth fun t => op.tokens * op.o * t / nth).Law (op.tokens * op.o * nth / nth) :=
      rangedLaw (by simp) hmono
    rw [hlast] at law
    exact ⟨_, _, law, fun _ _ => Iff.rfl⟩
  | dotprod =>
    by_cases htokens : op.tokens = 1
    · exact ⟨_, _, sharedCounterLaw hnth _, fun _ _ => by simp only [computeRun, htokens, if_true]⟩
    · exact ⟨_, _, stridedLaw hnth _, fun _ _ => by simp only [computeRun, htokens, if_false]⟩
  | i8mm =>
    by_cases htokens : 8 ≤ op.tokens
    · exact ⟨_, _, sharedCounterLaw hnth _, fun _ _ => by simp only [computeRun, htokens, if_true]⟩
    · exact ⟨_, _, stridedLaw hnth _, fun _ _ => by simp only [computeRun, htokens, if_false]⟩

lemma scalarAccumulator_activationRows (buffer : ℕ → Int8) {token : ℕ} (htoken : token < op.tokens)
    (o : ℕ) :
    scalarAccumulator op (activationRows x op.tokens op.k buffer) token o = op.rowDot x token o ∧
      op.rowDot x token o = BitVec.ofInt 32
        (∑ ik ∈ Finset.range op.k, (op.weightAt o ik).toInt * (x token ik).toInt) := by
  refine ⟨by rw [scalarAccumulator_eq, rowSum_activationRows op x buffer htoken], ?_⟩
  have hcast : ∀ n : ℤ, BitVec.ofInt 32 n = (n : BitVec 32) := fun _ => rfl
  rw [hcast, Int.cast_sum, LinearOp.rowDot]
  refine Finset.sum_congr rfl fun ik _ => ?_
  rw [Int.cast_mul]
  rfl

end Compute

/-! ## All paths compute what the scalar kernel computes -/

/-- For every admitted node, path, thread count and activation matrix, and every run: each store
passes the accumulator of the scalar kernel, which is the exact dot product in 32 bits; no output
is stored twice; when the threads are done every output has been stored once; and the threads can
always get done. -/
theorem row4_paths_agree (dst : Row4Node) (hvalid : validateOp dst = true) (path : Row4Path)
    (nth : ℕ) (hnth : 0 < nth) (x : ℕ → ℕ → Int8) (buffer : ℕ → Int8) (scratch : ℕ → ℕ → Int8)
    (log : List StoreResult) (done : Bool)
    (hrun : computeRun dst.linearOp path nth x buffer scratch log done) :
    let op := dst.linearOp
    (∀ w ∈ log, w.token < op.tokens ∧ w.o < op.o ∧
      w.accumulator = scalarAccumulator op (activationRows x op.tokens op.k buffer) w.token w.o ∧
      w.accumulator = BitVec.ofInt 32
        (∑ ik ∈ Finset.range op.k, (op.weightAt w.o ik).toInt * (x w.token ik).toInt)) ∧
    (∀ token < op.tokens, ∀ o < op.o, log.countP (fun w => w.At token o) ≤ 1) ∧
    (done = true → ∀ token < op.tokens, ∀ o < op.o, log.countP (fun w => w.At token o) = 1) ∧
    ∃ log', log <+: log' ∧ computeRun op path nth x buffer scratch log' true := by
  obtain ⟨ho, hk, -, -⟩ := validateOp_dvd hvalid
  obtain ⟨σ, d, law, hperforms⟩ := computeRun_law (x := x) dst.linearOp path buffer
    scratch hnth
  obtain ⟨hvalues, hatMost, hexactly, log', hprefix, hlog'⟩ := performs_spec law
    (fun job hjob => jobBody_stored hk hjob) (tiling_jobKeys ho) ((hperforms log done).mp hrun)
  refine ⟨fun w hw => ?_, hatMost, hexactly, log', hprefix, (hperforms log' true).mpr hlog'⟩
  obtain ⟨htoken, hout, hacc⟩ := hvalues w hw
  obtain ⟨hscalar, hexact⟩ := scalarAccumulator_activationRows buffer htoken w.o
  exact ⟨htoken, hout, hacc.trans hscalar.symm, hacc.trans hexact⟩

/-- A node with one token, 128 outputs and 128 inputs, all codes zero. -/
def smallNode : Row4Node where
  data := fun _ => 0
  ne := ![128, 1, 1, 1]
  nb := ![4, 512, 512, 512]
  type := .f32
  op := .row4Linear
  version := 1
  logicalO := 128
  logicalK := 128
  src := ![some ⟨⟨fun _ => 0, ![128, 1, 1, 1], ![4, 512, 512, 512]⟩, .f32⟩,
    some ⟨⟨fun _ => 0, ![64, 4, 1, 8], ![1, 64, 256, 256]⟩, .row4Codes⟩,
    some ⟨⟨fun _ => 0, ![128, 1, 1, 1], ![2, 256, 256, 256]⟩, .bf16⟩,
    none, none, none, none, none, none, none]

/-- The first store of two threads on the small node. -/
theorem row4_paths_agree_smallNode :
    validateOp smallNode = true ∧ ∃ log,
      computeRun smallNode.linearOp .dotprod 2 (fun _ _ => 1) (fun _ => 0) (fun _ _ => 0) log true ∧
      (∀ token < 1, ∀ o < 128, log.countP (fun w => w.At token o) = 1) := by
  have hvalid : validateOp smallNode = true := by decide
  have hstart : computeRun smallNode.linearOp .dotprod 2 (fun _ _ => 1) (fun _ => 0)
      (fun _ _ => 0) [] false :=
    ⟨(sharedCounter 2 _).start, .refl, rfl, by simp [PoolState.Done, Dispenser.start]⟩
  obtain ⟨log, -, hlog⟩ := (row4_paths_agree smallNode hvalid .dotprod 2 (by decide) (fun _ _ => 1)
    (fun _ => 0) (fun _ _ => 0) [] false hstart).2.2.2
  exact ⟨hvalid, log, hlog, (row4_paths_agree smallNode hvalid .dotprod 2 (by decide)
    (fun _ _ => 1) (fun _ => 0) (fun _ _ => 0) log true hlog).2.2.1 rfl⟩

end IFairy
