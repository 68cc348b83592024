import IFairy.Row4.KernelSpec

/-!
# Which outputs a Row4 job stores

Every kernel cuts the outputs `(token, o)` into jobs.  For each kernel one list of keys says which
outputs a job stores, in the order of its `store_result` calls; the job is then these keys with
the dot product of each (`scalarJob_stored`, `dotprodJob_stored`, `i8mmDirectJob_stored`,
`i8mmPanelJob_stored`).  `Tiling` says that the keys of all jobs are all outputs, none twice.
-/

namespace IFairy

/-- The right store for an output. -/
def LinearOp.stored (op : LinearOp) (x : ℕ → ℕ → Int8) (key : ℕ × ℕ) : StoreResult :=
  ⟨key.1, key.2, op.rowDot x key.1 key.2⟩

variable (op : LinearOp) (x : ℕ → ℕ → Int8)

lemma rowDot_congr {x y : ℕ → ℕ → Int8} {token token' row : ℕ}
    (h : ∀ ik < op.k, x token ik = y token' ik) :
    op.rowDot x token row = op.rowDot y token' row :=
  Finset.sum_congr rfl fun ik hik => by rw [h ik (Finset.mem_range.mp hik)]

lemma rowSum_activationRows (buffer : ℕ → Int8) {token : ℕ} (htoken : token < op.tokens)
    (row : ℕ) :
    rowSum op (activationRows x op.tokens op.k buffer) token row = op.rowDot x token row :=
  Finset.sum_congr rfl fun ik hik => by
    rw [rowTerm, activationRows_apply x buffer htoken (Finset.mem_range.mp hik)]

lemma rowDot_paddedRow {token : ℕ} (htoken : token < op.tokens) (row : ℕ) :
    op.rowDot (paddedRow x op.tokens) token row = op.rowDot x token row :=
  rowDot_congr op fun ik _ => by rw [paddedRow, if_pos htoken]

/-! ## Keys -/

/-- The output of one iteration of `compute_scalar`. -/
def scalarKeys (index : ℕ) : List (ℕ × ℕ) := [(index / op.o, index % op.o)]

/-- The outputs of one job of `compute_dotprod`. -/
def dotprodKeys (job : ℕ) : List (ℕ × ℕ) :=
  (List.range 16).map fun row => (job / (op.o / 16), job % (op.o / 16) * 16 + row)

def tileKeys (token row : ℕ) : List (ℕ × ℕ) :=
  [(token, row), (token, row + 1)] ++
    if token + 1 < op.tokens then [(token + 1, row), (token + 1, row + 1)] else []

/-- The outputs of one job of `compute_i8mm_direct`. -/
def i8mmDirectKeys (job : ℕ) : List (ℕ × ℕ) :=
  (List.range 2).flatMap fun rowPair =>
    tileKeys op (2 * (job / (op.o / 4))) (4 * (job % (op.o / 4)) + 2 * rowPair)

/-- The outputs of one expanded panel. -/
def panelKeys (row0 : ℕ) : List (ℕ × ℕ) :=
  (stepRange op.tokens 8).flatMap fun token0 =>
    ((List.range 4).takeWhile fun pair => token0 + 2 * pair < op.tokens).flatMap fun pair =>
      (List.range 4).flatMap fun rowPair => tileKeys op (token0 + 2 * pair) (row0 + 2 * rowPair)

/-- The outputs of one job of `compute_i8mm_panel`. -/
def i8mmPanelKeys (ot : ℕ) : List (ℕ × ℕ) :=
  (stepRange 4 2).flatMap fun group => panelKeys op (ot * 16 + group * 4)

/-! ## Jobs are keys with their dot products -/

section Stored

variable {op x} {buffer : ℕ → Int8}

lemma div_lt_tokens {index n : ℕ} (h : index < op.tokens * n) : index / n < op.tokens :=
  Nat.div_lt_of_lt_mul (by rwa [Nat.mul_comm])

theorem scalarJob_stored {index : ℕ} (h : index < op.tokens * op.o) :
    scalarJob op (activationRows x op.tokens op.k buffer) index =
      (scalarKeys op index).map (op.stored x) := by
  simp only [scalarJob, scalarKeys, scalarAccumulator_eq, List.map_cons, List.map_nil,
    LinearOp.stored, rowSum_activationRows op x buffer (div_lt_tokens h)]

theorem dotprodJob_stored (hk : 128 ∣ op.k) {job : ℕ} (h : job < op.tokens * (op.o / 16)) :
    dotprodJob op (activationRows x op.tokens op.k buffer) job =
      (dotprodKeys op job).map (op.stored x) := by
  simp only [dotprodJob_eq hk, dotprodKeys, List.map_map, Function.comp_def, LinearOp.stored,
    rowSum_activationRows op x buffer (div_lt_tokens h)]

lemma tileStores_stored {token row : ℕ} {tile : Fin 4 → BitVec 32}
    (h : ∀ lane : Fin 4, (lane : ℕ) / 2 = 0 ∨ token + 1 < op.tokens →
      tile lane = op.rowDot x (token + lane / 2) (row + lane % 2)) :
    tileStores op token row tile = (tileKeys op token row).map (op.stored x) := by
  unfold tileStores tileKeys
  split_ifs with hnext
  · simp [LinearOp.stored, h 0 (.inr hnext), h 1 (.inr hnext), h 2 (.inr hnext), h 3 (.inr hnext)]
  · simp [LinearOp.stored, h 0 (.inl rfl), h 1 (.inl rfl)]

theorem i8mmDirectJob_stored (hk : 16 ∣ op.k) {job : ℕ}
    (h : job < (op.tokens + 1) / 2 * (op.o / 4)) :
    i8mmDirectJob op (activationRows x op.tokens op.k buffer) job =
      (i8mmDirectKeys op job).map (op.stored x) := by
  have hpair : job / (op.o / 4) < (op.tokens + 1) / 2 :=
    Nat.div_lt_of_lt_mul (by rwa [Nat.mul_comm])
  rw [i8mmDirectJob, i8mmDirectKeys, List.map_flatMap]
  refine List.flatMap_congr fun rowPair hrowPair => tileStores_stored fun lane hlane => ?_
  rw [i8mmDirectSums_eq hk ⟨_, rfl⟩ (List.mem_range.mp hrowPair) lane hlane,
    rowSum_activationRows]
  omega

lemma panelStores_stored (hk : 8 ∣ op.k) {panel : ℕ → Int8} {row0 : ℕ}
    (hlow : ∀ a < 4 * op.k, panel a = panelWeight op row0 0 a)
    (hhigh : ∀ a, 4 * op.k ≤ a → a < 8 * op.k → panel a = panelWeight op (row0 + 4) (4 * op.k) a) :
    panelStores op (activationPanel x op.tokens op.k buffer) panel row0 =
      (panelKeys op row0).map (op.stored x) := by
  rw [panelStores, panelKeys, List.map_flatMap]
  refine List.flatMap_congr fun token0 htoken0 => ?_
  obtain ⟨hlt, h8⟩ := (mem_stepRange (by decide)).mp htoken0
  rw [List.map_flatMap]
  refine List.flatMap_congr fun pair hpair => ?_
  have hpair4 := List.mem_range.mp ((List.takeWhile_prefix _).subset hpair)
  have htoken : token0 + 2 * pair < op.tokens := by simpa using List.mem_takeWhile_imp hpair
  rw [List.map_flatMap]
  refine List.flatMap_congr fun rowPair hrowPair => tileStores_stored fun lane hlane => ?_
  rw [panelSums_eq x hk h8 hlt hpair4 (List.mem_range.mp hrowPair) hlow hhigh lane,
    rowDot_paddedRow]
  omega

theorem i8mmPanelJob_stored (hk : 16 ∣ op.k) (scratch : ℕ → Int8) (ot : ℕ) :
    i8mmPanelJob op (activationPanel x op.tokens op.k buffer) scratch ot =
      (i8mmPanelKeys op ot).map (op.stored x) := by
  have hk8 : 8 ∣ op.k := Dvd.dvd.trans (by decide) hk
  -- whatever the panel held, both halves are expanded before they are read
  have hgroup : ∀ group, 2 ∣ group → ∀ panel : ℕ → Int8,
      panelStores op (activationPanel x op.tokens op.k buffer)
        (expandFourRows op (ot * 16 + group * 4 + 4) (4 * op.k)
          (expandFourRows op (ot * 16 + group * 4) 0 panel)) (ot * 16 + group * 4) =
      (panelKeys op (ot * 16 + group * 4)).map (op.stored x) := by
    intro group _ panel
    refine panelStores_stored hk8 (fun a ha => ?_) (fun a hle hlt => ?_)
    · rw [expandFourRows_of_not_mem hk _ (by omega), expandFourRows_of_mem hk (by omega) _
        (by omega)]
    · rw [expandFourRows_of_mem hk (by omega) _ (by omega)]
  have hsteps : stepRange 4 2 = [0, 2] := rfl
  rw [i8mmPanelJob, i8mmPanelKeys, hsteps]
  simp only [List.foldl_cons, List.foldl_nil, List.nil_append, hgroup 0 (by decide),
    hgroup 2 (by decide), List.flatMap_cons, List.flatMap_nil, List.append_nil, List.map_append]

end Stored

/-! ## The keys of all jobs are all outputs -/

/-- The jobs `0, …, jobs - 1` cover every output, and no output twice. -/
structure Tiling (op : LinearOp) (jobs : ℕ) (keys : ℕ → List (ℕ × ℕ)) : Prop where
  nodup : ((List.range jobs).flatMap keys).Nodup
  mem : ∀ token o, (token, o) ∈ (List.range jobs).flatMap keys ↔ token < op.tokens ∧ o < op.o

variable {op}

theorem tiling_scalar : Tiling op (op.tokens * op.o) (scalarKeys op) where
  nodup := by
    refine nodup_flatMap_of_owner (fun key => op.o * key.1 + key.2) List.nodup_range
      (fun _ _ => List.nodup_singleton _) fun index _ key hkey => ?_
    rw [List.mem_singleton.mp hkey]
    exact Nat.div_add_mod index op.o
  mem token o := by
    simp only [List.mem_flatMap, List.mem_range, scalarKeys, List.mem_singleton, Prod.mk.injEq]
    constructor
    · rintro ⟨index, hindex, rfl, rfl⟩
      have hpos : 0 < op.o := Nat.pos_of_ne_zero fun h0 => by simp [h0] at hindex
      exact ⟨div_lt_tokens hindex, Nat.mod_lt _ hpos⟩
    · rintro ⟨htoken, ho⟩
      refine ⟨token * op.o + o, ?_, ?_, ?_⟩
      · calc token * op.o + o < (token + 1) * op.o := by rw [Nat.add_one_mul]; omega
          _ ≤ op.tokens * op.o := Nat.mul_le_mul_right _ htoken
      · rw [Nat.mul_comm, Nat.mul_add_div (by omega), Nat.div_eq_of_lt ho, Nat.add_zero]
      · rw [Nat.mul_comm, Nat.mul_add_mod, Nat.mod_eq_of_lt ho]

/-- Job numbers are pairs of a row and a column of a grid with `n` columns. -/
lemma exists_job {m n a b : ℕ} (ha : a < m) (hb : b < n) :
    ∃ job < m * n, job / n = a ∧ job % n = b := by
  refine ⟨n * a + b, ?_, ?_, ?_⟩
  · calc n * a + b < (a + 1) * n := by rw [Nat.add_one_mul, Nat.mul_comm a]; omega
      _ ≤ m * n := Nat.mul_le_mul_right _ ha
  · rw [Nat.mul_add_div (by omega), Nat.div_eq_of_lt hb, Nat.add_zero]
  · rw [Nat.mul_add_mod, Nat.mod_eq_of_lt hb]

theorem tiling_dotprod (ho : 16 ∣ op.o) : Tiling op (op.tokens * (op.o / 16)) (dotprodKeys op) where
  nodup := by
    refine nodup_flatMap_of_owner (fun key => op.o / 16 * key.1 + key.2 / 16) List.nodup_range
      (fun job _ => List.nodup_range.map fun a b hab => by simpa using hab) fun job _ key hkey => ?_
    obtain ⟨row, hrow, rfl⟩ := List.mem_map.mp hkey
    have hrow16 := List.mem_range.mp hrow
    have htile : (job % (op.o / 16) * 16 + row) / 16 = job % (op.o / 16) := by omega
    dsimp only
    rw [htile, Nat.div_add_mod]
  mem token o := by
    simp only [List.mem_flatMap, List.mem_range, dotprodKeys, List.mem_map, Prod.mk.injEq]
    constructor
    · rintro ⟨job, hjob, row, hrow, rfl, rfl⟩
      have hpos : 0 < op.o / 16 := Nat.pos_of_ne_zero fun h0 => by simp [h0] at hjob
      have hmod := Nat.mod_lt job hpos
      exact ⟨div_lt_tokens hjob, by omega⟩
    · rintro ⟨htoken, hlt⟩
      obtain ⟨job, hjob, hdiv, hmod⟩ := exists_job htoken (show o / 16 < op.o / 16 by omega)
      exact ⟨job, hjob, o % 16, by omega, hdiv, by rw [hmod]; omega⟩

lemma mem_tileKeys {token row t o : ℕ} :
    (t, o) ∈ tileKeys op token row ↔
      (t = token ∨ t = token + 1 ∧ token + 1 < op.tokens) ∧ (o = row ∨ o = row + 1) := by
  unfold tileKeys
  split_ifs with h
  · simp only [List.cons_append, List.nil_append, List.mem_cons, Prod.mk.injEq, List.not_mem_nil,
      or_false]
    omega
  · simp only [List.append_nil, List.mem_cons, Prod.mk.injEq, List.not_mem_nil, or_false]
    omega

lemma nodup_tileKeys (token row : ℕ) : (tileKeys op token row).Nodup := by
  unfold tileKeys
  split_ifs <;> simp

theorem tiling_i8mmDirect (ho : 4 ∣ op.o) :
    Tiling op ((op.tokens + 1) / 2 * (op.o / 4)) (i8mmDirectKeys op) where
  nodup := by
    refine nodup_flatMap_of_owner (fun key => op.o / 4 * (key.1 / 2) + key.2 / 4)
      List.nodup_range (fun job _ => ?_) fun job _ key hkey => ?_
    · refine nodup_flatMap_of_owner (fun key => key.2 % 4 / 2) List.nodup_range
        (fun _ _ => nodup_tileKeys _ _) fun rowPair hrowPair key hkey => ?_
      have hlt := List.mem_range.mp hrowPair
      have hrow := (mem_tileKeys.mp hkey).2
      omega
    · obtain ⟨rowPair, hrowPair, hkey⟩ := List.mem_flatMap.mp hkey
      have hlt := List.mem_range.mp hrowPair
      obtain ⟨htoken, hrow⟩ := mem_tileKeys.mp hkey
      have hpair : key.1 / 2 = job / (op.o / 4) := by omega
      have hgroup : key.2 / 4 = job % (op.o / 4) := by omega
      rw [hpair, hgroup, Nat.div_add_mod]
  mem token o := by
    simp only [List.mem_flatMap, List.mem_range, i8mmDirectKeys, mem_tileKeys]
    constructor
    · rintro ⟨job, hjob, rowPair, hrowPair, htoken, hrow⟩
      have hpos : 0 < op.o / 4 := Nat.pos_of_ne_zero fun h0 => by simp [h0] at hjob
      have hmod := Nat.mod_lt job hpos
      have hdiv : job / (op.o / 4) < (op.tokens + 1) / 2 :=
        Nat.div_lt_of_lt_mul (by rwa [Nat.mul_comm])
      omega
    · rintro ⟨htoken, hlt⟩
      obtain ⟨job, hjob, hdiv, hmod⟩ := exists_job
        (show token / 2 < (op.tokens + 1) / 2 by omega) (show o / 4 < op.o / 4 by omega)
      refine ⟨job, hjob, o % 4 / 2, by omega, ?_, ?_⟩
      · rw [hdiv]; omega
      · rw [hmod]; omega

lemma mem_pairs {token0 pair : ℕ} :
    pair ∈ (List.range 4).takeWhile (fun pair => decide (token0 + 2 * pair < op.tokens)) ↔
      pair < 4 ∧ token0 + 2 * pair < op.tokens := by
  rw [mem_takeWhile_range fun i j hij hj => by
    simp only [decide_eq_true_eq] at hj ⊢
    omega]
  simp

lemma mem_panelKeys {row0 t o : ℕ} :
    (t, o) ∈ panelKeys op row0 ↔ t < op.tokens ∧ row0 ≤ o ∧ o < row0 + 8 := by
  simp only [panelKeys, List.mem_flatMap, mem_stepRange (show 0 < 8 by decide), mem_pairs,
    List.mem_range, mem_tileKeys]
  constructor
  · rintro ⟨token0, ⟨hlt, h8⟩, pair, ⟨hpair, htoken⟩, rowPair, hrowPair, hkey⟩
    omega
  · rintro ⟨ht, hle, hlt⟩
    exact ⟨t / 8 * 8, by omega, t % 8 / 2, by omega, (o - row0) / 2, by omega, by omega⟩

lemma nodup_panelKeys (row0 : ℕ) : (panelKeys op row0).Nodup := by
  refine nodup_flatMap_of_owner (fun key => key.1 / 8 * 8) (nodup_stepRange (by decide))
    (fun token0 _ => ?_) fun token0 htoken0 key hkey => ?_
  · refine nodup_flatMap_of_owner (fun key => (key.1 - token0) / 2)
      (List.nodup_range.sublist (List.takeWhile_sublist _)) (fun pair _ => ?_)
      fun pair _ key hkey => ?_
    · refine nodup_flatMap_of_owner (fun key => (key.2 - row0) / 2) List.nodup_range
        (fun _ _ => nodup_tileKeys _ _) fun rowPair _ key hkey => ?_
      have hrow := (mem_tileKeys.mp hkey).2
      omega
    · obtain ⟨rowPair, -, hkey⟩ := List.mem_flatMap.mp hkey
      have htoken := (mem_tileKeys.mp hkey).1
      omega
  · have h8 := ((mem_stepRange (by decide)).mp htoken0).2
    obtain ⟨pair, hpair, hkey⟩ := List.mem_flatMap.mp hkey
    obtain ⟨rowPair, -, hkey⟩ := List.mem_flatMap.mp hkey
    have hlt := (mem_pairs.mp hpair).1
    have htoken := (mem_tileKeys.mp hkey).1
    omega

theorem tiling_i8mmPanel (ho : 16 ∣ op.o) : Tiling op (op.o / 16) (i8mmPanelKeys op) where
  nodup := by
    refine nodup_flatMap_of_owner (fun key => key.2 / 16) List.nodup_range (fun ot _ => ?_)
      fun ot _ key hkey => ?_
    · refine nodup_flatMap_of_owner (fun key => key.2 % 16 / 8 * 2) (nodup_stepRange (by decide))
        (fun _ _ => nodup_panelKeys _) fun group hgroup key hkey => ?_
      have hlt := (mem_stepRange (by decide)).mp hgroup
      have hrow := (mem_panelKeys.mp hkey).2
      omega
    · obtain ⟨group, hgroup, hkey⟩ := List.mem_flatMap.mp hkey
      have hlt := (mem_stepRange (by decide)).mp hgroup
      have hrow := (mem_panelKeys.mp hkey).2
      omega
  mem token o := by
    simp only [List.mem_flatMap, List.mem_range, i8mmPanelKeys,
      mem_stepRange (show 0 < 2 by decide), mem_panelKeys]
    constructor
    · rintro ⟨ot, hot, group, ⟨hgroup, h2⟩, htoken, hrow⟩
      omega
    · rintro ⟨htoken, hlt⟩
      exact ⟨o / 16, by omega, o % 16 / 8 * 2, by omega, htoken, by omega⟩

end IFairy
