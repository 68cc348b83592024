import IFairy.Framework.Phases
import IFairy.Framework.Spans
import IFairy.Lut.MulMat

/-!
# The workers of the LUT path

`ggml_legacy_ifairy_cpu_compute_mul_mat` between its barriers: the workers quantise the columns of
the activations, fill the tables and the scales, and multiply their shares of the weight tiles.
Each cell of the shared memory is one store of one worker, with the value that a single worker
would store, no store reads a cell of its own phase, and the cells are apart in the workspace; the
outcome is that of one worker, in whatever way `nth` workers interleave (`workers_as_one`).
-/

namespace IFairy

/-! ## The shared memory -/

/-- What the workers store: a quantised column, a scale, the tables of a group, an output. -/
inductive LutCell
  | quant (col : ℕ)
  | scale (col i : ℕ)
  | table (col g : ℕ)
  | dst (col row : ℕ)
deriving DecidableEq

/-- What a cell holds. -/
abbrev LutCell.Value : LutCell → Type
  | .quant _ => ℕ → BlockIfairyQ16
  | .scale _ _ => ℚ
  | .table _ _ => GroupTables
  | .dst _ _ => Cplx

def LutCell.col : LutCell → ℕ
  | .quant col | .scale col _ | .table col _ | .dst col _ => col

abbrev LutMemory : Type := ∀ cell : LutCell, cell.Value

abbrev LutStore : Type := Store LutCell LutCell.Value

/-- The activations of a node: `F32` rows, or columns that are quantised already. -/
inductive LutActivations
  | f32 (rows : ℕ → ℕ → UInt32)
  | q16 (cols : ℕ → ℕ → BlockIfairyQ16)

/-- A node of the LUT path: its shape, its packed weights, and the quantiser of the activations,
`quantize_row_ifairy_q16_tensor` or `quantize_row_ifairy_q16_lut_c`. -/
structure LutNode where
  isa : LutIsa
  m : ℕ
  blocks : ℕ
  n : ℕ
  wtiles : ℕ → LutWtile16
  x : LutActivations
  quantizeRow : (ℕ → UInt32) → ℕ → BlockIfairyQ16

namespace LutNode

variable (p : LutNode)

/-- The activations the tables are made from. -/
def act (mem : LutMemory) (col : ℕ) : ℕ → BlockIfairyQ16 :=
  match p.x with
  | .f32 _ => mem (.quant col)
  | .q16 cols => cols col

def lutCol (mem : LutMemory) (col : ℕ) : ℕ → Int8 := fun a =>
  (mem (.table col (a / 64))).byte ⟨a % 64, Nat.mod_lt a (by decide)⟩

def scales (mem : LutMemory) (col : ℕ) : ℕ → ℚ := fun i => mem (.scale col i)

/-! ## The phases -/

/-- The columns that worker `ith` quantises. -/
def quantize (nth ith : ℕ) : List LutStore :=
  match p.x with
  | .f32 rows =>
    (fromRange ith p.n nth).map fun col => ⟨.quant col, fun _ => p.quantizeRow (rows col)⟩
  | .q16 _ => []

/-- `ggml_ifairy_lut_preprocess_lut16_one`: the scales of a column. -/
def columnScales (col : ℕ) : List LutStore :=
  (List.range p.blocks).flatMap fun blk =>
    [⟨.scale col (blk * 2 + 0), fun mem => halfToRat (p.act mem col blk).dReal⟩,
      ⟨.scale col (blk * 2 + 1), fun mem => halfToRat (p.act mem col blk).dImag⟩]

def groupStore (col g : ℕ) : LutStore :=
  ⟨.table col g, fun mem => groupTables p.isa (p.act mem col) 128 g⟩

/-- `ggml_ifairy_lut_preprocess_lut16_one`. -/
def preprocessOne (g0 gstep col : ℕ) : List LutStore :=
  (if g0 = 0 then p.columnScales col else []) ++
    (fromRange g0 (p.blocks * 128) gstep).map (p.groupStore col)

/-- `ggml_ifairy_lut_preprocess_lut16`. -/
def preprocess (nth ith : ℕ) : List LutStore :=
  let nth := max nth 1
  if nth ≤ ith then []
  else if nth ≤ p.n then (fromRange ith p.n nth).flatMap (p.preprocessOne 0 1)
  else (fromRange 0 p.n 1).flatMap (p.preprocessOne ith nth)

/-- The first tile of worker `ith`. -/
def tile0 (nth ith : ℕ) : ℕ := (p.m + 15) / 16 * ith / nth

/-- The rows of worker `ith`. -/
def rows (nth ith : ℕ) : ℕ := min (p.tile0 nth (ith + 1) * 16) p.m - p.tile0 nth ith * 16

/-- One output of the call of `ggml_ifairy_lut_qgemm_lut16` on `rows` rows from tile `tile0` on. -/
def dstStore (tile0 rows col r : ℕ) : LutStore :=
  ⟨.dst col (tile0 * 16 + r), fun mem =>
    qgemmLut16One p.isa p.blocks rows (fun i => p.wtiles (tile0 * p.blocks + i)) (lutCol mem col)
      (scales mem col) false (fun r => mem (.dst col (tile0 * 16 + r))) r⟩

/-- The outputs that worker `ith` stores. -/
def multiply (nth ith : ℕ) : List LutStore :=
  (List.range p.n).flatMap fun col =>
    (List.range (p.rows nth ith)).map (p.dstStore (p.tile0 nth ith) (p.rows nth ith) col)

/-- `ggml_legacy_ifairy_cpu_compute_mul_mat`, cut at its barriers. -/
def phases (nth : ℕ) : List (Phase LutCell LutCell.Value) :=
  [p.quantize nth, p.preprocess nth, p.multiply nth]

/-! ## Each phase is shared -/

variable {p} {nth : ℕ}

lemma quantize_shares (hnth : 0 < nth) :
    Phase.Shares (p.quantize nth) (p.quantize 1) nth := by
  cases hx : p.x with
  | q16 cols =>
    have hnil : ∀ nth ith, p.quantize nth ith = [] := fun nth ith => by rw [quantize, hx]
    refine ⟨?_, ?_, ?_⟩
    · simp [Phase.all, hnil]
    · simp [hnil]
    · simp [hnil]
  | f32 rows =>
    have hmap : ∀ nth ith, p.quantize nth ith = (fromRange ith p.n nth).map fun col =>
        ⟨.quant col, fun _ => p.quantizeRow (rows col)⟩ := fun nth ith => by rw [quantize, hx]
    refine ⟨?_, ?_, ?_⟩
    · rw [Phase.all, List.flatMap_congr fun t _ => hmap nth t, ← List.map_flatMap, hmap,
        fromRange_one]
      exact (strided_perm hnth p.n).map _
    · rw [hmap, List.map_map]
      exact (nodup_fromRange Nat.one_pos).map fun _ _ h => LutCell.quant.inj h
    · intro s hs mem mem' _
      rw [hmap] at hs
      obtain ⟨col, -, rfl⟩ := List.mem_map.1 hs
      rfl

lemma target_preprocess {ith : ℕ} {s : LutStore} (hs : s ∈ p.preprocess nth ith) :
    (∃ col i, s.target = .scale col i) ∨ ∃ col g, s.target = .table col g := by
  have hone : ∀ {g0 gstep col}, s ∈ p.preprocessOne g0 gstep col →
      (∃ col i, s.target = .scale col i) ∨ ∃ col g, s.target = .table col g := by
    intro g0 gstep col hs
    rcases List.mem_append.1 hs with hs | hs
    · split_ifs at hs
      · obtain ⟨blk, -, hs⟩ := List.mem_flatMap.1 hs
        rcases List.mem_pair.1 hs with rfl | rfl <;> exact .inl ⟨_, _, rfl⟩
      · cases hs
    · obtain ⟨g, -, rfl⟩ := List.mem_map.1 hs
      exact .inr ⟨_, _, rfl⟩
  simp only [preprocess] at hs
  split_ifs at hs
  · cases hs
  · obtain ⟨col, -, hs⟩ := List.mem_flatMap.1 hs
    exact hone hs
  · obtain ⟨col, -, hs⟩ := List.mem_flatMap.1 hs
    exact hone hs

lemma preprocess_one (hn : 0 < p.n) :
    p.preprocess 1 0 = (List.range p.n).flatMap (p.preprocessOne 0 1) := by
  have hmax : max 1 1 = 1 := rfl
  simp only [preprocess, hmax, if_neg (Nat.not_le.2 Nat.one_pos), if_pos (Nat.succ_le_of_lt hn),
    fromRange_one]

lemma preprocessOne_perm (hnth : 0 < nth) (col : ℕ) :
    ((List.range nth).flatMap fun t => p.preprocessOne t nth col).Perm
      (p.preprocessOne 0 1 col) := by
  have hscales : ((List.range nth).flatMap fun t => if t = 0 then p.columnScales col else []) =
      p.columnScales col := by
    obtain ⟨k, rfl⟩ := Nat.exists_eq_succ_of_ne_zero hnth.ne'
    rw [List.range_succ_eq_map, List.flatMap_cons, if_pos rfl, List.flatMap_map]
    simp
  have htables : ((List.range nth).flatMap fun t =>
      (fromRange t (p.blocks * 128) nth).map (p.groupStore col)).Perm
        ((fromRange 0 (p.blocks * 128) 1).map (p.groupStore col)) := by
    rw [← List.map_flatMap, fromRange_one]
    exact (strided_perm hnth _).map _
  refine (List.flatMap_append_perm _ _ _).symm.trans ?_
  rw [hscales]
  exact htables.append_left _

lemma preprocess_perm (hnth : 0 < nth) (hn : 0 < p.n) :
    (Phase.all (p.preprocess nth) nth).Perm (p.preprocess 1 0) := by
  have hmax : max nth 1 = nth := max_eq_left hnth
  rw [preprocess_one hn, Phase.all]
  by_cases hshard : nth ≤ p.n
  · have hworker : (List.range nth).flatMap (p.preprocess nth) = (List.range nth).flatMap fun t =>
        (fromRange t p.n nth).flatMap (p.preprocessOne 0 1) := by
      refine List.flatMap_congr fun t ht => ?_
      simp only [preprocess, hmax, if_neg (not_le.2 (List.mem_range.1 ht)), if_pos hshard]
    rw [hworker]
    exact strided_flatMap_perm hnth p.n _
  · have hworker : (List.range nth).flatMap (p.preprocess nth) = (List.range nth).flatMap fun t =>
        (List.range p.n).flatMap (p.preprocessOne t nth) := by
      refine List.flatMap_congr fun t ht => ?_
      simp only [preprocess, hmax, if_neg (not_le.2 (List.mem_range.1 ht)), if_neg hshard,
        fromRange_one]
    rw [hworker]
    refine (flatMap_flatMap_perm _ _ fun t col => p.preprocessOne t nth col).trans ?_
    exact List.Perm.flatMap_left _ fun col _ => preprocessOne_perm hnth col

lemma mem_map_target_preprocessOne {col : ℕ} {cell : LutCell} :
    cell ∈ (p.preprocessOne 0 1 col).map Store.target ↔
      (∃ i < p.blocks * 2, cell = .scale col i) ∨ ∃ g < p.blocks * 128, cell = .table col g := by
  simp only [preprocessOne, if_pos, columnScales, fromRange_one, groupStore, List.map_append,
    List.mem_append, List.mem_map, List.mem_flatMap, List.mem_range, List.mem_cons,
    List.not_mem_nil, or_false]
  constructor
  · rintro (⟨s, ⟨blk, hblk, rfl | rfl⟩, rfl⟩ | ⟨s, ⟨g, hg, rfl⟩, rfl⟩)
    · exact .inl ⟨blk * 2 + 0, by omega, rfl⟩
    · exact .inl ⟨blk * 2 + 1, by omega, rfl⟩
    · exact .inr ⟨g, hg, rfl⟩
  · rintro (⟨i, hi, rfl⟩ | ⟨g, hg, rfl⟩)
    · refine .inl ?_
      rcases Nat.mod_two_eq_zero_or_one i with hmod | hmod
      · exact ⟨_, ⟨i / 2, by omega, .inl rfl⟩, congrArg (LutCell.scale col) (by omega)⟩
      · exact ⟨_, ⟨i / 2, by omega, .inr rfl⟩, congrArg (LutCell.scale col) (by omega)⟩
    · exact .inr ⟨_, ⟨g, hg, rfl⟩, rfl⟩

lemma nodup_map_target_preprocessOne (col : ℕ) :
    ((p.preprocessOne 0 1 col).map Store.target).Nodup := by
  have hscales : (p.columnScales col).map Store.target =
      (List.range p.blocks).flatMap fun blk =>
        [.scale col (blk * 2 + 0), .scale col (blk * 2 + 1)] := by
    simp [columnScales, List.map_flatMap]
  rw [preprocessOne, if_pos rfl, List.map_append, List.map_map, hscales, List.nodup_append]
  refine ⟨?_, (nodup_fromRange Nat.one_pos).map fun _ _ h => (LutCell.table.inj h).2, ?_⟩
  · refine nodup_flatMap_of_owner (fun cell => match cell with
      | .scale _ i => i / 2
      | _ => 0) List.nodup_range (fun blk _ => by simp) fun blk _ cell hcell => ?_
    rcases List.mem_pair.1 hcell with rfl | rfl
    · exact Nat.mul_div_cancel blk Nat.two_pos
    · exact (mul_add_div_mod (r := 1) Nat.one_lt_two).1
  · intro cell hcell cell' hcell' heq
    obtain ⟨blk, -, hblk⟩ := List.mem_flatMap.1 hcell
    obtain ⟨g, -, rfl⟩ := List.mem_map.1 hcell'
    subst heq
    simp [groupStore] at hblk

lemma preprocess_shares (hnth : 0 < nth) (hn : 0 < p.n) :
    Phase.Shares (p.preprocess nth) (p.preprocess 1) nth where
  perm := preprocess_perm hnth hn
  nodup := by
    rw [preprocess_one hn, List.map_flatMap]
    refine nodup_flatMap_of_owner LutCell.col List.nodup_range
      (fun col _ => nodup_map_target_preprocessOne col) fun col _ cell hcell => ?_
    rcases mem_map_target_preprocessOne.1 hcell with ⟨i, -, rfl⟩ | ⟨g, -, rfl⟩ <;> rfl
  reads := by
    intro s hs mem mem' hsame
    have hquant : ∀ col, mem (.quant col) = mem' (.quant col) := by
      intro col
      refine hsame _ fun hcol => ?_
      rw [targets, preprocess_one hn, List.map_flatMap] at hcol
      obtain ⟨col', -, hcol'⟩ := List.mem_flatMap.1 hcol
      rcases mem_map_target_preprocessOne.1 hcol' with ⟨i, -, hi⟩ | ⟨g, -, hg⟩
      · cases hi
      · cases hg
    have hact : p.act mem = p.act mem' := by
      funext col
      unfold act
      split
      · exact hquant col
      · rfl
    rw [preprocess_one hn] at hs
    obtain ⟨col, -, hs⟩ := List.mem_flatMap.1 hs
    simp only [preprocessOne, if_pos, columnScales, List.mem_append, List.mem_flatMap,
      List.mem_map, List.mem_cons, List.not_mem_nil, or_false] at hs
    rcases hs with ⟨blk, -, rfl | rfl⟩ | ⟨g, -, rfl⟩
    · simp only [hact]
    · simp only [hact]
    · simp only [groupStore, hact]

/-! ## The tiles -/

/-- An output, by what it gains from the tables and scales of its column. -/
def rowStore (p : LutNode) (col row : ℕ) : LutStore :=
  ⟨.dst col row, fun mem =>
    laneValue p.blocks p.wtiles (lutCol mem col) (scales mem col) (row / 16) (row % 16)⟩

lemma dstStore_eq {tile0 rows r : ℕ} (hr : r < rows) (col : ℕ) :
    p.dstStore tile0 rows col r = p.rowStore col (tile0 * 16 + r) := by
  have hdiv : (tile0 * 16 + r) / 16 = tile0 + r / 16 := by omega
  have hmod : (tile0 * 16 + r) % 16 = r % 16 := by omega
  rw [dstStore, rowStore]
  congr 1
  funext mem
  rw [qgemmLut16One_apply, if_pos hr, if_neg (by decide), Cplx.zero_plus, hdiv, hmod]
  simp only [laneValue, Nat.add_mul, Nat.add_assoc]

/-- The rows of a worker, as it walks them. -/
def rowList (p : LutNode) (nth ith : ℕ) : List ℕ :=
  (List.range (p.rows nth ith)).map (p.tile0 nth ith * 16 + ·)

lemma multiply_eq (nth ith : ℕ) :
    p.multiply nth ith = (List.range p.n).flatMap fun col =>
      (p.rowList nth ith).map (p.rowStore col) := by
  rw [multiply]
  refine List.flatMap_congr fun col _ => ?_
  rw [rowList, List.map_map]
  exact List.map_congr_left fun r hr => dstStore_eq (List.mem_range.1 hr) col

lemma mem_rowList {ith row : ℕ} :
    row ∈ p.rowList nth ith ↔ p.tile0 nth ith * 16 ≤ row ∧
      row < min (p.tile0 nth (ith + 1) * 16) p.m := by
  simp only [rowList, rows, List.mem_map, List.mem_range]
  constructor
  · rintro ⟨r, hr, rfl⟩
    omega
  · rintro ⟨hle, hlt⟩
    exact ⟨row - p.tile0 nth ith * 16, by omega, by omega⟩

lemma rowList_one : p.rowList 1 0 = List.range p.m := by
  have hstart : p.tile0 1 0 = 0 := by simp [tile0]
  have hrows : p.rows 1 0 = p.m := by
    rw [rows, hstart, tile0, Nat.div_one, Nat.zero_add, Nat.mul_one]
    omega
  simp [rowList, hstart, hrows]

lemma rowList_perm (hnth : 0 < nth) :
    ((List.range nth).flatMap (p.rowList nth)).Perm (List.range p.m) := by
  let bound := fun t => min (p.tile0 nth t * 16) p.m
  have hmono : Monotone bound := fun t u h =>
    min_le_min_right _ (Nat.mul_le_mul_right _ (Nat.div_le_div_right (Nat.mul_le_mul_left _ h)))
  have hzero : bound 0 = 0 := by simp [bound, tile0]
  have hlast : bound nth = p.m := by
    simp only [bound, tile0, Nat.mul_div_cancel _ hnth]
    omega
  have hlower : ∀ {t row}, row ∈ p.rowList nth t → bound t ≤ row := fun h =>
    (min_le_left _ _).trans (mem_rowList.1 h).1
  refine flatMap_perm_of_owner List.nodup_range ?_ ?_ ?_
  · exact fun t _ => List.nodup_range.map fun _ _ h => Nat.add_left_cancel h
  · intro t _ u _ row ht hu
    exact range_unique hmono (hlower ht) (mem_rowList.1 ht).2 (hlower hu) (mem_rowList.1 hu).2
  · intro row
    rw [List.mem_range]
    constructor
    · intro hrow
      obtain ⟨t, ht, hle, hlt⟩ := exists_range_of_lt hzero (hlast.symm ▸ hrow)
      refine ⟨t, ht, mem_rowList.2 ⟨?_, hlt⟩⟩
      rcases min_le_iff.1 hle with h | h
      · exact h
      · omega
    · rintro ⟨t, -, ht⟩
      exact lt_of_lt_of_le (mem_rowList.1 ht).2 (min_le_right _ _)

lemma multiply_shares (hnth : 0 < nth) :
    Phase.Shares (p.multiply nth) (p.multiply 1) nth where
  perm := by
    rw [Phase.all, List.flatMap_congr fun t _ => multiply_eq nth t, multiply_eq, rowList_one]
    refine (flatMap_flatMap_perm _ _ fun t col => (p.rowList nth t).map (p.rowStore col)).trans ?_
    refine List.Perm.flatMap_left _ fun col _ => ?_
    rw [← List.map_flatMap]
    exact (rowList_perm hnth).map _
  nodup := by
    rw [multiply_eq, rowList_one, List.map_flatMap]
    refine nodup_flatMap_of_owner LutCell.col List.nodup_range (fun col _ => ?_) ?_
    · rw [List.map_map]
      exact List.nodup_range.map fun _ _ h => (LutCell.dst.inj h).2
    · intro col _ cell hcell
      obtain ⟨s, hs, rfl⟩ := List.mem_map.1 hcell
      obtain ⟨row, -, rfl⟩ := List.mem_map.1 hs
      rfl
  reads := by
    intro s hs mem mem' hsame
    have houtside : ∀ cell, (∀ col row, cell ≠ .dst col row) → mem cell = mem' cell := by
      intro cell hcell
      refine hsame _ fun hmem => ?_
      rw [targets, multiply_eq, List.map_flatMap] at hmem
      obtain ⟨col, -, hcol⟩ := List.mem_flatMap.1 hmem
      obtain ⟨s, hs, rfl⟩ := List.mem_map.1 hcol
      obtain ⟨row, -, rfl⟩ := List.mem_map.1 hs
      exact hcell col row rfl
    rw [multiply_eq] at hs
    obtain ⟨col, -, hs⟩ := List.mem_flatMap.1 hs
    obtain ⟨row, -, rfl⟩ := List.mem_map.1 hs
    have hlut : lutCol mem col = lutCol mem' col := funext fun a => by
      simp only [lutCol, houtside (.table col (a / 64)) fun _ _ => LutCell.noConfusion]
    have hscales : scales mem col = scales mem' col := funext fun i =>
      houtside (.scale col i) fun _ _ => LutCell.noConfusion
    simp only [rowStore, hlut, hscales]

/-! ## Every cell once -/

/-- All stores of `nth` workers. -/
def stores (p : LutNode) (nth : ℕ) : List LutStore := (p.phases nth).flatMap fun ph => ph.all nth

def IsCell (p : LutNode) : LutCell → Prop
  | .quant col => col < p.n ∧ ∃ rows, p.x = .f32 rows
  | .scale col i => col < p.n ∧ i < p.blocks * 2
  | .table col g => col < p.n ∧ g < p.blocks * 128
  | .dst col row => col < p.n ∧ row < p.m

lemma phases_share (hnth : 0 < nth) (hn : 0 < p.n) :
    List.Forall₂ (fun ph single => Phase.Shares ph single nth) (p.phases nth) (p.phases 1) :=
  .cons (quantize_shares hnth) <| .cons (preprocess_shares hnth hn) <|
    .cons (multiply_shares hnth) .nil

lemma stores_one : p.stores 1 = p.quantize 1 0 ++ (p.preprocess 1 0 ++ p.multiply 1 0) := by
  simp [stores, phases, Phase.all_one]

lemma stores_perm (hnth : 0 < nth) (hn : 0 < p.n) : (p.stores nth).Perm (p.stores 1) := by
  have h := (quantize_shares (p := p) hnth).perm.append
    ((preprocess_shares hnth hn).perm.append (multiply_shares (p := p) hnth).perm)
  rw [stores_one]
  simpa [stores, phases] using h

lemma mem_map_target_quantize {cell : LutCell} :
    cell ∈ (p.quantize 1 0).map Store.target ↔ ∃ col, cell = .quant col ∧ p.IsCell cell := by
  cases hx : p.x with
  | q16 cols =>
    have hnil : p.quantize 1 0 = [] := by rw [quantize, hx]
    rw [hnil]
    constructor
    · intro h
      cases h
    · rintro ⟨col, rfl, -, rows, hrows⟩
      rw [hx] at hrows
      cases hrows
  | f32 rows =>
    have hmap : p.quantize 1 0 = (List.range p.n).map fun col =>
        ⟨.quant col, fun _ => p.quantizeRow (rows col)⟩ := by rw [quantize, hx, fromRange_one]
    rw [hmap, List.map_map, List.mem_map]
    constructor
    · rintro ⟨col, hcol, rfl⟩
      exact ⟨col, rfl, List.mem_range.1 hcol, rows, hx⟩
    · rintro ⟨col, rfl, hcol, -⟩
      exact ⟨col, List.mem_range.2 hcol, rfl⟩

lemma mem_map_target_preprocess (hn : 0 < p.n) {cell : LutCell} :
    cell ∈ (p.preprocess 1 0).map Store.target ↔
      (∃ col i, cell = .scale col i ∧ p.IsCell cell) ∨
        ∃ col g, cell = .table col g ∧ p.IsCell cell := by
  rw [preprocess_one hn, List.map_flatMap, List.mem_flatMap]
  simp only [mem_map_target_preprocessOne, List.mem_range]
  constructor
  · rintro ⟨col, hcol, ⟨i, hi, rfl⟩ | ⟨g, hg, rfl⟩⟩
    · exact .inl ⟨col, i, rfl, hcol, hi⟩
    · exact .inr ⟨col, g, rfl, hcol, hg⟩
  · rintro (⟨col, i, rfl, hcol, hi⟩ | ⟨col, g, rfl, hcol, hg⟩)
    · exact ⟨col, hcol, .inl ⟨i, hi, rfl⟩⟩
    · exact ⟨col, hcol, .inr ⟨g, hg, rfl⟩⟩

lemma mem_map_target_multiply {cell : LutCell} :
    cell ∈ (p.multiply 1 0).map Store.target ↔ ∃ col row, cell = .dst col row ∧ p.IsCell cell := by
  rw [multiply_eq, rowList_one, List.map_flatMap, List.mem_flatMap]
  simp only [List.map_map, List.mem_map, List.mem_range]
  constructor
  · rintro ⟨col, hcol, row, hrow, rfl⟩
    exact ⟨col, row, rfl, hcol, hrow⟩
  · rintro ⟨col, row, rfl, hcol, hrow⟩
    exact ⟨col, hcol, row, hrow, rfl⟩

lemma mem_map_target_stores (hnth : 0 < nth) (hn : 0 < p.n) {cell : LutCell} :
    cell ∈ (p.stores nth).map Store.target ↔ p.IsCell cell := by
  rw [((stores_perm hnth hn).map _).mem_iff, stores_one, List.map_append, List.map_append,
    List.mem_append, List.mem_append, mem_map_target_quantize, mem_map_target_preprocess hn,
    mem_map_target_multiply]
  constructor
  · rintro (⟨_, -, h⟩ | (⟨_, _, -, h⟩ | ⟨_, _, -, h⟩) | ⟨_, _, -, h⟩) <;> exact h
  · intro h
    cases cell with
    | quant col => exact .inl ⟨col, rfl, h⟩
    | scale col i => exact .inr (.inl (.inl ⟨col, i, rfl, h⟩))
    | table col g => exact .inr (.inl (.inr ⟨col, g, rfl, h⟩))
    | dst col row => exact .inr (.inr ⟨col, row, rfl, h⟩)

lemma nodup_map_target_stores (hnth : 0 < nth) (hn : 0 < p.n) :
    ((p.stores nth).map Store.target).Nodup := by
  rw [((stores_perm hnth hn).map _).nodup_iff, stores_one, List.map_append, List.map_append]
  refine (quantize_shares hnth).nodup.append
    ((preprocess_shares hnth hn).nodup.append (multiply_shares hnth).nodup ?_) ?_
  · intro cell hpre hmul
    obtain ⟨col, row, rfl, -⟩ := mem_map_target_multiply.1 hmul
    rcases (mem_map_target_preprocess hn).1 hpre with ⟨_, _, h, -⟩ | ⟨_, _, h, -⟩ <;> cases h
  · intro cell hquant hrest
    obtain ⟨col, rfl, -⟩ := mem_map_target_quantize.1 hquant
    rcases List.mem_append.1 hrest with hpre | hmul
    · rcases (mem_map_target_preprocess hn).1 hpre with ⟨_, _, h, -⟩ | ⟨_, _, h, -⟩ <;> cases h
    · obtain ⟨_, _, h, -⟩ := mem_map_target_multiply.1 hmul
      cases h

/-! ## The workspace -/

/-- `GGML_PAD(n, 64)`. -/
def pad64 (n : ℕ) : ℕ := (n + 63) / 64 * 64

lemma le_pad64 (n : ℕ) : n ≤ pad64 n := by
  unfold pad64
  omega

/-- The size of a quantised column. -/
def qStride (p : LutNode) : ℕ := p.blocks * 516

/-- The bytes of the workspace before the tables. -/
def qBytes (p : LutNode) : ℕ :=
  match p.x with
  | .f32 _ => pad64 (p.n * p.qStride)
  | .q16 _ => 0

def lutBytes (p : LutNode) : ℕ := p.n * (p.blocks * 128) * 64

def scaleBytes (p : LutNode) : ℕ := p.n * p.blocks * 2 * 4

/-- `ggml_ifairy_lut_get_wsize`. -/
def getWsize (p : LutNode) : ℕ := p.qBytes + pad64 (p.lutBytes + p.scaleBytes)

/-- Where a cell of the workspace is; the outputs are in the result tensor. -/
def span (p : LutNode) : LutCell → Option Span
  | .quant col => some ⟨col * p.qStride, p.qStride⟩
  | .table col g => some ⟨p.qBytes + col * (p.blocks * 128) * 64 + g * 64, 64⟩
  | .scale col i => some ⟨p.qBytes + p.lutBytes + (col * p.blocks * 2 + i) * 4, 4⟩
  | .dst _ _ => none

/-- The part of the workspace for the cells of one kind. -/
def region (p : LutNode) : LutCell → Span
  | .quant _ => ⟨0, p.qBytes⟩
  | .table _ _ => ⟨p.qBytes, p.lutBytes⟩
  | .scale _ _ => ⟨p.qBytes + p.lutBytes, p.scaleBytes⟩
  | .dst _ _ => ⟨p.getWsize, 0⟩

def cellSize (p : LutNode) : LutCell → ℕ
  | .quant _ => p.qStride
  | .table _ _ => 64
  | .scale _ _ => 4
  | .dst _ _ => 0

/-- The place of a cell among the cells of its kind. -/
def cellIndex (p : LutNode) : LutCell → ℕ
  | .quant col => col
  | .table col g => col * (p.blocks * 128) + g
  | .scale col i => col * (p.blocks * 2) + i
  | .dst _ _ => 0

lemma span_eq {cell : LutCell} {s : Span} (hs : p.span cell = some s) :
    s = Span.record (p.region cell).offset (p.cellSize cell) (p.cellIndex cell) := by
  cases cell with
  | quant col => rw [← Option.some.inj hs, Span.record, region, cellSize, cellIndex, Nat.zero_add]
  | table col g =>
    rw [← Option.some.inj hs, Span.record, region, cellSize, cellIndex, Nat.add_mul, Nat.add_assoc]
  | scale col i =>
    rw [← Option.some.inj hs, Span.record, region, cellSize, cellIndex, Nat.mul_assoc]
  | dst col row => cases hs

lemma span_within_region {cell : LutCell} (hcell : p.IsCell cell) {s : Span}
    (hs : p.span cell = some s) : s.Within (p.region cell) := by
  have hindex : ∀ {col size i : ℕ}, col < p.n → i < size → col * size + i < p.n * size := by
    intro col size i hcol hi
    have hle := Nat.mul_le_mul_right size (Nat.succ_le_of_lt hcol)
    rw [Nat.succ_mul] at hle
    omega
  rw [span_eq hs]
  cases cell with
  | quant col =>
    obtain ⟨hcol, rows, hx⟩ := hcell
    have hle : p.n * p.qStride ≤ p.qBytes := by
      rw [qBytes, hx]
      exact le_pad64 _
    exact fun x hx => Span.within_of_size_le hle x (Span.record_within hcol x hx)
  | table col g => exact Span.record_within (hindex hcell.1 hcell.2)
  | scale col i =>
    have hsize : p.scaleBytes = p.n * (p.blocks * 2) * 4 := by rw [scaleBytes, Nat.mul_assoc p.n]
    rw [region, hsize]
    exact Span.record_within (hindex hcell.1 hcell.2)
  | dst col row => cases hs

lemma span_within {cell : LutCell} (hcell : p.IsCell cell) {s : Span}
    (hs : p.span cell = some s) : s.Within ⟨0, p.getWsize⟩ := by
  have hpad := le_pad64 (p.lutBytes + p.scaleBytes)
  intro x hx
  obtain ⟨-, hhi⟩ := span_within_region hcell hs x hx
  refine ⟨Nat.zero_le x, ?_⟩
  cases cell <;> simp only [region, getWsize] at hhi ⊢ <;> omega

lemma span_apart {cell cell' : LutCell} (hcell : p.IsCell cell) (hcell' : p.IsCell cell')
    (hne : cell ≠ cell') {s s' : Span} (hs : p.span cell = some s) (hs' : p.span cell' = some s') :
    s.Apart s' := by
  have hregions : (p.region cell).Apart (p.region cell') → s.Apart s' := fun h =>
    h.mono (span_within_region hcell hs) (span_within_region hcell' hs')
  have hrecords : p.region cell = p.region cell' → p.cellSize cell = p.cellSize cell' →
      p.cellIndex cell ≠ p.cellIndex cell' → s.Apart s' := by
    intro hregion hsize hindex
    rw [span_eq hs, span_eq hs', ← hregion, ← hsize]
    exact Span.record_apart hindex
  cases cell <;> cases cell'
  case quant.quant => exact hrecords rfl rfl fun h => hne (congrArg _ h)
  case table.table =>
    refine hrecords rfl rfl fun h => ?_
    obtain ⟨hcol, hg⟩ := mul_add_inj hcell.2 hcell'.2 h
    exact hne (by rw [hcol, hg])
  case scale.scale =>
    refine hrecords rfl rfl fun h => ?_
    obtain ⟨hcol, hi⟩ := mul_add_inj hcell.2 hcell'.2 h
    exact hne (by rw [hcol, hi])
  case dst.quant | dst.table | dst.scale | dst.dst => cases hs
  case quant.dst | table.dst | scale.dst => cases hs'
  all_goals
    refine hregions fun x hx hx' => ?_
    obtain ⟨hlo, hhi⟩ := hx
    obtain ⟨hlo', hhi'⟩ := hx'
    simp only [region] at hlo hhi hlo' hhi'
    omega

/-! ## The path -/

/-- Any number of workers, in any interleaving, does the work of one: every quantised column,
table, scale and output is stored once, by the same store; no store reads what its phase stores;
and the cells are apart in the workspace. -/
theorem workers_as_one (p : LutNode) {nth : ℕ} (hnth : 0 < nth) (hn : 0 < p.n) :
    ((p.stores nth).map Store.target).Nodup ∧
      (∀ cell, cell ∈ (p.stores nth).map Store.target ↔ p.IsCell cell) ∧
      (p.stores nth).Perm (p.stores 1) ∧
      (∀ ph ∈ p.phases nth, ph.RaceFree nth) ∧
      (∀ mem, ∃ mem', Runs nth (p.phases nth) mem mem') ∧
      (∀ mem mem', Runs nth (p.phases nth) mem mem' → Runs 1 (p.phases 1) mem mem') ∧
      (∀ cell cell' s s', p.IsCell cell → p.IsCell cell' → cell ≠ cell' →
        p.span cell = some s → p.span cell' = some s' → s.Apart s') ∧
      ∀ cell s, p.IsCell cell → p.span cell = some s → s.Within ⟨0, p.getWsize⟩ := by
  refine ⟨nodup_map_target_stores hnth hn, fun _ => mem_map_target_stores hnth hn,
    stores_perm hnth hn, fun ph hph => ?_, exists_runs hnth _, fun mem mem' hrun => ?_,
    fun _ _ _ _ hcell hcell' hne hs hs' => span_apart hcell hcell' hne hs hs',
    fun _ _ hcell hs => span_within hcell hs⟩
  · simp only [phases, List.mem_cons, List.not_mem_nil, or_false] at hph
    rcases hph with rfl | rfl | rfl
    · exact (quantize_shares hnth).raceFree
    · exact (preprocess_shares hnth hn).raceFree
    · exact (multiply_shares hnth).raceFree
  · obtain ⟨mem₁, hrun₁⟩ := exists_runs Nat.one_pos (p.phases 1) mem
    rw [hrun.eq_of_shares hnth (phases_share hnth hn) hrun₁]
    exact hrun₁

/-- Three columns of `F32` activations and 33 rows of weights of one block. -/
def threeColumns : LutNode where
  isa := .avx2
  m := 33
  blocks := 1
  n := 3
  wtiles := fun _ => LutWtile16.zero
  x := .f32 fun _ _ => 0
  quantizeRow := fun _ _ => ⟨fun _ => 0, fun _ => 0, 0, 0⟩

/-- Five workers take the groups of a column in turn, and some of them no tile. -/
theorem threeColumns_workers_as_one :
    ((threeColumns.stores 5).map Store.target).Nodup ∧
      ∀ mem mem', Runs 5 (threeColumns.phases 5) mem mem' →
        Runs 1 (threeColumns.phases 1) mem mem' :=
  have h := workers_as_one threeColumns (show 0 < 5 by decide) (show 0 < 3 by decide)
  ⟨h.1, h.2.2.2.2.2.1⟩

end LutNode

end IFairy
