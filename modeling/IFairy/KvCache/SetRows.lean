import IFairy.Framework.ByteRecords

/-!
# Tensors in memory and `ggml_set_rows`

A tensor is a type, four extents, four strides and the place of its first element in a buffer of
bytes.  Views share the buffer.  `ggml_set_rows` writes the rows of one tensor, converted to the type
of another one, to the rows that an index tensor names; its two carrier modes write the upper halves
of the floats, row by row or element by element.  The threads of a kernel share the rows or the
elements; the writes are performed in any order.

A row of `n` elements of a type takes `ggml_row_size` bytes.  A `GGML_ASSERT` that fails is the result
`none`.
-/

namespace IFairy

/-- What `ggml_get_type_traits` and `ggml_get_type_traits_cpu` know about a type: `ggml_blck_size`,
`ggml_type_size`, and `from_float`, which converts the bits of the floats of a row. -/
structure TypeTraits where
  id : ℕ
  blckSize : ℕ
  typeSize : ℕ
  fromFloat : List UInt32 → ℕ → UInt8
  blckSize_pos : 0 < blckSize
  f32 : id = 0 → blckSize = 1 ∧ typeSize = 4
  bf16 : id = 30 → blckSize = 1 ∧ typeSize = 2

namespace TypeTraits

/-- `type == GGML_TYPE_F32`. -/
def IsF32 (t : TypeTraits) : Prop := t.id = 0

/-- `type == GGML_TYPE_BF16`. -/
def IsBf16 (t : TypeTraits) : Prop := t.id = 30

instance (t : TypeTraits) : Decidable t.IsF32 := inferInstanceAs (Decidable (_ = _))

instance (t : TypeTraits) : Decidable t.IsBf16 := inferInstanceAs (Decidable (_ = _))

/-- `ggml_row_size(type, ne)`. -/
def rowSize (t : TypeTraits) (ne : ℕ) : ℕ := t.typeSize * ne / t.blckSize

variable {t : TypeTraits} {m n : ℕ}

lemma rowSize_blocks (t : TypeTraits) (m : ℕ) : t.rowSize (t.blckSize * m) = t.typeSize * m := by
  rw [rowSize, Nat.mul_left_comm, Nat.mul_div_cancel_left _ t.blckSize_pos]

lemma rowSize_mul (h : t.blckSize ∣ n) (m : ℕ) : t.rowSize (n * m) = t.rowSize n * m := by
  obtain ⟨k, rfl⟩ := h
  rw [Nat.mul_assoc, rowSize_blocks, rowSize_blocks, Nat.mul_assoc]

lemma rowSize_of_blckSize_one (h : t.blckSize = 1) (n : ℕ) : t.rowSize n = t.typeSize * n := by
  rw [rowSize, h, Nat.div_one]

end TypeTraits

/-- `GGML_TYPE_F32`. -/
def ggmlF32 : TypeTraits where
  id := 0
  blckSize := 1
  typeSize := 4
  fromFloat row x := UInt8.ofNat ((row.getD (x / 4) 0).toNat / 256 ^ (x % 4))
  blckSize_pos := Nat.one_pos
  f32 _ := ⟨rfl, rfl⟩
  bf16 h := absurd h (of_decide_eq_false rfl)

/-- `ggml_tensor`: `ne[0..3]`, `nb[0..3]`, and `data` as an address in the buffer `buf`. -/
structure Tensor where
  type : TypeTraits
  ne0 : ℕ
  ne1 : ℕ
  ne2 : ℕ
  ne3 : ℕ
  nb0 : ℕ
  nb1 : ℕ
  nb2 : ℕ
  nb3 : ℕ
  data : ℕ
  buf : ℕ → UInt8

namespace Tensor

/-- `ggml_new_tensor_impl`: a contiguous tensor. -/
def new (type : TypeTraits) (ne0 ne1 ne2 ne3 data : ℕ) (buf : ℕ → UInt8) : Tensor where
  type := type
  ne0 := ne0
  ne1 := ne1
  ne2 := ne2
  ne3 := ne3
  nb0 := type.typeSize
  nb1 := type.typeSize * (ne0 / type.blckSize)
  nb2 := type.typeSize * (ne0 / type.blckSize) * ne1
  nb3 := type.typeSize * (ne0 / type.blckSize) * ne1 * ne2
  data := data
  buf := buf

/-- The address of an element (of a block, when the type has blocks). -/
def addr (t : Tensor) (i0 i1 i2 i3 : ℕ) : ℕ :=
  t.data + i0 * t.nb0 + i1 * t.nb1 + i2 * t.nb2 + i3 * t.nb3

/-- The indices are those of an element or block. -/
def InBounds (t : Tensor) (i0 i1 i2 i3 : ℕ) : Prop :=
  i0 < t.ne0 ∧ i1 < t.ne1 ∧ i2 < t.ne2 ∧ i3 < t.ne3

/-- `ggml_nelements`. -/
def nelements (t : Tensor) : ℕ := t.ne0 * t.ne1 * t.ne2 * t.ne3

/-- The address of element number `e` in the order of the first index. -/
def addrOf (t : Tensor) (e : ℕ) : ℕ :=
  t.addr (e % t.ne0) (e / t.ne0 % t.ne1) (e / (t.ne0 * t.ne1) % t.ne2) (e / (t.ne0 * t.ne1 * t.ne2))

/-- `ggml_is_contiguous`. -/
def IsContiguous (t : Tensor) : Prop :=
  (t.ne0 = t.type.blckSize ∨ t.nb0 = t.type.typeSize) ∧
    (t.ne1 ≠ 1 → t.nb1 = t.type.typeSize * (t.ne0 / t.type.blckSize)) ∧
    (t.ne2 ≠ 1 → t.nb2 = t.type.typeSize * (t.ne0 / t.type.blckSize) * t.ne1) ∧
    (t.ne3 ≠ 1 → t.nb3 = t.type.typeSize * (t.ne0 / t.type.blckSize) * t.ne1 * t.ne2)

instance (t : Tensor) : Decidable t.IsContiguous :=
  inferInstanceAs (Decidable (_ ∧ (_ → _) ∧ (_ → _) ∧ (_ → _)))

/-- `ggml_is_contiguous_rows`. -/
def IsContiguousRows (t : Tensor) : Prop := t.ne0 = t.type.blckSize ∨ t.nb0 = t.type.typeSize

instance (t : Tensor) : Decidable t.IsContiguousRows := inferInstanceAs (Decidable (_ ∨ _))

/-- `ggml_view_2d`. -/
def view2d (t : Tensor) (ne0 ne1 nb1 offset : ℕ) : Tensor :=
  { new t.type ne0 ne1 1 1 (t.data + offset) t.buf with nb1 := nb1, nb2 := nb1 * ne1, nb3 := nb1 * ne1 }

/-- `ggml_view_4d`. -/
def view4d (t : Tensor) (ne0 ne1 ne2 ne3 nb1 nb2 nb3 offset : ℕ) : Tensor :=
  { new t.type ne0 ne1 ne2 ne3 (t.data + offset) t.buf with nb1 := nb1, nb2 := nb2, nb3 := nb3 }

/-- `ggml_reshape_2d`. -/
def reshape2d (t : Tensor) (ne0 ne1 : ℕ) : Option Tensor :=
  if t.IsContiguous ∧ t.nelements = ne0 * ne1 then some (new t.type ne0 ne1 1 1 t.data t.buf) else none

/-- `ggml_cont_2d` of a type without blocks: a contiguous copy. -/
def cont2d (t : Tensor) (ne0 ne1 : ℕ) : Option Tensor :=
  if t.nelements = ne0 * ne1 then
    some (new t.type ne0 ne1 1 1 0 fun x =>
      t.buf (t.addrOf (x / t.type.typeSize) + x % t.type.typeSize))
  else none

/-- `ggml_pad(ctx, a, p0, 0, 0, 0)` of a matrix: rows that end with `p0` zeros. -/
def pad (t : Tensor) (p0 : ℕ) : Option Tensor :=
  if t.type.IsF32 ∧ t.nb0 = 4 then
    some (new t.type (t.ne0 + p0) t.ne1 t.ne2 t.ne3 0 fun x =>
      if x / 4 % (t.ne0 + p0) < t.ne0 then
        t.buf (t.addr (x / 4 % (t.ne0 + p0)) (x / 4 / (t.ne0 + p0) % t.ne1)
          (x / 4 / ((t.ne0 + p0) * t.ne1) % t.ne2) (x / 4 / ((t.ne0 + p0) * t.ne1 * t.ne2)) + x % 4)
      else 0)
  else none

lemma new_isContiguous (type : TypeTraits) (ne0 ne1 ne2 ne3 data : ℕ) (buf : ℕ → UInt8) :
    (new type ne0 ne1 ne2 ne3 data buf).IsContiguous :=
  ⟨.inr rfl, fun _ => rfl, fun _ => rfl, fun _ => rfl⟩

lemma reshape2d_new {type : TypeTraits} {ne0 ne1 ne2 ne3 data m n : ℕ} {buf : ℕ → UInt8}
    (h : ne0 * ne1 * ne2 * ne3 = m * n) :
    (new type ne0 ne1 ne2 ne3 data buf).reshape2d m n = some (new type m n 1 1 data buf) :=
  if_pos ⟨new_isContiguous .., h⟩

end Tensor

/-- The bits of the float at an address. -/
def f32At (buf : ℕ → UInt8) (x : ℕ) : UInt32 :=
  UInt32.ofNat ((buf x).toNat + 256 * ((buf (x + 1)).toNat + 256 * ((buf (x + 2)).toNat
    + 256 * (buf (x + 3)).toNat)))

lemma f32At_congr {buf buf' : ℕ → UInt8} {x x' : ℕ} (h : ∀ b < 4, buf (x + b) = buf' (x' + b)) :
    f32At buf x = f32At buf' x' := by
  have h0 := h 0 (of_decide_eq_true rfl)
  rw [Nat.add_zero, Nat.add_zero] at h0
  unfold f32At
  rw [h0, h 1 (of_decide_eq_true rfl), h 2 (of_decide_eq_true rfl), h 3 (of_decide_eq_true rfl)]

/-- The bytes of `ggml_bf16_carrier_payload`: the upper half of the float. -/
def carrierPayload (bits : UInt32) (b : ℕ) : UInt8 := UInt8.ofNat ((bits.toNat / 65536) / 256 ^ b)

/-- The index tensor `c`, a row of `ne0` integers. -/
structure Indices where
  ne0 : ℕ
  val : ℕ → ℤ

/-! ## The kernels -/

/-- The share of thread `ith` of `nth` in `n` rows or elements. -/
def threadRange (n nth ith : ℕ) : List ℕ :=
  let dr := (n + nth - 1) / nth
  List.range' (dr * ith) (min (dr * ith + dr) n - dr * ith)

def threadsRange (n nth : ℕ) : List ℕ := (List.range nth).flatMap (threadRange n nth)

/-- The rounds of `ggml_compute_forward_set_rows_f32` and `ggml_compute_forward_set_rows_bf16`: row,
`i02` and `i03`. -/
def setRowsJobs (b : Tensor) (nth : ℕ) : List (ℕ × ℕ × ℕ) :=
  (List.range nth).flatMap fun ith => (List.range b.ne3).flatMap fun i03 =>
    (List.range b.ne2).flatMap fun i02 => (threadRange b.ne1 nth ith).map fun i => (i, i02, i03)

def setRowsWrite (a b : Tensor) (c : Indices) (job : ℕ × ℕ × ℕ) : ByteWrite :=
  let i1 := (c.val job.1).toNat
  let src := b.data + job.1 * b.nb1 + job.2.1 * b.nb2 + job.2.2 * b.nb3
  let dst := a.data + i1 * a.nb1 + job.2.1 * a.nb2 + job.2.2 * a.nb3
  if b.type.IsF32 then
    ⟨⟨dst, a.type.rowSize b.ne0⟩,
      a.type.fromFloat ((List.range b.ne0).map fun j => f32At b.buf (src + 4 * j))⟩
  else ⟨⟨dst, b.ne0 * 2⟩, fun n => b.buf (src + n)⟩

/-- `ggml_set_rows(a, b, c)`, computed with the rounds in the given order. -/
def setRows (order : List (ℕ × ℕ × ℕ)) (a b : Tensor) (c : Indices) : Option Tensor :=
  if a.ne0 = b.ne0 ∧ a.ne2 = b.ne2 ∧ a.ne3 = b.ne3 ∧ b.ne1 = c.ne0 ∧
      (b.type.IsF32 ∨ a.type.IsBf16 ∧ b.type.IsBf16) ∧ a.IsContiguousRows ∧ b.IsContiguousRows ∧
      ∀ job ∈ order, 0 ≤ c.val job.1 ∧ c.val job.1 < a.ne1 then
    some { a with buf := order.foldl (fun buf job => (setRowsWrite a b c job).store buf) a.buf }
  else none

/-- The rounds of `ggml_compute_forward_set_rows_bf16_carrier_rows`: row and element. -/
def carrierRowsJobs (b : Tensor) (nth : ℕ) : List (ℕ × ℕ) :=
  (threadsRange b.ne1 nth).flatMap fun row => (List.range b.ne0).map fun i => (row, i)

def carrierRowsWrite (a b : Tensor) (c : Indices) (job : ℕ × ℕ) : ByteWrite :=
  ⟨⟨a.data + (c.val job.1).toNat * a.nb1 + job.2 * a.nb0, 2⟩,
    carrierPayload (f32At b.buf (b.data + job.1 * b.nb1 + job.2 * b.nb0))⟩

/-- `ggml_set_rows_bf16_carrier(a, b, c, GGML_SET_ROWS_BF16_CARRIER_ROWS)`. -/
def setRowsCarrierRows (order : List (ℕ × ℕ)) (a b : Tensor) (c : Indices) : Option Tensor :=
  if (a.type.IsBf16 ∧ b.type.IsF32 ∧ a.nb0 = 2 ∧ b.nb0 = 4 ∧ a.IsContiguousRows) ∧
      (a.ne0 = b.ne0 ∧ (a.ne2 = 1 ∧ a.ne3 = 1) ∧ b.ne1 = c.ne0 ∧ b.ne2 = 1 ∧ b.ne3 = 1) ∧
      ∀ job ∈ order, 0 ≤ c.val job.1 ∧ c.val job.1 < a.ne1 then
    some { a with buf := order.foldl (fun buf job => (carrierRowsWrite a b c job).store buf) a.buf }
  else none

def carrierElementsWrite (a b : Tensor) (c : Indices) (i : ℕ) : ByteWrite :=
  ⟨⟨a.data + (c.val i).toNat * a.nb1, 2⟩, carrierPayload (f32At b.buf (b.addrOf i))⟩

/-- `ggml_set_rows_bf16_carrier(a, b, c, GGML_SET_ROWS_BF16_CARRIER_ELEMENTS)`. -/
def setRowsCarrierElements (order : List ℕ) (a b : Tensor) (c : Indices) : Option Tensor :=
  if (a.type.IsBf16 ∧ b.type.IsF32 ∧ a.nb0 = 2 ∧ b.nb0 = 4 ∧ a.IsContiguousRows) ∧
      ((a.ne0 = 1 ∧ a.ne2 = 1 ∧ a.ne3 = 1) ∧ b.ne3 = 1 ∧ c.ne0 = b.nelements) ∧
      ∀ i ∈ order, 0 ≤ c.val i ∧ c.val i < a.ne1 then
    some { a with buf := order.foldl (fun buf i => (carrierElementsWrite a b c i).store buf) a.buf }
  else none

/-! ## What the kernels write -/

lemma mem_threadRange {n nth ith i : ℕ} : i ∈ threadRange n nth ith ↔
    (n + nth - 1) / nth * ith ≤ i ∧ i < (n + nth - 1) / nth * ith + (n + nth - 1) / nth ∧ i < n := by
  unfold threadRange
  rw [List.mem_range'_1]
  omega

lemma mem_threadsRange {n nth i : ℕ} (hnth : 0 < nth) : i ∈ threadsRange n nth ↔ i < n := by
  unfold threadsRange
  rw [List.mem_flatMap]
  constructor
  · rintro ⟨ith, -, hi⟩
    exact (mem_threadRange.1 hi).2.2
  · intro hi
    have hcover : n ≤ (n + nth - 1) / nth * nth := by
      have hlt := Nat.lt_div_mul_add (a := n + nth - 1) hnth
      omega
    set dr := (n + nth - 1) / nth with hdr
    have hpos : 0 < dr := Nat.pos_of_ne_zero fun h0 => by
      rw [h0, Nat.zero_mul] at hcover
      omega
    have hlow := Nat.mul_div_le i dr
    have hhigh := Nat.lt_mul_div_succ i hpos
    rw [Nat.mul_succ] at hhigh
    refine ⟨i / dr, List.mem_range.2 ?_, mem_threadRange.2 ⟨hlow, hhigh, hi⟩⟩
    exact Nat.div_lt_of_lt_mul (hi.trans_le hcover)

variable {a b r : Tensor} {c : Indices} {nth : ℕ}

lemma mem_setRowsJobs (hnth : 0 < nth) (h2 : b.ne2 = 1) (h3 : b.ne3 = 1) (job : ℕ × ℕ × ℕ) :
    job ∈ setRowsJobs b nth ↔ job.1 < b.ne1 ∧ job.2 = (0, 0) := by
  unfold setRowsJobs
  rw [h2, h3]
  simp only [List.mem_flatMap, List.mem_range, Nat.lt_one_iff, exists_eq_left, List.mem_map]
  constructor
  · rintro ⟨ith, hith, i, hi, rfl⟩
    exact ⟨(mem_threadRange.1 hi).2.2, rfl⟩
  · rintro ⟨hi, hzero⟩
    obtain ⟨ith, hith, hmem⟩ := List.mem_flatMap.1 ((mem_threadsRange hnth).2 hi)
    exact ⟨ith, List.mem_range.1 hith, job.1, hmem, Prod.ext rfl hzero.symm⟩

/-- The bytes of a row of `n` elements from address `src` on. -/
def rowBytes (type : TypeTraits) (b : Tensor) (src n : ℕ) : ℕ → UInt8 :=
  if b.type.IsF32 then type.fromFloat ((List.range n).map fun j => f32At b.buf (src + 4 * j))
  else fun x => b.buf (src + x)

lemma rowBytes_of_isF32 (h : b.type.IsF32) (type : TypeTraits) (src n : ℕ) :
    rowBytes type b src n = type.fromFloat ((List.range n).map fun j => f32At b.buf (src + 4 * j)) :=
  if_pos h

lemma rowBytes_of_not_isF32 (h : ¬ b.type.IsF32) (type : TypeTraits) (src n x : ℕ) :
    rowBytes type b src n x = b.buf (src + x) := congrFun (if_neg h) x

/-- The first `n` indices are different rows of `a`. -/
structure Indices.Picks (c : Indices) (a : Tensor) (n : ℕ) : Prop where
  lt : ∀ i < n, 0 ≤ c.val i ∧ c.val i < a.ne1
  inj : ∀ i < n, ∀ j < n, c.val i = c.val j → i = j

lemma Indices.Picks.toNat_inj {n : ℕ} (h : c.Picks a n) {i j : ℕ} (hi : i < n) (hj : j < n)
    (heq : (c.val i).toNat = (c.val j).toNat) : i = j := by
  have hnn := (h.lt i hi).1
  have hnn' := (h.lt j hj).1
  exact h.inj i hi j hj (by omega)

/-- `ggml_set_rows` of a matrix. -/
theorem setRows_recorded {order : List (ℕ × ℕ × ℕ)} (hnth : 0 < nth)
    (horder : order.Perm (setRowsJobs b nth)) (hshape : a.ne0 = b.ne0 ∧ a.ne2 = 1 ∧ a.ne3 = 1 ∧
      b.ne1 = c.ne0 ∧ b.ne2 = 1 ∧ b.ne3 = 1)
    (htype : b.type.IsF32 ∨ a.type.IsBf16 ∧ b.type.IsBf16)
    (hrows : a.nb0 = a.type.typeSize ∧ b.nb0 = b.type.typeSize)
    (hrow : a.nb1 = a.type.rowSize a.ne0) (hpicks : c.Picks a b.ne1) :
    ∃ buf, setRows order a b c = some { a with buf := buf } ∧
      Recorded a.data a.nb1 (· < b.ne1) (fun i => (c.val i).toNat)
        (fun i => rowBytes a.type b (b.data + i * b.nb1) b.ne0) a.buf buf := by
  obtain ⟨h0, ha2, ha3, hc, hb2, hb3⟩ := hshape
  have hmem : ∀ job, job ∈ order ↔ job.1 < b.ne1 ∧ job.2 = (0, 0) := fun job =>
    horder.mem_iff.trans (mem_setRowsJobs hnth hb2 hb3 job)
  have hsize : ¬ b.type.IsF32 → b.ne0 * 2 = a.nb1 := fun hno => by
    obtain ⟨hblck, hsize⟩ := a.type.bf16 (htype.resolve_left hno).1
    rw [hrow, TypeTraits.rowSize_of_blckSize_one hblck, hsize, h0, Nat.mul_comm]
  refine ⟨_, if_pos ⟨h0, ha2.trans hb2.symm, ha3.trans hb3.symm, hc, htype, .inr hrows.1,
    .inr hrows.2, fun job hjob => hpicks.lt _ ((hmem job).1 hjob).1⟩, ?_⟩
  have hspan : ∀ job : ℕ × ℕ × ℕ, job.1 < b.ne1 ∧ job.2 = (0, 0) →
      (setRowsWrite a b c job).span = Span.record a.data a.nb1 (c.val job.1).toNat := by
    rintro ⟨i, i02, i03⟩ ⟨-, hzero⟩
    obtain ⟨rfl, rfl⟩ := Prod.mk.inj hzero
    unfold setRowsWrite Span.record
    simp only [Nat.zero_mul, Nat.add_zero]
    split
    · rw [hrow, h0]
    · rename_i hno
      rw [hsize hno]
  have hrec := recorded_stores a.buf hmem hspan fun job hjob job' hjob' heq =>
    Prod.ext (hpicks.toNat_inj hjob.1 hjob'.1 heq) (hjob.2.trans hjob'.2.symm)
  refine ⟨fun i hi x hx => ?_, fun n hn x hx => ?_⟩
  · refine (hrec.read (i, 0, 0) ⟨hi, rfl⟩ x hx).trans ?_
    unfold setRowsWrite rowBytes
    simp only [Nat.zero_mul, Nat.add_zero]
    split <;> rfl
  · exact hrec.frame n (fun job hjob => hn job.1 hjob.1) x hx

/-- `ggml_set_rows_bf16_carrier` in row mode writes elements. -/
theorem setRowsCarrierRows_recorded {order : List (ℕ × ℕ)} (hnth : 0 < nth)
    (horder : order.Perm (carrierRowsJobs b nth)) (hshape : a.ne0 = b.ne0 ∧ a.ne2 = 1 ∧ a.ne3 = 1 ∧
      b.ne1 = c.ne0 ∧ b.ne2 = 1 ∧ b.ne3 = 1) (htype : a.type.IsBf16 ∧ b.type.IsF32)
    (hrows : a.nb0 = a.type.typeSize ∧ b.nb0 = b.type.typeSize)
    (hrow : a.nb1 = a.type.rowSize a.ne0) (hpicks : c.Picks a b.ne1) :
    ∃ buf, setRowsCarrierRows order a b c = some { a with buf := buf } ∧
      Recorded a.data 2 (fun job : ℕ × ℕ => job.1 < b.ne1 ∧ job.2 < b.ne0)
        (fun job => (c.val job.1).toNat * b.ne0 + job.2)
        (fun job => carrierPayload (f32At b.buf (b.data + job.1 * b.nb1 + job.2 * b.nb0)))
        a.buf buf := by
  obtain ⟨h0, ha2, ha3, hc, hb2, hb3⟩ := hshape
  obtain ⟨hblck, hsize⟩ := a.type.bf16 htype.1
  obtain ⟨-, hsize'⟩ := b.type.f32 htype.2
  have hmem : ∀ job, job ∈ order ↔ job.1 < b.ne1 ∧ job.2 < b.ne0 := by
    rintro ⟨row, i⟩
    rw [horder.mem_iff]
    unfold carrierRowsJobs
    simp only [List.mem_flatMap, List.mem_map, mem_threadsRange hnth, List.mem_range, Prod.mk.injEq]
    constructor
    · rintro ⟨row, hrow, i, hi, rfl, rfl⟩
      exact ⟨hrow, hi⟩
    · rintro ⟨hrow, hi⟩
      exact ⟨row, hrow, i, hi, rfl, rfl⟩
  have hspan : ∀ job : ℕ × ℕ, job.1 < b.ne1 ∧ job.2 < b.ne0 →
      (carrierRowsWrite a b c job).span
        = Span.record a.data 2 ((c.val job.1).toNat * b.ne0 + job.2) := fun job _ => by
    unfold carrierRowsWrite Span.record
    rw [hrow, hrows.1, hsize, TypeTraits.rowSize_of_blckSize_one hblck, hsize, h0, Nat.add_mul,
      Nat.mul_assoc, Nat.mul_comm b.ne0 2, Nat.add_assoc]
  refine ⟨_, if_pos ⟨⟨htype.1, htype.2, hrows.1.trans hsize, hrows.2.trans hsize', .inr hrows.1⟩,
    ⟨h0, ⟨ha2, ha3⟩, hc, hb2, hb3⟩, fun job hjob => hpicks.lt _ ((hmem job).1 hjob).1⟩, ?_⟩
  refine recorded_stores a.buf hmem hspan fun job hjob job' hjob' heq => ?_
  obtain ⟨hrow', hi⟩ := mul_add_inj hjob.2 hjob'.2 heq
  exact Prod.ext (hpicks.toNat_inj hjob.1 hjob'.1 hrow') hi

/-- `ggml_set_rows_bf16_carrier` in element mode. -/
theorem setRowsCarrierElements_recorded {order : List ℕ} (hnth : 0 < nth)
    (horder : order.Perm (threadsRange b.nelements nth)) (hshape : a.ne0 = 1 ∧ a.ne2 = 1 ∧
      a.ne3 = 1 ∧ b.ne3 = 1 ∧ c.ne0 = b.nelements) (htype : a.type.IsBf16 ∧ b.type.IsF32)
    (hrows : a.nb0 = a.type.typeSize ∧ b.nb0 = b.type.typeSize)
    (hrow : a.nb1 = a.type.rowSize a.ne0) (hpicks : c.Picks a b.nelements) :
    ∃ buf, setRowsCarrierElements order a b c = some { a with buf := buf } ∧
      Recorded a.data 2 (· < b.nelements) (fun i => (c.val i).toNat)
        (fun i => carrierPayload (f32At b.buf (b.addrOf i))) a.buf buf := by
  obtain ⟨h0, ha2, ha3, hb3, hc⟩ := hshape
  obtain ⟨hblck, hsize⟩ := a.type.bf16 htype.1
  obtain ⟨-, hsize'⟩ := b.type.f32 htype.2
  have hmem : ∀ i, i ∈ order ↔ i < b.nelements := fun i =>
    horder.mem_iff.trans (mem_threadsRange hnth)
  have hspan : ∀ i, i < b.nelements →
      (carrierElementsWrite a b c i).span = Span.record a.data 2 (c.val i).toNat := fun i _ => by
    unfold carrierElementsWrite Span.record
    rw [hrow, TypeTraits.rowSize_of_blckSize_one hblck, hsize, h0]
  refine ⟨_, if_pos ⟨⟨htype.1, htype.2, hrows.1.trans hsize, hrows.2.trans hsize', .inr hrows.1⟩,
    ⟨⟨h0, ha2, ha3⟩, hb3, hc⟩, fun i hi => hpicks.lt _ ((hmem i).1 hi)⟩, ?_⟩
  exact recorded_stores a.buf hmem hspan fun i hi j hj heq => hpicks.toNat_inj hi hj heq

end IFairy
