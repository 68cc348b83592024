import Mathlib.Algebra.BigOperators.Group.List.Basic
import Mathlib.Tactic.Linarith
import Mathlib.Tactic.Ring

/-!
# C-contiguous n-dimensional arrays

An array is a shape and a flat buffer in row-major order.  `ravel` turns a multi-index into its
flat offset and `unravel` goes back; `reshape` keeps the buffer, `transpose` and `lastSlice`
build a new contiguous one, and `map` and `zipWith` work entry by entry.

Every operation has one reading lemma, which says what `get` returns on an index inside the new
shape.  A program that reshapes, slices and permutes is then read by rewriting with these lemmas
and never by unfolding a buffer.
-/

namespace IFairy

/-- Row-major offset of a multi-index. -/
def ravel : List ℕ → List ℕ → ℕ
  | _ :: dims, i :: idx => i * dims.prod + ravel dims idx
  | _, _ => 0

/-- The multi-index at a row-major offset. -/
def unravel : List ℕ → ℕ → List ℕ
  | [], _ => []
  | _ :: dims, n => n / dims.prod :: unravel dims (n % dims.prod)

/-- A multi-index names an entry of an array of this shape. -/
def InShape : List ℕ → List ℕ → Prop
  | [], [] => True
  | d :: dims, i :: idx => i < d ∧ InShape dims idx
  | _, _ => False

@[simp] lemma inShape_nil : InShape [] [] ↔ True := Iff.rfl

@[simp] lemma inShape_cons (d i : ℕ) (dims idx : List ℕ) :
    InShape (d :: dims) (i :: idx) ↔ i < d ∧ InShape dims idx := Iff.rfl

@[simp] lemma ravel_nil (idx : List ℕ) : ravel [] idx = 0 := rfl

@[simp] lemma ravel_cons (d i : ℕ) (dims idx : List ℕ) :
    ravel (d :: dims) (i :: idx) = i * dims.prod + ravel dims idx := rfl

lemma ravel_lt : ∀ {dims idx : List ℕ}, InShape dims idx → ravel dims idx < dims.prod
  | [], [], _ => by simp
  | d :: dims, i :: idx, ⟨hi, hidx⟩ => by
      have hrest := ravel_lt hidx
      have hrow : (i + 1) * dims.prod ≤ d * dims.prod := Nat.mul_le_mul_right _ hi
      rw [ravel_cons, List.prod_cons]
      linarith [Nat.succ_mul i dims.prod]

/-- `unravel` is the inverse of `ravel` on the indices inside the shape. -/
lemma unravel_ravel : ∀ {dims idx : List ℕ}, InShape dims idx →
    unravel dims (ravel dims idx) = idx
  | [], [], _ => rfl
  | _ :: dims, i :: idx, ⟨_, hidx⟩ => by
      have hrest := ravel_lt hidx
      have hpos : 0 < dims.prod := by omega
      rw [ravel_cons, unravel, Nat.mul_comm i, Nat.mul_add_div hpos, Nat.mul_add_mod,
        Nat.div_eq_of_lt hrest, Nat.mod_eq_of_lt hrest, unravel_ravel hidx, Nat.add_zero]

lemma inShape_unravel : ∀ {dims : List ℕ} {n : ℕ}, n < dims.prod → InShape dims (unravel dims n)
  | [], _, _ => trivial
  | d :: dims, n, hn => by
      have hprod : n < dims.prod * d := by rwa [List.prod_cons, Nat.mul_comm] at hn
      have hpos : 0 < dims.prod := Nat.pos_of_ne_zero fun h0 => by simp [h0] at hprod
      exact ⟨Nat.div_lt_of_lt_mul hprod, inShape_unravel (Nat.mod_lt _ hpos)⟩

/-- `ravel` is the inverse of `unravel` inside the buffer. -/
lemma ravel_unravel : ∀ {dims : List ℕ} {n : ℕ}, n < dims.prod → ravel dims (unravel dims n) = n
  | [], n, hn => by simp at hn; simp [hn]
  | d :: dims, n, hn => by
      have hpos : 0 < dims.prod :=
        Nat.pos_of_ne_zero fun h0 => by simp [h0] at hn
      rw [unravel, ravel_cons, ravel_unravel (Nat.mod_lt _ hpos), Nat.div_add_mod']

/-- A C-contiguous array: its shape and its flat buffer. -/
structure NdArray (α : Type*) where
  shape : List ℕ
  flat : ℕ → α

namespace NdArray

variable {α β γ : Type*}

def get (a : NdArray α) (idx : List ℕ) : α := a.flat (ravel a.shape idx)

/-- The contiguous array of a shape whose entry at `idx` is `f idx`. -/
def ofFn (shape : List ℕ) (f : List ℕ → α) : NdArray α :=
  ⟨shape, fun n => f (unravel shape n)⟩

def reshape (a : NdArray α) (shape : List ℕ) : NdArray α := ⟨shape, a.flat⟩

/-- Axis `j` of the result is axis `perm[j]` of the source. -/
def transpose (a : NdArray α) (perm : List ℕ) : NdArray α :=
  ofFn (perm.map fun p => a.shape.getD p 1) fun idx =>
    a.get ((List.range a.shape.length).map fun p => idx.getD (perm.idxOf p) 0)

/-- Entries `lo ..< lo + len` of the last axis. -/
def lastSlice (a : NdArray α) (lo len : ℕ) : NdArray α :=
  ofFn (a.shape.dropLast ++ [len]) fun idx =>
    a.get (idx.dropLast ++ [lo + idx.getLastD 0])

/-- Apply a function to every entry. -/
def map (f : α → β) (a : NdArray α) : NdArray β := ⟨a.shape, fun n => f (a.flat n)⟩

/-- Combine two arrays of one shape entry by entry. -/
def zipWith (f : α → β → γ) (a : NdArray α) (b : NdArray β) : NdArray γ :=
  ⟨a.shape, fun n => f (a.flat n) (b.flat n)⟩

/-- Whether some entry satisfies `p`. -/
def any (a : NdArray α) (p : α → Bool) : Bool :=
  (List.range a.shape.prod).any fun n => p (a.flat n)

/-! ## Shapes -/

@[simp] lemma shape_ofFn (shape : List ℕ) (f : List ℕ → α) : (ofFn shape f).shape = shape := rfl

@[simp] lemma shape_reshape (a : NdArray α) (shape : List ℕ) :
    (a.reshape shape).shape = shape := rfl

@[simp] lemma shape_map (f : α → β) (a : NdArray α) : (a.map f).shape = a.shape := rfl

@[simp] lemma shape_zipWith (f : α → β → γ) (a : NdArray α) (b : NdArray β) :
    (zipWith f a b).shape = a.shape := rfl

@[simp] lemma shape_lastSlice (a : NdArray α) (lo len : ℕ) :
    (a.lastSlice lo len).shape = a.shape.dropLast ++ [len] := rfl

@[simp] lemma shape_transpose (a : NdArray α) (perm : List ℕ) :
    (a.transpose perm).shape = perm.map fun p => a.shape.getD p 1 := rfl

/-! ## Reading -/

lemma get_ofFn {shape idx : List ℕ} (f : List ℕ → α) (h : InShape shape idx) :
    (ofFn shape f).get idx = f idx := by
  simp only [get, ofFn, unravel_ravel h]

lemma get_reshape (a : NdArray α) {shape idx : List ℕ} (idx' : List ℕ)
    (h : ravel shape idx = ravel a.shape idx') : (a.reshape shape).get idx = a.get idx' := by
  simp only [get, reshape, h]

lemma get_map (f : α → β) (a : NdArray α) (idx : List ℕ) :
    (a.map f).get idx = f (a.get idx) := rfl

lemma get_zipWith (f : α → β → γ) (a : NdArray α) (b : NdArray β) (idx : List ℕ)
    (h : a.shape = b.shape) : (zipWith f a b).get idx = f (a.get idx) (b.get idx) := by
  simp only [get, zipWith, h]

lemma get_transpose (a : NdArray α) {perm idx : List ℕ}
    (h : InShape (perm.map fun p => a.shape.getD p 1) idx) :
    (a.transpose perm).get idx =
      a.get ((List.range a.shape.length).map fun p => idx.getD (perm.idxOf p) 0) :=
  get_ofFn _ h

lemma get_lastSlice (a : NdArray α) {lo len : ℕ} {idx : List ℕ}
    (h : InShape (a.shape.dropLast ++ [len]) idx) :
    (a.lastSlice lo len).get idx = a.get (idx.dropLast ++ [lo + idx.getLastD 0]) :=
  get_ofFn _ h

/-- No entry inside the shape satisfies `p` when `any` says so. -/
lemma not_of_any_eq_false {a : NdArray α} {p : α → Bool} (h : a.any p = false) (idx : List ℕ)
    (hidx : InShape a.shape idx) : p (a.get idx) = false := by
  simp only [any, List.any_eq_false, List.mem_range] at h
  simpa [get] using h _ (ravel_lt hidx)

end NdArray

end IFairy
