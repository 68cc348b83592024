import IFairy.Framework.Loops
import IFairy.Framework.Spans

/-!
# Records of bytes in a memory

A memory is written by stores of runs of bytes.  When every store fills one record of an array and
no two stores fill the same one, each record holds the bytes of its store, in whatever order the
stores are performed, and the other records are as before (`recorded_stores`).
-/

namespace IFairy

/-- A store: where it goes and its bytes. -/
structure ByteWrite where
  span : Span
  bytes : ℕ → UInt8

def ByteWrite.store (w : ByteWrite) (mem : ℕ → UInt8) (x : ℕ) : UInt8 :=
  if w.span.Covers x then w.bytes (x - w.span.offset) else mem x

namespace ByteWrite

variable {ι : Type*} {w : ι → ByteWrite} {l : List ι} {mem : ℕ → UInt8}

lemma stores_frame {x : ℕ} (hout : ∀ i ∈ l, ¬ (w i).span.Covers x) :
    l.foldl (fun mem i => (w i).store mem) mem x = mem x :=
  foldl_store_of_not_cover (fun mem i => (w i).store mem) (fun i x => (w i).span.Covers x)
    (fun _ _ _ _ hx => if_neg hx) mem hout

lemma stores_read (mem : ℕ → UInt8) (hapart : ∀ i ∈ l, ∀ j ∈ l, i ≠ j → (w i).span.Apart (w j).span) {i : ι}
    (hi : i ∈ l) {b : ℕ} (hb : b < (w i).span.size) :
    l.foldl (fun mem i => (w i).store mem) mem ((w i).span.offset + b) = (w i).bytes b := by
  have hcovers : (w i).span.Covers ((w i).span.offset + b) := ⟨Nat.le_add_right _ _, by omega⟩
  refine foldl_read_of_cover (fun mem i => (w i).store mem)
    (fun mem => mem ((w i).span.offset + b)) (fun j => (w j).span.Covers ((w i).span.offset + b)) _
    (fun j hj hcover mem => ?_) (fun _ _ hno _ => if_neg hno) ⟨i, hi, hcovers⟩ mem
  obtain rfl : j = i := by_contra fun hne => hapart j hj i hi hne _ hcover hcovers
  refine (if_pos hcover).trans ?_
  rw [Nat.add_sub_cancel_left]

section Records

variable {base size : ℕ} {index : ι → ℕ}
  (hspan : ∀ i ∈ l, (w i).span = Span.record base size (index i))

include hspan

theorem records_read (hinj : ∀ i ∈ l, ∀ j ∈ l, index i = index j → i = j) {i : ι} (hi : i ∈ l)
    {b : ℕ} (hb : b < size) :
    l.foldl (fun mem i => (w i).store mem) mem (base + index i * size + b) = (w i).bytes b := by
  have hread := stores_read (w := w) mem (fun i hi j hj hne => ?_) hi (b := b) ?_
  · rw [hspan i hi] at hread
    exact hread
  · rw [hspan i hi, hspan j hj]
    exact Span.record_apart fun heq => hne (hinj i hi j hj heq)
  · rw [hspan i hi]
    exact hb

theorem records_frame {n : ℕ} (hn : ∀ i ∈ l, index i ≠ n) {b : ℕ} (hb : b < size) :
    l.foldl (fun mem i => (w i).store mem) mem (base + n * size + b) = mem (base + n * size + b) := by
  refine stores_frame fun i hi hcover => ?_
  rw [hspan i hi] at hcover
  exact Span.record_apart (hn i hi) _ hcover ⟨Nat.le_add_right _ _, Nat.add_lt_add_left hb _⟩

end Records

end ByteWrite

/-- Of an array of records, those with the numbers `index i` hold `bytes i`, and the others are as in
`mem`. -/
structure Recorded {ι : Type*} (base size : ℕ) (written : ι → Prop) (index : ι → ℕ)
    (bytes : ι → ℕ → UInt8) (mem mem' : ℕ → UInt8) : Prop where
  read : ∀ i, written i → ∀ b < size, mem' (base + index i * size + b) = bytes i b
  frame : ∀ n, (∀ i, written i → index i ≠ n) → ∀ b < size,
    mem' (base + n * size + b) = mem (base + n * size + b)

theorem recorded_stores {ι : Type*} {w : ι → ByteWrite} {l : List ι} {written : ι → Prop}
    {base size : ℕ} {index : ι → ℕ} (mem : ℕ → UInt8) (hl : ∀ i, i ∈ l ↔ written i)
    (hspan : ∀ i, written i → (w i).span = Span.record base size (index i))
    (hinj : ∀ i, written i → ∀ j, written j → index i = index j → i = j) :
    Recorded base size written index (fun i => (w i).bytes) mem
      (l.foldl (fun mem i => (w i).store mem) mem) where
  read i hi _ hb := ByteWrite.records_read (fun i hi => hspan i ((hl i).1 hi))
    (fun i hi j hj => hinj i ((hl i).1 hi) j ((hl j).1 hj)) ((hl i).2 hi) hb
  frame _ hn _ hb := ByteWrite.records_frame (fun i hi => hspan i ((hl i).1 hi))
    (fun i hi => hn i ((hl i).1 hi)) hb

/-- Records of `m` pieces, written piece by piece. -/
theorem Recorded.group {ι : Type*} {base size m : ℕ} (written : ι → Prop) (index : ι → ℕ)
    (bytes : ι → ℕ → ℕ → UInt8) {mem mem' : ℕ → UInt8}
    (h : Recorded base size (fun p : ι × ℕ => written p.1 ∧ p.2 < m) (fun p => index p.1 * m + p.2)
      (fun p => bytes p.1 p.2) mem mem') :
    Recorded base (m * size) written index (fun i x => bytes i (x / size) (x % size)) mem mem' := by
  have hsplit : ∀ i x, base + i * (m * size) + x = base + (i * m + x / size) * size + x % size := by
    intro i x
    have hx := Nat.div_add_mod x size
    calc base + i * (m * size) + x
        = base + i * m * size + (size * (x / size) + x % size) := by rw [hx, Nat.mul_assoc]
      _ = base + (i * m + x / size) * size + x % size := by ring
  have hpart : ∀ x < m * size, x / size < m ∧ x % size < size := fun x hx =>
    have hsize : 0 < size := pos_of_mul_pos_right (Nat.zero_lt_of_lt hx) (Nat.zero_le m)
    ⟨Nat.div_lt_of_lt_mul (by rwa [Nat.mul_comm]), Nat.mod_lt _ hsize⟩
  refine ⟨fun i hi x hx => ?_, fun n hn x hx => ?_⟩
  · obtain ⟨hdiv, hmod⟩ := hpart x hx
    rw [hsplit]
    exact h.read (i, x / size) ⟨hi, hdiv⟩ _ hmod
  · obtain ⟨hdiv, hmod⟩ := hpart x hx
    rw [hsplit]
    exact h.frame _ (fun p hp heq => hn p.1 hp.1 (mul_add_inj hp.2 hdiv heq).1) _ hmod

lemma Recorded.congr {ι : Type*} {base size : ℕ} {written : ι → Prop} {index index' : ι → ℕ}
    {bytes bytes' : ι → ℕ → UInt8} {mem mem' : ℕ → UInt8}
    (h : Recorded base size written index bytes mem mem')
    (hindex : ∀ i, written i → index i = index' i)
    (hbytes : ∀ i, written i → ∀ b < size, bytes i b = bytes' i b) :
    Recorded base size written index' bytes' mem mem' where
  read i hi b hb := by rw [← hindex i hi, h.read i hi b hb, hbytes i hi b hb]
  frame n hn b hb := h.frame n (fun i hi => hindex i hi ▸ hn i hi) b hb

end IFairy
