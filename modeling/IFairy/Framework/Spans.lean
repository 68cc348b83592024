import Mathlib.Data.List.Count
import Mathlib.Data.List.Basic

/-!
# Spans of addresses

A span is a run of consecutive addresses.  A list of spans is read through its `coverage`, how
often each address lies in one of them: that spans are pairwise apart is `coverage ≤ 1`, and
cutting, joining and moving spans are equations between coverages, whatever the order of the
list.
-/

namespace IFairy

/-- `size` addresses from `offset` on. -/
structure Span where
  offset : ℕ
  size : ℕ
deriving DecidableEq

namespace Span

def Covers (s : Span) (x : ℕ) : Prop := s.offset ≤ x ∧ x < s.offset + s.size

instance (s : Span) (x : ℕ) : Decidable (s.Covers x) := inferInstanceAs (Decidable (_ ∧ _))

/-- Two spans have no address in common. -/
def Apart (s t : Span) : Prop := ∀ x, s.Covers x → ¬t.Covers x

def Within (s t : Span) : Prop := ∀ x, s.Covers x → t.Covers x

lemma Apart.mono {s s' t t' : Span} (h : s.Apart t) (hs : s'.Within s) (ht : t'.Within t) :
    s'.Apart t' :=
  fun x hx hx' => h x (hs x hx) (ht x hx')

lemma within_of_size_le {o m n : ℕ} (h : m ≤ n) : Within ⟨o, m⟩ ⟨o, n⟩ := by
  rintro x ⟨hlo, hhi⟩
  exact ⟨hlo, by simp only at hhi ⊢; omega⟩

/-! ## Records of one size -/

/-- Record `i` of an array of records of one size. -/
def record (base size i : ℕ) : Span := ⟨base + i * size, size⟩

lemma record_apart {base size i j : ℕ} (h : i ≠ j) :
    (record base size i).Apart (record base size j) := by
  rintro x ⟨hlo, hhi⟩ ⟨hlo', hhi'⟩
  simp only [record] at hlo hhi hlo' hhi'
  rcases Nat.lt_or_gt_of_ne h with hlt | hlt
  · have hmul := Nat.mul_le_mul_right size (Nat.succ_le_of_lt hlt)
    rw [Nat.succ_mul] at hmul
    omega
  · have hmul := Nat.mul_le_mul_right size (Nat.succ_le_of_lt hlt)
    rw [Nat.succ_mul] at hmul
    omega

lemma record_within {base size i n : ℕ} (h : i < n) :
    (record base size i).Within ⟨base, n * size⟩ := by
  rintro x ⟨hlo, hhi⟩
  simp only [record] at hlo hhi
  have hmul := Nat.mul_le_mul_right size (Nat.succ_le_of_lt h)
  rw [Nat.succ_mul] at hmul
  exact ⟨by simp only; omega, by simp only; omega⟩

/-! ## Coverage -/

/-- How many of the spans an address lies in. -/
def coverage (l : List Span) (x : ℕ) : ℕ := l.countP (·.Covers x)

@[simp] lemma coverage_nil (x : ℕ) : coverage [] x = 0 := rfl

lemma coverage_cons (s : Span) (l : List Span) (x : ℕ) :
    coverage (s :: l) x = coverage l x + coverage [s] x := by
  simp [coverage, List.countP_cons]

@[simp] lemma coverage_append (l l' : List Span) (x : ℕ) :
    coverage (l ++ l') x = coverage l x + coverage l' x :=
  List.countP_append

lemma coverage_perm {l l' : List Span} (h : l.Perm l') (x : ℕ) : coverage l x = coverage l' x :=
  h.countP_eq _

@[simp] lemma coverage_reverse (l : List Span) (x : ℕ) : coverage l.reverse x = coverage l x :=
  coverage_perm l.reverse_perm x

lemma coverage_singleton (s : Span) (x : ℕ) : coverage [s] x = if s.Covers x then 1 else 0 := by
  simp [coverage, List.countP_cons]

lemma coverage_singleton_eq_zero {s : Span} {x : ℕ} : coverage [s] x = 0 ↔ ¬s.Covers x := by
  simp [coverage_singleton]

lemma coverage_singleton_of_covers {s : Span} {x : ℕ} (h : s.Covers x) : coverage [s] x = 1 := by
  simp [coverage_singleton, h]

lemma coverage_join {s t : Span} (h : s.offset + s.size = t.offset) (x : ℕ) :
    coverage [⟨s.offset, s.size + t.size⟩] x = coverage [s] x + coverage [t] x := by
  have hjoin : Covers ⟨s.offset, s.size + t.size⟩ x ↔ s.Covers x ∨ t.Covers x := by
    simp only [Covers]
    omega
  by_cases hs : s.Covers x
  · have ht : ¬t.Covers x := by
      simp only [Covers] at hs ⊢
      omega
    simp [coverage_singleton, hjoin, hs, ht]
  · simp [coverage_singleton, hjoin, hs]

@[simp] lemma coverage_size_zero (o x : ℕ) : coverage [⟨o, 0⟩] x = 0 := by
  rw [coverage_singleton_eq_zero]
  rintro ⟨hlo, hhi⟩
  simp only at hlo hhi
  omega

end Span

end IFairy
