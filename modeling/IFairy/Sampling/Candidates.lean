import Mathlib.Data.List.Basic
import Mathlib.Data.Nat.ModEq

/-!
# Candidates and last tokens

The array of candidates that the samplers of `src/llama-sampling.cpp` work on, with logits and
probabilities of an arbitrary type, and the ring buffer in which they keep the last tokens.  The
vector of a ring buffer is read through `toVector`, the elements from the oldest one on:
`toVector_pushBack` says what a push does to them, and `rat_eq_getElem?` that `rat` counts from the
end.
-/

namespace IFairy.Sampling

/-- `llama_token`. -/
abbrev LlamaToken := ℤ

/-- `llama_token_data`. -/
structure TokenData (F : Type) where
  id : LlamaToken
  logit : F
  p : F

/-- `llama_token_data_array`, without the selected candidate. -/
structure TokenDataArray (F : Type) where
  data : List (TokenData F)
  sorted : Bool

/-- `ring_buffer`; the vector is a function on its indices. -/
structure RingBuffer (α : Type) where
  capacity : ℕ
  sz : ℕ
  first : ℕ
  pos : ℕ
  data : ℕ → α

namespace RingBuffer

variable {α : Type}

def ofCapacity [Inhabited α] (cap : ℕ) : RingBuffer α := ⟨cap, 0, 0, 0, fun _ => default⟩

/-- `front`, which throws on an empty buffer. -/
def front (r : RingBuffer α) : Option α := if r.sz = 0 then none else some (r.data r.first)

/-- `push_back`, which throws when there is no room at all. -/
def pushBack (r : RingBuffer α) (value : α) : Option (RingBuffer α) :=
  if r.capacity = 0 then none
  else
    let r := if r.sz = r.capacity then { r with first := (r.first + 1) % r.capacity }
      else { r with sz := r.sz + 1 }
    some { r with data := Function.update r.data r.pos value, pos := (r.pos + 1) % r.capacity }

/-- `rat`, which throws outside the buffer. -/
def rat (r : RingBuffer α) (i : ℕ) : Option α :=
  if r.sz ≤ i then none else some (r.data ((r.first + r.sz - i - 1) % r.capacity))

/-- `to_vector`. -/
def toVector (r : RingBuffer α) : List α :=
  (List.range r.sz).map fun i => r.data ((r.first + i) % r.capacity)

/-- `clear`. -/
def clear (r : RingBuffer α) : RingBuffer α := { r with sz := 0, first := 0, pos := 0 }

/-- The elements fit, and the next one goes behind them. -/
structure Valid (r : RingBuffer α) : Prop where
  sz_le : r.sz ≤ r.capacity
  first_lt : 0 < r.capacity → r.first < r.capacity
  pos_eq : r.pos = (r.first + r.sz) % r.capacity

lemma valid_ofCapacity [Inhabited α] (cap : ℕ) : (ofCapacity cap : RingBuffer α).Valid :=
  ⟨Nat.zero_le _, id, (Nat.zero_mod _).symm⟩

lemma valid_clear (r : RingBuffer α) : r.clear.Valid :=
  ⟨Nat.zero_le _, id, (Nat.zero_mod _).symm⟩

@[simp] lemma toVector_ofCapacity [Inhabited α] (cap : ℕ) :
    (ofCapacity cap : RingBuffer α).toVector = [] := rfl

@[simp] lemma toVector_clear (r : RingBuffer α) : r.clear.toVector = [] := rfl

@[simp] lemma length_toVector (r : RingBuffer α) : r.toVector.length = r.sz := by
  rw [toVector, List.length_map, List.length_range]

variable {r r' : RingBuffer α}

lemma getElem_toVector (r : RingBuffer α) {i : ℕ} (hi : i < r.toVector.length) :
    r.toVector[i] = r.data ((r.first + i) % r.capacity) := by
  simp [toVector]

lemma Valid.front_eq (h : r.Valid) (hne : r.sz ≠ 0) : r.front = r.toVector.head? := by
  obtain ⟨n, hn⟩ := Nat.exists_eq_succ_of_ne_zero hne
  have hlt := h.first_lt ((Nat.pos_of_ne_zero hne).trans_le h.sz_le)
  rw [front, if_neg hne, toVector, hn, List.range_succ_eq_map, List.map_cons, List.head?_cons,
    Nat.add_zero, Nat.mod_eq_of_lt hlt]

lemma mod_ne_of_lt {first i j cap : ℕ} (hij : i < j) (hj : j < i + cap) :
    (first + i) % cap ≠ (first + j) % cap := by
  intro heq
  have hdvd := Nat.dvd_of_mod_eq_zero (Nat.sub_mod_eq_zero_of_mod_eq heq.symm)
  have hle := Nat.le_of_dvd (by omega) hdvd
  omega

lemma Valid.getElem_push (h : r.Valid) (value : α) {i : ℕ} (hi : i ≤ r.sz)
    (hroom : r.sz < r.capacity ∨ 0 < i) :
    (r.toVector ++ [value])[i]? =
      some (Function.update r.data r.pos value ((r.first + i) % r.capacity)) := by
  have hle := h.sz_le
  rcases hi.lt_or_eq with hlt | rfl
  · have hi' : i < r.toVector.length := by rwa [length_toVector]
    rw [List.getElem?_append_left hi', List.getElem?_eq_getElem hi', getElem_toVector, h.pos_eq,
      Function.update_of_ne (mod_ne_of_lt hlt (by omega))]
  · rw [h.pos_eq, Function.update_self, List.getElem?_append_right (length_toVector r).le,
      length_toVector, Nat.sub_self]
    rfl

lemma Valid.pushBack (h : r.Valid) (hcap : 0 < r.capacity) (value : α) :
    ∃ r', r.pushBack value = some r' ∧ r'.Valid ∧ r'.capacity = r.capacity ∧
      r'.toVector = (r.toVector ++ [value]).drop (r.sz + 1 - r.capacity) := by
  have hfirst := h.first_lt hcap
  have hle := h.sz_le
  rw [RingBuffer.pushBack, if_neg hcap.ne']
  by_cases hfull : r.sz = r.capacity
  · have hpos : r.pos = r.first := by
      rw [h.pos_eq, hfull, Nat.add_mod_right, Nat.mod_eq_of_lt hfirst]
    rw [if_pos hfull]
    refine ⟨_, rfl, ⟨h.sz_le, fun _ => Nat.mod_lt _ hcap, ?_⟩, rfl, List.ext_getElem? fun i => ?_⟩
    · dsimp only
      rw [hpos, hfull, Nat.add_mod_right, Nat.mod_mod]
    · have hdrop : r.sz + 1 - r.capacity = 1 := by rw [hfull, Nat.add_sub_cancel_left]
      rw [List.getElem?_drop, hdrop, toVector, List.getElem?_map]
      dsimp only
      by_cases hi : i < r.sz
      · rw [List.getElem?_range hi, Option.map_some,
          h.getElem_push value (by omega) (.inr (by omega)), Nat.mod_add_mod, Nat.add_assoc]
      · rw [List.getElem?_eq_none (by rw [List.length_range]; exact not_lt.1 hi), Option.map_none,
          List.getElem?_eq_none (by rw [List.length_append, length_toVector]; exact (by
            rw [List.length_singleton]; omega))]
  · have hlt : r.sz < r.capacity := hle.lt_of_ne hfull
    rw [if_neg hfull]
    refine ⟨_, rfl, ⟨hlt, h.first_lt, ?_⟩, rfl, List.ext_getElem? fun i => ?_⟩
    · dsimp only
      rw [h.pos_eq, Nat.mod_add_mod, Nat.add_assoc]
    · rw [Nat.sub_eq_zero_of_le hlt, List.drop_zero, toVector, List.getElem?_map]
      dsimp only
      by_cases hi : i < r.sz + 1
      · rw [List.getElem?_range hi, Option.map_some, h.getElem_push value (by omega) (.inl hlt)]
      · rw [List.getElem?_eq_none (by rw [List.length_range]; exact not_lt.1 hi), Option.map_none,
          List.getElem?_eq_none (by
            rw [List.length_append, length_toVector]
            exact not_lt.1 hi)]

/-- `rat` counts from the last element. -/
lemma rat_eq_getElem? (r : RingBuffer α) (i : ℕ) : r.rat i = r.toVector.reverse[i]? := by
  rw [rat]
  split_ifs with hi
  · rw [List.getElem?_eq_none (by rw [List.length_reverse, length_toVector]; exact hi)]
  · rw [not_le] at hi
    rw [List.getElem?_reverse (by rwa [length_toVector]), length_toVector, toVector,
      List.getElem?_map, List.getElem?_range (by omega), Option.map_some]
    congr 3
    omega

end RingBuffer

end IFairy.Sampling
