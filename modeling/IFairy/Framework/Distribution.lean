import Mathlib.Algebra.Order.BigOperators.Group.Finset

/-!
# Distributing a list to slots

The elements of a list are written to the slots of an array that is as long as all slots together.
Every slot has a position where its next element goes, at first the sum of the sizes of the slots
before it.  What is written is the elements of the slots in their order, one slot after the other
(`distribute_eq`).
-/

namespace IFairy

open Finset

variable {α : Type*}

/-- The position at which a slot begins. -/
def slotStart (size : ℕ → ℕ) (t : ℕ) : ℕ := ∑ u ∈ range t, size u

/-- One element is written to its slot, unless it is one of the slots that are left out. -/
def writeSlot (slot : α → ℕ) (m : ℕ) (s : List α × (ℕ → ℕ)) (x : α) : List α × (ℕ → ℕ) :=
  if slot x < m then
    (s.1.set (s.2 (slot x)) x, Function.update s.2 (slot x) (s.2 (slot x) + 1))
  else s

lemma slotStart_succ (size : ℕ → ℕ) (t : ℕ) : slotStart size (t + 1) = slotStart size t + size t :=
  sum_range_succ _ _

lemma length_flatMap_range (f : ℕ → List α) {size : ℕ → ℕ} {n : ℕ}
    (h : ∀ t < n, (f t).length = size t) : ((List.range n).flatMap f).length = slotStart size n := by
  induction n with
  | zero => rfl
  | succ n ih =>
    rw [List.range_succ, List.flatMap_append, List.length_append, List.flatMap_singleton,
      ih fun t ht => h t (Nat.lt_succ_of_lt ht), h n n.lt_succ_self, slotStart_succ]

lemma flatMap_set (f : ℕ → List α) {m t i : ℕ} (ht : t < m) (hi : i < (f t).length) (x : α) :
    ((List.range m).flatMap f).set (slotStart (fun u => (f u).length) t + i) x =
      (List.range m).flatMap (Function.update f t ((f t).set i x)) := by
  have hlength : ∀ n, ((List.range n).flatMap f).length = slotStart (fun u => (f u).length) n :=
    fun n => length_flatMap_range f fun _ _ => rfl
  induction m with
  | zero => exact absurd ht (Nat.not_lt_zero t)
  | succ m ih =>
    rw [List.range_succ, List.flatMap_append, List.flatMap_append, List.flatMap_singleton,
      List.flatMap_singleton]
    rcases Nat.lt_succ_iff_lt_or_eq.1 ht with hlt | rfl
    · have hindex : slotStart (fun u => (f u).length) t + i < ((List.range m).flatMap f).length := by
        rw [hlength]
        have hle := sum_le_sum_of_subset (f := fun u => (f u).length)
          (range_subset_range.2 (Nat.succ_le_of_lt hlt))
        rw [sum_range_succ] at hle
        exact (Nat.add_lt_add_left hi _).trans_le hle
      rw [List.set_append_left _ _ hindex, ih hlt, Function.update_of_ne (Nat.ne_of_gt hlt)]
    · have hfront : (List.range t).flatMap (Function.update f t ((f t).set i x)) =
          (List.range t).flatMap f := by
        refine List.flatMap_congr fun u hu => ?_
        rw [Function.update_of_ne (Nat.ne_of_lt (List.mem_range.1 hu))]
      rw [List.set_append_right _ _ (by rw [hlength]; exact Nat.le_add_right _ _), hlength,
        Nat.add_sub_cancel_left, Function.update_self, hfront]

/-- The array after the first elements were written: what is not written yet is filled. -/
def layout (slot : α → ℕ) (fill : α) (size : ℕ → ℕ) (front : List α) (t : ℕ) : List α :=
  front.filter (fun x => slot x = t) ++
    List.replicate (size t - front.countP fun x => slot x = t) fill

variable {slot : α → ℕ} {m : ℕ}

lemma length_layout (fill : α) {size : ℕ → ℕ} {front : List α} {t : ℕ}
    (h : front.countP (fun y => slot y = t) ≤ size t) :
    (layout slot fill size front t).length = size t := by
  rw [layout, List.length_append, List.length_replicate, ← List.countP_eq_length_filter]
  omega

lemma layout_concat_of_ne (fill : α) (size : ℕ → ℕ) (front : List α) {x : α} {t : ℕ}
    (ht : slot x ≠ t) :
    layout slot fill size (front ++ [x]) t = layout slot fill size front t := by
  have hx : ¬decide (slot x = t) = true := by simpa using ht
  rw [layout, layout, List.filter_append, List.countP_append, List.filter_singleton,
    List.countP_singleton, if_neg hx, Bool.eq_false_iff.2 hx]
  simp

lemma layout_concat_self (fill : α) {size : ℕ → ℕ} {front : List α} {x : α}
    (h : front.countP (fun y => slot y = slot x) < size (slot x)) :
    layout slot fill size (front ++ [x]) (slot x) =
      (layout slot fill size front (slot x)).set (front.countP fun y => slot y = slot x) x := by
  obtain ⟨n, hn⟩ : ∃ n, size (slot x) - front.countP (fun y => slot y = slot x) = n + 1 :=
    Nat.exists_eq_succ_of_ne_zero (by omega)
  have hx : decide (slot x = slot x) = true := decide_eq_true rfl
  have hlength : (front.filter fun y => slot y = slot x).length =
      front.countP fun y => slot y = slot x := List.countP_eq_length_filter.symm
  rw [layout, layout, List.filter_append, List.countP_append, List.filter_singleton,
    List.countP_singleton, if_pos hx, hx, hn, List.replicate_succ, ← hlength,
    List.set_append_right _ _ (Nat.le_refl _), Nat.sub_self, List.set_cons_zero]
  rw [hlength, show size (slot x) - (front.countP (fun y => slot y = slot x) + 1) = n by omega,
    List.append_assoc]
  rfl

lemma writeSlot_layout (fill : α) {size : ℕ → ℕ} {front : List α} {x : α} {ptrs : ℕ → ℕ}
    (hsize : ∀ t < m, (front ++ [x]).countP (fun y => slot y = t) ≤ size t)
    (hptrs : ∀ t < m, ptrs t = slotStart size t + front.countP fun y => slot y = t) :
    ∃ ptrs', writeSlot slot m ((List.range m).flatMap (layout slot fill size front), ptrs) x =
        ((List.range m).flatMap (layout slot fill size (front ++ [x])), ptrs') ∧
      ∀ t < m, ptrs' t = slotStart size t + (front ++ [x]).countP fun y => slot y = t := by
  have hcount : ∀ t, (front ++ [x]).countP (fun y => slot y = t) =
      front.countP (fun y => slot y = t) + if slot x = t then 1 else 0 := by
    intro t
    rw [List.countP_append, List.countP_singleton]
    simp
  have hfront : ∀ t < m, front.countP (fun y => slot y = t) ≤ size t := fun t ht =>
    (Nat.le_add_right _ _).trans ((hcount t).ge.trans (hsize t ht))
  rw [writeSlot]
  split_ifs with hx
  · refine ⟨_, Prod.ext ?_ rfl, fun t ht => ?_⟩
    · have hlt : front.countP (fun y => slot y = slot x) < size (slot x) := by
        have hle := hsize (slot x) hx
        rw [hcount, if_pos rfl] at hle
        exact hle
      have hstart : slotStart size (slot x) =
          slotStart (fun u => (layout slot fill size front u).length) (slot x) :=
        sum_congr rfl fun u hu =>
          (length_layout fill (hfront u ((mem_range.1 hu).trans hx))).symm
      dsimp only
      rw [hptrs _ hx, hstart, flatMap_set _ hx (by rwa [length_layout fill (hfront _ hx)]),
        ← layout_concat_self fill hlt]
      refine List.flatMap_congr fun t _ => ?_
      by_cases ht : t = slot x
      · rw [ht, Function.update_self]
      · rw [Function.update_of_ne ht, layout_concat_of_ne fill size front (Ne.symm ht)]
    · dsimp only
      rw [Function.update_apply, hcount]
      split_ifs with h₁ h₂ h₂
      · rw [h₁, hptrs _ hx, Nat.add_assoc]
      · exact absurd h₁.symm h₂
      · exact absurd h₂.symm h₁
      · rw [hptrs t ht, Nat.add_zero]
  · refine ⟨ptrs, Prod.ext (List.flatMap_congr fun t ht => ?_) rfl, fun t ht => ?_⟩
    · have hne : slot x ≠ t := fun h => hx (h ▸ List.mem_range.1 ht)
      exact (layout_concat_of_ne fill size front hne).symm
    · have hne : slot x ≠ t := fun h => hx (h ▸ ht)
      rw [hptrs t ht, hcount, if_neg hne, Nat.add_zero]

lemma distribute_eq (fill : α) (l : List α) {size : ℕ → ℕ}
    (hsize : ∀ t < m, size t = l.countP fun y => slot y = t) {ptrs : ℕ → ℕ}
    (hptrs : ∀ t < m, ptrs t = slotStart size t) :
    (l.foldl (writeSlot slot m) (List.replicate (slotStart size m) fill, ptrs)).1 =
      (List.range m).flatMap fun t => l.filter fun y => slot y = t := by
  have hrun : ∀ rest front ptrs, front ++ rest = l →
      (∀ t < m, ptrs t = slotStart size t + front.countP fun y => slot y = t) →
      (rest.foldl (writeSlot slot m)
        ((List.range m).flatMap (layout slot fill size front), ptrs)).1 =
          (List.range m).flatMap (layout slot fill size l) := by
    intro rest
    induction rest with
    | nil =>
      intro front ptrs hl _
      rw [List.foldl_nil, ← hl, List.append_nil]
    | cons x rest ih =>
      intro front ptrs hl hptrs
      have hle : ∀ t < m, (front ++ [x]).countP (fun y => slot y = t) ≤ size t := by
        intro t ht
        have hwhole := hsize t ht
        rw [← hl, List.append_cons, List.countP_append] at hwhole
        omega
      obtain ⟨ptrs', hwrite, hptrs'⟩ := writeSlot_layout fill hle hptrs
      rw [List.foldl_cons, hwrite]
      exact ih (front ++ [x]) ptrs' (by rw [← hl, ← List.append_cons]) hptrs'
  have hempty : List.replicate (slotStart size m) fill =
      (List.range m).flatMap (layout slot fill size []) := by
    clear hptrs hrun hsize
    induction m with
    | zero => rfl
    | succ m ih =>
      rw [List.range_succ, List.flatMap_append, ← ih, List.flatMap_singleton, slotStart,
        sum_range_succ, List.replicate_add]
      rfl
  have hfull : ∀ t < m, layout slot fill size l t = l.filter fun y => slot y = t := by
    intro t ht
    rw [layout, hsize t ht, Nat.sub_self, List.replicate_zero, List.append_nil]
  rw [hempty, hrun l [] ptrs rfl fun t ht => by rw [hptrs t ht]; rfl]
  exact List.flatMap_congr fun t ht => hfull t (List.mem_range.1 ht)

lemma flatMap_filter_perm (slot : α → ℕ) (m : ℕ) (l : List α) :
    ((List.range m).flatMap fun t => l.filter fun x => slot x = t).Perm
      (l.filter fun x => slot x < m) := by
  induction m with
  | zero => simp
  | succ m ih =>
    have hlow : (l.filter fun x => slot x < m + 1).filter (fun x => slot x < m) =
        l.filter fun x => slot x < m := by
      rw [List.filter_filter]
      refine List.filter_congr fun x _ => ?_
      rw [Bool.eq_iff_iff, Bool.and_eq_true, decide_eq_true_iff, decide_eq_true_iff]
      omega
    have hhigh : (l.filter fun x => slot x < m + 1).filter (fun x => !decide (slot x < m)) =
        l.filter fun x => slot x = m := by
      rw [List.filter_filter]
      refine List.filter_congr fun x _ => ?_
      rw [Bool.eq_iff_iff, Bool.and_eq_true, Bool.not_eq_true', decide_eq_false_iff_not,
        decide_eq_true_iff, decide_eq_true_iff]
      omega
    rw [List.range_succ, List.flatMap_append, List.flatMap_singleton]
    have hsplit := List.filter_append_perm (fun x => decide (slot x < m))
      (l.filter fun x => slot x < m + 1)
    rw [hlow, hhigh] at hsplit
    exact (ih.append_right _).trans hsplit

end IFairy
