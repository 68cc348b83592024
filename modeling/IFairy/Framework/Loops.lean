import Mathlib.Algebra.BigOperators.Intervals
import Mathlib.Data.List.TakeWhile
import Mathlib.Data.Nat.ModEq
import Mathlib.Tactic.Ring

/-!
# Loops

A C loop over a counter is a left fold over the list of its counter values.  Three shapes occur
again and again in numeric kernels, and each has one rule here:

* an accumulator that gains a term per iteration (`foldl_accumulate`);
* a state of which an iteration sets a part to a value that does not depend on the iteration
  (`foldl_read_of_cover`; `foldl_store_of_cover` for one address of a buffer);
* a nest of loops whose stores are all different (`nodup_flatMap_of_owner`).

`sum_range_mul` cuts a long sum into the blocks of a tiled traversal.

`whileLoop` runs a loop with a condition for a bounded number of rounds.  `exists_whileLoop` is its
rule: with a step that keeps an invariant and decreases a measure, as many rounds as the measure are
enough, and the invariant holds where the loop ends.
-/

namespace IFairy

/-- The counter values of `for (i = 0; i < stop; i += step)`. -/
def stepRange (stop step : ℕ) : List ℕ :=
  (List.range ((stop + step - 1) / step)).map (step * ·)

lemma stepRange_mul (n : ℕ) {step : ℕ} (hstep : 0 < step) :
    stepRange (n * step) step = (List.range n).map (step * ·) := by
  have hcount : (n * step + step - 1) / step = n := by
    rw [show n * step + step - 1 = step - 1 + step * n by rw [Nat.mul_comm n]; omega,
      Nat.add_mul_div_left _ _ hstep, Nat.div_eq_of_lt (by omega), Nat.zero_add]
  rw [stepRange, hcount]

lemma mem_stepRange {stop step i : ℕ} (hstep : 0 < step) :
    i ∈ stepRange stop step ↔ i < stop ∧ step ∣ i := by
  simp only [stepRange, List.mem_map, List.mem_range, Nat.lt_div_iff_mul_lt hstep]
  constructor
  · rintro ⟨a, ha, rfl⟩
    rw [Nat.mul_comm a] at ha
    exact ⟨by omega, Dvd.intro a rfl⟩
  · rintro ⟨hi, a, rfl⟩
    refine ⟨a, ?_, rfl⟩
    rw [Nat.mul_comm a]
    omega

lemma nodup_stepRange {stop step : ℕ} (hstep : 0 < step) : (stepRange stop step).Nodup :=
  List.nodup_range.map fun _ _ h => Nat.eq_of_mul_eq_mul_left hstep h

/-- The counter values of `for (g = g0; g < stop; g += gstep)`. -/
def fromRange (g0 stop gstep : ℕ) : List ℕ := (stepRange (stop - g0) gstep).map (g0 + ·)

lemma fromRange_one (n : ℕ) : fromRange 0 n 1 = List.range n := by
  simp [fromRange, stepRange]

lemma nodup_fromRange {g0 stop gstep : ℕ} (hstep : 0 < gstep) : (fromRange g0 stop gstep).Nodup :=
  (nodup_stepRange hstep).map fun _ _ h => Nat.add_left_cancel h

lemma mem_fromRange {g0 stop gstep g : ℕ} (hstep : 0 < gstep) :
    g ∈ fromRange g0 stop gstep ↔ g0 ≤ g ∧ g < stop ∧ gstep ∣ g - g0 := by
  simp only [fromRange, List.mem_map, mem_stepRange hstep]
  constructor
  · rintro ⟨a, ⟨ha, hdvd⟩, rfl⟩
    exact ⟨Nat.le_add_right _ _, by omega, by rwa [Nat.add_sub_cancel_left]⟩
  · rintro ⟨hle, hlt, hdvd⟩
    exact ⟨g - g0, ⟨by omega, hdvd⟩, Nat.add_sub_cancel' hle⟩

lemma mod_mem_fromRange {stop gstep g : ℕ} (hstep : 0 < gstep) (hg : g < stop) :
    g ∈ fromRange (g % gstep) stop gstep :=
  (mem_fromRange hstep).mpr ⟨Nat.mod_le g gstep, hg, Nat.dvd_sub_mod g⟩

lemma eq_mod_of_mem_fromRange {ith nth stop c : ℕ} (hith : ith < nth)
    (h : c ∈ fromRange ith stop nth) : ith = c % nth := by
  obtain ⟨hle, -, hdvd⟩ := (mem_fromRange (Nat.zero_lt_of_lt hith)).mp h
  have hmod : ith % nth = c % nth := (Nat.modEq_iff_dvd' hle).mpr hdvd
  rwa [Nat.mod_eq_of_lt hith] at hmod

lemma flatMap_range_pieces {bound : ℕ → ℕ} (hzero : bound 0 = 0) (hmono : Monotone bound) (n : ℕ) :
    ((List.range n).flatMap fun t => (List.range (bound (t + 1) - bound t)).map (bound t + ·)) =
      List.range (bound n) := by
  induction n with
  | zero => rw [hzero, List.range_zero, List.flatMap_nil]
  | succ n ih =>
    rw [List.range_succ, List.flatMap_append, ih, List.flatMap_singleton, ← List.range_add,
      Nat.add_sub_cancel' (hmono (Nat.le_succ n))]

lemma dropWhile_eq_filter {α : Type*} {p : α → Bool} {l : List α}
    (hp : l.Pairwise fun a b => p b = true → p a = true) :
    l.dropWhile p = l.filter fun a => !p a := by
  induction l with
  | nil => rfl
  | cons a l ih =>
    obtain ⟨ha, hl⟩ := List.pairwise_cons.1 hp
    cases hpa : p a with
    | true => simp [hpa, ih hl]
    | false =>
      have hall : ∀ b ∈ l, (!p b) = true := by
        intro b hb
        cases hpb : p b with
        | true => exact absurd (ha b hb hpb) (by simp [hpa])
        | false => rfl
      simp [hpa, List.filter_eq_self.2 hall]

lemma mem_take_of_lt {l : List ℕ} (hl : l.Pairwise (· < ·)) {m i j : ℕ} (hj : j ∈ l.take m)
    (hi : i ∈ l) (hij : i < j) : i ∈ l.take m := by
  rw [← List.take_append_drop m l] at hi hl
  rcases List.mem_append.1 hi with hi | hi
  · exact hi
  · have := (List.pairwise_append.1 hl).2.2 j hj i hi
    omega

lemma mem_takeWhile_range {p : ℕ → Bool} (hp : ∀ i j, i ≤ j → p j = true → p i = true) {n i : ℕ} :
    i ∈ (List.range n).takeWhile p ↔ i < n ∧ p i = true := by
  refine ⟨fun h => ⟨List.mem_range.mp ((List.takeWhile_prefix p).subset h),
    List.mem_takeWhile_imp h⟩, fun ⟨hi, hpi⟩ => ?_⟩
  have hsplit : List.range n = List.range (i + 1) ++ (List.range (n - (i + 1))).map (i + 1 + ·) := by
    rw [← List.range_add, Nat.add_sub_cancel' hi]
  rw [hsplit, List.takeWhile_append_of_pos fun j hj =>
    hp j i (Nat.lt_succ_iff.mp (List.mem_range.mp hj)) hpi]
  exact List.mem_append_left _ (List.mem_range.mpr i.lt_succ_self)

lemma le_foldl_max_iff {α : Type*} [LinearOrder α] (v : ℕ → α) (start x : α) (n : ℕ) :
    x ≤ (List.range n).foldl (fun m i => max m (v i)) start ↔
      x ≤ start ∨ ∃ i < n, x ≤ v i := by
  induction n with
  | zero => simp
  | succ n ih =>
    rw [List.range_succ, List.foldl_append, List.foldl_cons, List.foldl_nil, le_max_iff, ih, or_assoc]
    refine or_congr_right ⟨?_, ?_⟩
    · rintro (⟨i, hi, h⟩ | h)
      · exact ⟨i, Nat.lt_succ_of_lt hi, h⟩
      · exact ⟨n, Nat.lt_succ_self n, h⟩
    · rintro ⟨i, hi, h⟩
      rcases Nat.lt_succ_iff_lt_or_eq.mp hi with hi | rfl
      · exact .inl ⟨i, hi, h⟩
      · exact .inr h

lemma mul_add_div_mod {n a r : ℕ} (hr : r < n) : (a * n + r) / n = a ∧ (a * n + r) % n = r := by
  rw [Nat.mul_comm, Nat.mul_add_div (Nat.zero_lt_of_lt hr), Nat.div_eq_of_lt hr, Nat.add_zero,
    Nat.mul_add_mod, Nat.mod_eq_of_lt hr]
  exact ⟨rfl, rfl⟩

lemma mul_add_inj {n a b r s : ℕ} (hr : r < n) (hs : s < n) (h : a * n + r = b * n + s) :
    a = b ∧ r = s := by
  obtain ⟨ha, hra⟩ := mul_add_div_mod (a := a) hr
  obtain ⟨hb, hsb⟩ := mul_add_div_mod (a := b) hs
  rw [h] at ha hra
  exact ⟨ha.symm.trans hb, hra.symm.trans hsb⟩

lemma getElem?_flatMap_of_length {α β : Type*} {f : α → List β} {m i : ℕ} (hi : i < m) :
    ∀ (l : List α), (∀ a ∈ l, (f a).length = m) → ∀ s,
      (l.flatMap f)[s * m + i]? = l[s]?.bind fun a => (f a)[i]? := by
  intro l
  induction l with
  | nil => exact fun _ s => by simp
  | cons a l ih =>
    intro hlen s
    obtain ⟨ha, hl⟩ := List.forall_mem_cons.1 hlen
    rw [List.flatMap_cons]
    cases s with
    | zero =>
      rw [Nat.zero_mul, Nat.zero_add, List.getElem?_append_left (by omega)]
      rfl
    | succ s =>
      have hoff : (s + 1) * m + i = (f a).length + (s * m + i) := by
        rw [ha, Nat.succ_mul]
        omega
      rw [hoff, List.getElem?_append_right (Nat.le_add_right _ _), Nat.add_sub_cancel_left,
        ih hl, List.getElem?_cons_succ]

lemma getElem?_flatten_of_getElem? {β : Type*} {r : ℕ} {l : List β} :
    ∀ (ls : List (List β)) (k : ℕ), ls[k]? = some l → r < l.length →
      ls.flatten[((ls.take k).map List.length).sum + r]? = l[r]? := by
  intro ls
  induction ls with
  | nil => exact fun k h => by simp at h
  | cons a ls ih =>
    intro k hk hr
    rw [List.flatten_cons]
    cases k with
    | zero =>
      obtain rfl : a = l := by simpa using hk
      rw [List.take_zero, List.map_nil, List.sum_nil, Nat.zero_add, List.getElem?_append_left hr]
    | succ k =>
      rw [List.take_succ_cons, List.map_cons, List.sum_cons, Nat.add_assoc,
        List.getElem?_append_right (Nat.le_add_right _ _), Nat.add_sub_cancel_left]
      exact ih k (by simpa using hk) hr

lemma getElem?_filter_countP {β : Type*} {p : β → Bool} {b : β} (hb : p b = true) :
    ∀ (l : List β) (j : ℕ), l[j]? = some b →
      (l.filter p)[(l.take j).countP p]? = some b := by
  intro l
  induction l with
  | nil => exact fun j h => by simp at h
  | cons a l ih =>
    intro j hj
    cases j with
    | zero =>
      obtain rfl : a = b := by simpa using hj
      simp [hb]
    | succ j =>
      have hrest := ih j (by simpa using hj)
      cases ha : p a with
      | true => simpa [ha] using hrest
      | false => simpa [ha] using hrest

/-! ## Accumulators -/

section Accumulate

variable {M β : Type*} [AddCommMonoid M]

/-- An accumulator that gains `f i` at iteration `i < n` ends with the sum. -/
lemma foldl_accumulate (step : β → ℕ → β) (read : β → M) (f : ℕ → M) (n : ℕ)
    (hstep : ∀ s i, i < n → read (step s i) = read s + f i) (s : β) :
    read ((List.range n).foldl step s) = read s + ∑ i ∈ Finset.range n, f i := by
  induction n with
  | zero => simp
  | succ n ih =>
    rw [List.range_succ, List.foldl_append, List.foldl_cons, List.foldl_nil,
      hstep _ n n.lt_succ_self, ih fun s i hi => hstep s i (Nat.lt_succ_of_lt hi),
      Finset.sum_range_succ, add_assoc]

lemma sum_range_mul (f : ℕ → M) (n m : ℕ) :
    ∑ i ∈ Finset.range (n * m), f i =
      ∑ a ∈ Finset.range n, ∑ b ∈ Finset.range m, f (m * a + b) := by
  induction n with
  | zero => simp
  | succ n ih =>
    rw [Finset.sum_range_succ, ← ih, Nat.add_one_mul, Finset.sum_range_add, Nat.mul_comm n m]

lemma sum_range_pairs (f : ℕ → M) (n : ℕ) :
    ∑ i ∈ Finset.range n, (f (2 * i) + f (2 * i + 1)) = ∑ j ∈ Finset.range (n * 2), f j := by
  rw [sum_range_mul]
  refine Finset.sum_congr rfl fun i _ => ?_
  rw [Finset.sum_range_succ, Finset.sum_range_one]
  rfl

/-- An accumulator that gains the `m` terms of a block per iteration ends with the whole sum. -/
lemma foldl_stepRange_accumulate (step : β → ℕ → β) (read : β → M) (f : ℕ → M) {m : ℕ}
    (hm : 0 < m) (n : ℕ)
    (hstep : ∀ s a, a < n → read (step s (m * a)) = read s + ∑ j ∈ Finset.range m, f (m * a + j))
    (s : β) :
    read ((stepRange (n * m) m).foldl step s) = read s + ∑ i ∈ Finset.range (n * m), f i := by
  rw [stepRange_mul n hm, List.foldl_map, sum_range_mul]
  exact foldl_accumulate _ read _ n hstep s

end Accumulate

/-! ## Nested loops -/

lemma foldl_range_mul {τ : Type*} (f : τ → ℕ → τ) (n m : ℕ) (t : τ) :
    (List.range (n * m)).foldl f t =
      (List.range n).foldl (fun t a => (List.range m).foldl (fun t b => f t (m * a + b)) t) t := by
  induction n with
  | zero => rw [Nat.zero_mul]; rfl
  | succ n ih =>
    rw [Nat.succ_mul, List.range_add, List.foldl_append, ih, List.range_succ, List.foldl_append,
      List.foldl_map, Nat.mul_comm n m]
    rfl

lemma foldl_product {ι κ τ : Type*} (f : τ → ι × κ → τ) (l : List ι) (l' : List κ) (t : τ) :
    (l ×ˢ l').foldl f t = l.foldl (fun t a => l'.foldl (fun t b => f t (a, b)) t) t := by
  change (l.flatMap fun a => l'.map (Prod.mk a)).foldl f t = _
  rw [List.foldl_flatMap]
  simp only [List.foldl_map]

lemma foldl_congr_of_inv {ι τ : Type*} {f g : τ → ι → τ} {l : List ι} (inv : τ → Prop)
    (hstep : ∀ t i, i ∈ l → inv t → f t i = g t i ∧ inv (g t i)) {t : τ} (ht : inv t) :
    l.foldl f t = l.foldl g t := by
  induction l generalizing t with
  | nil => rfl
  | cons i l ih =>
    obtain ⟨heq, hinv⟩ := hstep t i List.mem_cons_self ht
    rw [List.foldl_cons, List.foldl_cons, heq]
    exact ih (fun t j hj => hstep t j (List.mem_cons_of_mem i hj)) hinv

/-! ## Stores -/

section Read

variable {ι σ β : Type*} (step : σ → ι → σ) (read : σ → β) (cover : ι → Prop) {l : List ι}

lemma foldl_read_of_not_cover (hskip : ∀ i ∈ l, ∀ s, read (step s i) = read s) (s : σ) :
    read (l.foldl step s) = read s := by
  induction l generalizing s with
  | nil => rfl
  | cons i l ih =>
    rw [List.foldl_cons, ih fun j hj => hskip j (List.mem_cons_of_mem i hj)]
    exact hskip i List.mem_cons_self s

lemma foldl_read_once (hl : l.Nodup) {i : ι} (hi : i ∈ l) (f : β → β)
    (hown : ∀ s, read (step s i) = f (read s))
    (hother : ∀ j ∈ l, j ≠ i → ∀ s, read (step s j) = read s) (s : σ) :
    read (l.foldl step s) = f (read s) := by
  obtain ⟨l₁, l₂, rfl⟩ := List.append_of_mem hi
  have hne : ∀ j ∈ l₁ ++ l₂, j ≠ i := fun j hj hji => by
    subst hji
    exact (List.nodup_cons.mp (List.nodup_middle.mp hl)).1 hj
  have hskip : ∀ j ∈ l₁ ++ l₂, ∀ s, read (step s j) = read s := fun j hj =>
    hother j (by simp only [List.mem_append, List.mem_cons] at hj ⊢; tauto) (hne j hj)
  rw [List.foldl_append, List.foldl_cons,
    foldl_read_of_not_cover step read fun j hj => hskip j (List.mem_append_right _ hj), hown,
    foldl_read_of_not_cover step read fun j hj => hskip j (List.mem_append_left _ hj)]

/-- When every iteration that touches a place leaves `v` there, the place ends with `v`. -/
lemma foldl_read_of_cover (v : β) (hcover : ∀ i ∈ l, cover i → ∀ s, read (step s i) = v)
    (hskip : ∀ i ∈ l, ¬ cover i → ∀ s, read (step s i) = read s) (h : ∃ i ∈ l, cover i) (s : σ) :
    read (l.foldl step s) = v := by
  induction l generalizing s with
  | nil => simp at h
  | cons i l ih =>
    have hcover' := fun j hj => hcover j (List.mem_cons_of_mem i hj)
    have hskip' := fun j hj => hskip j (List.mem_cons_of_mem i hj)
    rw [List.foldl_cons]
    by_cases hl : ∃ j ∈ l, cover j
    · exact ih hcover' hskip' hl _
    · have hi : cover i := by
        obtain ⟨j, hj, hja⟩ := h
        rcases List.mem_cons.mp hj with rfl | hj
        · exact hja
        · exact absurd ⟨j, hj, hja⟩ hl
      rw [foldl_read_of_not_cover step read fun j hj => hskip' j hj fun hja => hl ⟨j, hj, hja⟩]
      exact hcover i List.mem_cons_self hi s

end Read

lemma foldl_prod {ι α β : Type*} (f : α → ι → α) (g : β → ι → β) (l : List ι) (a : α) (b : β) :
    l.foldl (fun s i => (f s.1 i, g s.2 i)) (a, b) = (l.foldl f a, l.foldl g b) := by
  induction l generalizing a b with
  | nil => rfl
  | cons i l ih => exact ih (f a i) (g b i)

section Store

variable {α ι σ : Type*} (step : (α → σ) → ι → (α → σ)) (cover : ι → α → Prop) {l : List ι}

lemma foldl_store_of_not_cover
    (hskip : ∀ i ∈ l, ∀ mem a, ¬ cover i a → step mem i a = mem a) (mem : α → σ) {a : α}
    (ha : ∀ i ∈ l, ¬ cover i a) : l.foldl step mem a = mem a :=
  foldl_read_of_not_cover step (fun mem => mem a) (fun i hi mem => hskip i hi mem a (ha i hi)) mem

/-- When every iteration stores `g a` at the addresses `a` it covers, a covered address ends with
`g a`, whichever iteration stored last. -/
lemma foldl_store_of_cover (g : α → σ) (hcover : ∀ i ∈ l, ∀ mem a, cover i a → step mem i a = g a)
    (hskip : ∀ i ∈ l, ∀ mem a, ¬ cover i a → step mem i a = mem a) (mem : α → σ) {a : α}
    (ha : ∃ i ∈ l, cover i a) : l.foldl step mem a = g a :=
  foldl_read_of_cover step (fun mem => mem a) (fun i => cover i a) (g a)
    (fun i hi hia mem => hcover i hi mem a hia) (fun i hi hia mem => hskip i hi mem a hia) ha mem

/-- Single stores at the addresses `address i`. -/
lemma foldl_update_of_mem [DecidableEq α] (address : ι → α) (q : ι → σ) (g : α → σ)
    (hg : ∀ i ∈ l, q i = g (address i)) (mem : α → σ) {b : α} (hb : ∃ i ∈ l, address i = b) :
    l.foldl (fun mem i => Function.update mem (address i) (q i)) mem b = g b :=
  foldl_store_of_cover (fun mem i => Function.update mem (address i) (q i))
    (fun i b => address i = b) g
    (fun i hi mem b hb => by rw [← hb, Function.update_self, hg i hi])
    (fun _ _ _ _ hb => Function.update_of_ne (Ne.symm hb) _ _) mem hb

lemma foldl_update_of_not_mem [DecidableEq α] (address : ι → α) (q : ι → σ) (mem : α → σ) {b : α}
    (hb : ¬ ∃ i ∈ l, address i = b) :
    l.foldl (fun mem i => Function.update mem (address i) (q i)) mem b = mem b :=
  foldl_store_of_not_cover (fun mem i => Function.update mem (address i) (q i))
    (fun i b => address i = b) (fun _ _ _ _ hb => Function.update_of_ne (Ne.symm hb) _ _) mem
    fun i hi h => hb ⟨i, hi, h⟩

lemma foldl_update_of_inj [DecidableEq α] (address : ι → α) (q : ι → σ) (mem : α → σ) {i : ι}
    (hi : i ∈ l) (hinj : ∀ j ∈ l, address j = address i → j = i) :
    l.foldl (fun mem i => Function.update mem (address i) (q i)) mem (address i) = q i := by
  refine foldl_read_of_cover (fun mem i => Function.update mem (address i) (q i))
    (fun mem => mem (address i)) (fun j => address j = address i) (q i) (fun j hj heq mem => ?_)
    (fun _ _ hne _ => Function.update_of_ne (Ne.symm hne) _ _) ⟨i, hi, rfl⟩ mem
  rw [hinj j hj heq, Function.update_self]

lemma foldl_update_range (f : ℕ → σ → σ) (n : ℕ) (mem : ℕ → σ) (a : ℕ) :
    (List.range n).foldl (fun mem i => Function.update mem i (f i (mem i))) mem a =
      if a < n then f a (mem a) else mem a := by
  induction n with
  | zero => rfl
  | succ n ih =>
    rw [List.range_succ, List.foldl_append, List.foldl_cons, List.foldl_nil]
    rcases Nat.lt_trichotomy a n with h | rfl | h
    · rw [Function.update_of_ne h.ne, ih, if_pos h, if_pos (Nat.lt_succ_of_lt h)]
    · have hold := foldl_store_of_not_cover
        (fun (mem : ℕ → σ) i => Function.update mem i (f i (mem i))) (fun i b => i = b)
        (fun i _ mem b hb => Function.update_of_ne (fun h => hb h.symm) _ _) mem
        (a := a) (l := List.range a) fun i hi => (List.mem_range.mp hi).ne
      rw [Function.update_self, hold, if_pos a.lt_succ_self]
    · rw [Function.update_of_ne h.ne', ih, if_neg (not_lt.mpr h.le), if_neg (by omega)]

end Store

/-! ## Distinct stores -/

section Owner

variable {α β : Type*}

lemma nodup_flatMap_of_owner {l : List α} {f : α → List β} (owner : β → α) (hl : l.Nodup)
    (hf : ∀ a ∈ l, (f a).Nodup) (howner : ∀ a ∈ l, ∀ b ∈ f a, owner b = a) :
    (l.flatMap f).Nodup := by
  rw [List.nodup_flatMap]
  refine ⟨hf, hl.imp_of_mem fun {a b} ha hb hne => ?_⟩
  intro c hca hcb
  exact hne ((howner a ha c hca).symm.trans (howner b hb c hcb))

end Owner

/-! ## Loops that can fail -/

section Fail

variable {α β : Type*} {f : α → Option β}

lemma mapM_eq_some_iff {l : List α} {r : List β} : l.mapM f = some r ↔ l.map f = r.map some := by
  induction l generalizing r with
  | nil =>
    cases r with
    | nil => exact iff_of_true rfl rfl
    | cons b r => exact iff_of_false (by simp) (by simp)
  | cons a l ih =>
    rw [List.mapM_cons]
    cases r with
    | nil => exact iff_of_false (by simp [Option.bind_eq_some_iff]) (by simp)
    | cons b r =>
      rw [List.map_cons, List.map_cons, List.cons.injEq, ← ih]
      simp [Option.bind_eq_some_iff]

lemma mapM_range_getD {g : ℕ → Option β} {n : ℕ} {r : List β} (h : (List.range n).mapM g = some r) :
    r.length = n ∧ ∀ i < n, ∀ d, g i = some (r.getD i d) := by
  have hmap := mapM_eq_some_iff.1 h
  have hlen : n = r.length := by simpa using congrArg List.length hmap
  refine ⟨hlen.symm, fun i hi d => ?_⟩
  have hget := congrArg (fun l => l[i]?) hmap
  simpa [hi, List.getElem?_eq_getElem (hlen ▸ hi)] using hget

end Fail

variable {σ : Type*} {cond : σ → Bool} {step : σ → σ}

/-- `while (cond(s)) s = step(s);`, nothing when the rounds do not suffice. -/
def whileLoop (cond : σ → Bool) (step : σ → σ) : ℕ → σ → Option σ
  | 0, s => if cond s then none else some s
  | fuel + 1, s => if cond s then whileLoop cond step fuel (step s) else some s

lemma whileLoop_map {τ : Type*} {cond' : τ → Bool} {step' : τ → τ} {f : τ → σ}
    (hcond : ∀ s, cond (f s) = cond' s) (hstep : ∀ s, step (f s) = f (step' s)) (fuel : ℕ) (s : τ) :
    whileLoop cond step fuel (f s) = (whileLoop cond' step' fuel s).map f := by
  induction fuel generalizing s with
  | zero =>
    rw [whileLoop, whileLoop, hcond]
    cases cond' s
    · rfl
    · rfl
  | succ fuel ih =>
    rw [whileLoop, whileLoop, hcond, hstep]
    cases cond' s
    · rfl
    · exact ih (step' s)

theorem exists_whileLoop (Inv : σ → Prop) (measure : σ → ℕ)
    (hstep : ∀ s, Inv s → cond s = true → Inv (step s) ∧ measure (step s) < measure s)
    {fuel : ℕ} {s : σ} (hs : Inv s) (hfuel : measure s ≤ fuel) :
    ∃ s', whileLoop cond step fuel s = some s' ∧ Inv s' ∧ cond s' = false := by
  induction fuel generalizing s with
  | zero =>
    cases hcond : cond s with
    | false => exact ⟨s, by rw [whileLoop, hcond]; rfl, hs, hcond⟩
    | true =>
      have hlt := (hstep s hs hcond).2
      omega
  | succ fuel ih =>
    cases hcond : cond s with
    | false => exact ⟨s, by rw [whileLoop, hcond]; rfl, hs, hcond⟩
    | true =>
      obtain ⟨hinv, hlt⟩ := hstep s hs hcond
      obtain ⟨s', hs', hend⟩ := ih hinv (by omega)
      exact ⟨s', by rw [whileLoop, hcond]; exact hs', hend⟩

end IFairy
