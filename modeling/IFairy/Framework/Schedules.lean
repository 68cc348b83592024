import IFairy.Framework.JobPool
import Mathlib.Data.Nat.ModEq

/-!
# Four ways to hand out numbered jobs

* `sharedCounter`: one counter, each draw a fetch-and-add;
* `strided`: worker `t` takes `t`, `t + nth`, `t + 2 * nth`, …;
* `ranged`: worker `t` takes the numbers between two boundaries;
* `ownThenShared`: worker `t` takes `t` first and draws from a counter that starts at `nth` then.

The second and the third are loops over a counter of the worker's own, `privateCounter`.

Each comes with its `Dispenser.Law`, so that the results on pools apply to it.
-/

namespace IFairy

variable {nth : ℕ}

/-! ## One shared counter -/

/-- `job = next_job->fetch_add(1); job < jobs`. -/
def sharedCounter (nth jobs : ℕ) : Dispenser nth ℕ where
  init := 0
  draw _ c := (if c < jobs then some c else none, c + 1)

/-- The counter hands out its values in order; a worker is refused once it has passed `jobs`. -/
def sharedCounterLaw (hnth : 0 < nth) (jobs : ℕ) : (sharedCounter nth jobs).Law jobs where
  Valid _ := True
  handed c := Finset.range (min c jobs)
  Refused c _ := jobs ≤ c
  valid_init := trivial
  handed_init := by simp [sharedCounter]
  valid_draw _ := trivial
  draw_some := by
    intro c t j c' _ hdraw
    simp only [sharedCounter, Prod.mk.injEq, Option.ite_none_right_eq_some, Option.some.injEq]
      at hdraw
    obtain ⟨⟨hlt, rfl⟩, rfl⟩ := hdraw
    refine ⟨hlt, by simp, ?_⟩
    rw [Nat.min_eq_left hlt, Nat.min_eq_left hlt.le, Finset.range_add_one]
  draw_none := by
    intro c t c' _ hdraw
    simp only [sharedCounter, Prod.mk.injEq, ite_eq_right_iff, reduceCtorEq, imp_false] at hdraw
    obtain ⟨hge, rfl⟩ := hdraw
    refine ⟨?_, by omega⟩
    rw [Nat.min_eq_right (by omega), Nat.min_eq_right (by omega)]
  refused_draw _ h := Nat.le_succ_of_le h
  complete := by
    intro c _ h
    rw [Nat.min_eq_right (h ⟨0, hnth⟩)]

/-! ## One private counter per worker -/

/-- `for (job = first ith; job < stop ith; job += inc)`. -/
def privateCounter (first stop : Fin nth → ℕ) (inc : ℕ) : Dispenser nth (Fin nth → ℕ) where
  init := first
  draw t next :=
    if next t < stop t then (some (next t), Function.update next t (next t + inc))
    else (none, next)

section PrivateCounter

variable {first stop : Fin nth → ℕ} {inc : ℕ} {next next' : Fin nth → ℕ} {t : Fin nth}

lemma privateCounter_draw_some {j : ℕ}
    (h : (privateCounter first stop inc).draw t next = (some j, next')) :
    next t < stop t ∧ j = next t ∧ next' = Function.update next t (next t + inc) := by
  by_cases hlt : next t < stop t
  · simp only [privateCounter, if_pos hlt, Prod.mk.injEq, Option.some.injEq] at h
    exact ⟨hlt, h.1.symm, h.2.symm⟩
  · simp [privateCounter, hlt] at h

lemma privateCounter_draw_none
    (h : (privateCounter first stop inc).draw t next = (none, next')) :
    stop t ≤ next t ∧ next' = next := by
  by_cases hlt : next t < stop t
  · simp [privateCounter, hlt] at h
  · simp only [privateCounter, if_neg hlt, Prod.mk.injEq, true_and] at h
    exact ⟨Nat.le_of_not_lt hlt, h.symm⟩

lemma privateCounter_draw_snd (u : Fin nth) :
    ((privateCounter first stop inc).draw t next).2 u =
      if u = t ∧ next t < stop t then next t + inc else next u := by
  by_cases hlt : next t < stop t
  · by_cases hut : u = t
    · subst hut
      simp [privateCounter, hlt]
    · simp [privateCounter, hlt, hut]
  · simp [privateCounter, hlt]

variable (stop) in
lemma privateCounter_refused {u : Fin nth} (h : stop u ≤ next u) :
    stop u ≤ ((privateCounter first stop inc).draw t next).2 u := by
  rw [privateCounter_draw_snd]
  split_ifs with hut
  · obtain ⟨rfl, hlt⟩ := hut
    omega
  · exact h

end PrivateCounter

/-! ## Striding by the number of workers -/

/-- `for (job = ith; job < jobs; job += nth)`. -/
def strided (nth jobs : ℕ) : Dispenser nth (Fin nth → ℕ) :=
  privateCounter (fun t => t) (fun _ => jobs) nth

/-- The jobs below a worker's counter in its residue class. -/
def stridedHanded (hnth : 0 < nth) (jobs : ℕ) (next : Fin nth → ℕ) : Finset ℕ :=
  (Finset.range jobs).filter fun j => j < next ⟨j % nth, Nat.mod_lt j hnth⟩

lemma stridedHanded_update {jobs : ℕ} (hnth : 0 < nth) {next : Fin nth → ℕ} {t : Fin nth}
    (hvalid : next t % nth = t) (hlt : next t < jobs) :
    stridedHanded hnth jobs (Function.update next t (next t + nth)) =
      insert (next t) (stridedHanded hnth jobs next) := by
  have hclass : (⟨next t % nth, Nat.mod_lt _ hnth⟩ : Fin nth) = t := Fin.ext hvalid
  ext i
  simp only [stridedHanded, Finset.mem_filter, Finset.mem_range, Finset.mem_insert]
  by_cases hi : (⟨i % nth, Nat.mod_lt i hnth⟩ : Fin nth) = t
  · -- in the worker's own class the next number after `next t` is `next t + nth`
    have hmod : next t ≡ i [MOD nth] := by
      rw [Nat.ModEq, hvalid, ← hi]
    have hle : next t < i → next t + nth ≤ i := hmod.add_le_of_lt
    rw [hi, Function.update_self]
    omega
  · rw [Function.update_of_ne hi]
    have hne : i ≠ next t := fun heq => hi (by subst heq; exact hclass)
    simp [hne]

/-- The strided loop, worker by worker. -/
def stridedLaw (hnth : 0 < nth) (jobs : ℕ) : (strided nth jobs).Law jobs where
  Valid next := ∀ t, next t % nth = t
  handed := stridedHanded hnth jobs
  Refused next t := jobs ≤ next t
  valid_init t := Nat.mod_eq_of_lt t.2
  handed_init := by
    refine Finset.filter_eq_empty_iff.mpr fun j _ => ?_
    simpa [strided, privateCounter] using Nat.mod_le j nth
  valid_draw := by
    intro next t hvalid u
    rw [strided, privateCounter_draw_snd]
    split_ifs with hut
    · rw [Nat.add_mod_right, hvalid, hut.1]
    · exact hvalid u
  draw_some := by
    intro next t j next' hvalid hdraw
    obtain ⟨hlt, rfl, rfl⟩ := privateCounter_draw_some hdraw
    have hclass : (⟨next t % nth, Nat.mod_lt _ hnth⟩ : Fin nth) = t := Fin.ext (hvalid t)
    exact ⟨hlt, by simp [stridedHanded, hclass], stridedHanded_update hnth (hvalid t) hlt⟩
  draw_none := by
    intro next t next' _ hdraw
    obtain ⟨hle, rfl⟩ := privateCounter_draw_none hdraw
    exact ⟨rfl, hle⟩
  refused_draw _ hu := privateCounter_refused (fun _ => jobs) hu
  complete := by
    intro next _ h
    refine Finset.filter_true_of_mem fun j hj => ?_
    exact lt_of_lt_of_le (Finset.mem_range.mp hj) (h _)

/-! ## A contiguous range per worker -/

/-- `for (index = bound ith; index < bound (ith + 1); ++index)`. -/
def ranged (nth : ℕ) (bound : ℕ → ℕ) : Dispenser nth (Fin nth → ℕ) :=
  privateCounter (fun t => bound t) (fun t => bound (t + 1)) 1

/-- The numbers between a worker's lower boundary and its counter. -/
def rangedHanded (bound : ℕ → ℕ) (next : Fin nth → ℕ) : Finset ℕ :=
  (Finset.range (bound nth)).filter fun i => ∃ t : Fin nth, bound t ≤ i ∧ i < next t

lemma range_unique {bound : ℕ → ℕ} (hmono : Monotone bound) {t u i : ℕ} (ht : bound t ≤ i)
    (ht' : i < bound (t + 1)) (hu : bound u ≤ i) (hu' : i < bound (u + 1)) : t = u := by
  rcases Nat.lt_trichotomy t u with htu | htu | htu
  · have hle : bound (t + 1) ≤ bound u := hmono htu
    omega
  · exact htu
  · have hle : bound (u + 1) ≤ bound t := hmono htu
    omega

lemma exists_range_of_lt {bound : ℕ → ℕ} (hzero : bound 0 = 0) {i : ℕ} :
    ∀ {n : ℕ}, i < bound n → ∃ t < n, bound t ≤ i ∧ i < bound (t + 1)
  | 0, h => by omega
  | n + 1, h => by
      by_cases hn : i < bound n
      · obtain ⟨t, ht, hbt⟩ := exists_range_of_lt hzero hn
        exact ⟨t, by omega, hbt⟩
      · exact ⟨n, by omega, by omega, h⟩

lemma rangedHanded_update {bound : ℕ → ℕ} {next : Fin nth → ℕ} {t : Fin nth}
    (hle : bound t ≤ next t) (hbelow : next t < bound nth) :
    rangedHanded bound (Function.update next t (next t + 1)) =
      insert (next t) (rangedHanded bound next) := by
  ext i
  simp only [rangedHanded, Finset.mem_filter, Finset.mem_range, Finset.mem_insert]
  constructor
  · rintro ⟨hi, u, hu, hiu⟩
    by_cases hut : u = t
    · subst hut
      rw [Function.update_self] at hiu
      rcases Nat.lt_succ_iff_lt_or_eq.mp hiu with h | h
      · exact .inr ⟨hi, u, hu, h⟩
      · exact .inl h
    · rw [Function.update_of_ne hut] at hiu
      exact .inr ⟨hi, u, hu, hiu⟩
  · rintro (rfl | ⟨hi, u, hu, hiu⟩)
    · exact ⟨hbelow, t, hle, by rw [Function.update_self]; omega⟩
    · refine ⟨hi, u, hu, ?_⟩
      by_cases hut : u = t
      · subst hut
        rw [Function.update_self]
        omega
      · rwa [Function.update_of_ne hut]

/-- The contiguous split, worker by worker. -/
def rangedLaw {bound : ℕ → ℕ} (hzero : bound 0 = 0) (hmono : Monotone bound) :
    (ranged nth bound).Law (bound nth) where
  Valid next := ∀ u : Fin nth, bound u ≤ next u ∧ next u ≤ bound (u + 1)
  handed := rangedHanded bound
  Refused next t := bound (t + 1) ≤ next t
  valid_init t := ⟨le_rfl, hmono (Nat.le_succ t)⟩
  handed_init := by
    refine Finset.filter_eq_empty_iff.mpr fun j _ => ?_
    rintro ⟨t, hle, hlt⟩
    exact absurd hle (Nat.not_le_of_lt hlt)
  valid_draw := by
    intro next t hvalid u
    have hu := hvalid u
    rw [ranged, privateCounter_draw_snd]
    split_ifs with hut
    · obtain ⟨rfl, hlt⟩ := hut
      omega
    · exact hu
  draw_some := by
    intro next t j next' hvalid hdraw
    obtain ⟨hlt, rfl, rfl⟩ := privateCounter_draw_some hdraw
    have hbelow : next t < bound nth := lt_of_lt_of_le hlt (hmono t.2)
    refine ⟨hbelow, ?_, rangedHanded_update (hvalid t).1 hbelow⟩
    simp only [rangedHanded, Finset.mem_filter, not_and, not_exists]
    intro _ u hu hlt'
    have hut := Fin.ext (range_unique hmono hu (lt_of_lt_of_le hlt' (hvalid u).2) (hvalid t).1 hlt)
    subst hut
    omega
  draw_none := by
    intro next t next' _ hdraw
    obtain ⟨hle, rfl⟩ := privateCounter_draw_none hdraw
    exact ⟨rfl, hle⟩
  refused_draw _ hu := privateCounter_refused (fun t : Fin nth => bound (t + 1)) hu
  complete := by
    intro next hvalid h
    refine Finset.filter_true_of_mem fun i hi => ?_
    obtain ⟨t, ht, hle, hlt⟩ := exists_range_of_lt hzero (Finset.mem_range.mp hi)
    exact ⟨⟨t, ht⟩, hle, lt_of_lt_of_le hlt (h ⟨t, ht⟩)⟩

/-! ## One's own number first, then a shared counter -/

/-- The shared counter, and which workers have yet to take their own number. -/
structure OwnThenShared (nth : ℕ) where
  shared : ℕ
  fresh : Fin nth → Bool

/-- `for (job = ith; job < jobs; job = counter++) { …; if (nth >= jobs) break; }`, the counter
starting at `nth`. -/
def ownThenShared (nth jobs : ℕ) : Dispenser nth (OwnThenShared nth) where
  init := ⟨nth, fun _ => true⟩
  draw t c :=
    if c.fresh t then
      (if t < jobs then some t else none, { c with fresh := Function.update c.fresh t false })
    else if jobs ≤ nth then (none, c)
    else (if c.shared < jobs then some c.shared else none, { c with shared := c.shared + 1 })

section OwnThenShared

variable {jobs : ℕ} {c c' : OwnThenShared nth} {t : Fin nth}

lemma ownThenShared_draw (jobs : ℕ) (t : Fin nth) (c : OwnThenShared nth) :
    (c.fresh t = true ∧ (ownThenShared nth jobs).draw t c =
        (if t < jobs then some t.val else none,
          { c with fresh := Function.update c.fresh t false })) ∨
      (c.fresh t = false ∧ jobs ≤ nth ∧ (ownThenShared nth jobs).draw t c = (none, c)) ∨
      (c.fresh t = false ∧ nth < jobs ∧ (ownThenShared nth jobs).draw t c =
        (if c.shared < jobs then some c.shared else none, { c with shared := c.shared + 1 })) := by
  cases hfresh : c.fresh t with
  | true => exact .inl ⟨rfl, by simp [ownThenShared, hfresh]⟩
  | false =>
    rcases Nat.lt_or_ge nth jobs with h | h
    · exact .inr (.inr ⟨rfl, h, by simp [ownThenShared, hfresh, Nat.not_le.2 h]⟩)
    · exact .inr (.inl ⟨rfl, h, by simp [ownThenShared, hfresh, h]⟩)

/-- The own numbers taken and the numbers the counter has passed. -/
def ownThenSharedHanded (jobs : ℕ) (c : OwnThenShared nth) : Finset ℕ :=
  (Finset.range jobs).filter fun j =>
    (∃ t : Fin nth, t.val = j ∧ c.fresh t = false) ∨ nth ≤ j ∧ j < c.shared

lemma ownThenSharedHanded_own (hfresh : c.fresh t = true) (ht : t < jobs) :
    t.val ∉ ownThenSharedHanded jobs c ∧
      ownThenSharedHanded jobs { c with fresh := Function.update c.fresh t false } =
        insert t.val (ownThenSharedHanded jobs c) := by
  refine ⟨?_, ?_⟩
  · rintro h
    rcases (Finset.mem_filter.1 h).2 with ⟨u, hu, hnot⟩ | ⟨hle, -⟩
    · rw [Fin.ext hu, hfresh] at hnot
      cases hnot
    · exact absurd t.2 (Nat.not_lt.2 hle)
  · ext j
    simp only [ownThenSharedHanded, Finset.mem_filter, Finset.mem_range, Finset.mem_insert]
    constructor
    · rintro ⟨hj, ⟨u, rfl, hu⟩ | hcounter⟩
      · by_cases hut : u = t
        · exact .inl (congrArg _ hut)
        · rw [Function.update_of_ne hut] at hu
          exact .inr ⟨hj, .inl ⟨u, rfl, hu⟩⟩
      · exact .inr ⟨hj, .inr hcounter⟩
    · rintro (rfl | ⟨hj, ⟨u, rfl, hu⟩ | hcounter⟩)
      · exact ⟨ht, .inl ⟨t, rfl, Function.update_self ..⟩⟩
      · refine ⟨hj, .inl ⟨u, rfl, ?_⟩⟩
        by_cases hut : u = t
        · rw [hut, Function.update_self]
        · rw [Function.update_of_ne hut, hu]
      · exact ⟨hj, .inr hcounter⟩

lemma ownThenSharedHanded_shared (hvalid : nth ≤ c.shared) (hlt : c.shared < jobs) :
    c.shared ∉ ownThenSharedHanded jobs c ∧
      ownThenSharedHanded jobs { c with shared := c.shared + 1 } =
        insert c.shared (ownThenSharedHanded jobs c) := by
  refine ⟨?_, ?_⟩
  · rintro h
    rcases (Finset.mem_filter.1 h).2 with ⟨u, hu, -⟩ | ⟨-, hlt'⟩
    · exact absurd (hu ▸ u.2) (Nat.not_lt.2 hvalid)
    · exact lt_irrefl _ hlt'
  · ext j
    simp only [ownThenSharedHanded, Finset.mem_filter, Finset.mem_range, Finset.mem_insert]
    constructor
    · rintro ⟨hj, hown | ⟨hle, hjlt⟩⟩
      · exact .inr ⟨hj, .inl hown⟩
      · rcases Nat.lt_succ_iff_lt_or_eq.1 hjlt with h | h
        · exact .inr ⟨hj, .inr ⟨hle, h⟩⟩
        · exact .inl h
    · rintro (rfl | ⟨hj, hown | ⟨hle, hjlt⟩⟩)
      · exact ⟨hlt, .inr ⟨hvalid, Nat.lt_succ_self _⟩⟩
      · exact ⟨hj, .inl hown⟩
      · exact ⟨hj, .inr ⟨hle, Nat.lt_succ_of_lt hjlt⟩⟩

lemma ownThenSharedHanded_past (hle : jobs ≤ c.shared) :
    ownThenSharedHanded jobs { c with shared := c.shared + 1 } = ownThenSharedHanded jobs c := by
  ext j
  simp only [ownThenSharedHanded, Finset.mem_filter, Finset.mem_range]
  constructor
  · rintro ⟨hj, hown | ⟨hnth, -⟩⟩
    · exact ⟨hj, .inl hown⟩
    · exact ⟨hj, .inr ⟨hnth, by omega⟩⟩
  · rintro ⟨hj, hown | ⟨hnth, hlt⟩⟩
    · exact ⟨hj, .inl hown⟩
    · exact ⟨hj, .inr ⟨hnth, Nat.lt_succ_of_lt hlt⟩⟩

lemma ownThenSharedHanded_none (ht : jobs ≤ t) :
    ownThenSharedHanded jobs { c with fresh := Function.update c.fresh t false } =
      ownThenSharedHanded jobs c := by
  have hne : ∀ {u : Fin nth}, u.val < jobs → u ≠ t := fun hu heq => by
    subst heq
    omega
  ext j
  simp only [ownThenSharedHanded, Finset.mem_filter, Finset.mem_range]
  constructor
  · rintro ⟨hj, ⟨u, rfl, hu⟩ | hcounter⟩
    · rw [Function.update_of_ne (hne hj)] at hu
      exact ⟨hj, .inl ⟨u, rfl, hu⟩⟩
    · exact ⟨hj, .inr hcounter⟩
  · rintro ⟨hj, ⟨u, rfl, hu⟩ | hcounter⟩
    · exact ⟨hj, .inl ⟨u, rfl, by rw [Function.update_of_ne (hne hj), hu]⟩⟩
    · exact ⟨hj, .inr hcounter⟩

/-- The mixed way hands out every number once. -/
def ownThenSharedLaw (nth jobs : ℕ) (hnth : 0 < nth) : (ownThenShared nth jobs).Law jobs where
  Valid c := nth ≤ c.shared
  handed := ownThenSharedHanded jobs
  Refused c t := c.fresh t = false ∧ (jobs ≤ nth ∨ jobs ≤ c.shared)
  valid_init := le_rfl
  handed_init := by
    refine Finset.filter_eq_empty_iff.2 fun j _ => ?_
    rintro (⟨t, -, ht⟩ | ⟨hle, hlt⟩)
    · cases ht
    · exact absurd hlt (Nat.not_lt.2 hle)
  valid_draw := by
    intro c t hvalid
    rcases ownThenShared_draw jobs t c with ⟨-, h⟩ | ⟨-, -, h⟩ | ⟨-, -, h⟩
    · rw [h]
      exact hvalid
    · rw [h]
      exact hvalid
    · rw [h]
      exact Nat.le_succ_of_le hvalid
  draw_some := by
    intro c t j c' hvalid hdraw
    rcases ownThenShared_draw jobs t c with ⟨hfresh, h⟩ | ⟨-, -, h⟩ | ⟨-, -, h⟩
    · rw [h, Prod.mk.injEq, Option.ite_none_right_eq_some, Option.some.injEq] at hdraw
      obtain ⟨⟨ht, rfl⟩, rfl⟩ := hdraw
      exact ⟨ht, ownThenSharedHanded_own hfresh ht⟩
    · rw [h] at hdraw
      cases hdraw
    · rw [h, Prod.mk.injEq, Option.ite_none_right_eq_some, Option.some.injEq] at hdraw
      obtain ⟨⟨hlt, rfl⟩, rfl⟩ := hdraw
      exact ⟨hlt, ownThenSharedHanded_shared hvalid hlt⟩
  draw_none := by
    intro c t c' hvalid hdraw
    rcases ownThenShared_draw jobs t c with ⟨-, h⟩ | ⟨hfresh, hle, h⟩ | ⟨hfresh, -, h⟩
    · rw [h, Prod.mk.injEq, ite_eq_right_iff] at hdraw
      obtain ⟨ht, rfl⟩ := hdraw
      have hle : jobs ≤ t.val := Nat.le_of_not_lt fun hlt => nomatch ht hlt
      exact ⟨ownThenSharedHanded_none hle, Function.update_self .., .inl (hle.trans t.2.le)⟩
    · rw [h, Prod.mk.injEq] at hdraw
      obtain ⟨-, rfl⟩ := hdraw
      exact ⟨rfl, hfresh, .inl hle⟩
    · rw [h, Prod.mk.injEq, ite_eq_right_iff] at hdraw
      obtain ⟨hnone, rfl⟩ := hdraw
      have hle : jobs ≤ c.shared := Nat.le_of_not_lt fun hlt => nomatch hnone hlt
      exact ⟨ownThenSharedHanded_past hle, hfresh, .inr (Nat.le_succ_of_le hle)⟩
  refused_draw := by
    rintro c t u - ⟨hfresh, hover⟩
    rcases ownThenShared_draw jobs t c with ⟨-, h⟩ | ⟨-, -, h⟩ | ⟨-, -, h⟩
    · rw [h]
      have hkeep : Function.update c.fresh t false u = false := by
        by_cases hut : u = t
        · rw [hut, Function.update_self]
        · rw [Function.update_of_ne hut, hfresh]
      exact ⟨hkeep, hover⟩
    · rw [h]
      exact ⟨hfresh, hover⟩
    · rw [h]
      exact ⟨hfresh, hover.imp_right Nat.le_succ_of_le⟩
  complete := by
    intro c _ h
    refine Finset.filter_true_of_mem fun j hj => ?_
    have hjobs := Finset.mem_range.1 hj
    rcases Nat.lt_or_ge j nth with hlt | hge
    · exact .inl ⟨⟨j, hlt⟩, rfl, (h ⟨j, hlt⟩).1⟩
    · rcases (h ⟨0, hnth⟩).2 with hle | hle
      · omega
      · exact .inr ⟨hge, by omega⟩

end OwnThenShared

end IFairy
