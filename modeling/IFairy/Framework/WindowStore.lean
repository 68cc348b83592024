import Mathlib.Order.Interval.Set.OrdConnectedLinear

/-!
# Stores that slide with a window

A store keeps a set of positions for every owner, and further positions are to be added to it.
Room for new positions is made by reusing old ones; when a position of an owner is reused, all
positions of that owner at or below it are dropped with it (`WindowStore.place`).  A position may be
reused when it is at least a window length `w` behind the next position of its owner
(`WindowStore.Reusable`).

`WindowStore.Inv` says that the positions of an owner, stored and pending, have no gap, that the
pending ones follow the stored ones, and that no pending position and no later one is within a
window length of a reused position.  Each operation of such a store keeps it: placing
(`Inv.place`), dropping the newest positions again (`Inv.cut`), losing oldest ones (`Inv.trim`) and
adding pending positions to an idle store (`Inv.extend`).
-/

namespace IFairy

namespace WindowStore

variable {ι : Type*} {w : ℤ} {C C' N P : ι → Set ℤ} {O L : Set (ι × ℤ)}

/-- The positions `O` are reused for the positions `N`. -/
def place (C : ι → Set ℤ) (O : Set (ι × ℤ)) (N : ι → Set ℤ) (i : ι) : Set ℤ :=
  {c ∈ C i | ∀ q, (i, q) ∈ O → q < c} ∪ N i

/-- The same when new positions may be among those that are dropped. -/
def slide (C : ι → Set ℤ) (O : Set (ι × ℤ)) (N : ι → Set ℤ) (i : ι) : Set ℤ :=
  {c ∈ C i ∪ N i | ∀ q, (i, q) ∈ O → q < c}

/-- The positions of `O` are stored and a window length behind the next position. -/
def Reusable (w : ℤ) (C : ι → Set ℤ) (O : Set (ι × ℤ)) : Prop :=
  ∀ e ∈ O, e.2 ∈ C e.1 ∧ ∀ M, IsGreatest (C e.1) M → e.2 + w ≤ M + 1

/-- The invariant of stored positions `C`, pending positions `P` and reused positions `L`. -/
structure Inv (w : ℤ) (C P : ι → Set ℤ) (L : Set (ι × ℤ)) : Prop where
  connected : ∀ i, (C i ∪ P i).OrdConnected
  before : ∀ i, ∀ c ∈ C i, ∀ p ∈ P i, c < p
  pending : ∀ e ∈ L, ∀ p ∈ P e.1, e.2 + w ≤ p
  newest : ∀ e ∈ L, ∀ M, IsGreatest (C e.1) M → e.2 + w ≤ M + 1
  alive : 1 < w → ∀ e ∈ L, (C e.1).Nonempty

/-- `A` has the newest positions of `S`, and some when `S` has. -/
structure KeepsNewest (S A : Set ℤ) : Prop where
  subset : A ⊆ S
  upper : ∀ p ∈ A, ∀ q ∈ S, p ≤ q → q ∈ A
  nonempty : S.Nonempty → A.Nonempty

lemma KeepsNewest.refl (S : Set ℤ) : KeepsNewest S S := ⟨subset_rfl, fun _ _ _ hq _ => hq, id⟩

lemma KeepsNewest.isGreatest_iff {S A : Set ℤ} (h : KeepsNewest S A) {M : ℤ} :
    IsGreatest A M ↔ IsGreatest S M := by
  constructor
  · rintro ⟨hM, hmax⟩
    refine ⟨h.subset hM, fun q hq => ?_⟩
    by_contra hlt
    exact hlt (hmax (h.upper M hM q hq (not_le.1 hlt).le))
  · rintro ⟨hM, hmax⟩
    obtain ⟨p, hp⟩ := h.nonempty ⟨M, hM⟩
    exact ⟨h.upper p hp M hM (hmax (h.subset hp)), fun q hq => hmax (h.subset hq)⟩

lemma ordConnected_of_upper {S A : Set ℤ} (hS : S.OrdConnected) (hsub : A ⊆ S)
    (hupper : ∀ p ∈ A, ∀ q ∈ S, p ≤ q → q ∈ A) : A.OrdConnected := by
  refine ⟨fun a ha b hb c hc => ?_⟩
  exact hupper a ha c (hS.out (hsub ha) (hsub hb) hc) hc.1

lemma eq_Icc_of_ordConnected {S : Set ℤ} (hS : S.OrdConnected) {a b : ℤ} (ha : IsLeast S a)
    (hb : IsGreatest S b) : S = Set.Icc a b := by
  refine Set.Subset.antisymm (fun c hc => ⟨ha.2 hc, hb.2 hc⟩) ?_
  exact hS.out ha.1 hb.1

lemma exists_isGreatest {S : Set ℤ} (hfin : S.Finite) (hne : S.Nonempty) : ∃ M, IsGreatest S M := by
  obtain ⟨M, hM, hmax⟩ := hfin.exists_maximalFor id S hne
  exact ⟨M, hM, fun q hq => (le_total q M).elim id fun hle => hmax hq hle⟩

/-! ## Placing -/

lemma Inv.reused_pending (h : Inv w C P L) (hfin : ∀ i, (C i).Finite) (hO : Reusable w C O)
    {e : ι × ℤ} (he : e ∈ L ∪ O) {p : ℤ} (hp : p ∈ P e.1) : e.2 + w ≤ p := by
  rcases he with he | he
  · exact h.pending e he p hp
  · obtain ⟨hmem, hmax⟩ := hO e he
    obtain ⟨M, hM⟩ := exists_isGreatest (hfin e.1) ⟨_, hmem⟩
    have := hmax M hM
    have := h.before e.1 M hM.1 p hp
    omega

lemma Inv.newest_mem_place (h : Inv w C P L) (hfin : ∀ i, (C i).Finite) (hO : Reusable w C O)
    (hw : 1 < w) {e : ι × ℤ} (he : e ∈ L ∪ O) :
    ∃ M, IsGreatest (C e.1) M ∧ M ∈ place C O N e.1 := by
  have hne : (C e.1).Nonempty := by
    rcases he with he | he
    · exact h.alive hw e he
    · exact ⟨_, (hO e he).1⟩
  obtain ⟨M, hM⟩ := exists_isGreatest (hfin e.1) hne
  refine ⟨M, hM, .inl ⟨hM.1, fun q hq => ?_⟩⟩
  have := (hO (e.1, q) hq).2 M hM
  dsimp only at this
  omega

theorem Inv.place (h : Inv w C (fun i => N i ∪ P i) L) (hfin : ∀ i, (C i).Finite)
    (hO : Reusable w C O) (hNP : ∀ i, ∀ n ∈ N i, ∀ p ∈ P i, n < p) :
    Inv w (place C O N) P (L ∪ O) where
  connected i := by
    refine ordConnected_of_upper (h.connected i) ?_ ?_
    · rintro c ((⟨hc, -⟩ | hc) | hc)
      · exact .inl hc
      · exact .inr (.inl hc)
      · exact .inr (.inr hc)
    · intro p hp q hq hle
      rcases hq with hq | hq | hq
      · -- a stored position at or above a kept one is kept
        rcases hp with (⟨-, hkept⟩ | hp) | hp
        · exact .inl (.inl ⟨hq, fun r hr => (hkept r hr).trans_le hle⟩)
        · exact absurd (h.before i q hq p (.inl hp)) (not_lt.2 hle)
        · exact absurd (h.before i q hq p (.inr hp)) (not_lt.2 hle)
      · exact .inl (.inr hq)
      · exact .inr hq
  before i c hc p hp := by
    rcases hc with ⟨hc, -⟩ | hc
    · exact h.before i c hc p (.inr hp)
    · exact hNP i c hc p hp
  pending e he p hp := h.reused_pending hfin hO he (.inr hp)
  newest e he M hM := by
    rcases hM.1 with ⟨hMC, hkept⟩ | hMN
    · have hgreatest : IsGreatest (C e.1) M := by
        refine ⟨hMC, fun c hc => ?_⟩
        by_contra hlt
        refine hlt (hM.2 (.inl ⟨hc, fun q hq => (hkept q hq).trans (not_le.1 hlt)⟩))
      rcases he with he | he
      · exact h.newest e he M hgreatest
      · exact (hO e he).2 M hgreatest
    · have := h.reused_pending hfin hO he (.inl hMN)
      omega
  alive hw e he := by
    obtain ⟨M, -, hM⟩ := h.newest_mem_place (N := N) hfin hO hw he
    exact ⟨M, hM⟩

theorem Inv.cut (h : Inv w C P L) {F : ι → Set ℤ} (hF : ∀ i, F i ⊆ C i)
    (hreused : ∀ e ∈ L, ∀ f ∈ F e.1, e.2 + w ≤ f)
    (halive : 1 < w → ∀ e ∈ L, ∃ c ∈ C e.1, ∀ f ∈ F e.1, c < f) :
    Inv w (fun i => {c ∈ C i | ∀ f ∈ F i, c < f}) (fun _ => ∅) L where
  connected i := by
    refine ⟨fun a ha b hb c hc => ?_⟩
    rw [Set.union_empty] at ha hb ⊢
    refine ⟨?_, fun f hf => hc.2.trans_lt (hb.2 f hf)⟩
    have hmem := (h.connected i).out (.inl ha.1) (.inl hb.1) hc
    exact hmem.resolve_right fun hp => absurd (h.before i b hb.1 c hp) (not_lt.2 hc.2)
  before _ _ _ _ hp := hp.elim
  pending _ _ _ hp := hp.elim
  newest e he M hM := by
    by_cases hcut : ∃ f ∈ F e.1, True
    · obtain ⟨f, hf, -⟩ := hcut
      have hMf : M < f := hM.1.2 f hf
      by_contra hlt
      have := hreused e he f hf
      -- the position after `M` would have been kept
      have hnext : M + 1 ∈ C e.1 := by
        have hmem := (h.connected e.1).out (.inl hM.1.1) (.inl (hF e.1 hf))
          (⟨by omega, by omega⟩ : M + 1 ∈ Set.Icc M f)
        refine hmem.resolve_right fun hp => ?_
        have := h.before e.1 f (hF e.1 hf) _ hp
        omega
      have hle := hM.2 ⟨hnext, fun g hg => ?_⟩
      · omega
      · have := hreused e he g hg
        omega
    · refine h.newest e he M ⟨hM.1.1, fun c hc => hM.2 ⟨hc, fun f hf => ?_⟩⟩
      exact absurd ⟨f, hf, trivial⟩ hcut
  alive hw e he := by
    obtain ⟨c, hc, hbelow⟩ := halive hw e he
    exact ⟨c, hc, hbelow⟩

theorem Inv.trim (h : Inv w C P L) (hkeep : ∀ i, KeepsNewest (C i) (C' i)) : Inv w C' P L where
  connected i := by
    refine ordConnected_of_upper (h.connected i)
      (Set.union_subset_union_left _ (hkeep i).subset) ?_
    rintro p hp q (hq | hq) hle
    · rcases hp with hp | hp
      · exact .inl ((hkeep i).upper p hp q hq hle)
      · exact absurd (h.before i q hq p hp) (not_lt.2 hle)
    · exact .inr hq
  before i c hc := h.before i c ((hkeep i).subset hc)
  pending := h.pending
  newest e he M hM := h.newest e he M ((hkeep e.1).isGreatest_iff.1 hM)
  alive hw e he := (hkeep e.1).nonempty (h.alive hw e he)

/-- New pending positions for an idle store: for every owner without a gap, and right after its
stored positions. -/
theorem Inv.extend (h : Inv w C (fun _ => ∅) L) (hfin : ∀ i, (C i).Finite)
    (hP : ∀ i, (P i).OrdConnected)
    (hnext : ∀ i, (P i).Nonempty → ∀ M, IsGreatest (C i) M → IsLeast (P i) (M + 1))
    (hw : 0 < w) (hrestart : w = 1 → ∀ e ∈ L, C e.1 = ∅ → ∀ p ∈ P e.1, e.2 < p) :
    Inv w C P L where
  connected i := by
    have hC := h.connected i
    rw [Set.union_empty] at hC
    rcases (C i).eq_empty_or_nonempty with hempty | hne
    · rw [hempty, Set.empty_union]
      exact hP i
    rcases (P i).eq_empty_or_nonempty with hempty | hPne
    · rw [hempty, Set.union_empty]
      exact hC
    obtain ⟨M, hM⟩ := exists_isGreatest (hfin i) hne
    have hleast := hnext i hPne M hM
    refine ⟨fun a ha b hb c hc => ?_⟩
    rcases le_or_gt c M with hcM | hcM
    · refine .inl (hC.out (ha.resolve_right fun ha => ?_) hM.1 ⟨hc.1, hcM⟩)
      have := hleast.2 ha
      have := hc.1
      omega
    · refine .inr ((hP i).out hleast.1 (hb.resolve_left fun hb => ?_) ⟨hcM, hc.2⟩)
      exact absurd (hM.2 hb) (not_le.2 (hcM.trans_le hc.2))
  before i c hc p hp := by
    obtain ⟨M, hM⟩ := exists_isGreatest (hfin i) ⟨c, hc⟩
    have := (hnext i ⟨p, hp⟩ M hM).2 hp
    have := hM.2 hc
    omega
  pending e he p hp := by
    rcases (C e.1).eq_empty_or_nonempty with hempty | hne
    · have hw1 : w = 1 := by
        by_contra hne
        exact Set.not_nonempty_empty (hempty ▸ h.alive (by omega) e he)
      have := hrestart hw1 e he hempty p hp
      omega
    · obtain ⟨M, hM⟩ := exists_isGreatest (hfin e.1) hne
      have := h.newest e he M hM
      have := (hnext e.1 ⟨p, hp⟩ M hM).2 hp
      omega
  newest := h.newest
  alive := h.alive

lemma Inv.idle (h : Inv w C P L) : Inv w C (fun _ => ∅) L where
  connected i := by
    refine ⟨fun a ha b hb c hc => ?_⟩
    rw [Set.union_empty] at ha hb ⊢
    have hmem := (h.connected i).out (.inl ha) (.inl hb) hc
    exact hmem.resolve_right fun hp => absurd (h.before i b hb c hp) (not_lt.2 hc.2)
  before _ _ _ _ hp := hp.elim
  pending _ _ _ hp := hp.elim
  newest := h.newest
  alive := h.alive

lemma inv_empty (w : ℤ) : Inv w (fun _ : ι => ∅) (fun _ => ∅) ∅ where
  connected _ := by
    rw [Set.union_empty]
    exact Set.ordConnected_empty
  before _ _ hc := hc.elim
  pending _ he := he.elim
  newest _ he := he.elim
  alive _ _ he := he.elim

/-! ## A plan made for the store before it lost positions -/

lemma place_eq_slide (h : ∀ i, ∀ n ∈ N i, ∀ q, (i, q) ∈ O → q < n) :
    place C O N = slide C O N := by
  funext i
  ext c
  constructor
  · rintro (⟨hc, hkept⟩ | hn)
    · exact ⟨.inl hc, hkept⟩
    · exact ⟨.inr hn, h i c hn⟩
  · rintro ⟨hc | hn, hkept⟩
    · exact .inl ⟨hc, hkept⟩
    · exact .inr hn

/-- `A` has only positions of `S`, and its newest one. -/
structure SameNewest (S A : Set ℤ) : Prop where
  subset : A ⊆ S
  newest : ∀ M, IsGreatest S M → M ∈ A

lemma SameNewest.refl (S : Set ℤ) : SameNewest S S := ⟨subset_rfl, fun _ hM => hM.1⟩

lemma KeepsNewest.sameNewest {S A : Set ℤ} (h : KeepsNewest S A) : SameNewest S A :=
  ⟨h.subset, fun _ hM => (h.isGreatest_iff.2 hM).1⟩

lemma SameNewest.isGreatest_iff {S A : Set ℤ} (h : SameNewest S A) (hfin : S.Finite) {M : ℤ} :
    IsGreatest A M ↔ IsGreatest S M := by
  have hback : ∀ M, IsGreatest S M → IsGreatest A M := fun M hM =>
    ⟨h.newest M hM, fun q hq => hM.2 (h.subset hq)⟩
  refine ⟨fun hM => ?_, hback M⟩
  obtain ⟨M', hM'⟩ := exists_isGreatest hfin ⟨M, h.subset hM.1⟩
  obtain rfl := (hback M' hM').unique hM
  exact hM'

lemma SameNewest.union {S T A B : Set ℤ} (h : SameNewest S A) (h' : SameNewest T B) :
    SameNewest (S ∪ T) (A ∪ B) where
  subset := Set.union_subset_union h.subset h'.subset
  newest M hM := by
    rcases hM.1 with hMS | hMT
    · exact .inl (h.newest M ⟨hMS, fun c hc => hM.2 (.inl hc)⟩)
    · exact .inr (h'.newest M ⟨hMT, fun c hc => hM.2 (.inr hc)⟩)

lemma SameNewest.sep {S A : Set ℤ} {Q : ℤ → Prop} (h : SameNewest S A)
    (hnewest : ∀ M, IsGreatest {p ∈ S | Q p} M → M ∈ A) :
    SameNewest {p ∈ S | Q p} {p ∈ A | Q p} where
  subset := fun _ hp => ⟨h.subset hp.1, hp.2⟩
  newest M hM := ⟨hnewest M hM, hM.1.2⟩

lemma SameNewest.lose {S A A' P Q : Set ℤ} (h : SameNewest S (A ∪ P)) (hsub : A' ⊆ A)
    (hkeep : ∀ c ∈ A, (∀ q ∈ Q, q < c) → c ∈ A') (hQ : ∀ q ∈ Q, ∃ x ∈ S, q < x) :
    SameNewest S (A' ∪ P) where
  subset := (Set.union_subset_union_left P hsub).trans h.subset
  newest M hM := by
    rcases h.newest M hM with hMA | hMP
    · refine .inl (hkeep M hMA fun q hq => ?_)
      obtain ⟨x, hx, hlt⟩ := hQ q hq
      exact hlt.trans_le (hM.2 hx)
    · exact .inr hMP

lemma SameNewest.slide {A S : ι → Set ℤ} (h : ∀ i, SameNewest (S i) (A i)) (i : ι) :
    SameNewest (slide S O N i) (slide A O N i) where
  subset := by
    rintro c ⟨hc | hn, hkept⟩
    · exact ⟨.inl ((h i).subset hc), hkept⟩
    · exact ⟨.inr hn, hkept⟩
  newest M hM := by
    refine ⟨?_, hM.1.2⟩
    rcases hM.1.1 with hMS | hMN
    · -- what lies above it was dropped for a position above it, and so is not there
      refine .inl ((h i).newest M ⟨hMS, fun c hc => ?_⟩)
      by_contra hlt
      exact hlt (hM.2 ⟨.inl hc, fun q hq => (hM.1.2 q hq).trans (not_le.1 hlt)⟩)
    · exact .inr hMN

end WindowStore

end IFairy
