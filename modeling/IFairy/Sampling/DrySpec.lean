import IFairy.Sampling.Dry
import Mathlib.Data.List.GetD

/-!
# The repeat counts of the DRY sampler

After step 2 the repeat count at a position is the length of the longest common end of the
considered tokens and of those up to the position, clipped to the limit, and step 3 gives each token
the largest count of the positions that it continues (`apply_counts`).  The boxes of the
Z-algorithm keep their unclipped lengths, so a clipped count may be compared with what is left of a
box (`Longest.min_shift`): a count that was clipped ends in the box only where the limit does.
-/

namespace IFairy.Sampling

namespace Dry

variable {F : Type} {s : Dry F} {lastNRepeat limit : ℕ}

/-- The tokens that are considered. -/
def window (s : Dry F) (lastNRepeat : ℕ) : List LlamaToken :=
  s.lastTokens.toVector.rtake lastNRepeat

lemma length_window (h : lastNRepeat ≤ s.lastTokens.sz) :
    (s.window lastNRepeat).length = lastNRepeat := by
  rw [window, List.rtake, List.length_drop, RingBuffer.length_toVector]
  omega

/-- `rat` does not throw below the size. -/
lemma rat_eq_lastToken {i : ℕ} (h : i < s.lastTokens.sz) :
    s.lastTokens.rat i = some (s.lastToken i) := by
  rw [lastToken, RingBuffer.rat, if_neg (not_le.2 h)]
  rfl

lemma getElem?_reverse_window (h : lastNRepeat ≤ s.lastTokens.sz) {i : ℕ} (hi : i < lastNRepeat) :
    (s.window lastNRepeat).reverse[i]? = some (s.lastToken i) := by
  rw [window, List.rtake_eq_reverse_take_reverse, List.reverse_reverse, List.getElem?_take,
    if_pos hi, ← RingBuffer.rat_eq_getElem?, rat_eq_lastToken (hi.trans_le h)]

/-! ## Step 2 -/

/-- The variables before the round of `k`: the counts of the shifts below are there, and the box is
one of these shifts with its longest overlap. -/
structure ZInv (s : Dry F) (lastNRepeat limit k : ℕ) (z : ZState) : Prop where
  length : z.dryRepeatCount.length = lastNRepeat
  counts : ∀ j, 1 ≤ j → j < k → ∀ n, Longest s.lastToken lastNRepeat j n →
    z.dryRepeatCount.getD (lastNRepeat - 1 - j) 0 = min limit n
  box : z.rt = 0 ∨ 1 ≤ z.lt ∧ z.lt < k ∧ z.lt ≤ z.rt ∧
    Longest s.lastToken lastNRepeat z.lt (z.rt + 1 - z.lt)

lemma zInv_start (s : Dry F) (lastNRepeat limit : ℕ) :
    ZInv s lastNRepeat limit 1 ⟨0, 0, List.replicate lastNRepeat 0⟩ :=
  ⟨List.length_replicate, fun _ h h' => by omega, Or.inl rfl⟩

lemma ZInv.set {k : ℕ} {z : ZState} (h : ZInv s lastNRepeat limit k z) (hk : k < lastNRepeat)
    {n v : ℕ} (hn : Longest s.lastToken lastNRepeat k n) (hv : v = min limit n) {rt lt : ℕ}
    (hbox : rt = 0 ∨ 1 ≤ lt ∧ lt < k + 1 ∧ lt ≤ rt ∧
      Longest s.lastToken lastNRepeat lt (rt + 1 - lt)) :
    ZInv s lastNRepeat limit (k + 1)
      ⟨rt, lt, z.dryRepeatCount.set (lastNRepeat - 1 - k) v⟩ := by
  refine ⟨by rw [List.length_set, h.length], fun j hj hjk m hm => ?_, hbox⟩
  have hlength : lastNRepeat - 1 - k < z.dryRepeatCount.length := by
    rw [h.length]
    omega
  rcases Nat.lt_succ_iff_lt_or_eq.1 hjk with hlt | rfl
  · have hne : lastNRepeat - 1 - k ≠ lastNRepeat - 1 - j := by omega
    rw [← h.counts j hj hlt m hm, List.getD_eq_getElem?_getD, List.getElem?_set_ne hne,
      List.getD_eq_getElem?_getD]
  · rw [List.getD_eq_getElem?_getD, List.getElem?_set_self hlength, hv, hn.unique hm]
    rfl

lemma ZInv.zRound {k : ℕ} {z : ZState} (h : ZInv s lastNRepeat limit k z) (hk : 1 ≤ k)
    (hlt : k < lastNRepeat) :
    ∃ z', s.zRound lastNRepeat limit z k = some z' ∧ ZInv s lastNRepeat limit (k + 1) z' := by
  have hcond : ∀ n, (decide (n + k < lastNRepeat) && s.lastToken n == s.lastToken (n + k)) = true ↔
      n + k < lastNRepeat ∧ s.lastToken n = s.lastToken (n + k) := fun n => by
    rw [Bool.and_eq_true, decide_eq_true_iff, beq_iff_eq]
  rw [Dry.zRound]
  by_cases hout : z.rt < k
  · -- outside of the box the tokens are compared from the last one on
    obtain ⟨n, hloop, hn, -⟩ := exists_longest_loop hcond (overlaps_zero hlt.le)
    rw [if_pos hout, hloop, Option.map_some]
    refine ⟨_, rfl, ?_⟩
    split_ifs with hpos
    · refine h.set hlt hn (min_comm _ _) (Or.inr ⟨hk, k.lt_succ_self, by omega, ?_⟩)
      rwa [show k + n - 1 + 1 - k = n by omega]
    · exact h.set hlt hn (min_comm _ _)
        (h.box.imp id fun ⟨h₁, h₂, h₃⟩ => ⟨h₁, Nat.lt_succ_of_lt h₂, h₃⟩)
  · obtain ⟨hlow, hltk, hle, hbox⟩ := h.box.resolve_left (by omega)
    obtain ⟨c, hc⟩ := exists_longest s.lastToken (show k - z.lt ≤ lastNRepeat by omega)
    have hcount := h.counts (k - z.lt) (by omega) (by omega) c hc
    have hshift : k - z.lt + z.lt = k := Nat.sub_add_cancel hltk.le
    rw [if_neg hout]
    dsimp only
    rw [hcount]
    by_cases hless : min limit c < z.rt - k + 1
    · -- the count of the pair ends in the box
      obtain ⟨n, hn⟩ := exists_longest s.lastToken hlt.le
      have hmin : min limit n = min limit c :=
        hbox.min_shift hc (hshift.symm ▸ hn) (by omega)
      rw [if_pos hless]
      refine ⟨_, rfl, h.set hlt hn ?_ (Or.inr ⟨hlow, Nat.lt_succ_of_lt hltk, hle, hbox⟩)⟩
      rw [hmin]
      omega
    · -- it reaches the end of the box, from where the tokens are compared
      have hover : Overlaps s.lastToken lastNRepeat k (z.rt + 1 - k) := by
        rw [← hshift]
        exact hbox.overlaps_shift (hc.overlaps.mono (by omega)) (by omega)
      obtain ⟨n, hloop, hn, hstart⟩ := exists_longest_loop hcond hover
      have hmap : whileLoop (fun i => decide (i < lastNRepeat) &&
          s.lastToken i == s.lastToken (i - k)) (· + 1) lastNRepeat (z.rt + 1) = some (n + k) := by
        have hsome : some (n + k) = Option.map (fun m => m + k) (some n) := rfl
        rw [hsome, ← hloop]
        conv_lhs => rw [show z.rt + 1 = z.rt + 1 - k + k by omega]
        refine whileLoop_map (f := fun m => m + k) (fun m => ?_)
          (fun m => Nat.add_right_comm m k 1) _ _
        rw [Nat.add_sub_cancel, Bool.beq_comm]
      rw [if_neg hless, hmap, Option.map_some]
      refine ⟨_, rfl, h.set hlt hn ?_ (Or.inr ⟨hk, k.lt_succ_self, by omega, ?_⟩)⟩
      · rw [Nat.add_sub_cancel, min_comm]
      · rwa [show n + k - 1 + 1 - k = n by omega]

lemma ZInv.foldlM {k n : ℕ} {z : ZState} (h : ZInv s lastNRepeat limit k z) (hk : 1 ≤ k)
    (hle : k + n ≤ lastNRepeat) :
    ∃ z', (List.range' k n).foldlM (s.zRound lastNRepeat limit) z = some z' ∧
      ZInv s lastNRepeat limit (k + n) z' := by
  induction n generalizing k z with
  | zero => exact ⟨z, rfl, h⟩
  | succ n ih =>
    obtain ⟨z', hround, h'⟩ := h.zRound hk (by omega)
    obtain ⟨z'', hloop, h''⟩ := ih h' (by omega) (by omega)
    refine ⟨z'', ?_, by rwa [Nat.add_right_comm, Nat.add_assoc] at h''⟩
    rw [List.range'_succ, List.foldlM_cons, hround]
    exact hloop

lemma exists_repeatCounts (s : Dry F) (lastNRepeat limit : ℕ) :
    ∃ counts, s.repeatCounts lastNRepeat limit = some counts ∧ counts.length = lastNRepeat ∧
      ∀ k, 1 ≤ k → k < lastNRepeat → ∀ n, Longest s.lastToken lastNRepeat k n →
        counts[lastNRepeat - 1 - k]? = some (min limit n) := by
  rw [repeatCounts]
  rcases Nat.eq_zero_or_pos lastNRepeat with rfl | hpos
  · exact ⟨[], rfl, rfl, fun k _ hk => absurd hk (Nat.not_lt_zero k)⟩
  · obtain ⟨z, hloop, hz⟩ := (zInv_start s lastNRepeat limit).foldlM le_rfl
      (show 1 + (lastNRepeat - 1) ≤ lastNRepeat by omega)
    refine ⟨z.dryRepeatCount, by rw [hloop]; rfl, hz.length, fun k hk hlt n hn => ?_⟩
    have hindex : lastNRepeat - 1 - k < z.dryRepeatCount.length := by
      rw [hz.length]
      omega
    rw [← hz.counts k hk (by omega) n hn, List.getD_eq_getElem _ _ hindex,
      List.getElem?_eq_getElem hindex]

/-! ## Step 3 -/

/-- The value is the greatest one of the set, none when it is empty. -/
def IsMaximum (o : Option ℕ) (values : Set ℕ) : Prop := o.elim (values = ∅) (IsGreatest values)

lemma IsMaximum.insert {o : Option ℕ} {values : Set ℕ} (h : IsMaximum o values) (v : ℕ) :
    IsMaximum (if o.elim true (fun n => n < v) then some v else o) (insert v values) := by
  rcases o with - | n
  · have hempty : values = ∅ := h
    rw [Option.elim_none, if_pos rfl, hempty]
    exact ⟨Set.mem_insert v ∅, by simp [upperBounds]⟩
  · have hgreatest : IsGreatest values n := h
    rw [Option.elim_some]
    split_ifs with hlt
    · have hlt : n < v := of_decide_eq_true hlt
      refine ⟨Set.mem_insert v _, ?_⟩
      rintro m (rfl | hm)
      · exact le_rfl
      · exact (hgreatest.2 hm).trans hlt.le
    · have hle : v ≤ n := not_lt.1 fun h => hlt (decide_eq_true h)
      refine ⟨Set.mem_insert_of_mem _ hgreatest.1, ?_⟩
      rintro m (rfl | hm)
      · exact hle
      · exact hgreatest.2 hm

/-- The repeat counts of the first positions that the token continues, when they are long enough. -/
def continued (s : Dry F) (lastNRepeat : ℕ) (counts : List ℕ) (n : ℕ) (token : LlamaToken) :
    Set ℕ :=
  {v | ∃ i < n, s.lastToken (lastNRepeat - 2 - i) = token ∧ counts.getD i 0 = v ∧
    s.dryAllowedLength ≤ v}

lemma continued_succ_of_pos (counts : List ℕ) {n : ℕ}
    (hlength : s.dryAllowedLength ≤ counts.getD n 0) :
    s.continued lastNRepeat counts (n + 1) (s.lastToken (lastNRepeat - 2 - n)) =
      insert (counts.getD n 0)
        (s.continued lastNRepeat counts n (s.lastToken (lastNRepeat - 2 - n))) := by
  ext v
  rw [Set.mem_insert_iff]
  constructor
  · rintro ⟨i, hi, htoken, hcount, hle⟩
    rcases Nat.lt_succ_iff_lt_or_eq.1 hi with hi | rfl
    · exact Or.inr ⟨i, hi, htoken, hcount, hle⟩
    · exact Or.inl hcount.symm
  · rintro (rfl | ⟨i, hi, hrest⟩)
    · exact ⟨n, n.lt_succ_self, rfl, rfl, hlength⟩
    · exact ⟨i, Nat.lt_succ_of_lt hi, hrest⟩

lemma continued_succ_of_neg (counts : List ℕ) {n : ℕ} {token : LlamaToken}
    (h : ¬(s.dryAllowedLength ≤ counts.getD n 0 ∧ s.lastToken (lastNRepeat - 2 - n) = token)) :
    s.continued lastNRepeat counts (n + 1) token = s.continued lastNRepeat counts n token := by
  ext v
  constructor
  · rintro ⟨i, hi, htoken, hcount, hle⟩
    rcases Nat.lt_succ_iff_lt_or_eq.1 hi with hi | rfl
    · exact ⟨i, hi, htoken, hcount, hle⟩
    · exact absurd ⟨hcount ▸ hle, htoken⟩ h
  · rintro ⟨i, hi, hrest⟩
    exact ⟨i, Nat.lt_succ_of_lt hi, hrest⟩

lemma isMaximum_foldl (s : Dry F) (lastNRepeat : ℕ) (counts : List ℕ) (n : ℕ)
    (token : LlamaToken) :
    IsMaximum ((List.range n).foldl (s.maxRound lastNRepeat counts) emptyMap token)
      (s.continued lastNRepeat counts n token) := by
  induction n with
  | zero =>
    refine Set.eq_empty_iff_forall_notMem.2 ?_
    rintro v ⟨i, hi, -⟩
    exact Nat.not_lt_zero i hi
  | succ n ih =>
    rw [List.range_succ, List.foldl_append, List.foldl_cons, List.foldl_nil, maxRound]
    dsimp only
    by_cases hlength : s.dryAllowedLength ≤ counts.getD n 0
    · rw [if_pos hlength]
      by_cases htoken : s.lastToken (lastNRepeat - 2 - n) = token
      · subst htoken
        rw [continued_succ_of_pos counts hlength]
        have hmax := ih.insert (counts.getD n 0)
        split_ifs at hmax with hlt
        · rw [if_pos hlt, Function.update_self]
          exact hmax
        · rw [if_neg hlt]
          exact hmax
      · rw [continued_succ_of_neg counts fun h => htoken h.2]
        split_ifs with hlt
        · rwa [Function.update_of_ne (Ne.symm htoken)]
        · exact ih
    · rw [if_neg hlength, continued_succ_of_neg counts fun h => hlength h.1]
      exact ih

/-! ## The whole function -/

lemma mem_continued_iff (h : lastNRepeat ≤ s.lastTokens.sz) {counts : List ℕ}
    (hcounts : counts.length = lastNRepeat) {token : LlamaToken} {v : ℕ} :
    v ∈ s.continued lastNRepeat counts (lastNRepeat - 1) token ↔
      ∃ i, (s.window lastNRepeat)[i + 1]? = some token ∧ counts[i]? = some v ∧
        s.dryAllowedLength ≤ v := by
  have hwindow : ∀ i, i + 1 < lastNRepeat →
      (s.window lastNRepeat)[i + 1]? = some (s.lastToken (lastNRepeat - 2 - i)) := by
    intro i hi
    have hreverse := getElem?_reverse_window h (show lastNRepeat - 2 - i < lastNRepeat by omega)
    rw [List.getElem?_reverse (by rw [length_window h]; omega), length_window h,
      show lastNRepeat - 1 - (lastNRepeat - 2 - i) = i + 1 by omega] at hreverse
    exact hreverse
  constructor
  · rintro ⟨i, hi, rfl, rfl, hle⟩
    refine ⟨i, hwindow i (by omega), ?_, hle⟩
    rw [List.getD_eq_getElem _ _ (by omega), List.getElem?_eq_getElem]
  · rintro ⟨i, htoken, hcount, hle⟩
    have hi : i + 1 < lastNRepeat := by
      rw [← length_window h]
      exact (List.getElem?_eq_some_iff.1 htoken).1
    rw [hwindow i hi] at htoken
    refine ⟨i, by omega, Option.some.inj htoken, ?_, hle⟩
    rw [List.getD_eq_getElem?_getD, hcount]
    rfl

lemma toNat_lastNRepeat_le (s : Dry F) : s.lastNRepeat.toNat ≤ s.lastTokens.sz := by
  rw [lastNRepeat]
  omega

section Apply

variable [Mul F] [Sub F] [Zero F] [One F] [BEq F] [LT F] [DecidableLT F]

lemma apply_of_enabled (pow : F → ℤ → F) (maxExponent : F → ℤ) {s : Dry F}
    (cur : TokenDataArray F) (henabled : s.disabled = false)
    (hlength : s.dryAllowedLength < s.lastNRepeat) (hnonneg : 0 ≤ s.lastNRepeat)
    (hlimit : s.dryAllowedLength ≤ s.repLimit s.lastNRepeat.toNat) :
    s.apply pow maxExponent cur =
      (s.repeatCounts s.lastNRepeat.toNat (s.repLimit s.lastNRepeat.toNat)).map fun counts =>
        let s := { s with
          dryRepeatCount := counts
          dryMaxTokenRepeat := s.maxTokenRepeat s.lastNRepeat.toNat counts }
        (s, { data := cur.data.map (s.penalizeRepeat pow maxExponent), sorted := false }) := by
  rw [apply, henabled, if_neg Bool.false_ne_true, if_neg (not_le.2 hlength),
    if_neg (not_lt.2 hnonneg)]
  exact if_neg (not_lt.2 hlimit)

/-- Where step 2 is reached, the repeat counts are the lengths of the common ends, clipped to the
limit, and every token has the largest count of the positions that it continues. -/
theorem apply_counts (pow : F → ℤ → F) (maxExponent : F → ℤ) (s : Dry F) (cur : TokenDataArray F)
    (henabled : s.disabled = false) (hlength : s.dryAllowedLength < s.lastNRepeat)
    (hnonneg : 0 ≤ s.lastNRepeat) (hlimit : s.dryAllowedLength ≤ s.repLimit s.lastNRepeat.toNat) :
    ∃ s' cur', s.apply pow maxExponent cur = some (s', cur') ∧
      (s.window s.lastNRepeat.toNat).length = s.lastNRepeat.toNat ∧
      s'.dryRepeatCount.length = s.lastNRepeat.toNat ∧
      (∀ k, 1 ≤ k → k < s.lastNRepeat.toNat → ∃ n,
        IsGreatest {n | ∃ w : List LlamaToken, w.length = n ∧ w <:+ s.window s.lastNRepeat.toNat ∧
          w <:+ (s.window s.lastNRepeat.toNat).rdrop k} n ∧
        s'.dryRepeatCount[s.lastNRepeat.toNat - 1 - k]? =
          some (min (s.repLimit s.lastNRepeat.toNat) n)) ∧
      ∀ token, IsMaximum (s'.dryMaxTokenRepeat token)
        {v | ∃ i, (s.window s.lastNRepeat.toNat)[i + 1]? = some token ∧
          s'.dryRepeatCount[i]? = some v ∧ s.dryAllowedLength ≤ v} := by
  have hsize := s.toNat_lastNRepeat_le
  have hwindow := length_window (s := s) hsize
  obtain ⟨counts, hcounts, hlen, hmin⟩ :=
    s.exists_repeatCounts s.lastNRepeat.toNat (s.repLimit s.lastNRepeat.toNat)
  rw [apply_of_enabled pow maxExponent cur henabled hlength hnonneg hlimit, hcounts,
    Option.map_some]
  refine ⟨_, _, rfl, hwindow, hlen, fun k hk hlt => ?_, fun token => ?_⟩
  · obtain ⟨n, hn⟩ := exists_longest s.lastToken hlt.le
    have hsuffix : ∀ m, Overlaps s.lastToken s.lastNRepeat.toNat k m ↔
        ∃ w : List LlamaToken, w.length = m ∧ w <:+ s.window s.lastNRepeat.toNat ∧
          w <:+ (s.window s.lastNRepeat.toNat).rdrop k := by
      intro m
      have hiff := overlaps_iff_suffix (t := s.lastToken) (k := k) (n := m)
        (fun i hi => getElem?_reverse_window hsize (hwindow ▸ hi)) (hwindow.symm ▸ hlt.le)
      rwa [hwindow] at hiff
    refine ⟨n, ⟨(hsuffix n).1 hn.overlaps, fun m hm => hn.le ((hsuffix m).2 hm)⟩, ?_⟩
    exact hmin k hk hlt n hn
  · have hmax := isMaximum_foldl s s.lastNRepeat.toNat counts (s.lastNRepeat.toNat - 1) token
    have hset : s.continued s.lastNRepeat.toNat counts (s.lastNRepeat.toNat - 1) token =
        {v : ℕ | ∃ i, (s.window s.lastNRepeat.toNat)[i + 1]? = some token ∧ counts[i]? = some v ∧
          s.dryAllowedLength ≤ v} := by
      ext v
      exact mem_continued_iff hsize hlen
    rw [hset] at hmax
    exact hmax

/-- The tokens `a b c c b c y a b c` of the comment in the source. -/
def commented : Dry ℤ where
  totalContextSize := 10
  dryMultiplier := 1
  dryBase := 2
  dryAllowedLength := 2
  dryPenaltyLastN := -1
  dryProcessedBreakers := []
  dryRepeatCount := []
  dryMaxTokenRepeat := emptyMap
  lastTokens := ⟨10, 10, 0, 0, fun i => [1, 2, 3, 3, 2, 3, 25, 1, 2, 3].getD i 0⟩

theorem apply_counts_commented :
    commented.repeatCounts 10 10 = some [0, 0, 3, 1, 0, 2, 0, 0, 0, 0] ∧
      ∃ s' cur', commented.apply (fun base n => base ^ n.toNat) (fun _ => 0) ⟨[], false⟩ =
        some (s', cur') ∧
          ∀ token, IsMaximum (s'.dryMaxTokenRepeat token)
            {v | ∃ i, (commented.window 10)[i + 1]? = some token ∧
              s'.dryRepeatCount[i]? = some v ∧ commented.dryAllowedLength ≤ v} := by
  obtain ⟨s', cur', h, -, -, -, hmax⟩ := apply_counts (fun base n => base ^ n.toNat) (fun _ => 0)
    commented ⟨[], false⟩ (by decide) (by decide) (by decide) (by decide)
  exact ⟨by decide, s', cur', h, hmax⟩

end Apply

end Dry

end IFairy.Sampling
