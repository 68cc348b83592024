import IFairy.KvCache.SingleSequence

/-!
# The generation loop with Self-Extend

For group sizes other than `1` the loop of `main` does not discard tokens: it divides the positions
of the oldest `ga_w` tokens that were not divided before by `ga_n`, and moves the later ones up.
The body of that `while` loop is modelled for every group size; between two passes any number of
tokens can be decoded.  The state also counts tokens and passes and has the cells of the tokens in
decoding order.

The token with index `t` is at position `t / ga_n` when it is in one of the `k` groups so far, and
at `t` minus what the groups have gained when it is not (`groupedPos`).  The passes work in the
coordinates of the tokens that were not grouped: `seq_add` takes those back to their index, where
`seq_div` divides the next group and the second `seq_add` closes the gap.
-/

namespace IFairy

open KvCache

/-- What is fixed when the loop starts. -/
structure ExtendParams where
  cfg : KvConfig
  decode : DecodeParams
  gaN : ℕ
  gaW : ℕ

/-- The variables of the loop, the cells of the tokens, and the numbers of tokens and passes. -/
structure ExtendState where
  cache : KvCache
  nPast : ℤ
  gaI : ℤ
  tokens : List ℕ
  nTokens : ℕ
  nGroups : ℕ

/-- The steps of the loop. -/
inductive ExtendOp
  /-- A pass of the `while` loop. -/
  | group
  /-- One `llama_decode` of `n` tokens. -/
  | eval (tokens : ℕ → ℤ) (n : ℕ) (data : ℕ → KvData)

namespace ExtendState

variable (p : ExtendParams) (s : ExtendState)

/-- The state before the first pass. -/
def start : ExtendState where
  cache := .new p.cfg
  nPast := 0
  gaI := 0
  tokens := []
  nTokens := 0
  nGroups := 0

/-- `ib`. -/
def ib : ℤ := (p.gaN * s.gaI).tdiv p.gaW

end ExtendState

/-- `bd`. -/
def ExtendParams.bd (p : ExtendParams) : ℤ := (p.gaW : ℤ).tdiv p.gaN * (p.gaN - 1)

namespace ExtendState

variable (p : ExtendParams) (s : ExtendState)

/-- `dd`. -/
def dd : ℤ := (p.gaW : ℤ).tdiv p.gaN - s.ib p * p.bd - p.gaW

/-- The cache after the three operations of a pass. -/
def regrouped : KvCache :=
  let k := s.cache.seqAdd p.cfg 0 s.gaI s.nPast (s.ib p * p.bd)
  let k := k.seqDiv p.cfg 0 (s.gaI + s.ib p * p.bd) (s.gaI + s.ib p * p.bd + p.gaW) p.gaN
  k.seqAdd p.cfg 0 (s.gaI + s.ib p * p.bd + p.gaW) (s.nPast + s.ib p * p.bd) (s.dd p)

/-- One step of the loop; a decode that fails ends the program. -/
def step (rope : KvLayer → ℤ → (ℕ → UInt8) → ℕ → UInt8) (p : ExtendParams) (s : ExtendState) :
    ExtendOp → Option ExtendState
  | .group =>
    if s.gaI + p.gaW ≤ s.nPast then
      some { s with
        cache := s.regrouped p
        nPast := s.nPast - p.bd
        gaI := s.gaI + (p.gaW : ℤ).tdiv p.gaN
        nGroups := s.nGroups + 1 }
    else none
  | .eval tokens n data =>
    (decodeTokens rope p.cfg p.decode s.cache tokens n data).map fun r =>
      { s with
        cache := r.1
        nPast := s.nPast + n
        tokens := s.tokens ++ r.2
        nTokens := s.nTokens + n }

end ExtendState

/-! ## The grouped positions -/

/-- The position of the token with index `t` after `k` groups of `w` tokens. -/
def groupedPos (g w k t : ℕ) : ℕ := if t < k * w then t / g else t - k * w + k * w / g

section Grouped

variable {g q k t t' n : ℕ}

lemma div_lt_boundary (h : t < k * (g * q)) : t / g < k * q := by
  refine Nat.div_lt_of_lt_mul ?_
  calc t < k * (g * q) := h
    _ = g * (k * q) := Nat.mul_left_comm ..

lemma boundary_div (hg : 0 < g) : k * (g * q) / g = k * q := by
  rw [Nat.mul_left_comm, Nat.mul_div_cancel_left _ hg]

lemma groupedPos_of_lt (h : t < k * (g * q)) : groupedPos g (g * q) k t = t / g := if_pos h

lemma groupedPos_of_ge (hg : 0 < g) (h : k * (g * q) ≤ t) :
    groupedPos g (g * q) k t = t - k * (g * q) + k * q := by
  rw [groupedPos, if_neg (not_lt.2 h), boundary_div hg]

lemma groupedPos_mono (hg : 0 < g) (h : t ≤ t') :
    groupedPos g (g * q) k t ≤ groupedPos g (g * q) k t' := by
  by_cases ht' : t' < k * (g * q)
  · rw [groupedPos_of_lt ht', groupedPos_of_lt (h.trans_lt ht')]
    exact Nat.div_le_div_right h
  · rw [groupedPos_of_ge hg (not_lt.1 ht')]
    by_cases ht : t < k * (g * q)
    · rw [groupedPos_of_lt ht]
      exact (div_lt_boundary ht).le.trans (Nat.le_add_left ..)
    · rw [groupedPos_of_ge hg (not_lt.1 ht)]
      exact Nat.add_le_add_right (Nat.sub_le_sub_right h _) _

/-- The positions of `n` tokens end before `n` minus what the groups have gained. -/
lemma groupedPos_lt (hg : 0 < g) (hn : k * (g * q) ≤ n) (h : t < n) :
    groupedPos g (g * q) k t < n - k * (g * q) + k * q := by
  by_cases ht : t < k * (g * q)
  · rw [groupedPos_of_lt ht]
    exact (div_lt_boundary ht).trans_le (Nat.le_add_left ..)
  · rw [groupedPos_of_ge hg (not_lt.1 ht)]
    omega

lemma groupedPos_last (hg : 0 < g) (hn : k * (g * q) ≤ n) (h : 0 < n) :
    groupedPos g (g * q) k (n - 1) + 1 = n - k * (g * q) + k * q := by
  by_cases ht : n - 1 < k * (g * q)
  · have hkq : k * (g * q) = g * (k * q) := Nat.mul_left_comm ..
    have hall : n = g * (k * q) := by omega
    rw [groupedPos_of_lt ht, hkq, hall, Nat.sub_self, Nat.zero_add]
    obtain ⟨m, hm⟩ : ∃ m, k * q = m + 1 := Nat.exists_eq_succ_of_ne_zero fun hzero => by
      rw [hall, hzero, Nat.mul_zero] at h
      exact lt_irrefl 0 h
    rw [hm, Nat.mul_succ, Nat.add_sub_assoc hg, Nat.mul_add_div hg, Nat.div_eq_of_lt (by omega)]
  · rw [groupedPos_of_ge hg (not_lt.1 ht)]
    omega

end Grouped

namespace ExtendState

variable {p : ExtendParams} {s s' : ExtendState}
  {rope : KvLayer → ℤ → (ℕ → UInt8) → ℕ → UInt8} {op : ExtendOp}

/-! ## The invariant -/

/-- The cells of the tokens hold the grouped positions, and no other cell is used. -/
structure Inv (p : ExtendParams) (s : ExtendState) : Prop where
  ok : s.cache.Ok p.cfg
  length : s.tokens.length = s.nTokens
  nodup : s.tokens.Nodup
  lt : ∀ j ∈ s.tokens, j < p.cfg.kvSize
  holds : Holds p.cfg s.cache (putTokens (fun _ => none) s.tokens fun t =>
    groupedPos p.gaN p.gaW s.nGroups t)
  grouped : s.nGroups * p.gaW ≤ s.nTokens
  gaI : s.gaI = (s.nGroups * p.gaW / p.gaN : ℕ)
  nPast : s.nPast = (s.nTokens - s.nGroups * p.gaW + s.nGroups * p.gaW / p.gaN : ℕ)

lemma inv_start (p : ExtendParams) : (start p).Inv p where
  ok := ok_new p.cfg
  length := rfl
  nodup := List.nodup_nil
  lt _ hj := absurd hj List.not_mem_nil
  holds := holds_new p.cfg
  grouped := (Nat.zero_mul _).le
  gaI := by
    change (0 : ℤ) = (0 * p.gaW / p.gaN : ℕ)
    rw [Nat.zero_mul, Nat.zero_div, Nat.cast_zero]
  nPast := by
    change (0 : ℤ) = (0 - 0 * p.gaW + 0 * p.gaW / p.gaN : ℕ)
    rw [Nat.zero_mul, Nat.zero_div, Nat.cast_zero]

lemma map_putTokens (c : List ℕ) (pos : ℕ → ℤ) (F : ℤ → ℤ) :
    (fun j => (putTokens (fun _ => none) c pos j).map F) =
      putTokens (fun _ => none) c fun t => F (pos t) := by
  funext j
  unfold putTokens
  split <;> rfl

/-- `n_past` is one more than the last position. -/
lemma Inv.seqPosMax (hplain : p.cfg.Plain) (hg : 0 < p.gaN) (hdvd : p.gaN ∣ p.gaW) (h : s.Inv p) :
    s.cache.seqPosMax p.cfg 0 = s.nPast - 1 := by
  obtain ⟨q, hq⟩ := hdvd
  have hheld := h.holds
  have hgrouped := h.grouped
  have hpast := h.nPast
  rw [hq] at hheld hgrouped hpast
  rw [boundary_div hg] at hpast
  refine hheld.seqPosMax hplain h.ok (hpast ▸ Int.natCast_nonneg _) (fun j _ q' hq' => ?_) fun hpos => ?_
  · unfold putTokens at hq'
    split at hq'
    · rename_i hin
      have hidx := List.idxOf_lt_length_of_mem hin
      rw [h.length] at hidx
      have hlt := groupedPos_lt hg hgrouped hidx
      rw [← Option.some.inj hq', hpast]
      exact Int.ofNat_lt.2 hlt
    · cases hq'
  · have hsome : 0 < s.nTokens := by
      rcases Nat.eq_zero_or_pos s.nTokens with hzero | hsome
      · rw [hzero, Nat.le_zero] at hgrouped
        rw [hpast, hzero, Nat.zero_sub, Nat.zero_add, ← boundary_div hg, hgrouped, Nat.zero_div] at hpos
        exact absurd hpos (lt_irrefl 0)
      · exact hsome
    have hidx : s.nTokens - 1 < s.tokens.length := by
      rw [h.length]
      omega
    refine ⟨s.tokens[s.nTokens - 1], h.lt _ (List.getElem_mem hidx), ?_⟩
    rw [putTokens, if_pos (List.getElem_mem hidx), h.nodup.idxOf_getElem]
    have hlast := groupedPos_last hg hgrouped hsome
    refine congrArg some ?_
    rw [hpast]
    omega

/-! ## The steps -/

lemma Inv.eval (hplain : p.cfg.Plain) (hg : 0 < p.gaN) (hdvd : p.gaN ∣ p.gaW) (h : s.Inv p)
    {tokens : ℕ → ℤ} {n : ℕ} {data : ℕ → KvData} {r : KvCache × List ℕ}
    (hr : decodeTokens rope p.cfg p.decode s.cache tokens n data = some r) :
    Inv p { s with
      cache := r.1
      nPast := s.nPast + n
      tokens := s.tokens ++ r.2
      nTokens := s.nTokens + n } := by
  have hmax := h.seqPosMax hplain hg hdvd
  have hpast : 0 ≤ s.nPast := h.nPast ▸ Int.natCast_nonneg _
  have hgrouped := h.grouped
  obtain ⟨hok, hlen, hnodup, hfree, hheld⟩ := decodeTokens_spec hplain h.ok h.holds (by omega) hr
  have hnew : ∀ j ∈ r.2, j ∉ s.tokens := by
    intro j hj hin
    have hnone := (hfree j hj).2
    rw [putTokens, if_pos hin] at hnone
    exact Option.some_ne_none _ hnone
  refine ⟨hok, ?_, h.nodup.append hnodup fun j hj hj' => hnew j hj' hj, fun j hj => ?_, ?_,
    hgrouped.trans (Nat.le_add_right ..), h.gaI, ?_⟩
  · rw [List.length_append, h.length, hlen]
  · rcases List.mem_append.1 hj with hj | hj
    · exact h.lt j hj
    · exact (hfree j hj).1
  · change Holds _ _ (putTokens _ (s.tokens ++ r.2) _)
    rw [← putTokens_append _ _ _ _ hnew]
    -- the new tokens are behind every group
    refine (congrArg (Holds p.cfg r.1) (putTokens_congr fun i hi => ?_)).mp hheld
    have hge : ¬ s.tokens.length + i < s.nGroups * p.gaW := by
      rw [h.length]
      omega
    change s.cache.seqPosMax p.cfg 0 + 1 + (i : ℤ) =
      (groupedPos p.gaN p.gaW s.nGroups (s.tokens.length + i) : ℕ)
    rw [hmax, h.nPast, groupedPos, if_neg hge, h.length]
    omega
  · change s.nPast + n = (s.nTokens + n - s.nGroups * p.gaW + s.nGroups * p.gaW / p.gaN : ℕ)
    rw [h.nPast]
    omega

/-- The coordinates of a pass, with groups of `gaN * q` tokens. -/
lemma coordinates {q : ℕ} (hg : 0 < p.gaN) (hq : p.gaW = p.gaN * q) (hpos : 0 < p.gaW)
    (hgaI : s.gaI = (s.nGroups * q : ℕ)) :
    (p.gaW : ℤ).tdiv p.gaN = q ∧ p.bd = p.gaW - q ∧
      s.gaI + s.ib p * p.bd = s.nGroups * p.gaW ∧
      s.dd p = s.gaI + q - (s.nGroups * p.gaW + p.gaW) := by
  have hg' : (p.gaN : ℤ) ≠ 0 := by exact_mod_cast hg.ne'
  have hw : (p.gaW : ℤ) = p.gaN * q := by exact_mod_cast hq
  have hw' : (p.gaW : ℤ) ≠ 0 := by exact_mod_cast hpos.ne'
  have hdiv : (p.gaW : ℤ).tdiv p.gaN = q := by
    rw [hw, Int.mul_tdiv_cancel_left _ hg']
  have hbd : p.bd = p.gaW - q := by
    rw [ExtendParams.bd, hdiv, hw]
    ring
  have hib : s.ib p = s.nGroups := by
    have hmul : (p.gaN : ℤ) * s.gaI = s.nGroups * p.gaW := by
      rw [hgaI, hw]
      push_cast
      ring
    rw [ib, hmul, Int.mul_tdiv_cancel _ hw']
  have hshift : s.gaI + s.ib p * p.bd = s.nGroups * p.gaW := by
    rw [hib, hbd, hgaI]
    push_cast
    ring
  refine ⟨hdiv, hbd, hshift, ?_⟩
  rw [dd, hdiv, ← hshift]
  ring

lemma holds_mapped {k : KvCache} {c : List ℕ} {pos pos' : ℕ → ℤ} {F : ℤ → ℤ}
    (h : Holds p.cfg k fun j => (putTokens (fun _ => none) c pos j).map F)
    (hF : ∀ t < c.length, F (pos t) = pos' t) : Holds p.cfg k (putTokens (fun _ => none) c pos') := by
  rw [map_putTokens, putTokens_congr hF] at h
  exact h

lemma Inv.group (hplain : p.cfg.Plain) (hg : 0 < p.gaN) (hpos : 0 < p.gaW) (hdvd : p.gaN ∣ p.gaW)
    (h : s.Inv p) (hfull : s.gaI + p.gaW ≤ s.nPast) :
    Inv p { s with
      cache := s.regrouped p
      nPast := s.nPast - p.bd
      gaI := s.gaI + (p.gaW : ℤ).tdiv p.gaN
      nGroups := s.nGroups + 1 } := by
  obtain ⟨q, hq⟩ := hdvd
  have hbound : s.nGroups * p.gaW / p.gaN = s.nGroups * q := by rw [hq, boundary_div hg]
  have hbound' : (s.nGroups + 1) * p.gaW / p.gaN = s.nGroups * q + q := by
    rw [hq, boundary_div hg, Nat.succ_mul]
  have hsucc : (s.nGroups + 1) * p.gaW = s.nGroups * p.gaW + p.gaW := Nat.succ_mul ..
  have hgaI := h.gaI
  have hpast := h.nPast
  have hgrouped := h.grouped
  rw [hbound] at hgaI hpast
  obtain ⟨hdiv, hbd, hshift, hdd⟩ := coordinates hg hq hpos hgaI
  have hle : q ≤ p.gaW := hq ▸ Nat.le_mul_of_pos_left q hg
  have hle' : s.nGroups * q ≤ s.nGroups * p.gaW := Nat.mul_le_mul_left _ hle
  -- the position of a token before the pass, when it is grouped and when it is not
  have hold : ∀ t, (t < s.nGroups * p.gaW →
      groupedPos p.gaN p.gaW s.nGroups t = t / p.gaN ∧ t / p.gaN < s.nGroups * q) ∧
      (s.nGroups * p.gaW ≤ t →
        groupedPos p.gaN p.gaW s.nGroups t = t - s.nGroups * p.gaW + s.nGroups * q) := by
    intro t
    rw [hq]
    exact ⟨fun ht => ⟨groupedPos_of_lt ht, div_lt_boundary ht⟩, groupedPos_of_ge hg⟩
  have hself : ∀ t, t / p.gaN ≤ t := fun t => Nat.div_le_self t p.gaN
  have hend : s.nPast + s.ib p * p.bd = s.nTokens := by omega
  have hok₁ := h.ok.seqAdd 0 s.gaI s.nPast (s.ib p * p.bd)
  have hok₂ := hok₁.seqDiv 0 (s.gaI + s.ib p * p.bd) (s.gaI + s.ib p * p.bd + p.gaW)
    (Int.natCast_pos.2 hg)
  have hok₃ := hok₂.seqAdd 0 (s.gaI + s.ib p * p.bd + p.gaW) (s.nPast + s.ib p * p.bd) (s.dd p)
  -- the tokens that are not grouped go back to their indices
  have hheld₁ : Holds p.cfg (s.cache.seqAdd p.cfg 0 s.gaI s.nPast (s.ib p * p.bd))
      (putTokens (fun _ => none) s.tokens fun t =>
        ((if t < s.nGroups * p.gaW then t / p.gaN else t : ℕ) : ℤ)) := by
    refine holds_mapped (h.holds.seqAdd hplain h.ok.sized fun j _ q' _ hq' => ?_) fun t ht => ?_
    · rw [clampP0_of_nonneg (by omega)] at hq'
      omega
    · rw [clampP0_of_nonneg (by omega), clampP1_of_nonneg (by omega)]
      rw [h.length] at ht
      by_cases hlt : t < s.nGroups * p.gaW
      · obtain ⟨heq, hbelow⟩ := (hold t).1 hlt
        rw [heq, if_neg (by omega), if_pos hlt]
      · have heq := (hold t).2 (not_lt.1 hlt)
        rw [heq, if_pos (by omega), if_neg hlt]
        omega
  -- the next group is divided
  have hheld₂ : Holds p.cfg ((s.cache.seqAdd p.cfg 0 s.gaI s.nPast (s.ib p * p.bd)).seqDiv p.cfg 0
      (s.gaI + s.ib p * p.bd) (s.gaI + s.ib p * p.bd + p.gaW) p.gaN)
      (putTokens (fun _ => none) s.tokens fun t =>
        ((if t < (s.nGroups + 1) * p.gaW then t / p.gaN else t : ℕ) : ℤ)) := by
    refine holds_mapped (hheld₁.seqDiv hplain hok₁.sized) fun t _ => ?_
    have hself := hself t
    rw [clampP0_of_nonneg (by omega), clampP1_of_nonneg (by omega), hsucc]
    by_cases hlt : t < s.nGroups * p.gaW
    · rw [if_pos hlt, if_neg (by omega), if_pos (by omega)]
    · rw [if_neg hlt]
      by_cases hlt' : t < s.nGroups * p.gaW + p.gaW
      · rw [if_pos (by omega), if_pos hlt', Int.ofNat_tdiv]
      · rw [if_neg (by omega), if_neg hlt']
  -- the gap behind it is closed
  have hheld₃ : Holds p.cfg (s.regrouped p) (putTokens (fun _ => none) s.tokens fun t =>
      groupedPos p.gaN p.gaW (s.nGroups + 1) t) := by
    refine holds_mapped (hheld₂.seqAdd hplain hok₂.sized fun j _ q' _ hq' => ?_) fun t ht => ?_
    · rw [clampP0_of_nonneg (by omega)] at hq'
      omega
    · have hself := hself t
      rw [h.length] at ht
      rw [clampP0_of_nonneg (by omega), clampP1_of_nonneg (by omega), groupedPos, hsucc, ← hsucc,
        hbound', hsucc]
      by_cases hlt : t < s.nGroups * p.gaW + p.gaW
      · rw [if_pos hlt, if_pos hlt, if_neg (by omega)]
      · rw [if_neg hlt, if_neg hlt, if_pos (by omega)]
        omega
  refine ⟨hok₃, h.length, h.nodup, h.lt, hheld₃, ?_, ?_, ?_⟩
  · change (s.nGroups + 1) * p.gaW ≤ s.nTokens
    rw [hsucc]
    omega
  · change s.gaI + (p.gaW : ℤ).tdiv p.gaN = ((s.nGroups + 1) * p.gaW / p.gaN : ℕ)
    rw [hdiv, hbound', hgaI]
    exact (Nat.cast_add ..).symm
  · change s.nPast - p.bd = (s.nTokens - (s.nGroups + 1) * p.gaW + (s.nGroups + 1) * p.gaW / p.gaN : ℕ)
    rw [hbd, hbound', hsucc, hpast]
    omega

theorem Inv.step (hplain : p.cfg.Plain) (hg : 0 < p.gaN) (hpos : 0 < p.gaW) (hdvd : p.gaN ∣ p.gaW)
    (h : s.Inv p) (hstep : s.step rope p op = some s') : s'.Inv p := by
  cases op with
  | group =>
    obtain ⟨hfull, heq⟩ := Option.ite_none_right_eq_some.1 hstep
    exact Option.some.inj heq ▸ h.group hplain hg hpos hdvd hfull
  | eval tokens n data =>
    obtain ⟨r, hr, rfl⟩ := Option.map_eq_some_iff.1 hstep
    exact h.eval hplain hg hdvd hr

/-- After every pass and every decode of a run the token with index `t` is at its grouped position,
which does not decrease with `t`; no other cell is used, and `n_past` is one more than the largest
position. -/
theorem selfExtend_runs (hplain : p.cfg.Plain) (hg : 0 < p.gaN) (hpos : 0 < p.gaW)
    (hdvd : p.gaN ∣ p.gaW) (h : Reaches (step rope p) (fun _ _ => True) (start p) s) :
    (s.gaI = (s.nGroups * p.gaW / p.gaN : ℕ) ∧ s.nGroups * p.gaW ≤ s.nTokens) ∧
      (s.tokens.length = s.nTokens ∧ s.tokens.Nodup ∧ ∀ j ∈ s.tokens, j < p.cfg.kvSize) ∧
      (∀ t (ht : t < s.tokens.length),
        (s.cache.cell 0 s.tokens[t]).entries = {(0, (groupedPos p.gaN p.gaW s.nGroups t : ℤ))}) ∧
      (∀ j < p.cfg.kvSize, j ∉ s.tokens → (s.cache.cell 0 j).entries = ∅) ∧
      s.nPast = (s.nTokens - s.nGroups * p.gaW + s.nGroups * p.gaW / p.gaN : ℕ) ∧
      s.nPast = s.cache.seqPosMax p.cfg 0 + 1 ∧
      ∀ t t', t ≤ t' → groupedPos p.gaN p.gaW s.nGroups t ≤ groupedPos p.gaN p.gaW s.nGroups t' := by
  have hinv : s.Inv p := h.invariant (inv_start p) fun _ _ _ hinv _ hstep =>
    hinv.step hplain hg hpos hdvd hstep
  refine ⟨⟨hinv.gaI, hinv.grouped⟩, ⟨hinv.length, hinv.nodup, hinv.lt⟩, fun t ht => ?_,
    fun j hj hout => ?_, hinv.nPast, ?_, fun t t' htt => ?_⟩
  · have hmem : s.tokens[t] ∈ s.tokens := List.getElem_mem ht
    rw [hinv.holds _ (hinv.lt _ hmem), putTokens, if_pos hmem, hinv.nodup.idxOf_getElem]
    refine Set.ext fun e => ?_
    rw [Set.mem_singleton_iff, Prod.ext_iff]
    exact and_congr_right fun _ => Option.some_inj.trans eq_comm
  · rw [hinv.holds j hj, putTokens, if_neg hout]
    exact Set.eq_empty_iff_forall_notMem.2 fun e he => absurd he.2 (Option.some_ne_none _).symm
  · rw [hinv.seqPosMax hplain hg hdvd, sub_add_cancel]
  · obtain ⟨q, hq⟩ := hdvd
    rw [hq]
    exact groupedPos_mono hg htt

/-- Groups of four tokens, whose positions are divided by two. -/
def groupsOfFour : ExtendParams where
  cfg := .basic true 1 8 Nat.one_pos one_le_llamaMaxSeq
  decode := ⟨1, 4, 0, 1, true⟩
  gaN := 2
  gaW := 4

/-- Six tokens, of which the first four are grouped. -/
theorem selfExtend_runs_groupsOfFour : ∃ s : ExtendState,
    s.nGroups = 1 ∧ s.nTokens = 6 ∧ s.gaI = 2 ∧ s.nPast = 4 ∧
      ∀ t (ht : t < s.tokens.length),
        (s.cache.cell 0 s.tokens[t]).entries = {(0, (groupedPos 2 4 1 t : ℤ))} := by
  obtain ⟨s, hreach, hread⟩ := exists_reached_of_perform (by decide +kernel :
    (perform (step noRope groupsOfFour) (start groupsOfFour)
      [.eval (fun _ => 0) 6 fun _ => .zero, .group]).map (fun s => (s.nGroups, s.nTokens))
        = some (1, 6))
  obtain ⟨hgroups, htokens⟩ := Prod.mk.inj hread
  have hplain : groupsOfFour.cfg.Plain := ⟨rfl, rfl, fun h => absurd h.1 (lt_irrefl 0)⟩
  obtain ⟨⟨hgaI, -⟩, -, hpos, -, hpast, -⟩ :=
    selfExtend_runs hplain Nat.two_pos (Nat.succ_pos 3) (Nat.dvd_mul_right 2 2) hreach
  rw [hgroups] at hgaI hpast hpos
  rw [htokens] at hpast
  exact ⟨s, hgroups, htokens, hgaI, hpast, hpos⟩

end ExtendState

end IFairy
