import IFairy.KvCache.SingleSequence

/-!
# The generation loop with context shift

The loop of `main` without a session file, for group size `1` and a plain cache of `n_ctx` cells.
Tokens are counted, their values do not matter.  A pass of the loop begins with the tokens that are
waiting in `embd`: when they do not fit behind the cached ones, half of what lies beyond the first
`n_keep` tokens is discarded and the rest moves up (`LoopState.shift`); then `embd` is decoded in
pieces of at most `n_batch` tokens and filled again, with a sampled token or with tokens of the
input, to which a user can append.

The cached positions are those from `0` to `n_past - 1` before every decode.  The shift is made
once, however many tokens are waiting, and it makes room for them exactly when they fit into what
it discards (`LoopState.ShiftFits`).
-/

namespace IFairy

open KvCache

/-- What is fixed when the loop starts. -/
structure LoopParams where
  cfg : KvConfig
  decode : DecodeParams
  nBatch : ℕ
  /-- `embd_inp.size()` after the prompt was tokenized. -/
  nPrompt : ℕ
  /-- `params.n_keep` as the user gave it. -/
  nKeep : ℤ
  addBos : Bool
  nBatch_pos : 0 < nBatch

/-- `n_ctx`. -/
def LoopParams.nCtx (p : LoopParams) : ℕ := p.cfg.kvSize

/-- `params.n_keep` in the loop: the whole prompt, or the given number and the BOS token. -/
def LoopParams.keep (p : LoopParams) : ℤ :=
  if p.nKeep < 0 ∨ (p.nPrompt : ℤ) < p.nKeep then p.nPrompt
  else p.nKeep + if p.addBos then 1 else 0

/-- The variables of the loop: `embd.size()` before the shift, and what is left to decode of it
afterwards. -/
structure LoopState where
  cache : KvCache
  nPast : ℤ
  nInp : ℕ
  nConsumed : ℕ
  embd : ℕ
  rest : ℕ

/-- The steps of the loop. -/
inductive LoopOp
  /-- `embd` is truncated and the context shifted. -/
  | shift
  /-- One `llama_decode`. -/
  | eval (tokens : ℕ → ℤ) (data : ℕ → KvData)
  /-- A sampled token is put into `embd`. -/
  | sample
  /-- Tokens of the input are put into `embd`. -/
  | forward
  /-- The user appends tokens to the input. -/
  | input (n : ℕ)

namespace LoopState

variable (p : LoopParams) (s : LoopState)

/-- The state before the first pass. -/
def start : LoopState where
  cache := .new p.cfg
  nPast := 0
  nInp := p.nPrompt
  nConsumed := 0
  embd := 0
  rest := 0

/-- `embd.size()` after the truncation to `n_ctx - 4`. -/
def waiting : ℕ := min s.embd (p.nCtx - 4)

/-- `n_discard`. -/
def nDiscard : ℤ := (s.nPast - p.keep).tdiv 2

/-- The cache after `n_discard` tokens behind the first `n_keep` were discarded. -/
def shifted : KvCache :=
  (s.cache.seqRm p.cfg (some 0) p.keep (p.keep + s.nDiscard p)).seqAdd p.cfg 0
    (p.keep + s.nDiscard p) s.nPast (-s.nDiscard p)

def shift : LoopState :=
  if (p.nCtx : ℤ) ≤ s.nPast + s.waiting p then
    { s with
      cache := s.shifted p
      nPast := s.nPast - s.nDiscard p
      embd := 0
      rest := s.waiting p }
  else { s with embd := 0, rest := s.waiting p }

/-- `n_eval`. -/
def nEval : ℕ := min s.rest p.nBatch

/-- One step of the loop; a decode that fails ends the program. -/
def step (rope : KvLayer → ℤ → (ℕ → UInt8) → ℕ → UInt8) (p : LoopParams) (s : LoopState) :
    LoopOp → Option LoopState
  | .shift => if s.rest = 0 ∧ 0 < s.embd then some (s.shift p) else none
  | .eval tokens data =>
    if 0 < s.rest then
      (decodeTokens rope p.cfg p.decode s.cache tokens (s.nEval p) data).map fun r =>
        { s with cache := r.1, nPast := s.nPast + s.nEval p, rest := s.rest - s.nEval p }
    else none
  | .sample =>
    if s.rest = 0 ∧ s.embd = 0 ∧ s.nInp ≤ s.nConsumed then some { s with embd := 1 } else none
  | .forward =>
    if s.rest = 0 ∧ s.embd = 0 then
      let n := min p.nBatch (s.nInp - s.nConsumed)
      some { s with embd := n, nConsumed := s.nConsumed + n }
    else none
  | .input n =>
    if s.rest = 0 ∧ s.nInp ≤ s.nConsumed then some { s with nInp := s.nInp + n } else none

/-- The waiting tokens fit behind the cached ones, or into what a shift discards. -/
def ShiftFits : Prop :=
  s.nPast + s.waiting p < p.nCtx ∨ (s.waiting p : ℤ) ≤ p.nCtx - s.nPast + s.nDiscard p

instance : Decidable (s.ShiftFits p) := inferInstanceAs (Decidable (_ ∨ _))

def Fits : LoopOp → Prop
  | .shift => s.ShiftFits p
  | _ => True

instance (op : LoopOp) : Decidable (s.Fits p op) := by
  unfold Fits
  split <;> infer_instance

end LoopState

/-! ## The cached positions -/

namespace KvCache

variable {cfg : KvConfig} {k k' : KvCache} {n : ℤ}

/-- Sequence `0` alone is in the cache, at the positions below `n`. -/
def Dense (cfg : KvConfig) (k : KvCache) (n : ℤ) : Prop :=
  ∃ L, Holds cfg k L ∧ ∀ q, (∃ j < cfg.kvSize, L j = some q) ↔ 0 ≤ q ∧ q < n

lemma dense_new (cfg : KvConfig) : Dense cfg (new cfg) 0 := by
  refine ⟨fun _ => none, holds_new cfg, fun q => iff_of_false ?_ fun h => ?_⟩
  · rintro ⟨j, -, hq⟩
    cases hq
  · exact absurd h.1 (not_le.2 h.2)

lemma Dense.positions (hplain : cfg.Plain) (h : Dense cfg k n) :
    k.positions cfg 0 = Set.Ico 0 n := by
  obtain ⟨L, hL, hdense⟩ := h
  rw [hL.positions hplain]
  exact Set.ext hdense

lemma Dense.seqPosMax (hplain : cfg.Plain) (hk : k.Ok cfg) (h : Dense cfg k n) (hn : 0 ≤ n) :
    k.seqPosMax cfg 0 = n - 1 := by
  obtain ⟨L, hL, hdense⟩ := h
  refine hL.seqPosMax hplain hk hn (fun j hj q hq => ((hdense q).1 ⟨j, hj, hq⟩).2) fun hpos => ?_
  exact (hdense (n - 1)).2 ⟨by omega, by omega⟩

lemma Dense.decode {rope : KvLayer → ℤ → (ℕ → UInt8) → ℕ → UInt8} {c : DecodeParams}
    {tokens : ℕ → ℤ} {m : ℕ} {data : ℕ → KvData} {cells : List ℕ} (hplain : cfg.Plain)
    (hk : k.Ok cfg) (h : Dense cfg k n) (hn : 0 ≤ n)
    (heq : decodeTokens rope cfg c k tokens m data = some (k', cells)) :
    k'.Ok cfg ∧ Dense cfg k' (n + m) := by
  have hmax := h.seqPosMax hplain hk hn
  obtain ⟨L, hL, hdense⟩ := h
  obtain ⟨hok, hlen, hnodup, hfree, hheld⟩ := decodeTokens_spec hplain hk hL (by omega) heq
  rw [hmax] at hheld
  refine ⟨hok, _, hheld, fun q => ?_⟩
  constructor
  · rintro ⟨j, hj, hq⟩
    unfold putTokens at hq
    split at hq
    · rename_i hin
      have hidx := List.idxOf_lt_length_of_mem hin
      have hval : n - 1 + 1 + (cells.idxOf j : ℤ) = q := Option.some.inj hq
      omega
    · have := (hdense q).1 ⟨j, hj, hq⟩
      omega
  · rintro ⟨h0, hlt⟩
    by_cases hold : q < n
    · obtain ⟨j, hj, hq⟩ := (hdense q).2 ⟨h0, hold⟩
      refine ⟨j, hj, ?_⟩
      rw [putTokens, if_neg fun hin => ?_, hq]
      rw [(hfree j hin).2] at hq
      cases hq
    · have hidx : (q - n).toNat < cells.length := by omega
      refine ⟨cells[(q - n).toNat], (hfree _ (List.getElem_mem hidx)).1, ?_⟩
      rw [putTokens, if_pos (List.getElem_mem hidx), hnodup.idxOf_getElem]
      exact congrArg some (by omega)

/-- Discarding `d` tokens behind the first `keep` and moving the others up. -/
lemma Dense.discard (hplain : cfg.Plain) (hk : k.Ok cfg) (h : Dense cfg k n) {keep d : ℤ}
    (hkeep : 0 ≤ keep) (hd : 0 ≤ d) (hle : d = 0 ∨ keep + d ≤ n) (hn : 0 ≤ n) :
    Dense cfg ((k.seqRm cfg (some 0) keep (keep + d)).seqAdd cfg 0 (keep + d) n (-d)) (n - d) := by
  have hsum : 0 ≤ keep + d := add_nonneg hkeep hd
  obtain ⟨L, hL, hdense⟩ := h
  have hcut : Holds cfg (k.seqRm cfg (some 0) keep (keep + d)) _ := hL.seqRm hplain hk.sized
  have hmoved : Holds cfg ((k.seqRm cfg (some 0) keep (keep + d)).seqAdd cfg 0 (keep + d) n (-d))
      _ := hcut.seqAdd hplain (hk.seqRm (some 0) keep (keep + d)).sized fun j _ q _ hq => by
      rw [clampP0_of_nonneg hsum] at hq
      omega
  rw [clampP0_of_nonneg hkeep, clampP1_of_nonneg hsum, clampP0_of_nonneg hsum,
    clampP1_of_nonneg hn] at hmoved
  refine ⟨_, hmoved, fun q => ?_⟩
  constructor
  · rintro ⟨j, hj, hq⟩
    obtain ⟨q', hq', hval⟩ := Option.map_eq_some_iff.1 hq
    obtain ⟨hold, hout⟩ := Option.filter_eq_some_iff.1 hq'
    have hout := of_decide_eq_true hout
    have hrange := (hdense q').1 ⟨j, hj, hold⟩
    split at hval <;> omega
  · rintro ⟨h0, hlt⟩
    -- the position that is moved to `q`
    obtain ⟨q', hval, hout, hrange⟩ : ∃ q', (if keep + d ≤ q' ∧ q' < n then q' + -d else q') = q ∧
        ¬ (keep ≤ q' ∧ q' < keep + d) ∧ 0 ≤ q' ∧ q' < n := by
      by_cases hq : q < keep
      · exact ⟨q, by rw [if_neg (by omega)], by omega, by omega, by omega⟩
      · exact ⟨q + d, by rw [if_pos (by omega)]; omega, by omega, by omega, by omega⟩
    obtain ⟨j, hj, hold⟩ := (hdense q').2 hrange
    refine ⟨j, hj, Option.map_eq_some_iff.2 ⟨q', Option.filter_eq_some_iff.2 ⟨hold, ?_⟩, hval⟩⟩
    exact decide_eq_true hout

end KvCache

namespace LoopState

variable {p : LoopParams} {s s' : LoopState} {rope : KvLayer → ℤ → (ℕ → UInt8) → ℕ → UInt8}
  {op : LoopOp}

/-! ## The invariant -/

/-- The prompt is still being decoded. -/
structure InPrompt (p : LoopParams) (s : LoopState) : Prop where
  consumed : (s.nConsumed : ℤ) = s.nPast + s.rest + s.embd
  le : s.nConsumed ≤ p.nPrompt
  nInp : s.nConsumed < p.nPrompt → s.nInp = p.nPrompt

/-- What the steps of the loop keep: the cache is dense, the kept tokens are in it once the prompt
is, and what is left to decode fits. -/
structure Inv (p : LoopParams) (s : LoopState) : Prop where
  ok : s.cache.Ok p.cfg
  nonneg : 0 ≤ s.nPast
  dense : Dense p.cfg s.cache s.nPast
  phase : s.InPrompt p ∨ p.keep ≤ s.nPast + 1
  le : s.nPast ≤ p.nCtx
  fits : 0 < s.rest → s.nPast + s.rest ≤ p.nCtx

lemma keep_nonneg (p : LoopParams) : 0 ≤ p.keep := by
  unfold LoopParams.keep
  split
  · exact Int.natCast_nonneg _
  · rename_i h
    split <;> omega

lemma keep_le (p : LoopParams) : p.keep ≤ p.nPrompt + 1 := by
  unfold LoopParams.keep
  split
  · omega
  · rename_i h
    split <;> omega

lemma inv_start (p : LoopParams) : (start p).Inv p where
  ok := ok_new p.cfg
  nonneg := le_rfl
  dense := dense_new p.cfg
  phase := .inl ⟨rfl, Nat.zero_le _, fun _ => rfl⟩
  le := Int.natCast_nonneg _
  fits h := absurd h (lt_irrefl 0)

lemma nDiscard_spec (hn : 0 ≤ s.nPast) (h : p.keep ≤ s.nPast + 1) :
    0 ≤ s.nDiscard p ∧ (s.nDiscard p = 0 ∨ p.keep + s.nDiscard p ≤ s.nPast) ∧
      p.keep ≤ s.nPast - s.nDiscard p + 1 ∧ s.nDiscard p ≤ s.nPast := by
  have hkeep := keep_nonneg p
  unfold nDiscard
  rcases lt_or_ge s.nPast p.keep with hlt | hge
  · -- one token more than there are is kept: half of minus one is zero
    have hone : s.nPast - p.keep = -1 := by omega
    rw [hone]
    have hzero : Int.tdiv (-1) 2 = 0 := rfl
    omega
  · rw [Int.tdiv_eq_ediv_of_nonneg (by omega)]
    omega

lemma InPrompt.lt_nCtx (h : s.InPrompt p) (hn : 0 ≤ s.nPast) (hprompt : p.nPrompt + 4 ≤ p.nCtx)
    (hrest : s.rest = 0) : s.waiting p = s.embd ∧ s.nPast + s.waiting p < p.nCtx := by
  have hle : s.waiting p ≤ s.embd := min_le_left ..
  have hcons := h.consumed
  have := h.le
  have hwait : s.waiting p = s.embd := min_eq_left (by omega)
  omega

/-! ## The steps -/

lemma shift_fits_iff : (s.shift p).nPast + (s.shift p).rest ≤ p.nCtx ↔ s.ShiftFits p := by
  unfold shift ShiftFits
  split
  · change s.nPast - s.nDiscard p + s.waiting p ≤ p.nCtx ↔ _
    omega
  · change s.nPast + s.waiting p ≤ p.nCtx ↔ _
    omega

lemma Inv.shift (hplain : p.cfg.Plain) (hprompt : p.nPrompt + 4 ≤ p.nCtx) (h : s.Inv p)
    (hfits : s.ShiftFits p) (hrest : s.rest = 0) : (s.shift p).Inv p := by
  have hroom := shift_fits_iff.2 hfits
  have hn := h.nonneg
  by_cases hfull : (p.nCtx : ℤ) ≤ s.nPast + s.waiting p
  · have hkept : p.keep ≤ s.nPast + 1 := by
      rcases h.phase with hphase | hkept
      · exact absurd (hphase.lt_nCtx hn hprompt hrest).2 (not_lt.2 hfull)
      · exact hkept
    obtain ⟨hd, hle, hkeep, hmost⟩ := nDiscard_spec hn hkept
    rw [LoopState.shift, if_pos hfull] at hroom ⊢
    refine ⟨(h.ok.seqRm _ _ _).seqAdd _ _ _ _, sub_nonneg.2 hmost, ?_, .inr hkeep,
      (sub_le_self _ hd).trans h.le, fun _ => hroom⟩
    exact h.dense.discard hplain h.ok (keep_nonneg p) hd hle hn
  · rw [LoopState.shift, if_neg hfull] at hroom ⊢
    refine ⟨h.ok, hn, h.dense, ?_, h.le, fun _ => hroom⟩
    rcases h.phase with hphase | hkept
    · have hwait := (hphase.lt_nCtx hn hprompt hrest).1
      refine .inl ⟨?_, hphase.le, hphase.nInp⟩
      have := hphase.consumed
      change (s.nConsumed : ℤ) = s.nPast + s.waiting p + (0 : ℕ)
      omega
    · exact .inr hkept

lemma Inv.eval (hplain : p.cfg.Plain) (h : s.Inv p) (hrest : 0 < s.rest) {tokens : ℕ → ℤ}
    {data : ℕ → KvData} {r : KvCache × List ℕ}
    (hr : decodeTokens rope p.cfg p.decode s.cache tokens (s.nEval p) data = some r) :
    Inv p { s with cache := r.1, nPast := s.nPast + s.nEval p, rest := s.rest - s.nEval p } := by
  have hn := h.nonneg
  have hle : s.nEval p ≤ s.rest := min_le_left ..
  obtain ⟨hok, hdense⟩ := h.dense.decode hplain h.ok hn hr
  have hroom := h.fits hrest
  refine ⟨hok, ?_, hdense, ?_, ?_, fun _ => ?_⟩
  · change 0 ≤ s.nPast + s.nEval p
    omega
  · rcases h.phase with hphase | hkept
    · refine .inl ⟨?_, hphase.le, hphase.nInp⟩
      have := hphase.consumed
      change (s.nConsumed : ℤ) = s.nPast + s.nEval p + (s.rest - s.nEval p : ℕ) + s.embd
      omega
    · refine .inr ?_
      change p.keep ≤ s.nPast + s.nEval p + 1
      omega
  · change s.nPast + s.nEval p ≤ p.nCtx
    omega
  · change s.nPast + s.nEval p + (s.rest - s.nEval p : ℕ) ≤ p.nCtx
    omega

lemma InPrompt.kept (h : s.InPrompt p) (hrest : s.rest = 0) (hembd : s.embd = 0)
    (hall : p.nPrompt ≤ s.nConsumed) : p.keep ≤ s.nPast + 1 := by
  have := h.consumed
  have := h.le
  have := keep_le p
  omega

lemma Inv.sample (h : s.Inv p) (hrest : s.rest = 0) (hembd : s.embd = 0)
    (hall : s.nInp ≤ s.nConsumed) : Inv p { s with embd := 1 } := by
  refine ⟨h.ok, h.nonneg, h.dense, .inr ?_, h.le, h.fits⟩
  rcases h.phase with hphase | hkept
  · refine hphase.kept hrest hembd (not_lt.1 fun hlt => ?_)
    have := hphase.nInp hlt
    omega
  · exact hkept

lemma Inv.forward (h : s.Inv p) (hrest : s.rest = 0) (hembd : s.embd = 0) :
    Inv p { s with
      embd := min p.nBatch (s.nInp - s.nConsumed)
      nConsumed := s.nConsumed + min p.nBatch (s.nInp - s.nConsumed) } := by
  refine ⟨h.ok, h.nonneg, h.dense, ?_, h.le, h.fits⟩
  rcases h.phase with hphase | hkept
  · by_cases hlt : s.nConsumed < p.nPrompt
    · have hinp := hphase.nInp hlt
      have := hphase.consumed
      have hle : min p.nBatch (s.nInp - s.nConsumed) ≤ s.nInp - s.nConsumed := min_le_right ..
      refine .inl ⟨?_, ?_, fun _ => hinp⟩
      · change ((s.nConsumed + min p.nBatch (s.nInp - s.nConsumed) : ℕ) : ℤ) =
          s.nPast + s.rest + (min p.nBatch (s.nInp - s.nConsumed) : ℕ)
        omega
      · change s.nConsumed + min p.nBatch (s.nInp - s.nConsumed) ≤ p.nPrompt
        omega
    · exact .inr (hphase.kept hrest hembd (not_lt.1 hlt))
  · exact .inr hkept

lemma Inv.input (h : s.Inv p) (hall : s.nInp ≤ s.nConsumed) (n : ℕ) :
    Inv p { s with nInp := s.nInp + n } := by
  refine ⟨h.ok, h.nonneg, h.dense, ?_, h.le, h.fits⟩
  rcases h.phase with hphase | hkept
  · refine .inl ⟨hphase.consumed, hphase.le, fun hlt => absurd hlt (not_lt.2 ?_)⟩
    by_contra hlt
    exact hlt ((hphase.nInp (not_le.1 hlt)).ge.trans hall)
  · exact .inr hkept

theorem Inv.step (hplain : p.cfg.Plain) (hprompt : p.nPrompt + 4 ≤ p.nCtx) (h : s.Inv p)
    (hfits : s.Fits p op) (hstep : s.step rope p op = some s') : s'.Inv p := by
  cases op with
  | shift =>
    obtain ⟨⟨hrest, -⟩, heq⟩ := Option.ite_none_right_eq_some.1 hstep
    exact Option.some.inj heq ▸ h.shift hplain hprompt hfits hrest
  | eval tokens data =>
    obtain ⟨hrest, heq⟩ := Option.ite_none_right_eq_some.1 hstep
    obtain ⟨r, hr, rfl⟩ := Option.map_eq_some_iff.1 heq
    exact h.eval hplain hrest hr
  | sample =>
    obtain ⟨⟨hrest, hembd, hall⟩, heq⟩ := Option.ite_none_right_eq_some.1 hstep
    exact Option.some.inj heq ▸ h.sample hrest hembd hall
  | forward =>
    obtain ⟨⟨hrest, hembd⟩, heq⟩ := Option.ite_none_right_eq_some.1 hstep
    exact Option.some.inj heq ▸ h.forward hrest hembd
  | input n =>
    obtain ⟨⟨-, hall⟩, heq⟩ := Option.ite_none_right_eq_some.1 hstep
    exact Option.some.inj heq ▸ h.input hall n

lemma inv_of_reaches (hplain : p.cfg.Plain) (hprompt : p.nPrompt + 4 ≤ p.nCtx)
    (h : Reaches (step rope p) (Fits p) (start p) s) : s.Inv p :=
  h.invariant (inv_start p) fun _ _ _ hinv hfits hstep => hinv.step hplain hprompt hfits hstep

/-- In every run of the loop whose waiting tokens fit when a pass begins, before every decode
`n_past` is one more than the last cached position, the cached positions are those below `n_past`,
and `n_past` and the tokens to decode do not exceed `n_ctx`. -/
theorem contextShift_runs (hplain : p.cfg.Plain) (hprompt : p.nPrompt + 4 ≤ p.nCtx)
    (h : Reaches (step rope p) (Fits p) (start p) s) (hrest : 0 < s.rest) :
    s.nPast = s.cache.seqPosMax p.cfg 0 + 1 ∧
      s.cache.positions p.cfg 0 = Set.Ico 0 s.nPast ∧ s.nPast + s.rest ≤ p.nCtx := by
  have hinv := inv_of_reaches hplain hprompt h
  refine ⟨?_, hinv.dense.positions hplain, hinv.fits hrest⟩
  rw [hinv.dense.seqPosMax hplain hinv.ok hinv.nonneg, sub_add_cancel]

/-! ## Small runs -/

/-- A context of eight cells with a prompt of four tokens, all of which are kept. -/
def smallLoop : LoopParams where
  cfg := .basic true 1 8 Nat.one_pos one_le_llamaMaxSeq
  decode := ⟨1, 4, 0, 1, true⟩
  nBatch := 4
  nPrompt := 4
  nKeep := -1
  addBos := false
  nBatch_pos := Nat.succ_pos 3

lemma smallLoop_plain : smallLoop.cfg.Plain := ⟨rfl, rfl, fun h => absurd h.1 (lt_irrefl 0)⟩

/-- A pass: the shift and one decode. -/
def pass : List LoopOp := [.shift, .eval (fun _ => 0) fun _ => .zero]

/-- The prompt and three generated tokens fill the context, which is shifted for the fourth. -/
theorem contextShift_runs_smallLoop : ∃ s : LoopState,
    s.rest = 1 ∧ s.nPast = 6 ∧ s.nPast = s.cache.seqPosMax smallLoop.cfg 0 + 1 ∧
      s.cache.positions smallLoop.cfg 0 = Set.Ico 0 s.nPast ∧ s.nPast + s.rest ≤ smallLoop.nCtx := by
  obtain ⟨s, hreach, hread⟩ := exists_reached_of_admitted (step noRope smallLoop)
    (Fits smallLoop) (start smallLoop)
    (.forward :: pass ++ .sample :: pass ++ .sample :: pass ++ .sample :: pass ++
      [.sample, .shift]) (fun s => (s.rest, s.nPast)) (v := (1, 6)) (by decide +kernel)
  obtain ⟨hrest, hpast⟩ := Prod.mk.inj hread
  exact ⟨s, hrest, hpast, contextShift_runs smallLoop_plain le_rfl hreach (hrest ▸ Nat.one_pos)⟩

/-- The user answers the first generated token with four tokens: nothing is discarded, and they do
not fit. -/
theorem not_contextShift_longInput : ∃ s : LoopState,
    Reaches (step noRope smallLoop) (fun _ _ => True) (start smallLoop) s ∧
      0 < s.rest ∧ ¬ s.nPast + s.rest ≤ smallLoop.nCtx := by
  obtain ⟨s, hreach, hread⟩ := exists_reached_of_perform (by decide +kernel :
    (perform (step noRope smallLoop) (start smallLoop)
      (.forward :: pass ++ .sample :: .input 4 :: pass ++ [.forward, .shift])).map
        (fun s => (s.rest, s.nPast)) = some (4, 5))
  obtain ⟨hrest, hpast⟩ := Prod.mk.inj hread
  refine ⟨s, hreach, hrest ▸ Nat.succ_pos 3, ?_⟩
  rw [hrest, hpast]
  decide

end LoopState

end IFairy
