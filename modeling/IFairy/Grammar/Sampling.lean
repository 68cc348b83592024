import IFairy.Grammar.Filter

/-!
# Sampling under a grammar

`applyImpl` and `acceptImpl` are two readers of the same tokens: the first forbids tokens before
one is sampled, the second follows the sampled one.  They agree (`applyImpl_iff`): in every state
that is reached, a token with a text is left alone exactly if accepting this text ends with a stack
that the bytes left over may still continue, and a token that is left alone is accepted.

The zero that ends the code points of a token is a code point like any other to `acceptStr`; a text
that decodes to a zero of its own is therefore left out.
-/

namespace IFairy.LlamaGrammar

open ContextFreeGrammar

/-! ## What is left over -/

/-- The bits so far fit in front of the bytes that remain. -/
structure PartialUtf8.Ok (left : PartialUtf8) : Prop where
  le_three : left.nRemain ≤ 3
  one : left.nRemain = 1 → left.value < 2 ^ 16
  two : left.nRemain = 2 → left.value < 2 ^ 10
  three : left.nRemain = 3 → left.value < 2 ^ 4

lemma PartialUtf8.ok_of_nonpos {left : PartialUtf8} (h : left.nRemain ≤ 0) : left.Ok :=
  ⟨by omega, by omega, by omega, by omega⟩

lemma PartialUtf8.Ok.append {value : ℕ} {nRemain : ℤ} (h : PartialUtf8.Ok ⟨value, nRemain⟩)
    (hpos : 0 < nRemain) (byte : UInt8) :
    PartialUtf8.Ok ⟨appendBits value byte, nRemain - 1⟩ := by
  obtain ⟨hle, hone, htwo, hthree⟩ := h
  simp only at hle hone htwo hthree
  have hbits : appendBits value byte < (value + 1) * 2 ^ 6 := by
    have hmod : appendBits value byte ≤ value * 2 ^ 6 + byte.toNat % 2 ^ 6 := Nat.mod_le _ _
    omega
  refine ⟨?_, fun hn => ?_, fun hn => ?_, fun hn => ?_⟩ <;> simp only at * <;> omega

lemma ok_of_continueLoop {src rest : List UInt8} {value value' : ℕ} {nRemain nRemain' : ℤ}
    (h : PartialUtf8.Ok ⟨value, nRemain⟩)
    (hloop : continueLoop src value nRemain = some (rest, value', nRemain')) :
    PartialUtf8.Ok ⟨value', nRemain'⟩ := by
  induction src generalizing value nRemain with
  | nil =>
    obtain ⟨-, rfl, rfl⟩ : [] = rest ∧ value = value' ∧ nRemain = nRemain' := by
      simpa [continueLoop] using hloop
    exact h
  | cons byte src ih =>
    rw [continueLoop] at hloop
    split_ifs at hloop with hpos hinvalid
    · exact ih (h.append hpos.2 byte) hloop
    · obtain ⟨-, rfl, rfl⟩ : byte :: src = rest ∧ value = value' ∧ nRemain = nRemain' := by
        simpa using hloop
      exact h

lemma ok_firstByte (byte : UInt8) :
    PartialUtf8.Ok ⟨byte.toNat % 2 ^ (7 - (bytesAfter byte).toNat), bytesAfter byte⟩ := by
  have htable : ∀ k < 16,
      ([1, 1, 1, 1, 1, 1, 1, 1, 0, 0, 0, 0, 2, 2, 3, 4] : List ℤ).getD k 0 - 1 ≤ 3 := by
    decide
  have hbyte : byte.toNat / 2 ^ 4 < 16 := by
    have := byte.toNat_lt
    omega
  refine ⟨htable _ hbyte, fun hn => ?_, fun hn => ?_, fun hn => ?_⟩
  all_goals
    simp only at hn
    rw [hn]
    exact (Nat.mod_lt _ (Nat.two_pow_pos _)).trans_le (Nat.pow_le_pow_right (by decide) (by decide))

lemma ok_of_decodeLoop {src : List UInt8} {value : ℕ} {nRemain : ℤ} {codePoints out : List ℕ}
    {left : PartialUtf8} (h : PartialUtf8.Ok ⟨value, nRemain⟩)
    (hloop : decodeLoop src value nRemain codePoints = some (out, left)) : left.Ok := by
  induction src generalizing value nRemain codePoints with
  | nil =>
    obtain ⟨-, rfl⟩ : codePoints = out ∧ ⟨value, nRemain⟩ = left := by
      simpa [decodeLoop] using hloop
    exact h
  | cons byte src ih =>
    rw [decodeLoop] at hloop
    by_cases hzero : byte = 0
    · rw [if_pos hzero] at hloop
      obtain ⟨-, rfl⟩ : codePoints = out ∧ ⟨value, nRemain⟩ = left := by simpa using hloop
      exact h
    · rw [if_neg hzero] at hloop
      by_cases hpos : 0 < nRemain
      · rw [if_pos hpos] at hloop
        exact ih (h.append hpos byte) hloop
      · rw [if_neg hpos] at hloop
        by_cases hinvalid : bytesAfter byte < 0
        · simp [hinvalid] at hloop
        · simp only [hinvalid, if_false] at hloop
          exact ih (ok_firstByte byte) hloop

lemma ok_decodeUtf8 {src : List UInt8} {left : PartialUtf8} (h : left.Ok) :
    (decodeUtf8 src left).2.Ok := by
  rw [decodeUtf8]
  cases hcont : continueLoop src left.value left.nRemain with
  | none => exact PartialUtf8.ok_of_nonpos (Int.neg_nonpos_of_nonneg (by decide))
  | some cont =>
    obtain ⟨rest, value, nRemain⟩ := cont
    simp only
    cases hloop : decodeLoop rest value nRemain
        (if 0 < left.nRemain ∧ nRemain = 0 then [value] else []) with
    | none => exact PartialUtf8.ok_of_nonpos (by decide)
    | some decoded =>
      obtain ⟨codePoints, left'⟩ := decoded
      exact ok_of_decodeLoop (ok_of_continueLoop h hcont) hloop

lemma decodeUtf8_eq_append (src : List UInt8) (left : PartialUtf8) :
    ∃ codePoints, (decodeUtf8 src left).1 = codePoints ++ [0] := by
  rw [decodeUtf8]
  split
  · exact ⟨[], rfl⟩
  · simp only
    split
    · exact ⟨[], rfl⟩
    · exact ⟨_, rfl⟩

/-- The least code point that is not encoded by fewer bytes, by the number of bytes that remain. -/
def leastCodePoint : ℤ → ℕ
  | 1 => 2 ^ 7
  | 2 => 2 ^ 11
  | 3 => 2 ^ 16
  | _ => 0

/-- The bytes left over can become the code point. -/
def Completes (left : PartialUtf8) (c : ℕ) : Prop :=
  0 < left.nRemain ∧ c / 2 ^ (6 * left.nRemain.toNat) = left.value ∧ leastCodePoint left.nRemain ≤ c

/-- `value << (n_remain * 6)` does not overflow, and its low bits are free. -/
lemma shift_eq (value n : ℕ) (h : value * 2 ^ (6 * n) < 2 ^ 32) :
    value <<< (n * 6) % 2 ^ 32 = value * 2 ^ (6 * n) ∧
      (value <<< (n * 6) % 2 ^ 32 ||| (1 <<< (n * 6) - 1)) = value * 2 ^ (6 * n) + (2 ^ (6 * n) - 1) := by
  have hshift : value <<< (n * 6) = value * 2 ^ (6 * n) := by
    rw [Nat.shiftLeft_eq, Nat.mul_comm n 6]
  have hmod : value <<< (n * 6) % 2 ^ 32 = value <<< (n * 6) :=
    Nat.mod_eq_of_lt (hshift ▸ h)
  refine ⟨hmod.trans hshift, ?_⟩
  rw [hmod, ← Nat.shiftLeft_add_eq_or_of_lt, hshift, Nat.one_shiftLeft, Nat.mul_comm n 6]
  rw [Nat.one_shiftLeft]
  exact Nat.sub_lt (Nat.two_pow_pos _) Nat.one_pos

lemma low_high_eq {left : PartialUtf8} (h : left.Ok) (hpos : 0 < left.nRemain) :
    left.low = (if left.value = 0 ∧ left.nRemain ≠ 1 then leastCodePoint left.nRemain
      else left.value * 2 ^ (6 * left.nRemain.toNat)) ∧
    left.high = left.value * 2 ^ (6 * left.nRemain.toNat) + (2 ^ (6 * left.nRemain.toNat) - 1) := by
  obtain ⟨value, nRemain⟩ := left
  obtain ⟨hle, hone, htwo, hthree⟩ := h
  simp only at hle hone htwo hthree hpos
  have hn : nRemain = 1 ∨ nRemain = 2 ∨ nRemain = 3 := by omega
  rcases hn with rfl | rfl | rfl
  · have hvalue := hone rfl
    obtain ⟨hlow, hhigh⟩ := shift_eq value 1 (by omega)
    refine ⟨?_, hhigh⟩
    simp only [PartialUtf8.low, Int.toNat_one, hlow]
    simp
  · have hvalue := htwo rfl
    obtain ⟨hlow, hhigh⟩ := shift_eq value 2 (by omega)
    refine ⟨?_, hhigh⟩
    rw [PartialUtf8.low, show Int.toNat 2 = 2 from rfl, hlow]
    by_cases hv : value = 0
    · simp [hv, leastCodePoint]
    · simp only [hv, leastCodePoint, Nat.mul_eq_zero, false_and, if_false, false_or]
      simp
  · have hvalue := hthree rfl
    obtain ⟨hlow, hhigh⟩ := shift_eq value 3 (by omega)
    refine ⟨?_, hhigh⟩
    rw [PartialUtf8.low, show Int.toNat 3 = 3 from rfl, hlow]
    by_cases hv : value = 0
    · simp [hv, leastCodePoint]
    · simp only [hv, leastCodePoint, Nat.mul_eq_zero, false_and, if_false, false_or]
      simp

/-- The code points that the bytes left over can become lie between `low` and `high`. -/
lemma completes_iff {left : PartialUtf8} (h : left.Ok) (hne : left.nRemain ≠ 0) {c : ℕ} :
    Completes left c ↔ ¬ (left.nRemain < 0 ∨ left.nRemain = 1 ∧ left.value < 2) ∧
      left.low ≤ c ∧ c ≤ left.high := by
  by_cases hpos : 0 < left.nRemain
  · obtain ⟨hlow, hhigh⟩ := low_high_eq h hpos
    rw [hlow, hhigh, Completes, Nat.div_eq_iff (Nat.two_pow_pos _)]
    have hn : left.nRemain = 1 ∨ left.nRemain = 2 ∨ left.nRemain = 3 := by
      have := h.le_three
      omega
    -- the overlong sequences are those below the least code point
    rcases hn with hn | hn | hn <;> rw [hn]
    · by_cases hv : left.value = 0 <;> simp [leastCodePoint, hv] <;> omega
    · by_cases hv : left.value = 0 <;> simp [leastCodePoint, hv] <;> omega
    · by_cases hv : left.value = 0
      · simp [leastCodePoint, hv]
        omega
      · have hleast : 2 ^ 16 ≤ left.value * 2 ^ 18 :=
          (Nat.pow_le_pow_right Nat.two_pos (by decide)).trans
            (Nat.le_mul_of_pos_left _ (Nat.pos_of_ne_zero hv))
        rw [if_neg fun hz => hv hz.1, show 6 * Int.toNat 3 = 18 from rfl, leastCodePoint]
        omega
  · have hneg : left.nRemain < 0 := by omega
    simp [Completes, hneg, hneg.le]

lemma meets_iff {r : CharRange} (hr : ∀ lower upper, r = .span lower upper → lower ≤ upper)
    {low high : ℕ} (hle : low ≤ high) :
    r.Meets low high ↔ ∃ c, (low ≤ c ∧ c ≤ high) ∧ r.Has c := by
  cases r with
  | any => exact ⟨fun _ => ⟨low, ⟨le_rfl, hle⟩, trivial⟩, fun _ => trivial⟩
  | span lower upper =>
    have hspan := hr lower upper rfl
    simp only [meets_span, has_span]
    constructor
    · rintro ⟨hlower, hupper⟩
      exact ⟨max lower low, by omega, by omega⟩
    · rintro ⟨c, hc⟩
      omega

lemma low_le_high {left : PartialUtf8} (h : left.Ok) (hpos : 0 < left.nRemain) :
    left.low ≤ left.high := by
  obtain ⟨hlow, hhigh⟩ := low_high_eq h hpos
  have hn : left.nRemain = 1 ∨ left.nRemain = 2 ∨ left.nRemain = 3 := by
    have := h.le_three
    omega
  rw [hlow, hhigh]
  rcases hn with hn | hn | hn <;> rw [hn] <;> by_cases hv : left.value = 0 <;>
    simp [leastCodePoint, hv]

/-- For a regular class with its ranges in order, `matchPartialChar` says whether the bytes left
over can become a character of the class. -/
lemma mayHave_iff {k : CharClass} (hk : k.inverse = false)
    (hordered : ∀ lower upper, CharRange.span lower upper ∈ k.ranges → lower ≤ upper)
    {left : PartialUtf8} (h : left.Ok) (hne : left.nRemain ≠ 0) :
    k.MayHave left ↔ ∃ c, Completes left c ∧ k.Has c := by
  simp only [CharClass.MayHave, CharClass.Has, hk, iff_true, completes_iff h hne]
  constructor
  · rintro ⟨hvalid, r, hr, hmeets⟩
    have hpos : 0 < left.nRemain := by omega
    obtain ⟨c, hc, hhas⟩ := (meets_iff (fun _ _ hspan => hordered _ _ (hspan ▸ hr))
      (low_le_high h hpos)).1 hmeets
    exact ⟨c, ⟨hvalid, hc⟩, r, hr, hhas⟩
  · rintro ⟨c, ⟨hvalid, hc⟩, r, hr, hhas⟩
    refine ⟨hvalid, r, hr, ?_⟩
    have hpos : 0 < left.nRemain := by omega
    exact (meets_iff (fun _ _ hspan => hordered _ _ (hspan ▸ hr)) (low_le_high h hpos)).2
      ⟨c, hc, hhas⟩

/-! ## The states that are reached -/

/-- The states that are reached from the initial one by accepting tokens and texts. -/
inductive Reaches (G : ParsedGrammar) (vocab : Vocab) (lazy : Bool) (triggerTokens : List ℤ)
    (triggerPatterns : List TriggerPattern) : GrammarState → Prop where
  | init {fuel : ℕ} {sts : List Stack} :
      init G.rules fuel G.startRuleIndex = .ok (some sts) →
      Reaches G vocab lazy triggerTokens triggerPatterns
        (initState G.rules sts lazy triggerTokens triggerPatterns)
  | token {fuel : ℕ} {token : ℤ} {st st' : GrammarState} :
      Reaches G vocab lazy triggerTokens triggerPatterns st →
      acceptImpl vocab fuel st token = .ok st' →
      Reaches G vocab lazy triggerTokens triggerPatterns st'
  | text {fuel : ℕ} {piece : List UInt8} {st st' : GrammarState} :
      Reaches G vocab lazy triggerTokens triggerPatterns st →
      acceptStr fuel st piece = .ok st' →
      Reaches G vocab lazy triggerTokens triggerPatterns st'

/-- What holds of every state that is reached. -/
structure StateOk (G : ParsedGrammar) (st : GrammarState) : Prop where
  rules : st.rules = G.rules
  settled : ∀ x ∈ st.stackSet, Settled G.rules x
  ne_nil : st.stackSet ≠ []
  left : st.partialUtf8.Ok

variable {G : ParsedGrammar} {vocab : Vocab} {fuel : ℕ} {st st' : GrammarState}

lemma acceptStr_eq_ok {piece : List UInt8} : acceptStr fuel st piece = .ok st' ↔
    ∃ out, acceptAll st.rules fuel st.stackSet (decodeUtf8 piece st.partialUtf8).1.dropLast =
        .ok out ∧ out ≠ [] ∧
      st' = { st with stackSet := out, partialUtf8 := (decodeUtf8 piece st.partialUtf8).2 } := by
  rw [acceptStr, bind_eq_ok]
  refine exists_congr fun out => and_congr_right fun _ => ?_
  split_ifs with hnil
  · simp [hnil]
  · simp [hnil, eq_comm]

lemma StateOk.acceptStr {piece : List UInt8} (h : StateOk G st)
    (hst' : LlamaGrammar.acceptStr fuel st piece = .ok st') : StateOk G st' := by
  obtain ⟨out, hout, hne, rfl⟩ := acceptStr_eq_ok.1 hst'
  rw [h.rules] at hout
  exact ⟨h.rules, settled_acceptAll h.settled hout, hne, ok_decodeUtf8 h.left⟩

lemma StateOk.acceptImpl {token : ℤ} (h : StateOk G st)
    (hst' : LlamaGrammar.acceptImpl vocab fuel st token = .ok st') : StateOk G st' := by
  have htriggered : StateOk G { st with awaitingTrigger := false, triggerBuffer := [] } :=
    ⟨h.rules, h.settled, h.ne_nil, h.left⟩
  rw [LlamaGrammar.acceptImpl] at hst'
  simp only at hst'
  split_ifs at hst'
  · exact htriggered.acceptStr hst'
  · split at hst'
    · exact htriggered.acceptStr hst'
    · obtain rfl := Except.ok.inj hst'
      exact ⟨h.rules, h.settled, h.ne_nil, h.left⟩
  · exact Except.ok.inj hst' ▸ h
  · exact h.acceptStr hst'

lemma initialStacks_ne_nil {sts : List Stack}
    (h : initialStacks G.rules fuel G.startRuleIndex = .ok sts) : sts ≠ [] := by
  have hres := initialStacks_residual (s := []) isResidual_derivesPrefix h
  obtain ⟨x, hx, -⟩ := hres.2 derivesPrefix_nil_right
  exact List.ne_nil_of_mem hx

lemma stateOk_of_reaches {lazy : Bool} {triggerTokens : List ℤ}
    {triggerPatterns : List TriggerPattern}
    (h : Reaches G vocab lazy triggerTokens triggerPatterns st) : StateOk G st := by
  induction h with
  | init hinit =>
    obtain ⟨-, hinit⟩ := init_eq_ok_some.1 hinit
    exact ⟨rfl, settled_initialStacks hinit, initialStacks_ne_nil hinit,
      PartialUtf8.ok_of_nonpos le_rfl⟩
  | token _ hst' ih => exact ih.acceptImpl hst'
  | text _ hst' ih => exact ih.acceptStr hst'

/-! ## The two readers -/

/-- The bytes left over can continue a stack: there are none, or `matchPartialChar` accepts them at
the class on top. -/
def CanContinue (rules : Rules) (left : PartialUtf8) : Stack → Prop
  | [] => left.nRemain = 0
  | pos :: _ => left.nRemain = 0 ∨ matchPartialChar rules pos left = .ok true

/-- Accepting the text ends with a stack that the bytes left over can continue. -/
def Accepts (fuel : ℕ) (st : GrammarState) (piece : List UInt8) : Prop :=
  ∃ st', acceptStr fuel st piece = .ok st' ∧
    ∃ x ∈ st'.stackSet, CanContinue st'.rules st'.partialUtf8 x

/-- No code point of the text is zero. -/
def NoZero (st : GrammarState) (piece : List UInt8) : Prop :=
  ∀ c ∈ (decodeUtf8 piece st.partialUtf8).1.dropLast, c ≠ 0

lemma canContinue_iff {left : PartialUtf8} {x : Stack} (hx : Settled G.rules x) :
    CanContinue G.rules left x ↔ GoesOn G left (formOf G.rules x) [] := by
  cases x with
  | nil => exact goesOn_nil_nil.symm
  | cons pos below =>
    have hpos : IsClass (elemAt G.rules pos) := hx.top pos rfl
    rw [formOf_cons, syms_of_isClass hpos, List.cons_append, goesOn_terminal_nil, CanContinue,
      matchPartialChar_eq hpos, Except.ok.injEq, decide_eq_true_iff]

lemma accepts_iff (h : StateOk G st) {piece : List UInt8} {out : List Stack}
    (hout : acceptAll G.rules fuel st.stackSet
      (decodeUtf8 piece st.partialUtf8).1.dropLast = .ok out) :
    Accepts fuel st piece ↔ ∃ x ∈ st.stackSet, GoesOn G (decodeUtf8 piece st.partialUtf8).2
      (formOf G.rules x) (decodeUtf8 piece st.partialUtf8).1.dropLast := by
  have hres := acceptAll_residual (s := []) (isResidual_goesOn G
    (decodeUtf8 piece st.partialUtf8).2) h.settled hout
  rw [List.append_nil] at hres
  rw [← hres]
  have hsettled := settled_acceptAll h.settled hout
  constructor
  · rintro ⟨st', hst', x, hx, hcont⟩
    obtain ⟨out', hout', -, rfl⟩ := acceptStr_eq_ok.1 hst'
    rw [h.rules] at hout'
    obtain rfl := Except.ok.inj (hout.symm.trans hout')
    exact ⟨x, hx, (canContinue_iff (hsettled x hx)).1 (h.rules ▸ hcont)⟩
  · rintro ⟨x, hx, hgoes⟩
    refine ⟨_, acceptStr_eq_ok.2 ⟨out, h.rules.symm ▸ hout, List.ne_nil_of_mem hx, rfl⟩, x, hx, ?_⟩
    exact h.rules.symm ▸ (canContinue_iff (hsettled x hx)).2 hgoes

variable {L : Type} {negInf : L} {curP : List (TokenData L)}

lemma getElem?_forbid (rejects : List Candidate) (i : ℕ) :
    (forbid negInf curP rejects)[i]? = if ∃ tok ∈ rejects, tok.index = i then
      curP[i]?.map fun data => { data with logit := negInf } else curP[i]? := by
  induction rejects generalizing curP with
  | nil => simp [forbid]
  | cons tok rejects ih =>
    rw [forbid, List.foldl_cons, ← forbid, ih, List.getElem?_modify]
    simp only [List.mem_cons, exists_eq_or_imp]
    by_cases htok : tok.index = i
    · by_cases hrest : ∃ tok ∈ rejects, tok.index = i <;>
        cases curP[i]? <;> simp [htok, hrest]
    · by_cases hrest : ∃ tok ∈ rejects, tok.index = i <;> simp [htok, hrest]

def candidateOf (vocab : Vocab) (st : GrammarState) (i : ℕ) (id : ℤ) : Candidate :=
  ⟨i, (decodeUtf8 (vocab.tokenToPiece id) st.partialUtf8).1, 0,
    (decodeUtf8 (vocab.tokenToPiece id) st.partialUtf8).2⟩

/-- The candidates that `applyImpl` follows through the stacks. -/
def candidatesOf (vocab : Vocab) (negInf : L) (st : GrammarState) (curP : List (TokenData L)) :
    List Candidate :=
  (curP.mapIdx (sortToken vocab negInf st)).filterMap Prod.snd

lemma sortToken_snd {i : ℕ} {data : TokenData L} {tok : Candidate} :
    (sortToken vocab negInf st i data).2 = some tok ↔ vocab.isEog data.id = false ∧
      (vocab.tokenToPiece data.id).headD 0 ≠ 0 ∧ tok = candidateOf vocab st i data.id := by
  rw [sortToken]
  cases vocab.isEog data.id
  · by_cases hhead : (vocab.tokenToPiece data.id).headD 0 = 0
    · simp only [hhead, if_true, Bool.false_eq_true, if_false, reduceCtorEq, ne_eq,
        not_true_eq_false, false_and, and_false]
    · simp only [hhead, if_false, Bool.false_eq_true, Option.some.injEq, true_and, ne_eq,
        not_false_eq_true, candidateOf]
      exact eq_comm
  · by_cases hmem : [] ∈ st.stackSet <;> simp [hmem]

lemma mem_candidatesOf {tok : Candidate} : tok ∈ candidatesOf vocab negInf st curP ↔
    ∃ i data, curP[i]? = some data ∧ vocab.isEog data.id = false ∧
      (vocab.tokenToPiece data.id).headD 0 ≠ 0 ∧ tok = candidateOf vocab st i data.id := by
  rw [candidatesOf, List.mem_filterMap]
  constructor
  · rintro ⟨sorted, hsorted, htok⟩
    obtain ⟨i, hi⟩ := List.mem_iff_getElem?.1 hsorted
    rw [List.getElem?_mapIdx, Option.map_eq_some_iff] at hi
    obtain ⟨data, hdata, rfl⟩ := hi
    exact ⟨i, data, hdata, sortToken_snd.1 htok⟩
  · rintro ⟨i, data, hdata, htok⟩
    refine ⟨sortToken vocab negInf st i data, ?_, sortToken_snd.2 htok⟩
    refine List.mem_iff_getElem?.2 ⟨i, ?_⟩
    rw [List.getElem?_mapIdx, hdata]
    rfl

lemma exists_index_iff {rejects : List Candidate}
    (h : RejectsExactly G st.stackSet (candidatesOf vocab negInf st curP) rejects) {i : ℕ}
    {data : TokenData L} (hdata : curP[i]? = some data) :
    (∃ tok ∈ rejects, tok.index = i) ↔ vocab.isEog data.id = false ∧
      (vocab.tokenToPiece data.id).headD 0 ≠ 0 ∧ ¬ ∃ x ∈ st.stackSet,
        GoesOn G (candidateOf vocab st i data.id).partialUtf8 (formOf G.rules x)
          (candidateOf vocab st i data.id).rest := by
  constructor
  · rintro ⟨tok, htok, hi⟩
    obtain ⟨hmem, hnot⟩ := (h tok).1 htok
    obtain ⟨j, data', hdata', heog, hhead, rfl⟩ := mem_candidatesOf.1 hmem
    obtain rfl : j = i := hi
    obtain rfl := Option.some.inj (hdata.symm.trans hdata')
    exact ⟨heog, hhead, hnot⟩
  · rintro ⟨heog, hhead, hnot⟩
    exact ⟨_, (h _).2 ⟨mem_candidatesOf.2 ⟨i, data, hdata, heog, hhead, rfl⟩, hnot⟩, rfl⟩

lemma rest_candidateOf {i : ℕ} {id : ℤ} (h : NoZero st (vocab.tokenToPiece id)) :
    (candidateOf vocab st i id).rest =
      (decodeUtf8 (vocab.tokenToPiece id) st.partialUtf8).1.dropLast := by
  obtain ⟨codePoints, hcode⟩ := decodeUtf8_eq_append (vocab.tokenToPiece id) st.partialUtf8
  rw [NoZero, hcode, List.dropLast_concat] at h
  rw [Candidate.rest, candidateOf, hcode, List.drop_zero, List.dropLast_concat,
    List.takeWhile_append_of_pos (by simpa using h)]
  simp

/-- A token that may be sampled: one that ends the generation needs the empty stack, any other one
a text that some stack goes on over. -/
def Allowed (G : ParsedGrammar) (vocab : Vocab) (st : GrammarState) (id : ℤ) : Prop :=
  if vocab.isEog id then [] ∈ st.stackSet
  else (vocab.tokenToPiece id).headD 0 ≠ 0 ∧ ∃ x ∈ st.stackSet,
    GoesOn G (candidateOf vocab st 0 id).partialUtf8 (formOf G.rules x)
      (candidateOf vocab st 0 id).rest

/-- `applyImpl` leaves the allowed tokens alone and forbids the others. -/
lemma applyImpl_getElem? (h : StateOk G st) (hawait : st.awaitingTrigger = false)
    {out : List (TokenData L)} (hout : applyImpl vocab negInf fuel st curP = .ok out) {i : ℕ}
    {data : TokenData L} (hdata : curP[i]? = some data) :
    (Allowed G vocab st data.id → out[i]? = some data) ∧
      (¬ Allowed G vocab st data.id → out[i]? = some { data with logit := negInf }) := by
  rw [applyImpl, hawait, if_neg Bool.false_ne_true] at hout
  obtain ⟨rejects, hrejects, hout⟩ := bind_eq_ok.1 hout
  obtain rfl := Except.ok.inj hout
  rw [h.rules] at hrejects
  have hspec : RejectsExactly G st.stackSet (candidatesOf vocab negInf st curP) rejects :=
    mem_rejectCandidates h.settled hrejects
  have hindex := exists_index_iff hspec hdata
  have hsorted : ((curP.mapIdx (sortToken vocab negInf st)).map Prod.fst)[i]? =
      some (sortToken vocab negInf st i data).1 := by
    rw [List.getElem?_map, List.getElem?_mapIdx, hdata]
    rfl
  rw [getElem?_forbid, hsorted, Option.map_some]
  by_cases hrejected : ∃ tok ∈ rejects, tok.index = i
  · rw [if_pos hrejected]
    obtain ⟨heog, hhead, hnot⟩ := hindex.1 hrejected
    refine ⟨fun hallowed => ?_, fun _ => ?_⟩
    · rw [Allowed, heog, if_neg Bool.false_ne_true] at hallowed
      exact absurd hallowed.2 hnot
    · rw [sortToken, heog, if_neg Bool.false_ne_true, if_neg hhead]
  · rw [if_neg hrejected, Allowed, sortToken]
    cases heog : vocab.isEog data.id with
    | true => by_cases hmem : [] ∈ st.stackSet <;> simp [hmem]
    | false =>
      rw [if_neg Bool.false_ne_true, if_neg Bool.false_ne_true]
      by_cases hhead : (vocab.tokenToPiece data.id).headD 0 = 0
      · rw [if_pos hhead]
        exact ⟨fun hallowed => absurd hhead hallowed.1, fun _ => rfl⟩
      · rw [if_neg hhead]
        refine ⟨fun _ => rfl, fun hallowed => ?_⟩
        -- a candidate that is not rejected goes on
        by_contra
        refine hrejected (hindex.2 ⟨heog, hhead, fun hgoes => hallowed ⟨hhead, hgoes⟩⟩)

/-- Without left recursion `applyImpl` returns. -/
lemma exists_fuel_applyImpl (hG : ∀ r, ¬ G.cfg.LeftRecursive r) (h : StateOk G st)
    (curP : List (TokenData L)) :
    ∃ fuel, ∀ fuel' ≥ fuel, ∃ out, applyImpl vocab negInf fuel' st curP = .ok out := by
  obtain ⟨n, hn⟩ := exists_bound_forall_mem (l := candidatesOf vocab negInf st curP)
    (P := fun n tok => tok.rest.length < n) (fun hmn h => h.trans_le hmn)
    fun tok _ => ⟨_, Nat.lt_succ_self _⟩
  obtain ⟨fuel, hfuel⟩ := exists_fuel_rejectCandidates hG n h.ne_nil h.settled
  obtain ⟨rejects, hrejects⟩ := hfuel _ hn
  refine ⟨fuel, fun fuel' hle => ?_⟩
  rw [applyImpl]
  split_ifs
  · exact ⟨curP, rfl⟩
  · refine ⟨_, bind_eq_ok.2 ⟨rejects, ?_, rfl⟩⟩
    rw [h.rules]
    exact rejectCandidates_mono hle hrejects

lemma length_applyImpl {out : List (TokenData L)}
    (h : applyImpl vocab negInf fuel st curP = .ok out) : out.length = curP.length := by
  have hforbid : ∀ (rejects : List Candidate) (curP : List (TokenData L)),
      (forbid negInf curP rejects).length = curP.length := by
    intro rejects
    induction rejects with
    | nil => exact fun _ => rfl
    | cons tok rejects ih =>
      intro curP
      rw [forbid, List.foldl_cons, ← forbid, ih, List.length_modify]
  rw [applyImpl] at h
  split_ifs at h
  · exact congrArg List.length (Except.ok.inj h).symm
  · obtain ⟨rejects, -, h⟩ := bind_eq_ok.1 h
    rw [← Except.ok.inj h, hforbid, List.length_map, List.length_mapIdx]

lemma allowed_iff_accepts (h : StateOk G st) {id : ℤ} (heog : vocab.isEog id = false)
    (hhead : (vocab.tokenToPiece id).headD 0 ≠ 0) (hzero : NoZero st (vocab.tokenToPiece id))
    {out : List Stack} (hout : acceptAll G.rules fuel st.stackSet
      (decodeUtf8 (vocab.tokenToPiece id) st.partialUtf8).1.dropLast = .ok out) :
    Allowed G vocab st id ↔ Accepts fuel st (vocab.tokenToPiece id) := by
  rw [Allowed, heog, if_neg Bool.false_ne_true, rest_candidateOf hzero, accepts_iff h hout]
  exact and_iff_right hhead

/-- At a regular class with its ranges in order, bytes left over are accepted exactly if they can
become a character of the class. -/
lemma matchPartialChar_iff {pos : Pos} (hpos : isPositiveChar (elemAt G.rules pos) = true)
    (hordered : ∀ lower upper, CharRange.span lower upper ∈ classRanges (suffix G.rules pos) →
      lower ≤ upper) {left : PartialUtf8} (hleft : left.Ok) (hne : left.nRemain ≠ 0) :
    matchPartialChar G.rules pos left = .ok true ↔
      ∃ c, Completes left c ∧ (classOf (suffix G.rules pos)).Has c := by
  have hclass : IsClass (elemAt G.rules pos) := by
    rw [isPositiveChar, Bool.or_eq_true, decide_eq_true_iff, decide_eq_true_iff] at hpos
    exact hpos.imp_right .inr
  rw [matchPartialChar_eq hclass, Except.ok.injEq, decide_eq_true_iff]
  refine mayHave_iff ?_ hordered hleft hne
  rw [elemAt] at hpos
  rw [classOf, hpos]
  rfl

/-- The two readers agree.  In every state that is reached and does not wait for a trigger,
`applyImpl` returns and leaves the token at every place alone or forbids it: a token that ends the
generation is left alone exactly if the empty stack is there, a token without a text is forbidden,
and any other token, with no zero among its code points, is left alone exactly if accepting its
text ends with a stack that the bytes left over can continue.  Every token that is left alone is
accepted.  At a regular class with its ranges in order, bytes left over can continue a stack exactly
if they can become a character of the class. -/
theorem applyImpl_iff {lazy : Bool} {triggerTokens : List ℤ}
    {triggerPatterns : List TriggerPattern} (hG : ∀ r, ¬ G.cfg.LeftRecursive r)
    (hst : Reaches G vocab lazy triggerTokens triggerPatterns st)
    (hawait : st.awaitingTrigger = false) (negInf : L) (curP : List (TokenData L)) :
    (∃ fuel, ∀ fuel' ≥ fuel, ∃ out, applyImpl vocab negInf fuel' st curP = .ok out ∧
      out.length = curP.length ∧ ∀ (i : ℕ) (data : TokenData L), curP[i]? = some data →
        (vocab.isEog data.id = true →
          ([] ∈ st.stackSet → out[i]? = some data ∧
            ∃ st', acceptImpl vocab fuel' st data.id = .ok st') ∧
          ([] ∉ st.stackSet → out[i]? = some { data with logit := negInf })) ∧
        (vocab.isEog data.id = false → (vocab.tokenToPiece data.id).headD 0 = 0 →
          out[i]? = some { data with logit := negInf }) ∧
        (vocab.isEog data.id = false → (vocab.tokenToPiece data.id).headD 0 ≠ 0 →
          NoZero st (vocab.tokenToPiece data.id) →
          (Accepts fuel' st (vocab.tokenToPiece data.id) → out[i]? = some data ∧
            ∃ st', acceptImpl vocab fuel' st data.id = .ok st') ∧
          (¬ Accepts fuel' st (vocab.tokenToPiece data.id) →
            out[i]? = some { data with logit := negInf }))) ∧
    ∀ piece pos, isPositiveChar (elemAt G.rules pos) = true →
      (∀ lower upper, CharRange.span lower upper ∈ classRanges (suffix G.rules pos) →
        lower ≤ upper) →
      (decodeUtf8 piece st.partialUtf8).2.nRemain ≠ 0 →
        (matchPartialChar G.rules pos (decodeUtf8 piece st.partialUtf8).2 = .ok true ↔
          ∃ c, Completes (decodeUtf8 piece st.partialUtf8).2 c ∧
            (classOf (suffix G.rules pos)).Has c) := by
  have hok := stateOk_of_reaches hst
  refine ⟨?_, fun piece pos hpos hordered hne =>
    matchPartialChar_iff hpos hordered (ok_decodeUtf8 hok.left) hne⟩
  obtain ⟨fuelApply, hApply⟩ := exists_fuel_applyImpl hG hok curP
  obtain ⟨fuelAccept, hAccept⟩ := exists_bound_forall_mem (l := curP)
    (P := fun fuel data => ∃ out, acceptAll G.rules fuel st.stackSet
      (decodeUtf8 (vocab.tokenToPiece data.id) st.partialUtf8).1.dropLast = .ok out)
    (fun hle ⟨out, hout⟩ => ⟨out, acceptAll_mono hle hout⟩)
    fun data _ => exists_acceptAll hG hok.settled _
  refine ⟨max fuelApply fuelAccept, fun fuel' hfuel' => ?_⟩
  obtain ⟨out, hout⟩ := hApply fuel' ((le_max_left _ _).trans hfuel')
  refine ⟨out, hout, length_applyImpl hout, fun i data hdata => ?_⟩
  obtain ⟨hleave, hforbid⟩ := applyImpl_getElem? hok hawait hout hdata
  refine ⟨fun heog => ?_, fun heog hhead => ?_, fun heog hhead hzero => ?_⟩
  · have hallowed : Allowed G vocab st data.id ↔ [] ∈ st.stackSet := by
      rw [Allowed, heog, if_pos rfl]
    refine ⟨fun hmem => ⟨hleave (hallowed.2 hmem), st, ?_⟩, fun hmem => hforbid (mt hallowed.1 hmem)⟩
    rw [acceptImpl, hawait, heog, if_neg Bool.false_ne_true, if_pos rfl, if_pos hmem]
  · refine hforbid fun hallowed => ?_
    rw [Allowed, heog, if_neg Bool.false_ne_true] at hallowed
    exact hallowed.1 hhead
  · obtain ⟨accepted, haccepted⟩ := hAccept data (List.mem_of_getElem? hdata)
    have hiff := allowed_iff_accepts hok heog hhead hzero
      (acceptAll_mono ((le_max_right _ _).trans hfuel') haccepted)
    refine ⟨fun haccepts => ⟨hleave (hiff.2 haccepts), ?_⟩, fun hnot => hforbid (mt hiff.1 hnot)⟩
    obtain ⟨st', hst', -⟩ := haccepts
    refine ⟨st', ?_⟩
    rw [acceptImpl, hawait, heog, if_neg Bool.false_ne_true, if_neg Bool.false_ne_true]
    exact hst'

/-! ## An example -/

/-- Token 0 has no text, token 2 ends the generation, and all others are the letter `a`. -/
def letterVocab : Vocab where
  tokenToPiece id := if id = 0 then [] else [97]
  isEog id := id = 2

/-- The initial state of `root ::= "a" root | "b"`. -/
def manyThenOneState : GrammarState :=
  initState manyThenOne.rules [[⟨0, 0⟩], [⟨0, 3⟩]] false [] []

lemma reaches_manyThenOneState : Reaches manyThenOne letterVocab false [] [] manyThenOneState :=
  .init (show init manyThenOne.rules 2 manyThenOne.startRuleIndex = _ by rfl)

/-- The first symbol is a character class. -/
def beginsTerminal {T N : Type*} : List (Symbol T N) → Bool
  | .terminal _ :: _ => true
  | .nonterminal _ :: _ => false
  | [] => false

lemma exists_of_beginsTerminal {T N : Type*} {w : List (Symbol T N)} (h : beginsTerminal w = true) :
    ∃ k v, w = .terminal k :: v := by
  obtain _ | ⟨k | n, v⟩ := w
  · cases h
  · exact ⟨k, v, rfl⟩
  · cases h

lemma not_leftRecursive_manyThenOne (r : ℕ) : ¬ manyThenOne.cfg.LeftRecursive r := by
  have hout : ∀ rule ∈ manyThenOne.cfg.rules, beginsTerminal rule.output = true := by decide
  rintro ⟨x, hx⟩
  obtain ⟨w, hw, hwx⟩ := Relation.TransGen.head'_iff.1 hx
  obtain ⟨rule, hrule, -, rfl⟩ := produces_nonterminal_iff.1 hw
  obtain ⟨k, v, hkv⟩ := exists_of_beginsTerminal (hout rule hrule)
  rw [hkv] at hwx
  obtain ⟨v', hv', -⟩ := derives_terminal_cons_iff.1 hwx
  cases hv'

/-- In the initial state the letter `a` is left alone. -/
theorem applyImpl_iff_letter : ∃ fuel out, applyImpl letterVocab (0 : ℕ) fuel manyThenOneState
    [⟨1, 7⟩] = .ok out ∧ out[0]? = some ⟨1, 7⟩ := by
  obtain ⟨⟨fuel, h⟩, -⟩ := applyImpl_iff not_leftRecursive_manyThenOne reaches_manyThenOneState rfl
    (0 : ℕ) [⟨1, 7⟩]
  obtain ⟨out, hout, -, htoken⟩ := h (fuel + 3) (Nat.le_add_right _ _)
  have haccepts : Accepts (fuel + 3) manyThenOneState [97] := by
    have hrun : acceptAll manyThenOne.rules (fuel + 3) manyThenOneState.stackSet [97] =
        .ok [[⟨0, 0⟩], [⟨0, 3⟩]] :=
      acceptAll_mono (G := manyThenOne) (Nat.le_add_left _ _) (by rfl)
    exact ⟨_, acceptStr_eq_ok.2 ⟨_, hrun, by simp, rfl⟩, _, List.mem_cons_self, .inl rfl⟩
  obtain ⟨-, -, hletter⟩ := htoken 0 ⟨1, 7⟩ rfl
  exact ⟨fuel + 3, out, hout, ((hletter rfl (by decide) (by unfold NoZero; decide)).1 haccepts).1⟩

/-- In the initial state the token without a text is forbidden, although accepting its text leaves
stacks that can be continued. -/
theorem not_applyImpl_iff_empty :
    Reaches manyThenOne letterVocab false [] [] manyThenOneState ∧
      applyImpl letterVocab (0 : ℕ) 3 manyThenOneState [⟨0, 7⟩] = .ok [⟨0, 0⟩] ∧
      Accepts 3 manyThenOneState (letterVocab.tokenToPiece 0) := by
  refine ⟨reaches_manyThenOneState, by rfl, ?_⟩
  exact ⟨manyThenOneState, by rfl, _, List.mem_cons_self, .inl rfl⟩

end IFairy.LlamaGrammar
