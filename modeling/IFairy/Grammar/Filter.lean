import IFairy.Grammar.Language
import IFairy.Grammar.Tokens

/-!
# Rejecting candidates

`rejectCandidates` follows the code points of many tokens through the stacks at once, and looks at
the bytes left over at the end of each.  A token is rejected exactly if none of the stacks goes on
over its code points to a stack that the bytes left over may continue (`mem_rejectCandidates`), and
the answer is there within some depth when no rule is left recursive
(`exists_fuel_rejectCandidates`).
-/

namespace IFairy.LlamaGrammar

open ContextFreeGrammar

/-! ## Partial characters -/

/-- The range has characters between `low` and `high`. -/
def CharRange.Meets : CharRange → ℕ → ℕ → Prop
  | .span lower upper, low, high => lower ≤ high ∧ low ≤ upper
  | .any, _, _ => True

instance (r : CharRange) (low high : ℕ) : Decidable (r.Meets low high) :=
  match r with
  | .span _ _ => inferInstanceAs (Decidable (_ ∧ _))
  | .any => inferInstanceAs (Decidable True)

@[simp] lemma meets_span {lower upper low high : ℕ} :
    (CharRange.span lower upper).Meets low high ↔ lower ≤ high ∧ low ≤ upper := Iff.rfl

/-- What `matchPartialChar` says about a class: the bytes left over are no invalid or overlong
sequence, and a range meets the characters they can become, or none does for an inverse class. -/
def CharClass.MayHave (k : CharClass) (left : PartialUtf8) : Prop :=
  ¬ (left.nRemain < 0 ∨ left.nRemain = 1 ∧ left.value < 2) ∧
    ((∃ r ∈ k.ranges, r.Meets left.low left.high) ↔ k.inverse = false)

instance (k : CharClass) (left : PartialUtf8) : Decidable (k.MayHave left) :=
  inferInstanceAs (Decidable (_ ∧ _))

lemma meets_rangeOf {e : GrammarElement} {low high : ℕ} :
    (rangeOf e).Meets low high ↔ e.type = .charAny ∨ low ≤ e.value ∧ e.value ≤ high := by
  rw [rangeOf]
  split_ifs with h
  · simp [CharRange.Meets, h]
  · simp only [meets_span, h, false_or]
    exact and_comm

lemma matchPartialLoop_eq {isPositive : Bool} {low high : ℕ} {es : List GrammarElement}
    (hes : es ≠ []) (hany : ∀ e ∈ es.head?, e.type = .charAny → isPositive = true) :
    matchPartialLoop isPositive low high es =
      (decide (∃ r ∈ classRanges es, r.Meets low high) == isPositive) := by
  induction hn : es.length using Nat.strong_induction_on generalizing es with
  | _ n ih =>
    subst hn
    have halt : ∀ us : List GrammarElement, startsCharAlt us = true → us.length < es.length →
        matchPartialLoop isPositive low high us =
          (decide (∃ r ∈ classRanges us, r.Meets low high) == isPositive) := by
      intro us hus hlen
      cases us with
      | nil => cases hus
      | cons u us =>
        have hu : u.type = .charAlt := by simpa [startsCharAlt] using hus
        exact ih _ hlen (by simp) (by simp [hu]) rfl
    cases es with
    | nil => exact absurd rfl hes
    | cons e rest =>
      have hpos : e.type = .charAny → isPositive = true := hany e rfl
      cases rest with
      | nil =>
        rw [matchPartialLoop, classRanges]
        simp only [List.mem_singleton, exists_eq_left, meets_rangeOf]
        split_ifs with he hmeets
        · simp [he, hpos he]
        · simp [hmeets]
        · simp [he, hmeets]
      | cons upper rest =>
        rw [matchPartialLoop, classRanges]
        by_cases hu : upper.type = .charRngUpper
        · rw [if_pos hu, if_pos hu]
          simp only [List.mem_cons, exists_eq_or_imp, meets_span]
          by_cases hmeets : e.value ≤ high ∧ low ≤ upper.value
          · simp [hmeets]
          · rw [if_neg hmeets]
            by_cases hrest : startsCharAlt rest = true
            · rw [if_pos hrest, if_pos hrest, halt rest hrest (Nat.lt_add_right 1 (Nat.lt_add_one _))]
              simp only [hmeets, false_or]
            · rw [if_neg hrest, if_neg hrest]
              simp [hmeets]
        · rw [if_neg hu, if_neg hu]
          simp only [List.mem_cons, exists_eq_or_imp, meets_rangeOf]
          by_cases he : e.type = .charAny
          · simp [he, hpos he]
          · rw [if_neg he]
            by_cases hmeets : low ≤ e.value ∧ e.value ≤ high
            · simp [hmeets]
            · rw [if_neg hmeets]
              by_cases hrest : startsCharAlt (upper :: rest) = true
              · rw [if_pos hrest, if_pos hrest, halt (upper :: rest) hrest (by simp)]
                simp only [he, hmeets, false_or]
              · rw [if_neg hrest, if_neg hrest]
                simp [he, hmeets]

lemma matchPartialChar_eq {rules : Rules} {pos : Pos} (h : IsClass (elemAt rules pos))
    (left : PartialUtf8) :
    matchPartialChar rules pos left =
      .ok (decide ((classOf (suffix rules pos)).MayHave left)) := by
  have hpos : (isPositiveChar (elemAt rules pos) || (elemAt rules pos).type = .charNot) = true := by
    rcases h with h | h | h <;> simp [isPositiveChar, h]
  have hne : (elemAt rules pos).type ≠ .endRule := by rcases h with h | h | h <;> simp [h]
  rw [matchPartialChar, if_pos hpos]
  split_ifs with hinvalid
  · rw [decide_eq_false fun hmay => hmay.1 hinvalid]
  · rw [matchPartialLoop_eq]
    · simp only [CharClass.MayHave, hinvalid, not_false_eq_true, true_and, Except.ok.injEq]
      rw [Bool.eq_iff_iff, beq_iff_eq, decide_eq_true_iff, classOf, elemAt]
      simp only [Bool.not_eq_false']
      by_cases hr : ∃ r ∈ classRanges (suffix rules pos), r.Meets left.low left.high <;> simp [hr]
    · rw [suffix_eq_cons hne]
      simp
    · rw [suffix_eq_cons hne]
      simp only [List.head?_cons, Option.mem_some_iff, forall_eq', isPositiveChar, Bool.or_eq_true,
        decide_eq_true_iff]
      exact .inr

/-! ## What a token does to a stack -/

/-- The bytes left over may continue a form: there are none, or a class that may have the
character is in front. -/
def Continues (left : PartialUtf8) (w : List (Symbol CharClass ℕ)) : Prop :=
  left.nRemain = 0 ∨ ∃ k v, w = .terminal k :: v ∧ k.MayHave left

variable {G : ParsedGrammar}

/-- A form goes on over some characters to one that the bytes left over may continue. -/
def GoesOn (G : ParsedGrammar) (left : PartialUtf8) :
    List (Symbol CharClass ℕ) → List ℕ → Prop :=
  G.cfg.DerivesThen CharClass.Has (Continues left)

theorem isResidual_goesOn (G : ParsedGrammar) (left : PartialUtf8) :
    IsResidual G.cfg CharClass.Has (GoesOn G left) := by
  refine isResidual_derivesThen fun r v hr hcont => ?_
  obtain ⟨rule, hrule, hin⟩ := hr
  obtain hzero | ⟨k, w, hw, -⟩ := hcont
  · exact ⟨rule, hrule, hin, _, .refl _, .inl hzero⟩
  · cases hw

lemma goesOn_nil_nil {left : PartialUtf8} : GoesOn G left [] [] ↔ left.nRemain = 0 := by
  rw [GoesOn, derivesThen_nil]
  constructor
  · rintro ⟨x, hx, hcont⟩
    obtain rfl := derives_nil_iff.1 hx
    obtain hzero | ⟨k, v, hv, -⟩ := hcont
    · exact hzero
    · cases hv
  · intro hzero
    exact ⟨[], .refl [], .inl hzero⟩

lemma goesOn_terminal_nil {left : PartialUtf8} {k : CharClass} {v : List (Symbol CharClass ℕ)} :
    GoesOn G left (.terminal k :: v) [] ↔ left.nRemain = 0 ∨ k.MayHave left := by
  rw [GoesOn, derivesThen_nil]
  constructor
  · rintro ⟨x, hx, hcont⟩
    obtain ⟨w, rfl, -⟩ := derives_terminal_cons_iff.1 hx
    obtain hzero | ⟨k', v', hv, hk⟩ := hcont
    · exact .inl hzero
    · obtain ⟨hk', -⟩ := List.cons.inj hv
      exact .inr (Symbol.terminal.inj hk' ▸ hk)
  · intro h
    refine ⟨_, .refl _, h.imp_right fun hk => ⟨k, v, rfl, hk⟩⟩

/-! ## Candidates -/

/-- The code points of a candidate that are still to be read, up to the terminating zero. -/
def Candidate.rest (tok : Candidate) : List ℕ :=
  (tok.codePoints.drop tok.offset).takeWhile fun c => c ≠ 0

lemma Candidate.rest_of_zero {tok : Candidate} (h : tok.codePoint = 0) : tok.rest = [] := by
  rw [Candidate.codePoint, List.getD_eq_getElem?_getD] at h
  rw [Candidate.rest]
  cases hs : tok.codePoints[tok.offset]? with
  | none => rw [List.drop_of_length_le (List.getElem?_eq_none_iff.1 hs), List.takeWhile_nil]
  | some c =>
    rw [hs, Option.getD_some] at h
    obtain ⟨hlt, hc⟩ := List.getElem?_eq_some_iff.1 hs
    rw [List.drop_eq_getElem_cons hlt, hc, h]
    simp

lemma Candidate.rest_of_ne_zero {tok : Candidate} (h : tok.codePoint ≠ 0) :
    tok.rest = tok.codePoint :: tok.next.rest := by
  have hcode := h
  rw [Candidate.codePoint, List.getD_eq_getElem?_getD] at h
  cases hs : tok.codePoints[tok.offset]? with
  | none => simp [hs] at h
  | some c =>
    obtain ⟨hlt, hc⟩ := List.getElem?_eq_some_iff.1 hs
    have hpoint : tok.codePoint = c := by
      rw [Candidate.codePoint, List.getD_eq_getElem?_getD, hs, Option.getD_some]
    rw [Candidate.rest, List.drop_eq_getElem_cons hlt, hc, hpoint, List.takeWhile_cons_of_pos]
    · rfl
    · simpa [hpoint] using hcode

@[simp] lemma Candidate.prev_next (tok : Candidate) : tok.next.prev = tok := rfl

/-- The candidate is rejected by the class on top of a stack. -/
def Candidate.BlockedBy (tok : Candidate) (k : CharClass) : Prop :=
  if tok.codePoint = 0 then tok.partialUtf8.nRemain ≠ 0 ∧ ¬ k.MayHave tok.partialUtf8
  else ¬ k.Has tok.codePoint

/-- The candidate goes on behind the class on top of a stack. -/
def Candidate.Passes (tok : Candidate) (k : CharClass) : Prop :=
  tok.codePoint ≠ 0 ∧ k.Has tok.codePoint

instance (tok : Candidate) (k : CharClass) : Decidable (tok.BlockedBy k) := by
  unfold Candidate.BlockedBy
  infer_instance

instance (tok : Candidate) (k : CharClass) : Decidable (tok.Passes k) :=
  inferInstanceAs (Decidable (_ ∧ _))

lemma sortCandidate_eq {rules : Rules} {pos : Pos} (h : IsClass (elemAt rules pos))
    (sorted : List Candidate × List Candidate) (tok : Candidate) :
    sortCandidate rules pos sorted tok = .ok
      (sorted.1 ++ [tok].filter fun tok => tok.BlockedBy (classOf (suffix rules pos)),
        sorted.2 ++ ([tok].filter fun tok => tok.Passes (classOf (suffix rules pos))).map
          Candidate.next) := by
  rw [sortCandidate, matchPartialChar_eq h, matchChar_eq h]
  by_cases hzero : tok.codePoint = 0
  · by_cases hremain : tok.partialUtf8.nRemain = 0
    · simp [hzero, hremain, Candidate.BlockedBy, Candidate.Passes]
    · by_cases hmay : (classOf (suffix rules pos)).MayHave tok.partialUtf8 <;>
        simp [hzero, hremain, hmay, Candidate.BlockedBy, Candidate.Passes, bind, Except.bind]
  · by_cases hhas : (classOf (suffix rules pos)).Has tok.codePoint <;>
      simp [hzero, hhas, Candidate.BlockedBy, Candidate.Passes, bind, Except.bind]

lemma foldlM_sortCandidate {rules : Rules} {pos : Pos} (h : IsClass (elemAt rules pos))
    (candidates : List Candidate) (sorted : List Candidate × List Candidate) :
    candidates.foldlM (sortCandidate rules pos) sorted = .ok
      (sorted.1 ++ candidates.filter fun tok => tok.BlockedBy (classOf (suffix rules pos)),
        sorted.2 ++ (candidates.filter fun tok => tok.Passes (classOf (suffix rules pos))).map
          Candidate.next) := by
  induction candidates generalizing sorted with
  | nil => simp [pure, Except.pure]
  | cons tok candidates ih =>
    rw [foldlM_cons_eq_ok]
    refine ⟨_, sortCandidate_eq h sorted tok, ?_⟩
    rw [ih, ← List.singleton_append (l := candidates), List.filter_append, List.filter_append,
      List.map_append, List.append_assoc, List.append_assoc]

/-! ## Rejections -/

/-- What a list of rejected candidates has to say about the stacks. -/
def RejectsExactly (G : ParsedGrammar) (sts : List Stack) (candidates rejects : List Candidate) :
    Prop :=
  ∀ tok, tok ∈ rejects ↔ tok ∈ candidates ∧
    ¬ ∃ x ∈ sts, GoesOn G tok.partialUtf8 (formOf G.rules x) tok.rest

lemma not_goesOn_class {tok : Candidate} {k : CharClass} {v : List (Symbol CharClass ℕ)} :
    ¬ GoesOn G tok.partialUtf8 (.terminal k :: v) tok.rest ↔
      tok.BlockedBy k ∨ tok.Passes k ∧ ¬ GoesOn G tok.partialUtf8 v tok.next.rest := by
  rw [Candidate.BlockedBy, Candidate.Passes]
  by_cases hzero : tok.codePoint = 0
  · rw [if_pos hzero, Candidate.rest_of_zero hzero, goesOn_terminal_nil]
    simp [hzero]
  · rw [if_neg hzero, Candidate.rest_of_ne_zero hzero, (isResidual_goesOn G _).read]
    by_cases hhas : k.Has tok.codePoint <;> simp [hzero, hhas]

lemma rejectCandidatesForStack_spec {fuel : ℕ}
    {reject : List Stack → List Candidate → Except Halt (List Candidate)}
    (hreject : ∀ sts candidates rejects, (∀ x ∈ sts, Settled G.rules x) →
      reject sts candidates = .ok rejects → RejectsExactly G sts candidates rejects)
    {stack : Stack} (hstack : Settled G.rules stack) {candidates rejects : List Candidate}
    (h : rejectCandidatesForStack G.rules fuel reject stack candidates = .ok rejects) :
    RejectsExactly G [stack] candidates rejects := by
  intro tok
  simp only [List.mem_singleton, exists_eq_left]
  cases stack with
  | nil =>
    obtain rfl := Except.ok.inj h
    rw [List.mem_filter, formOf_nil]
    refine and_congr_right fun _ => ?_
    by_cases hzero : tok.codePoint = 0
    · rw [Candidate.rest_of_zero hzero, goesOn_nil_nil]
      simp [hzero]
    · rw [Candidate.rest_of_ne_zero hzero]
      simp [hzero, (isResidual_goesOn G _).done]
  | cons pos below =>
    have hpos : IsClass (elemAt G.rules pos) := hstack.top pos rfl
    obtain ⟨-, hbelow⟩ := valid_cons.1 hstack.valid
    have hafter := valid_pushUnlessEnd (ParsedGrammar.not_insideClass_add_classLength hpos) hbelow
    rw [rejectCandidatesForStack, foldlM_sortCandidate hpos, matchChar_eq hpos, bind_eq_ok] at h
    obtain ⟨sorted, hsorted, h⟩ := h
    obtain rfl := Except.ok.inj hsorted
    obtain ⟨after, hmatch, h⟩ := bind_eq_ok.1 h
    obtain rfl := Except.ok.inj hmatch
    obtain ⟨nextStacks, hnext, h⟩ := bind_eq_ok.1 h
    obtain ⟨nextRejects, hrejects, h⟩ := bind_eq_ok.1 h
    obtain rfl := Except.ok.inj h
    have hspec := hreject _ _ _ (settled_advanceStack (by simp) hafter hnext) hrejects
    rw [formOf_cons, syms_of_isClass hpos, List.cons_append, not_goesOn_class]
    have hgoes : ∀ tok : Candidate, (∃ x ∈ nextStacks,
        GoesOn G tok.partialUtf8 (formOf G.rules x) tok.rest) ↔ GoesOn G tok.partialUtf8
          (syms (suffix G.rules (pos.add (classLength (suffix G.rules pos)))) ++
            formOf G.rules below) tok.rest := by
      intro tok
      rw [advanceStack_residual (isResidual_goesOn G _) hafter hnext, formOf_pushUnlessEnd]
      simp
    simp only [List.nil_append, List.mem_append, List.mem_map, List.mem_filter,
      decide_eq_true_iff, hspec _, hgoes]
    constructor
    · rintro (⟨htok, hblocked⟩ | ⟨t, ⟨⟨t', ⟨ht', hpasses⟩, rfl⟩, hnot⟩, rfl⟩)
      · exact ⟨htok, .inl hblocked⟩
      · exact ⟨ht', .inr ⟨hpasses, hnot⟩⟩
    · rintro ⟨htok, hblocked | ⟨hpasses, hnot⟩⟩
      · exact .inl ⟨htok, hblocked⟩
      · exact .inr ⟨tok.next, ⟨⟨tok, ⟨htok, hpasses⟩, rfl⟩, hnot⟩, rfl⟩

/-- When every further stack is asked about the candidates rejected so far, those remain that all
stacks reject. -/
lemma rejectsExactly_foldlM {reject : List Candidate → Stack → Except Halt (List Candidate)}
    {rest : List Stack} (hreject : ∀ x ∈ rest, ∀ candidates rejects,
      reject candidates x = .ok rejects → RejectsExactly G [x] candidates rejects)
    {candidates acc out : List Candidate} {done : List Stack}
    (hacc : RejectsExactly G done candidates acc) (h : rest.foldlM reject acc = .ok out) :
    RejectsExactly G (done ++ rest) candidates out := by
  induction rest generalizing done acc with
  | nil =>
    obtain rfl := foldlM_nil_eq_ok.1 h
    rwa [List.append_nil]
  | cons x rest ih =>
    obtain ⟨hx, hrest⟩ := List.forall_mem_cons.1 hreject
    obtain ⟨mid, hmid, h⟩ := foldlM_cons_eq_ok.1 h
    have hmem := hx acc mid hmid
    have hdone : RejectsExactly G (done ++ [x]) candidates mid := by
      intro tok
      rw [hmem tok, hacc tok, and_assoc, ← not_or]
      simp only [List.mem_singleton, exists_eq_left, List.mem_append, or_and_right, exists_or]
    have hall := ih hrest hdone h
    rwa [List.append_assoc, List.singleton_append] at hall

/-- A candidate is rejected exactly if no stack goes on over its code points. -/
theorem mem_rejectCandidates {fuel : ℕ} {sts : List Stack} {candidates rejects : List Candidate}
    (hsts : ∀ x ∈ sts, Settled G.rules x)
    (h : rejectCandidates G.rules fuel sts candidates = .ok rejects) :
    RejectsExactly G sts candidates rejects := by
  induction fuel generalizing sts candidates rejects with
  | zero => cases h
  | succ fuel ih =>
    cases sts with
    | nil => cases h
    | cons stack sts =>
      rw [rejectCandidates] at h
      split_ifs at h with hnil
      · obtain rfl := Except.ok.inj h
        simp [RejectsExactly, hnil]
      · obtain ⟨first, hfirst, h⟩ := bind_eq_ok.1 h
        have hstack : ∀ x ∈ stack :: sts, ∀ candidates rejects, rejectCandidatesForStack G.rules
            fuel (rejectCandidates G.rules fuel) x candidates = .ok rejects →
              RejectsExactly G [x] candidates rejects := fun x hx _ _ h =>
          rejectCandidatesForStack_spec (fun _ _ _ => ih) (hsts x hx) h
        obtain ⟨hx, hrest⟩ := List.forall_mem_cons.1 hstack
        exact rejectsExactly_foldlM hrest (hx _ _ hfirst) h

/-! ## The answer is there -/

lemma rejectCandidatesForStack_mono {fuel fuel' : ℕ}
    {reject reject' : List Stack → List Candidate → Except Halt (List Candidate)}
    (hle : fuel ≤ fuel') (hreject : ∀ sts candidates rejects,
      reject sts candidates = .ok rejects → reject' sts candidates = .ok rejects)
    {stack : Stack} {candidates rejects : List Candidate}
    (h : rejectCandidatesForStack G.rules fuel reject stack candidates = .ok rejects) :
    rejectCandidatesForStack G.rules fuel' reject' stack candidates = .ok rejects := by
  cases stack with
  | nil => exact h
  | cons pos below =>
    obtain ⟨sorted, hsorted, h⟩ := bind_eq_ok.1 h
    obtain ⟨after, hmatch, h⟩ := bind_eq_ok.1 h
    obtain ⟨nextStacks, hnext, h⟩ := bind_eq_ok.1 h
    obtain ⟨nextRejects, hrejects, h⟩ := bind_eq_ok.1 h
    exact bind_eq_ok.2 ⟨sorted, hsorted, bind_eq_ok.2 ⟨after, hmatch, bind_eq_ok.2
      ⟨nextStacks, advanceStack_mono hle hnext, bind_eq_ok.2
        ⟨nextRejects, hreject _ _ _ hrejects, h⟩⟩⟩⟩

lemma rejectCandidates_mono {fuel fuel' : ℕ} (hle : fuel ≤ fuel') {sts : List Stack}
    {candidates rejects : List Candidate}
    (h : rejectCandidates G.rules fuel sts candidates = .ok rejects) :
    rejectCandidates G.rules fuel' sts candidates = .ok rejects := by
  induction fuel generalizing fuel' sts candidates rejects with
  | zero => cases h
  | succ fuel ih =>
    obtain ⟨fuel', rfl⟩ : ∃ k, fuel' = k + 1 := ⟨fuel' - 1, by omega⟩
    cases sts with
    | nil => cases h
    | cons stack sts =>
      have hstack : ∀ {x candidates rejects}, rejectCandidatesForStack G.rules fuel
          (rejectCandidates G.rules fuel) x candidates = .ok rejects →
            rejectCandidatesForStack G.rules fuel' (rejectCandidates G.rules fuel') x
              candidates = .ok rejects :=
        rejectCandidatesForStack_mono (by omega) fun _ _ _ h => ih (by omega) h
      rw [rejectCandidates] at h ⊢
      split_ifs at h ⊢ with hnil
      · exact h
      · obtain ⟨first, hfirst, h⟩ := bind_eq_ok.1 h
        exact bind_eq_ok.2 ⟨first, hstack hfirst, foldlM_mono (fun _ _ _ _ h => hstack h) h⟩

lemma exists_advanceStack_ne_nil (hG : ∀ r, ¬ G.cfg.LeftRecursive r) {stack : Stack}
    (hstack : Valid G.rules stack) :
    ∃ fuel out, advanceStack G.rules fuel stack [] = .ok out ∧ out ≠ [] := by
  obtain ⟨fuel, hfuel⟩ := exists_fuel_of_front hstack fun r hr _ => hG r hr
  obtain ⟨out, hout⟩ := hfuel []
  refine ⟨fuel, out, hout, ?_⟩
  have hres := advanceStack_residual (s := []) isResidual_derivesPrefix hstack hout
  obtain ⟨x, hx, -⟩ := hres.2 (.inr derivesPrefix_nil_right)
  exact List.ne_nil_of_mem hx

/-- The code points that are left to read number fewer than `n`. -/
def Shorter (n : ℕ) (candidates : List Candidate) : Prop :=
  ∀ tok ∈ candidates, tok.rest.length < n

lemma exists_fuel_rejectCandidatesForStack (hG : ∀ r, ¬ G.cfg.LeftRecursive r) {n : ℕ}
    (hnext : ∀ sts : List Stack, sts ≠ [] → (∀ x ∈ sts, Settled G.rules x) →
      ∃ fuel, ∀ candidates, Shorter n candidates →
        ∃ rejects, rejectCandidates G.rules fuel sts candidates = .ok rejects)
    {stack : Stack} (hstack : Settled G.rules stack) :
    ∃ fuel, ∀ candidates, Shorter (n + 1) candidates →
      ∃ rejects, rejectCandidatesForStack G.rules fuel (rejectCandidates G.rules fuel) stack
        candidates = .ok rejects := by
  cases stack with
  | nil => exact ⟨0, fun candidates _ => ⟨_, rfl⟩⟩
  | cons pos below =>
    have hpos : IsClass (elemAt G.rules pos) := hstack.top pos rfl
    obtain ⟨-, hbelow⟩ := valid_cons.1 hstack.valid
    have hafter := valid_pushUnlessEnd (ParsedGrammar.not_insideClass_add_classLength hpos) hbelow
    obtain ⟨fuel, nextStacks, hadvance, hne⟩ := exists_advanceStack_ne_nil hG hafter
    obtain ⟨fuel', hfuel'⟩ := hnext nextStacks hne (settled_advanceStack (by simp) hafter hadvance)
    refine ⟨max fuel fuel', fun candidates hshort => ?_⟩
    have hpass : Shorter n ((candidates.filter fun tok =>
        tok.Passes (classOf (suffix G.rules pos))).map Candidate.next) := by
      intro t ht
      obtain ⟨tok, htok, rfl⟩ := List.mem_map.1 ht
      obtain ⟨hmem, hpasses⟩ := List.mem_filter.1 htok
      have hlen := hshort tok hmem
      rw [Candidate.rest_of_ne_zero (of_decide_eq_true hpasses).1, List.length_cons] at hlen
      omega
    obtain ⟨rejects, hrejects⟩ := hfuel' _ hpass
    refine ⟨_, bind_eq_ok.2 ⟨_, foldlM_sortCandidate hpos candidates ([], []), bind_eq_ok.2
      ⟨_, matchChar_eq hpos 0, bind_eq_ok.2 ⟨nextStacks, ?_, bind_eq_ok.2 ⟨rejects, ?_, rfl⟩⟩⟩⟩⟩
    · exact advanceStack_mono (le_max_left _ _) hadvance
    · exact rejectCandidates_mono (le_max_right _ _) hrejects

/-- Without left recursion, the candidates are rejected within a depth that does not depend on
them, only on how many code points they have. -/
theorem exists_fuel_rejectCandidates (hG : ∀ r, ¬ G.cfg.LeftRecursive r) (n : ℕ)
    {sts : List Stack} (hne : sts ≠ []) (hsts : ∀ x ∈ sts, Settled G.rules x) :
    ∃ fuel, ∀ candidates, Shorter n candidates →
      ∃ rejects, rejectCandidates G.rules fuel sts candidates = .ok rejects := by
  induction n generalizing sts with
  | zero =>
    refine ⟨1, fun candidates hshort => ⟨[], ?_⟩⟩
    obtain ⟨stack, sts, rfl⟩ := List.exists_cons_of_ne_nil hne
    have hnil : candidates = [] :=
      List.eq_nil_iff_forall_not_mem.2 fun tok htok => Nat.not_lt_zero _ (hshort tok htok)
    rw [rejectCandidates, if_pos hnil]
  | succ n ih =>
    obtain ⟨fuel, hfuel⟩ := exists_bound_forall_mem (l := sts) (P := fun fuel x =>
        ∀ candidates, Shorter (n + 1) candidates → ∃ rejects, rejectCandidatesForStack G.rules fuel
          (rejectCandidates G.rules fuel) x candidates = .ok rejects)
      (fun hle h candidates hshort => by
        obtain ⟨rejects, hrejects⟩ := h candidates hshort
        exact ⟨rejects, rejectCandidatesForStack_mono hle
          (fun _ _ _ h => rejectCandidates_mono hle h) hrejects⟩)
      fun x hx => exists_fuel_rejectCandidatesForStack hG (fun _ => ih) (hsts x hx)
    refine ⟨fuel + 1, fun candidates hshort => ?_⟩
    obtain ⟨stack, sts, rfl⟩ := List.exists_cons_of_ne_nil hne
    rw [rejectCandidates]
    split_ifs
    · exact ⟨[], rfl⟩
    · -- the rejected candidates are among the ones asked about
      have hround : ∀ x ∈ stack :: sts, ∀ candidates, Shorter (n + 1) candidates →
          ∃ rejects, rejectCandidatesForStack G.rules fuel (rejectCandidates G.rules fuel) x
            candidates = .ok rejects ∧ Shorter (n + 1) rejects := by
        intro x hx candidates hshort
        obtain ⟨rejects, hrejects⟩ := hfuel x hx candidates hshort
        refine ⟨rejects, hrejects, fun tok htok => hshort tok ?_⟩
        exact ((rejectCandidatesForStack_spec (fun _ _ _ => mem_rejectCandidates) (hsts x hx)
          hrejects) tok).1 htok |>.1
      obtain ⟨hstack, hrest⟩ := List.forall_mem_cons.1 hround
      obtain ⟨first, hfirst, hshort⟩ := hstack candidates hshort
      obtain ⟨rejects, hrejects, -⟩ := exists_foldlM_invariant (I := Shorter (n + 1)) hrest hshort
      exact ⟨rejects, bind_eq_ok.2 ⟨first, hfirst, hrejects⟩⟩

end IFairy.LlamaGrammar
