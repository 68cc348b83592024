import IFairy.Json.PatternItems

/-!
# Rounds of the loop over a pattern

What the loop has collected stands for the alternatives of the part of the pattern that it has read
(`CollectsAtom`, `CollectsRule`).  There is a round for each thing that a pattern is made of: a
literal, the dot, a class, a group.
-/

namespace IFairy.JsonSchema

open LlamaGrammar ContextFreeGrammar

variable {final : RuleMap} {dotall : Bool} {name : List Char}

/-! ## What the loop collects -/

/-- The rules can be read in the grammar of `final`, and the texts that have names are the texts of
their rules. -/
structure PatternState.Sound (final : RuleMap) (s : PatternState) : Prop where
  rules : s.rules.Sound (· ∈ final.names)
  ids : ∀ e ∈ s.subRuleIds, (e.2, e.1) ∈ s.rules.entries ∧ IsName e.2

/-- `s'` comes from `s` by adding rules, without a message. -/
structure PatternState.Adds (s s' : PatternState) : Prop where
  rules : s.rules.entries ⊆ s'.rules.entries
  errors : s'.errors = s.errors
  warnings : s'.warnings = s.warnings

lemma PatternState.Adds.refl (s : PatternState) : s.Adds s := ⟨List.Subset.refl _, rfl, rfl⟩

lemma PatternState.Adds.trans {s s' s'' : PatternState} (h : s.Adds s') (h' : s'.Adds s'') :
    s.Adds s'' :=
  ⟨List.Subset.trans h.rules h'.rules, h'.errors.trans h.errors, h'.warnings.trans h.warnings⟩

/-- One item that a quantifier may follow. -/
structure CollectsAtom (final : RuleMap) (s s' : PatternState) (item : LiteralOrRule)
    (P : Language Char) : Prop extends s.Adds s' where
  means : s'.rules.entries ⊆ final.entries → s.Sound final → s'.Sound final ∧
    ∃ F, Scans (· ∈ final.names) true (toRule item) F ∧ NoSpace (toRule item) ∧
      ∀ env, final.Solved (· ∈ final.names) env → Spells (F env) P

/-- One item that is the text of a rule. -/
structure CollectsRule (final : RuleMap) (s s' : PatternState) (text : List Char)
    (P : Language Char) : Prop extends s.Adds s' where
  means : s'.rules.entries ⊆ final.entries → s.Sound final → s'.Sound final ∧
    ∃ F, Alternate (· ∈ final.names) text F ∧
      ∀ env, final.Solved (· ∈ final.names) env → Spells (F env) P

/-- A sequence that stands for a first alternative and others. -/
structure Collects (final : RuleMap) (s s' : PatternState) (seq : List LiteralOrRule)
    (P Q : Language Char) : Prop extends s.Adds s' where
  means : s'.rules.entries ⊆ final.entries → s.Sound final → s'.Sound final ∧
    ∃ A B, SeqMeans (· ∈ final.names) seq A B ∧
      ∀ env, final.Solved (· ∈ final.names) env → Spells (A env) P ∧ Spells (B env) Q

section Collects

variable {s s₁ s' : PatternState} {seq : List LiteralOrRule} {P Q R : Language Char}
  {text : List Char}

lemma collects_nil (s : PatternState) : Collects final s s [] 1 0 :=
  ⟨.refl s, fun _ hs => ⟨hs, _, _, .nil, fun _ _ => ⟨spells_one, spells_zero⟩⟩⟩

lemma Collects.cons_rule (h : CollectsRule final s s₁ text R) (h' : Collects final s₁ s' seq P Q) :
    Collects final s s' ((text, false) :: seq) (R * P) Q := by
  refine ⟨h.toAdds.trans h'.toAdds, fun hfinal hs => ?_⟩
  obtain ⟨hs₁, F, hF, hR⟩ := h.means (List.Subset.trans h'.rules hfinal) hs
  obtain ⟨hs', A, B, hseq, hPQ⟩ := h'.means hfinal hs₁
  exact ⟨hs', _, _, .rule hF hseq, fun env henv =>
    ⟨(hR env henv).mul (hPQ env henv).1, (hPQ env henv).2⟩⟩

lemma Collects.cons_literal {v : List Char} (hne : v ≠ []) (hv : '"' ∉ v)
    (h : Collects final s s' seq P Q) :
    Collects final s s' ((literalText v, true) :: seq) ({v} * P) Q := by
  refine ⟨h.toAdds, fun hfinal hs => ?_⟩
  obtain ⟨hs', A, B, hseq, hPQ⟩ := h.means hfinal hs
  exact ⟨hs', _, _, .literal hne hv hseq, fun env henv =>
    ⟨(spells_singleton v).mul (hPQ env henv).1, (hPQ env henv).2⟩⟩

lemma Collects.cons_bar (h : Collects final s s' seq P Q) :
    Collects final s s' ((['|'], false) :: seq) 1 (P + Q) := by
  refine ⟨h.toAdds, fun hfinal hs => ?_⟩
  obtain ⟨hs', A, B, hseq, hPQ⟩ := h.means hfinal hs
  exact ⟨hs', _, _, .bar hseq, fun env henv =>
    ⟨spells_one, (hPQ env henv).1.add (hPQ env henv).2⟩⟩

lemma CollectsAtom.toRule (h : CollectsAtom final s s' (text, false) P) :
    CollectsRule final s s' text P := by
  refine ⟨h.toAdds, fun hfinal hs => ?_⟩
  obtain ⟨hs', F, hscan, hspace, hP⟩ := h.means hfinal hs
  exact ⟨hs', F, hscan.alternate hspace, hP⟩

lemma collectsAtom_literal (final : RuleMap) (s : PatternState) {v : List Char} (hne : v ≠ []) (hv : '"' ∉ v) :
    CollectsAtom final s s (literalText v, true) {v} :=
  ⟨.refl s, fun _ hs => ⟨hs, _, scans_literalText hne hv, noSpace_literal _,
    fun _ _ => spells_singleton v⟩⟩

end Collects

/-! ## Quantifiers -/

section Quantifiers

variable {s₀ s : PatternState} {seq : List LiteralOrRule} {item : LiteralOrRule} {P : Language Char}
  {op : RepeatOp} {rest : List Char}

lemma adds_subRule (s : PatternState) (name text : List Char) :
    s.Adds (s.subRule name text).2 ∧
      ∀ final, Readable (· ∈ final.names) text → s.Sound final →
        (s.subRule name text).2.Sound final ∧
          ((s.subRule name text).1, text) ∈ (s.subRule name text).2.rules.entries ∧
          IsName (s.subRule name text).1 := by
  rw [PatternState.subRule]
  cases hid : s.subRuleIds.lookup text with
  | some id =>
    refine ⟨.refl s, fun final _ hs => ⟨hs, ?_⟩⟩
    obtain ⟨l₁, l₂, heq, -⟩ := List.lookup_eq_some_iff.1 hid
    exact hs.ids (text, id) (heq ▸ List.mem_append_right _ List.mem_cons_self)
  | none =>
    have hne : name ++ '-' :: numeral (s.subRuleIds.length + 1) ≠ [] :=
      List.append_ne_nil_of_right_ne_nil name (List.cons_ne_nil _ _)
    obtain ⟨hname, hmem⟩ := addRule_spec s.rules _ text hne
    refine ⟨⟨fun e he => (hmem e).2 (.inr he), rfl, rfl⟩, fun final htext hs => ?_⟩
    have hself := (hmem _).2 (.inl rfl)
    refine ⟨⟨hs.rules.addRule hne htext, fun e he => ?_⟩, hself, hname⟩
    rcases List.mem_cons.1 he with rfl | he
    · exact ⟨hself, hname⟩
    · exact ⟨(hmem _).2 (.inr (hs.ids e he).1), (hs.ids e he).2⟩

lemma mem_names {rules : RuleMap} {e : List Char × List Char} (h : e ∈ rules.entries) :
    e.1 ∈ rules.names := List.mem_map_of_mem h

lemma transformLoop_braces {times : List Char} (hbrace : '\x7d' ∉ times)
    (hrest : s.rest = '\x7b' :: (times ++ '\x7d' :: rest)) (fuel : ℕ) (before : Option Char) :
    transformLoop dotall name (fuel + 1) before seq s =
      (repeatBack name times seq { s with rest := rest }).bind fun r =>
        match r.1 with
        | none => some (([], false), r.2)
        | some seq => transformLoop dotall name fuel before seq r.2 := by
  have hinside : ∀ c ∈ times, (decide (c ≠ '\x7d')) = true := fun c hc =>
    decide_eq_true fun h => hbrace (h ▸ hc)
  have htake : (times ++ '\x7d' :: rest).takeWhile (· ≠ '\x7d') = times := by
    rw [List.takeWhile_append_of_pos hinside, List.takeWhile_cons_of_neg (by decide),
      List.append_nil]
  have hdrop : (times ++ '\x7d' :: rest).dropWhile (· ≠ '\x7d') = '\x7d' :: rest := by
    rw [List.dropWhile_append_of_pos hinside, List.dropWhile_cons_of_neg (by decide)]
  have hstep : transformLoop dotall name (fuel + 1) before seq s =
      (repeatBack name ((times ++ '\x7d' :: rest).takeWhile (· ≠ '\x7d')) seq
        (if (times ++ '\x7d' :: rest).dropWhile (· ≠ '\x7d') = [] then
          PatternState.fail { s with rest := ((times ++ '\x7d' :: rest).dropWhile (· ≠ '\x7d')).tail }
            "Unbalanced curly brackets"
        else { s with rest := ((times ++ '\x7d' :: rest).dropWhile (· ≠ '\x7d')).tail })).bind fun r =>
        match r.1 with
        | none => some (([], false), r.2)
        | some seq => transformLoop dotall name fuel before seq r.2 := by
    rw [transformLoop, hrest]
    rfl
  rw [hstep, htake, hdrop, if_neg (List.cons_ne_nil _ _)]
  rfl

lemma loop_quantifier (hform : QuantifierForm op (quantifierText op))
    (hitem : CollectsAtom final s₀ s item P) (hrest : s.rest = quantifierText op ++ rest) (fuel : ℕ)
    (before : Option Char) :
    ∃ text s', transformLoop dotall name (fuel + 1) before (seq ++ [item]) s =
        transformLoop dotall name fuel before (seq ++ [(text, false)]) s' ∧ s'.rest = rest ∧
      CollectsRule final s₀ s' text (repeated P op.counts) := by
  revert hrest
  generalize quantifierText op = qtext at hform
  intro hrest
  cases hform with
  | @operator c hc hop hfits =>
    refine ⟨toRule item ++ [c], { s with rest := rest }, ?_, rfl, hitem.toAdds.trans ⟨
      List.Subset.refl _, rfl, rfl⟩, fun hfinal hs => ?_⟩
    · rw [transformLoop, hrest]
      rcases hc with rfl | rfl | rfl <;> simp
    · obtain ⟨hs', F, hscan, hspace, hP⟩ := hitem.means hfinal hs
      exact ⟨⟨hs'.rules, hs'.ids⟩, _, alternate_repeat hscan hspace hop hfits, fun env henv =>
        (hP env henv).powers _⟩
  | @braces times m n hbrace htimes hrepeat =>
    rw [List.cons_append, List.append_assoc, List.singleton_append] at hrest
    rw [transformLoop_braces hbrace hrest, repeatBack, htimes]
    obtain ⟨text, literal⟩ := item
    cases literal with
    | true =>
      refine ⟨buildRepetition (toRule (text, true)) m n [], { s with rest := rest }, by simp, rfl,
        hitem.toAdds.trans ⟨List.Subset.refl _, rfl, rfl⟩, fun hfinal hs => ?_⟩
      obtain ⟨hs', F, hscan, hspace, hP⟩ := hitem.means hfinal hs
      rw [buildRepetition, if_pos (.inl rfl)]
      exact ⟨⟨hs'.rules, hs'.ids⟩, _, hrepeat _ _ _ hscan hspace, fun env henv =>
        (hP env henv).powers _⟩
    | false =>
      obtain ⟨hadds, hsub⟩ := adds_subRule { s with rest := rest } name text
      have hsubRest : (PatternState.subRule { s with rest := rest } name text).2.rest = rest := by
        rw [PatternState.subRule]
        split <;> rfl
      refine ⟨buildRepetition (PatternState.subRule { s with rest := rest } name text).1 m n [],
        (PatternState.subRule { s with rest := rest } name text).2, by simp, hsubRest,
        hitem.toAdds.trans ⟨hadds.rules, hadds.errors, hadds.warnings⟩, fun hfinal hs => ?_⟩
      obtain ⟨hs', F, hscan, hspace, hP⟩ := hitem.means (List.Subset.trans hadds.rules hfinal) hs
      have hread : ScansAlts (· ∈ final.names) false text F :=
        (hscan.alternate hspace).alts_single fun hnil => absurd hnil hspace.1
      obtain ⟨hs'', hmem, hname⟩ := hsub final ⟨F, hread⟩ ⟨hs'.rules, hs'.ids⟩
      have hid := scans_name hname.1 hname.2 (mem_names (hfinal hmem))
      rw [buildRepetition, if_pos (.inl rfl)]
      refine ⟨hs'', _, hrepeat _ _ _ hid (noSpace_name hname.1 hname.2), fun env henv => ?_⟩
      have hlang := henv _ (hfinal hmem) F hread
      dsimp only at hlang ⊢
      rw [hlang]
      exact (hP env henv).powers _

end Quantifiers

end IFairy.JsonSchema

namespace IFairy.JsonSchema

open LlamaGrammar ContextFreeGrammar

variable {final : RuleMap} {dotall : Bool} {name : List Char}

/-! ## Going on with a literal -/

/-- Literals: characters and escapes. -/
def Leaf.isLiteral : Leaf → Bool
  | .char _ | .escape _ => true
  | .dot | .cls _ _ => false

section ReadLiteral

variable {literal rest : List Char}

lemma isNonLiteral_alnum (c : Alnum) : isNonLiteral c.1 = false := by
  rw [isNonLiteral, decide_eq_false_iff_not]
  simp only [List.mem_cons, List.not_mem_nil, or_false, not_or]
  exact ⟨c.ne rfl, c.ne rfl, c.ne rfl, c.ne rfl, c.ne rfl, c.ne rfl, c.ne rfl, c.ne rfl, c.ne rfl,
    c.ne rfl, c.ne rfl⟩

lemma ne_of_isNonLiteral {c : Char} (hc : isNonLiteral c = true) : c ≠ '\\' ∧ c ≠ '"' := by
  constructor
  · rintro rfl
    exact absurd hc (by decide)
  · rintro rfl
    exact absurd hc (by decide)

lemma readLiteral_begin (c : Alnum) (rest : List Char) :
    readLiteral [] (c.1 :: rest) = readLiteral [c.1] rest := by
  have hback : c.1 ≠ '\\' := c.ne rfl
  have hquote : c.1 ≠ '"' := c.ne rfl
  have hnon := isNonLiteral_alnum c
  cases rest with
  | nil =>
    simp only [readLiteral, if_neg hquote, hnon]
    rfl
  | cons next rest =>
    rw [readLiteral, if_neg hback, if_neg hquote, hnon]
    rfl

lemma readLiteral_escape (c : Metachar) (literal rest : List Char) :
    readLiteral literal ('\\' :: c.1 :: rest) = readLiteral (literal ++ literalText [c.1]) rest := by
  rw [readLiteral, if_pos rfl]
  obtain ⟨c, hc⟩ := c
  simp only [List.mem_cons, List.not_mem_nil, or_false] at hc
  rcases hc with rfl | rfl | rfl | rfl | rfl | rfl | rfl | rfl | rfl | rfl | rfl | rfl | rfl | rfl <;>
    rfl

lemma readLiteral_stop (literal : List Char) (hrest : ∀ c ∈ rest.head?, isNonLiteral c = true) :
    readLiteral literal rest = (literal, rest) := by
  match rest, hrest with
  | [], _ => rfl
  | [c], hrest =>
    obtain ⟨-, hquote⟩ := ne_of_isNonLiteral (hrest c rfl)
    rw [readLiteral, if_neg hquote, hrest c rfl]
    rfl
  | c :: next :: rest, hrest =>
    obtain ⟨hback, hquote⟩ := ne_of_isNonLiteral (hrest c rfl)
    rw [readLiteral, if_neg hback, if_neg hquote, hrest c rfl]
    rfl

lemma le_readLiteral (literal rest : List Char) : literal <+: (readLiteral literal rest).1 := by
  fun_induction readLiteral literal rest with
  | case1 => exact List.prefix_rfl
  | case2 => exact List.prefix_append _ _
  | case3 => exact List.prefix_rfl
  | case4 => exact List.prefix_append _ _
  | case5 _ _ _ _ ih => exact (List.prefix_append _ _).trans ih
  | case6 _ _ _ _ ih => exact (List.prefix_append _ _).trans ih
  | case7 _ _ _ _ ih => exact (List.prefix_append _ _).trans ih
  | case8 _ _ _ _ _ _ _ ih => exact (List.prefix_append _ _).trans ih
  | case9 => exact List.prefix_rfl

lemma readLiteral_ne_nil {literal : List Char} (hne : literal ≠ []) (rest : List Char) :
    (readLiteral literal rest).1 ≠ [] := fun h => by
  have hle := le_readLiteral literal rest
  rw [h] at hle
  exact hne (List.prefix_nil.1 hle)

lemma readLiteral_char (c : Alnum) (literal rest : List Char) :
    readLiteral literal (c.1 :: rest) = readLiteral (literal ++ [c.1]) rest ∨
      readLiteral literal (c.1 :: rest) = (literal, c.1 :: rest) := by
  have hback : c.1 ≠ '\\' := c.ne rfl
  have hquote : c.1 ≠ '"' := c.ne rfl
  have hnon := isNonLiteral_alnum c
  cases rest with
  | nil =>
    refine .inl ?_
    simp only [readLiteral, if_neg hquote, hnon]
    rfl
  | cons next rest =>
    rw [readLiteral, if_neg hback, if_neg hquote]
    split_ifs
    · exact .inl rfl
    · exact .inr rfl

lemma readLiteral_char_stop (c : Alnum) (hliteral : literal ≠ []) {next : Char}
    (hnext : isNonLiteral next = true) (hdot : next ≠ '.') :
    readLiteral literal (c.1 :: next :: rest) = (literal, c.1 :: next :: rest) := by
  have hback : c.1 ≠ '\\' := c.ne rfl
  have hquote : c.1 ≠ '"' := c.ne rfl
  have hempty : literal.isEmpty = false := List.isEmpty_eq_false_iff.2 hliteral
  rw [readLiteral, if_neg hback, if_neg hquote, hempty, hnext, decide_eq_false hdot]
  exact if_neg (by simp)

end ReadLiteral

/-! ## Rounds -/

section Rounds

variable {s : PatternState} {rest : List Char} (fuel : ℕ) (before : Option Char)
  (seq : List LiteralOrRule)

lemma transformLoop_nil (hrest : s.rest = []) :
    transformLoop dotall name (fuel + 1) before seq s = some (joinSeq seq, s) := by
  rw [transformLoop, hrest]

lemma transformLoop_literal {c : Char} (hc : c = '\\' ∨ c.isAlphanum = true)
    (hrest : s.rest = c :: rest) (hne : (readLiteral [] (c :: rest)).1 ≠ []) :
    transformLoop dotall name (fuel + 1) before seq s =
      transformLoop dotall name fuel before (seq ++ [((readLiteral [] (c :: rest)).1, true)])
        { s with rest := (readLiteral [] (c :: rest)).2 } := by
  have hother : ∀ d, d ≠ '\\' → d.isAlphanum = false → c ≠ d := by
    rintro d hback hd rfl
    rcases hc with h | h
    · exact hback h
    · rw [h] at hd
      cases hd
  have h1 : c ≠ '.' := hother _ (by decide) rfl
  have h2 : c ≠ '(' := hother _ (by decide) rfl
  have h3 : c ≠ ')' := hother _ (by decide) rfl
  have h4 : c ≠ '[' := hother _ (by decide) rfl
  have h5 : c ≠ '|' := hother _ (by decide) rfl
  have h6 : ¬(c = '*' ∨ c = '+' ∨ c = '?') := by
    rintro (h | h | h)
    · exact hother _ (by decide) rfl h
    · exact hother _ (by decide) rfl h
    · exact hother _ (by decide) rfl h
  have h7 : c ≠ '\x7b' := hother _ (by decide) rfl
  rw [transformLoop, hrest]
  simp only [if_neg h1, if_neg h2, if_neg h3, if_neg h4, if_neg h5, if_neg h6, if_neg h7, if_neg hne]

lemma transformLoop_dot (hrest : s.rest = '.' :: rest) :
    transformLoop dotall name (fuel + 1) before seq s =
      transformLoop dotall name fuel before (seq ++ [((getDot dotall s.rules).1, false)])
        { s with rest := rest, rules := (getDot dotall s.rules).2 } := by
  rw [transformLoop, hrest]
  rfl

lemma transformLoop_bar (hrest : s.rest = '|' :: rest) :
    transformLoop dotall name (fuel + 1) before seq s =
      transformLoop dotall name fuel before (seq ++ [(['|'], false)]) { s with rest := rest } := by
  rw [transformLoop, hrest]
  rfl

lemma transformLoop_open (hrest : s.rest = '(' :: rest) (hhead : rest.head? ≠ some '?') :
    transformLoop dotall name (fuel + 1) before seq s =
      (transformLoop dotall name fuel (some '(') [] { s with rest := rest }).bind fun r =>
        transformLoop dotall name fuel before (seq ++ [('(' :: (toRule r.1 ++ [')']), false)]) r.2 := by
  have hstep : transformLoop dotall name (fuel + 1) before seq s =
      (transformLoop dotall name fuel (some '(') [] { s with
        rest := rest,
        warnings := s.warnings ++
          if rest.head? = some '?' then ["Unsupported pattern syntax"] else [] }).bind fun r =>
        transformLoop dotall name fuel before (seq ++ [('(' :: (toRule r.1 ++ [')']), false)]) r.2 := by
    rw [transformLoop, hrest]
    rfl
  rw [hstep, if_neg hhead, List.append_nil]

lemma transformLoop_close (hrest : s.rest = ')' :: rest) :
    transformLoop dotall name (fuel + 1) (some '(') seq s =
      some (joinSeq seq, { s with rest := rest }) := by
  rw [transformLoop, hrest]
  rfl

lemma readBrackets_append {body : List Char} (hbody : ∀ c ∈ body, c ≠ ']' ∧ c ≠ '\\')
    (rest : List Char) : readBrackets (body ++ ']' :: rest) = (body, rest, true) := by
  induction body with
  | nil =>
    cases rest with
    | nil => rfl
    | cons c rest => rfl
  | cons c body ih =>
    obtain ⟨hclose, hback⟩ := hbody c List.mem_cons_self
    have hih := ih fun d hd => hbody d (List.mem_cons_of_mem c hd)
    obtain ⟨next, others, hcons⟩ := List.exists_cons_of_ne_nil
      (List.append_ne_nil_of_right_ne_nil body (List.cons_ne_nil ']' rest))
    rw [List.cons_append, hcons, readBrackets, if_neg hclose, if_neg hback, ← hcons, hih]

lemma transformLoop_cls {body : List Char} (hbody : ∀ c ∈ body, c ≠ ']' ∧ c ≠ '\\')
    (hrest : s.rest = '[' :: (body ++ ']' :: rest)) :
    transformLoop dotall name (fuel + 1) before seq s =
      transformLoop dotall name fuel before (seq ++ [('[' :: (body ++ [']']), false)])
        { s with rest := rest } := by
  have hstep : transformLoop dotall name (fuel + 1) before seq s =
      transformLoop dotall name fuel before
        (seq ++ [('[' :: ((readBrackets (body ++ ']' :: rest)).1 ++ [']']), false)])
        (if (readBrackets (body ++ ']' :: rest)).2.2 then
          { s with rest := (readBrackets (body ++ ']' :: rest)).2.1 }
        else PatternState.fail { s with rest := (readBrackets (body ++ ']' :: rest)).2.1 }
          "Unbalanced square brackets") := by
    rw [transformLoop, hrest]
    rfl
  rw [hstep, readBrackets_append hbody]
  rfl

end Rounds

/-! ## Atoms -/

section Atoms

variable {s : PatternState} {rest : List Char}

lemma Spells.congr_oneChar {L : Language ℕ} {f g : Char → Prop} (h : Spells L (oneChar f))
    (hfg : ∀ c, f c ↔ g c) : Spells L (oneChar g) := fun t =>
  (h t).trans (exists_congr fun c => and_congr_right fun _ => hfg c)

lemma scans_dot (dotall : Bool) (refs : List Char → Prop) : ∃ L : Language ℕ, Scans refs true
    (if dotall then "[\\U00000000-\\U0010FFFF]".toList else "[^\\x0A\\x0D]".toList) (fun _ => L) ∧
      Spells L (Leaf.dot.lang dotall) := by
  cases dotall with
  | true =>
    refine ⟨_, scans_items ['\\', 'U', '0', '0', '0', '0', '0', '0', '0', '0', '-', '\\', 'U', '0',
      '0', '1', '0', 'F', 'F', 'F', 'F'] (0, some 1114111) [] (by decide) fun _ => rfl, ?_⟩
    refine spells_chars.congr_oneChar fun c => ?_
    have hc : c.toNat ≤ 1114111 := by
      have hvalid := c.valid
      simp only [UInt32.isValidChar, Nat.isValidChar] at hvalid
      show c.val.toNat ≤ 1114111
      omega
    simp [ItemHas, hc]
  | false =>
    refine ⟨_, scans_inverse_items ['\\', 'x', '0', 'A', '\\', 'x', '0', 'D'] (10, none)
      [(13, none)] fun _ => rfl, ?_⟩
    refine spells_chars.congr_oneChar fun c => ?_
    have hn : c = '\n' ↔ c.toNat = 10 := Char.toNat_inj.symm
    have hr : c = '\r' ↔ c.toNat = 13 := Char.toNat_inj.symm
    simp only [List.mem_cons, List.not_mem_nil, or_false, exists_eq_or_imp, exists_eq_left, ItemHas,
      Option.getD_none, Bool.false_eq_true, false_or, ne_eq, hn, hr]
    omega

lemma noSpace_dot : NoSpace
    (if dotall then "[\\U00000000-\\U0010FFFF]".toList else "[^\\x0A\\x0D]".toList) := by
  cases dotall <;> exact noSpace_of_head (by decide) _

lemma collectsAtom_dot (s : PatternState) (rest : List Char) :
    CollectsAtom final s { s with rest := rest, rules := (getDot dotall s.rules).2 }
      ((getDot dotall s.rules).1, false) (Leaf.dot.lang dotall) := by
  obtain ⟨hname, hmem⟩ := addRule_spec s.rules "dot".toList
    (if dotall then "[\\U00000000-\\U0010FFFF]".toList else "[^\\x0A\\x0D]".toList)
    (List.cons_ne_nil _ _)
  refine ⟨⟨fun e he => (hmem e).2 (.inr he), rfl, rfl⟩, fun hfinal hs => ?_⟩
  obtain ⟨L, hL, hspells⟩ := scans_dot dotall (· ∈ final.names)
  have hself := hfinal ((hmem _).2 (.inl rfl))
  have hread : ScansAlts (· ∈ final.names) false _ fun _ => L :=
    (hL.alternate noSpace_dot).alts_single fun hnil => absurd hnil noSpace_dot.1
  refine ⟨⟨hs.rules.addRule (List.cons_ne_nil _ _) ⟨_, hread⟩, fun e he => ?_⟩, fun env => env _,
    scans_name hname.1 hname.2 (mem_names hself), noSpace_name hname.1 hname.2, fun env henv => ?_⟩
  · exact ⟨(hmem _).2 (.inr (hs.ids e he).1), (hs.ids e he).2⟩
  · have hlang : env (getDot dotall s.rules).1 = L := henv _ hself _ hread
    show Spells (env (getDot dotall s.rules).1) _
    rw [hlang]
    exact hspells

lemma collectsAtom_cls (s : PatternState) (rest : List Char) (item : ClassItem)
    (items : List ClassItem) :
    CollectsAtom final s { s with rest := rest } ((Leaf.cls item items).render, false)
      ((Leaf.cls item items).lang dotall) := by
  refine ⟨⟨List.Subset.refl _, rfl, rfl⟩, fun _ hs => ?_⟩
  obtain ⟨L, hL, hspells⟩ : ∃ L : Language ℕ, Scans (· ∈ final.names) true _ (fun _ => L) ∧ _ :=
    scans_cls item items
  exact ⟨⟨hs.rules, hs.ids⟩, _, hL, noSpace_of_head (by decide) _, fun _ _ => hspells dotall⟩

lemma loop_leaf (a : Leaf) (hrest : s.rest = a.render ++ rest)
    (hstop : a.isLiteral = true → ∀ c ∈ rest.head?, isNonLiteral c = true) (fuel : ℕ)
    (before : Option Char) (seq : List LiteralOrRule) :
    ∃ item s', transformLoop dotall name (fuel + 1) before seq s =
        transformLoop dotall name fuel before (seq ++ [item]) s' ∧ s'.rest = rest ∧
      CollectsAtom final s s' item (a.lang dotall) ∧ item.2 = a.isLiteral := by
  cases a with
  | char c =>
    rw [Leaf.render, List.singleton_append] at hrest
    have hread : readLiteral [] (c.1 :: rest) = ([c.1], rest) := by
      rw [readLiteral_begin, readLiteral_stop _ (hstop rfl)]
    have hback : c.1 ≠ '\\' := c.ne rfl
    have htext : literalText [c.1] = [c.1] := by
      simp [literalText, hback]
    have hatom := collectsAtom_literal final s (List.cons_ne_nil c.1 [])
      fun h => c.ne rfl (List.mem_singleton.1 h).symm
    rw [htext] at hatom
    refine ⟨([c.1], true), { s with rest := rest }, ?_, rfl,
      ⟨⟨List.Subset.refl _, rfl, rfl⟩, fun hfinal hs => ?_⟩, rfl⟩
    · rw [transformLoop_literal fuel before seq (.inr c.2) hrest (by
        rw [hread]
        exact List.cons_ne_nil _ _), hread]
    · obtain ⟨hs', hmeans⟩ := hatom.means hfinal hs
      exact ⟨⟨hs'.rules, hs'.ids⟩, hmeans⟩
  | escape c =>
    rw [Leaf.render, List.cons_append, List.singleton_append] at hrest
    have hread : readLiteral [] ('\\' :: c.1 :: rest) = (literalText [c.1], rest) := by
      rw [readLiteral_escape, readLiteral_stop _ (hstop rfl), List.nil_append]
    have hquote : '"' ∉ [c.1] := by
      intro h
      have hc := c.2
      rw [← List.mem_singleton.1 h] at hc
      exact absurd hc (by decide)
    have hatom := collectsAtom_literal final s (List.cons_ne_nil c.1 []) hquote
    refine ⟨(literalText [c.1], true), { s with rest := rest }, ?_, rfl,
      ⟨⟨List.Subset.refl _, rfl, rfl⟩, fun hfinal hs => ?_⟩, rfl⟩
    · rw [transformLoop_literal fuel before seq (.inl rfl) hrest (by
        rw [hread]
        exact fun h => List.cons_ne_nil _ _ (literalText_eq_nil.1 h)), hread]
    · obtain ⟨hs', hmeans⟩ := hatom.means hfinal hs
      exact ⟨⟨hs'.rules, hs'.ids⟩, hmeans⟩
  | dot =>
    exact ⟨_, _, transformLoop_dot fuel before seq hrest, rfl, collectsAtom_dot s rest, rfl⟩
  | cls item items =>
    have hbody : ∀ c ∈ item.render ++ items.flatMap ClassItem.render, c ≠ ']' ∧ c ≠ '\\' := by
      intro c hc
      have hchar : c = '-' ∨ c.isAlphanum = true := by
        rcases List.mem_append.1 hc with hc | hc
        · exact mem_render hc
        · obtain ⟨i, -, hi⟩ := List.mem_flatMap.1 hc
          exact mem_render hi
      rcases hchar with rfl | hchar
      · decide
      · exact ⟨Alnum.ne ⟨c, hchar⟩ rfl, Alnum.ne ⟨c, hchar⟩ rfl⟩
    rw [Leaf.render, List.cons_append, List.append_assoc, List.singleton_append] at hrest
    exact ⟨_, _, transformLoop_cls fuel before seq hbody hrest, rfl, collectsAtom_cls s rest item items,
      rfl⟩

end Atoms

end IFairy.JsonSchema
