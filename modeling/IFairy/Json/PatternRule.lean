import IFairy.Json.PatternRight

/-!
# The rule of a pattern

The rule that the converter emits for a clear pattern, in a whole grammar: it derives exactly the
quoted strings whose content the pattern matches (`patternRight_of_clear`).  The rule for `a\.*`
repeats `a.` instead of the dot (`not_patternRight_dots`).
-/

namespace IFairy.JsonSchema

open LlamaGrammar ContextFreeGrammar

/-! ## The text -/

/-- The text of the rule around the text of the pattern. -/
def quotedRule (text : List Char) : List Char :=
  "\"\\\"\" (".toList ++ text ++ ") \"\\\"\" space".toList

lemma scans_escapedQuote {refs : List Char → Prop} :
    Scans refs true ['"', '\\', '"', '"'] fun _ => {[34]} :=
  scans_literal ['\\', '"'] [34] fun _ => rfl

lemma scansAlts_quotedRule {refs : List Char → Prop} {text : List Char} {F : Meaning → Language ℕ}
    (h : ScansAlts refs true text F) (hspace : refs spaceName) :
    ScansAlts refs false (quotedRule text)
      fun env => {[34]} * F env * {[34]} * env spaceName := by
  have hopen := scans_escapedQuote.append h.group (noSpace_of_head (by decide) _)
    (List.cons_ne_nil ' ' []) fun _ => mem_blank
  have hclose := hopen.append scans_escapedQuote (noSpace_of_head (by decide) _)
    (List.cons_ne_nil ' ' []) fun _ => mem_blank
  have hall := hclose.append (scans_spaceName hspace) noSpace_spaceName (List.cons_ne_nil ' ' [])
    fun _ => mem_blank
  have htext : quotedRule text = ['"', '\\', '"', '"'] ++ [' '] ++ ('(' :: (text ++ [')'])) ++ [' '] ++
      ['"', '\\', '"', '"'] ++ [' '] ++ spaceName := by
    show ['"', '\\', '"', '"', ' ', '('] ++ text ++
      (')' :: ' ' :: '"' :: '\\' :: '"' :: '"' :: ' ' :: spaceName) = _
    simp only [List.append_assoc, List.cons_append, List.nil_append]
  rw [htext]
  exact (hall.alternate (noSpace_of_head (by decide) _)).alts_single fun hnil => nomatch hnil

lemma mem_quoted {L : Language ℕ} {P : Language Char} (h : Spells L P) (t : List Char) :
    t.map Char.toNat ∈ {[34]} * L * {[34]} * spaceLang ↔
      ∃ content ∈ P, ∃ blanks : List Char, blanks.map Char.toNat ∈ spaceLang ∧
        t = '"' :: (content ++ '"' :: blanks) := by
  have hquote : Spells {[34]} {['"']} := spells_singleton ['"']
  have hspace : Spells spaceLang {blanks | blanks.map Char.toNat ∈ spaceLang} := fun _ => Iff.rfl
  rw [(((hquote.mul h).mul hquote).mul hspace) t]
  constructor
  · rintro ⟨_, ⟨_, ⟨_, rfl, content, hcontent, rfl⟩, _, rfl, rfl⟩, blanks, hblanks, rfl⟩
    refine ⟨content, hcontent, blanks, hblanks, ?_⟩
    simp
  · rintro ⟨content, hcontent, blanks, hblanks, rfl⟩
    exact ⟨_, ⟨_, ⟨_, rfl, content, hcontent, rfl⟩, _, rfl, rfl⟩, blanks, hblanks, by simp⟩

/-! ## Whole grammars -/

/-- The pattern is visited without a message.  In every grammar that has the rules from then, and
otherwise rules that can be read, the rule of the pattern derives exactly the quoted strings whose
content the pattern matches. -/
def PatternRight (dotall : Bool) (p : Pattern) : Prop :=
  ∀ (name : List Char) (rules final : RuleMap), name ≠ [] → (spaceName, spaceRule) ∈ rules.entries →
    rules.Sound (· ∈ final.names) →
    ∃ v, visitPattern dotall ('^' :: (p.render ++ ['$'])) name rules = some v ∧ v.errors = [] ∧
      v.warnings = [] ∧ (v.rules.entries ⊆ final.entries →
        (∀ e ∈ final.entries,
          e ∈ v.rules.entries ∨ IsName e.1 ∧ Readable (· ∈ final.names) e.2) →
        ∃ q, parseGrammar (formatGrammar final.entries) = some q ∧
          ∀ t : List Char, t.map Char.toNat ∈ q.langOf v.ruleName ↔
            ∃ content ∈ p.lang dotall, ∃ blanks : List Char,
              blanks.map Char.toNat ∈ spaceLang ∧ t = '"' :: (content ++ '"' :: blanks))

lemma visitPattern_eq {dotall : Bool} {p : Pattern} {name : List Char} {rules : RuleMap}
    {ls : LiteralOrRule} {s : PatternState}
    (h : transformLoop dotall name (p.render.length + 1) none [] ⟨p.render, rules, [], [], []⟩ =
      some (ls, s)) :
    visitPattern dotall ('^' :: (p.render ++ ['$'])) name rules =
      some ⟨(addRule s.rules name (quotedRule (toRule ls))).1,
        (addRule s.rules name (quotedRule (toRule ls))).2, s.errors, s.warnings⟩ := by
  have hlast : ('^' :: (p.render ++ ['$'])).getLast? = some '$' := by
    rw [← List.cons_append, List.getLast?_concat]
  have hsub : ('^' :: (p.render ++ ['$'])).tail.dropLast = p.render := by
    rw [List.tail_cons, List.dropLast_concat]
  rw [visitPattern, if_pos ⟨rfl, hlast⟩]
  simp only [hsub, h]
  rfl

lemma langOf_pattern {rules final : RuleMap} {name text : List Char} {F : Meaning → Language ℕ}
    (hname : name ≠ []) (hrules : rules.Sound (· ∈ final.names))
    (htext : ScansAlts (· ∈ final.names) true text F)
    (hspace : (spaceName, spaceRule) ∈ rules.entries)
    (hfinal : (addRule rules name (quotedRule text)).2.entries ⊆ final.entries)
    (hothers : ∀ e ∈ final.entries, e ∈ (addRule rules name (quotedRule text)).2.entries ∨
      IsName e.1 ∧ Readable (· ∈ final.names) e.2) :
    ∃ q, parseGrammar (formatGrammar final.entries) = some q ∧
      final.Solved (· ∈ final.names) q.langOf ∧
      q.langOf (addRule rules name (quotedRule text)).1 =
        {[34]} * F q.langOf * {[34]} * spaceLang := by
  obtain ⟨-, hmem⟩ := addRule_spec rules name (quotedRule text) hname
  have hspace' := hfinal ((hmem _).2 (.inr hspace))
  have hread := scansAlts_quotedRule htext (mem_names hspace')
  obtain ⟨q, hq, hsolved⟩ := final.exists_grammar fun e he =>
    (hothers e he).elim (fun he => hrules.addRule hname ⟨_, hread⟩ e he) id
  have hlang : q.langOf (addRule rules name (quotedRule text)).1 = _ :=
    hsolved _ (hfinal ((hmem _).2 (.inl rfl))) _ hread
  have hblank : q.langOf spaceName = spaceLang := hsolved _ hspace' _ scansAlts_space
  exact ⟨q, hq, hsolved, by rw [hlang, hblank]⟩

/-- The rule of a clear pattern is right. -/
theorem patternRight_of_clear (dotall : Bool) (p : Pattern) (hp : p.Clear false) :
    PatternRight dotall p := by
  intro name rules final hname hspace hrules
  obtain ⟨fuel, seq, s, heq, hfuel, hrest, hcollects⟩ : LoopCollects final dotall name
      (transformLoop dotall name (p.render.length + 1) none [] ⟨p.render, rules, [], [], []⟩) none []
      ⟨p.render, rules, [], [], []⟩ [] (p.sides dotall).1 (p.sides dotall).2 :=
    (collects_pattern p).1 hp _ none [] _ [] (List.append_nil _).symm (.inl rfl) (Nat.lt_succ_self _)
  obtain ⟨fuel, rfl⟩ : ∃ n, fuel = n + 1 := ⟨fuel - 1, by omega⟩
  rw [transformLoop_nil fuel none _ hrest] at heq
  refine ⟨_, visitPattern_eq heq, hcollects.errors, hcollects.warnings, fun hfinal hothers => ?_⟩
  dsimp only at hfinal hothers ⊢
  obtain ⟨-, hmem⟩ := addRule_spec s.rules name (quotedRule (toRule (joinSeq seq))) hname
  obtain ⟨hs, A, B, hseq, hAB⟩ := hcollects.means (fun e he => hfinal ((hmem e).2 (.inr he)))
    ⟨hrules, fun e he => nomatch he⟩
  obtain ⟨q, hq, hsolved, hlang⟩ := langOf_pattern hname hs.rules hseq.alts
    (hcollects.rules hspace) hfinal hothers
  refine ⟨q, hq, fun t => ?_⟩
  rw [List.nil_append, hlang]
  exact mem_quoted ((hAB _ hsolved).1.add (hAB _ hsolved).2) t

/-- The metacharacter `.`. -/
def dotMetachar : Metachar := ⟨'.', of_decide_eq_true rfl⟩

/-- The pattern `(b|\.[0-9]{2,3})*.`. -/
def groupPattern : Pattern :=
  .group (.leaf (.char ⟨'b', rfl⟩) none (.bar (.leaf (.escape dotMetachar) none
      (.leaf (.cls (.range ⟨'0', rfl⟩ ⟨'9', rfl⟩ (Nat.le_add_right 48 9)) [])
        (some ⟨.between 2 3, Nat.le_succ 2⟩) .nil))))
    (some ⟨.star, trivial⟩) (.leaf .dot none .nil)

/-- The rule of `(b|\.[0-9]{2,3})*.`. -/
theorem patternRight_group : PatternRight false groupPattern :=
  patternRight_of_clear false groupPattern (by
    simp [groupPattern, Pattern.Clear, InRange, Leaf.isLiteral])

/-! ## An escape behind a character -/

/-- The pattern `a\.*`. -/
def dotsPattern : Pattern :=
  .leaf (.char ⟨'a', rfl⟩) none (.leaf (.escape dotMetachar) (some ⟨.star, trivial⟩) .nil)

def spaceRules : RuleMap := ⟨[(spaceName, spaceRule)], List.nodup_singleton _⟩

lemma sound_spaceRules (refs : List Char → Prop) : spaceRules.Sound refs := by
  intro e he
  obtain rfl := List.mem_singleton.1 he
  exact ⟨⟨List.cons_ne_nil _ _, isWordChar_spaceName⟩, _, scansAlts_space⟩

/-- The quantifier of `a\.*` repeats both characters. -/
lemma transformLoop_dots : transformLoop false "root".toList (dotsPattern.render.length + 1) none []
    ⟨dotsPattern.render, spaceRules, [], [], []⟩ =
      some ((['"', 'a', '.', '"', '*'], false), ⟨[], spaceRules, [], [], []⟩) := by
  rfl

lemma scansAlts_dots (refs : List Char → Prop) :
    ScansAlts refs true ['"', 'a', '.', '"', '*']
      fun _ => powers {['a', '.'].map Char.toNat} RepeatOp.star.counts := by
  have hliteral : Scans refs true (toRule (literalText ['a', '.'], true)) _ :=
    scans_literalText (List.cons_ne_nil _ _) (by decide)
  exact (alternate_repeat hliteral (noSpace_literal _) readsOperator_star trivial).alts_single
    fun hnil => nomatch hnil

/-- The rule of `a\.*` does not derive `"a"`. -/
theorem not_patternRight_dots : ¬PatternRight false dotsPattern := by
  intro h
  have hname : "root".toList ≠ [] := List.cons_ne_nil _ _
  have hspace : (spaceName, spaceRule) ∈ spaceRules.entries := List.mem_singleton_self _
  obtain ⟨v, hv, -, -, hright⟩ := h "root".toList spaceRules
    (addRule spaceRules "root".toList (quotedRule ['"', 'a', '.', '"', '*'])).2 hname hspace
    (sound_spaceRules _)
  obtain rfl := Option.some.inj ((visitPattern_eq transformLoop_dots).symm.trans hv)
  obtain ⟨q, hq, hlang⟩ := hright (List.Subset.refl _) fun e he => .inl he
  obtain ⟨q', hq', -, hlang'⟩ := langOf_pattern hname (sound_spaceRules _) (scansAlts_dots _) hspace
    (List.Subset.refl _) fun e he => .inl he
  obtain rfl := Option.some.inj (hq'.symm.trans hq)
  have ha : ['a'] ∈ dotsPattern.lang false :=
    .inl ⟨['a'], rfl, [], ⟨[], ⟨0, trivial, rfl⟩, [], rfl, rfl⟩, rfl⟩
  have hmem : ['"', 'a', '"'].map Char.toNat ∈ q'.langOf (addRule spaceRules "root".toList
      (quotedRule ['"', 'a', '.', '"', '*'])).1 :=
    (hlang ['"', 'a', '"']).2 ⟨['a'], ha, [], nil_mem_spaceLang, rfl⟩
  have hquoted := (mem_quoted ((spells_singleton ['a', '.']).powers _) _).1 (hlang' ▸ hmem)
  -- the content repeats both characters
  obtain ⟨content, ⟨k, -, hk⟩, blanks, -, heq⟩ := hquoted
  cases k with
  | zero =>
    obtain rfl : content = [] := hk
    exact absurd heq (by simp)
  | succ k =>
    rw [pow_succ'] at hk
    obtain ⟨_, rfl, rest, -, rfl⟩ := hk
    exact absurd heq (by simp)

end IFairy.JsonSchema
