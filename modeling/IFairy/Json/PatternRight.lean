import IFairy.Json.PatternRounds

/-!
# When the rule of a pattern is right

The rule that the converter emits for a pattern derives exactly the quoted strings whose content the
pattern matches, when no escape with a quantifier stands directly behind a character or an escape
without one, and the numbers are small enough (`patternRight_of_clear`).  Otherwise the quantifier
repeats all characters of the literal that the escape has been merged into.
-/

namespace IFairy.JsonSchema

open LlamaGrammar ContextFreeGrammar

variable {final : RuleMap} {dotall : Bool} {name : List Char}

/-! ## The condition -/

/-- No escape with a quantifier stands directly behind a character or an escape without one, and the
numbers of all quantifiers are small enough; `inLiteral` if such a character is in front. -/
def Pattern.Clear (inLiteral : Bool) : Pattern → Prop
  | nil => True
  | bar rest => rest.Clear false
  | leaf a q rest =>
    (∀ c, a = .escape c → inLiteral = true → q = none) ∧ (∀ op ∈ q, InRange op.1) ∧
      rest.Clear (a.isLiteral && q.isNone)
  | group body q rest => body.Clear false ∧ (∀ op ∈ q, InRange op.1) ∧ rest.Clear false

lemma Pattern.Clear.mono {p : Pattern} (h : p.Clear true) : p.Clear false := by
  cases p with
  | nil => trivial
  | bar rest => exact h
  | leaf a q rest => exact ⟨fun _ _ hfalse => absurd hfalse (by decide), h.2⟩
  | group body q rest => exact h

/-! ## The loop -/

/-- The run goes on behind `tail` from where the loop, started in the state `s`, has collected what
stands for a first alternative and others. -/
def LoopCollects (final : RuleMap) (dotall : Bool) (name : List Char)
    (run : Option (LiteralOrRule × PatternState)) (before : Option Char) (seq : List LiteralOrRule)
    (s : PatternState) (tail : List Char) (P Q : Language Char) : Prop :=
  ∃ fuel' seq' s', run = transformLoop dotall name fuel' before (seq ++ seq') s' ∧
    tail.length < fuel' ∧ s'.rest = tail ∧ Collects final s s' seq' P Q

section LoopCollects

variable {run : Option (LiteralOrRule × PatternState)} {before : Option Char}
  {seq : List LiteralOrRule} {s s₁ : PatternState} {tail text rest : List Char}
  {P Q R : Language Char}

lemma LoopCollects.cons_rule (h : CollectsRule final s s₁ text R)
    (hloop : LoopCollects final dotall name run before (seq ++ [(text, false)]) s₁ tail P Q) :
    LoopCollects final dotall name run before seq s tail (R * P) Q := by
  obtain ⟨fuel', seq', s', heq, hfuel, hrest, hcollects⟩ := hloop
  refine ⟨fuel', (text, false) :: seq', s', ?_, hfuel, hrest, .cons_rule h hcollects⟩
  rw [heq, List.append_assoc]
  rfl

lemma LoopCollects.cons_literal {v : List Char} (hne : v ≠ []) (hv : '"' ∉ v)
    (hloop : LoopCollects final dotall name run before (seq ++ [(literalText v, true)]) s tail P Q) :
    LoopCollects final dotall name run before seq s tail ({v} * P) Q := by
  obtain ⟨fuel', seq', s', heq, hfuel, hrest, hcollects⟩ := hloop
  refine ⟨fuel', (literalText v, true) :: seq', s', ?_, hfuel, hrest, .cons_literal hne hv hcollects⟩
  rw [heq, List.append_assoc]
  rfl

lemma LoopCollects.cons_bar
    (hloop : LoopCollects final dotall name run before (seq ++ [(['|'], false)]) s tail P Q) :
    LoopCollects final dotall name run before seq s tail 1 (P + Q) := by
  obtain ⟨fuel', seq', s', heq, hfuel, hrest, hcollects⟩ := hloop
  refine ⟨fuel', (['|'], false) :: seq', s', ?_, hfuel, hrest, hcollects.cons_bar⟩
  rw [heq, List.append_assoc]
  rfl

lemma LoopCollects.of_rest
    (h : LoopCollects final dotall name run before seq { s with rest := rest } tail P Q) :
    LoopCollects final dotall name run before seq s tail P Q := by
  obtain ⟨fuel', seq', s', heq, hfuel, hrest, hcollects⟩ := h
  exact ⟨fuel', seq', s', heq, hfuel, hrest,
    ⟨hcollects.rules, hcollects.errors, hcollects.warnings⟩,
    fun hfinal hs => hcollects.means hfinal ⟨hs.rules, hs.ids⟩⟩

end LoopCollects

/-! ## Quantifiers, if any -/

lemma head_quantifierText (op : RepeatOp) (rest : List Char) : ∃ c others,
    quantifierText op ++ rest = c :: others ∧ isNonLiteral c = true ∧ c ≠ '.' := by
  cases op with
  | star => exact ⟨'*', rest, rfl, rfl, by decide⟩
  | plus => exact ⟨'+', rest, rfl, rfl, by decide⟩
  | opt => exact ⟨'?', rest, rfl, rfl, by decide⟩
  | exactly m | atLeast m | between m n => exact ⟨'\x7b', _, rfl, rfl, by decide⟩

lemma isNonLiteral_quantifierText (op : RepeatOp) (rest : List Char) :
    ∀ c ∈ (quantifierText op ++ rest).head?, isNonLiteral c = true := by
  obtain ⟨c, others, heq, hc, -⟩ := head_quantifierText op rest
  rw [heq]
  rintro d ⟨⟩
  exact hc

lemma loop_quantified {s₀ s : PatternState} {item : LiteralOrRule} {P : Language Char}
    {q : Option Quantifier} (hq : ∀ op ∈ q, InRange op.1) (hitem : CollectsAtom final s₀ s item P)
    (hliteral : item.2 = true → q ≠ none) {rest : List Char} (hrest : s.rest = quantified q ++ rest)
    {fuel : ℕ} (hfuel : s.rest.length < fuel) (before : Option Char) (seq : List LiteralOrRule) :
    ∃ fuel' text s', transformLoop dotall name fuel before (seq ++ [item]) s =
        transformLoop dotall name fuel' before (seq ++ [(text, false)]) s' ∧ rest.length < fuel' ∧
      s'.rest = rest ∧ CollectsRule final s₀ s' text (quantify P q) := by
  cases q with
  | none =>
    obtain ⟨text, literal⟩ := item
    cases literal with
    | true => exact absurd rfl (hliteral rfl)
    | false =>
      have hrest' : s.rest = rest := hrest
      exact ⟨fuel, text, s, rfl, hrest' ▸ hfuel, hrest', hitem.toRule⟩
  | some op =>
    obtain ⟨fuel, rfl⟩ : ∃ n, fuel = n + 1 := ⟨fuel - 1, by omega⟩
    have hform := quantifierForm op.1 op.2 (hq op rfl)
    obtain ⟨text, s', hstep, hrest', hrule⟩ : ∃ text s', transformLoop dotall name (fuel + 1) before
        (seq ++ [item]) s = transformLoop dotall name fuel before (seq ++ [(text, false)]) s' ∧ _ :=
      loop_quantifier hform hitem hrest fuel before
    refine ⟨fuel, text, s', hstep, ?_, hrest', hrule⟩
    have hlength : 1 ≤ (quantifierText op.1).length := by
      cases hop : op.1 <;> simp [quantifierText]
    rw [hrest, List.length_append, quantified] at hfuel
    omega

/-! ## Patterns -/

def Ends (tail : List Char) : Prop := tail = [] ∨ ∃ rest, tail = ')' :: rest

lemma isNonLiteral_of_ends {tail : List Char} (h : Ends tail) :
    ∀ c ∈ tail.head?, isNonLiteral c = true := by
  rcases h with rfl | ⟨rest, rfl⟩
  · exact fun c hc => nomatch hc
  · exact headAll_cons rfl

lemma head_render_ne (p : Pattern) (rest : List Char) :
    (p.render ++ ')' :: rest).head? ≠ some '?' := by
  cases p with
  | nil => exact fun h => nomatch h
  | bar p => exact fun h => nomatch h
  | group body q p => exact fun h => nomatch h
  | leaf a q p =>
    cases a with
    | char c => exact fun h => c.ne rfl (Option.some.inj h)
    | escape c => exact fun h => nomatch h
    | dot => exact fun h => nomatch h
    | cls item items => exact fun h => nomatch h

/-- The loop gets behind a pattern. -/
def CollectsPattern (final : RuleMap) (dotall : Bool) (name : List Char) (p : Pattern) : Prop :=
  ∀ (fuel : ℕ) (before : Option Char) (seq : List LiteralOrRule) (s : PatternState)
    (tail : List Char), s.rest = p.render ++ tail → Ends tail → s.rest.length < fuel →
    LoopCollects final dotall name (transformLoop dotall name fuel before seq s) before seq s tail
      (p.sides dotall).1 (p.sides dotall).2

/-- The loop gets behind a pattern, with the literal `v` just begun in front of it. -/
def CollectsBehind (final : RuleMap) (dotall : Bool) (name : List Char) (p : Pattern) : Prop :=
  ∀ (v : List Char), v ≠ [] → '"' ∉ v → ∀ (fuel : ℕ) (before : Option Char)
    (seq : List LiteralOrRule) (s : PatternState) (tail : List Char), Ends tail →
    (p.render ++ tail).length < fuel →
    LoopCollects final dotall name (transformLoop dotall name fuel before
        (seq ++ [((readLiteral (literalText v) (p.render ++ tail)).1, true)])
        { s with rest := (readLiteral (literalText v) (p.render ++ tail)).2 }) before seq s tail
      ({v} * (p.sides dotall).1) (p.sides dotall).2

lemma CollectsPattern.behind_stop {p : Pattern} (h : CollectsPattern final dotall name p)
    {v : List Char} (hne : v ≠ []) (hv : '"' ∉ v) {tail : List Char} (htail : Ends tail)
    (hstop : readLiteral (literalText v) (p.render ++ tail) = (literalText v, p.render ++ tail))
    {fuel : ℕ} (hfuel : (p.render ++ tail).length < fuel) (before : Option Char)
    (seq : List LiteralOrRule) (s : PatternState) :
    LoopCollects final dotall name (transformLoop dotall name fuel before
        (seq ++ [((readLiteral (literalText v) (p.render ++ tail)).1, true)])
        { s with rest := (readLiteral (literalText v) (p.render ++ tail)).2 }) before seq s tail
      ({v} * (p.sides dotall).1) (p.sides dotall).2 := by
  rw [hstop]
  exact .cons_literal hne hv (.of_rest (h fuel before _ _ tail rfl htail hfuel))

lemma CollectsPattern.behind {p : Pattern} (h : CollectsPattern final dotall name p)
    (hhead : ∀ tail, Ends tail → ∀ c ∈ (p.render ++ tail).head?, isNonLiteral c = true) :
    CollectsBehind final dotall name p := fun _ hne hv _ before seq s tail htail hfuel =>
  h.behind_stop hne hv htail (readLiteral_stop _ (hhead tail htail)) hfuel before seq s

lemma CollectsPattern.cons_atom {p : Pattern} (h : CollectsPattern final dotall name p)
    {q : Option Quantifier} (hq : ∀ op ∈ q, InRange op.1) {s s₁ : PatternState}
    {item : LiteralOrRule} {R : Language Char} (hitem : CollectsAtom final s s₁ item R)
    (hliteral : item.2 = true → q ≠ none) {tail : List Char} (htail : Ends tail)
    (hrest : s₁.rest = quantified q ++ (p.render ++ tail)) {fuel : ℕ}
    (hfuel : s₁.rest.length < fuel) (before : Option Char) (seq : List LiteralOrRule) :
    LoopCollects final dotall name (transformLoop dotall name fuel before (seq ++ [item]) s₁) before
      seq s tail (quantify R q * (p.sides dotall).1) (p.sides dotall).2 := by
  obtain ⟨fuel', text, s', hstep, hfuel', hrest', hrule⟩ : ∃ fuel' text s', transformLoop dotall name
      fuel before (seq ++ [item]) s₁ = transformLoop dotall name fuel' before
        (seq ++ [(text, false)]) s' ∧ _ := loop_quantified hq hitem hliteral hrest hfuel before seq
  rw [hstep]
  exact .cons_rule hrule (h fuel' before _ s' tail hrest' htail (hrest' ▸ hfuel'))

lemma singleton_mul_mul (v w : List Char) (P : Language Char) :
    ({v} : Language Char) * ({w} * P) = {v ++ w} * P := by
  rw [← mul_assoc, singleton_mul_singleton]

lemma CollectsBehind.cons_literal {p : Pattern} (h : CollectsBehind final dotall name p)
    {c : Char} (text : List Char) (hc : c ≠ '"')
    (hbegin : ∀ rest, readLiteral [] (text ++ rest) = readLiteral (literalText [c]) rest)
    (first : Char) (others : List Char) (htext : text = first :: others)
    (hfirst : first = '\\' ∨ first.isAlphanum = true) {fuel : ℕ} {s : PatternState}
    {tail : List Char} (hrest : s.rest = text ++ (p.render ++ tail)) (htail : Ends tail)
    (hfuel : s.rest.length < fuel) (before : Option Char) (seq : List LiteralOrRule) :
    LoopCollects final dotall name (transformLoop dotall name fuel before seq s) before seq s tail
      ({[c]} * (p.sides dotall).1) (p.sides dotall).2 := by
  have hne : literalText [c] ≠ [] := fun hnil => List.cons_ne_nil c [] (literalText_eq_nil.1 hnil)
  obtain ⟨fuel, rfl⟩ : ∃ n, fuel = n + 1 := ⟨fuel - 1, by omega⟩
  have hread := hbegin (p.render ++ tail)
  have hcons : text ++ (p.render ++ tail) = first :: (others ++ (p.render ++ tail)) := by
    rw [htext, List.cons_append]
  have hstep : transformLoop dotall name (fuel + 1) before seq s = _ :=
    transformLoop_literal fuel before seq hfirst (hrest.trans hcons) (by
      rw [← hcons, hread]
      exact readLiteral_ne_nil hne _)
  rw [hstep, ← hcons, hread]
  refine h [c] (List.cons_ne_nil c []) (fun hmem => hc (List.mem_singleton.1 hmem).symm) fuel before
    seq s tail htail ?_
  rw [hrest, hcons] at hfuel
  simp only [List.length_cons, List.length_append] at hfuel ⊢
  omega

lemma CollectsBehind.goes_on {p : Pattern} (h : CollectsBehind final dotall name p) {v : List Char}
    (hv : '"' ∉ v) {c : Char} (hc : c ≠ '"') {text tail : List Char}
    (hread : readLiteral (literalText v) text =
      readLiteral (literalText (v ++ [c])) (p.render ++ tail)) (htail : Ends tail) {fuel : ℕ}
    (hfuel : (p.render ++ tail).length < fuel) (before : Option Char) (seq : List LiteralOrRule)
    (s : PatternState) :
    LoopCollects final dotall name (transformLoop dotall name fuel before
        (seq ++ [((readLiteral (literalText v) text).1, true)])
        { s with rest := (readLiteral (literalText v) text).2 }) before seq s tail
      ({v} * ({[c]} * (p.sides dotall).1)) (p.sides dotall).2 := by
  have hquote : '"' ∉ v ++ [c] := by
    rw [List.mem_append, List.mem_singleton, not_or]
    exact ⟨hv, hc.symm⟩
  rw [hread, singleton_mul_mul]
  exact h (v ++ [c]) (List.append_ne_nil_of_right_ne_nil v (List.cons_ne_nil c [])) hquote fuel before
    seq s tail htail hfuel

lemma CollectsPattern.cons_leaf {p : Pattern} (h : CollectsPattern final dotall name p) {a : Leaf}
    {q : Option Quantifier} (hq : ∀ op ∈ q, InRange op.1) (hliteral : a.isLiteral = true → q ≠ none) :
    CollectsPattern final dotall name (.leaf a q p) := by
  intro fuel before seq s tail hrest htail hfuel
  have hrest' : s.rest = a.render ++ (quantified q ++ (p.render ++ tail)) := by
    rw [hrest, Pattern.render, List.append_assoc, List.append_assoc]
  obtain ⟨fuel, rfl⟩ : ∃ n, fuel = n + 1 := ⟨fuel - 1, by omega⟩
  have hstop : a.isLiteral = true →
      ∀ c ∈ (quantified q ++ (p.render ++ tail)).head?, isNonLiteral c = true := by
    intro ha
    obtain ⟨op, rfl⟩ := Option.ne_none_iff_exists'.1 (hliteral ha)
    exact isNonLiteral_quantifierText op.1 _
  obtain ⟨item, s₁, hstep, hrest₁, hatom, hitem⟩ : ∃ item s', transformLoop dotall name (fuel + 1)
      before seq s = transformLoop dotall name fuel before (seq ++ [item]) s' ∧ _ :=
    loop_leaf a hrest' hstop fuel before seq
  rw [hstep]
  refine h.cons_atom hq hatom (fun hi => hliteral (hitem ▸ hi)) htail hrest₁ ?_ before seq
  have hlength : 1 ≤ a.render.length := by
    cases a <;> simp [Leaf.render]
  rw [hrest', List.length_append] at hfuel
  rw [hrest₁]
  omega

lemma CollectsPattern.cons_group {body p : Pattern} (hbody : CollectsPattern final dotall name body)
    (h : CollectsPattern final dotall name p) {q : Option Quantifier}
    (hq : ∀ op ∈ q, InRange op.1) : CollectsPattern final dotall name (.group body q p) := by
  intro fuel before seq s tail hrest htail hfuel
  obtain ⟨fuel, rfl⟩ : ∃ n, fuel = n + 1 := ⟨fuel - 1, by omega⟩
  obtain ⟨behind, hbehind⟩ : ∃ behind, behind = quantified q ++ (p.render ++ tail) := ⟨_, rfl⟩
  have hrest' : s.rest = '(' :: (body.render ++ ')' :: behind) := by
    rw [hrest, Pattern.render, hbehind]
    simp
  have hlength : (body.render ++ ')' :: behind).length < fuel := by
    rw [hrest', List.length_cons] at hfuel
    omega
  rw [transformLoop_open fuel before seq hrest' (head_render_ne body behind)]
  -- what the loop collects between the parentheses
  obtain ⟨fuel', inner, s', hinner, hfuel', hrest₁, hcollects⟩ := hbody fuel (some '(') []
    { s with rest := body.render ++ ')' :: behind } (')' :: behind) rfl (.inr ⟨behind, rfl⟩) hlength
  obtain ⟨fuel', rfl⟩ : ∃ n, fuel' = n + 1 := ⟨fuel' - 1, by omega⟩
  rw [hinner, transformLoop_close fuel' _ hrest₁]
  have hatom : CollectsAtom final s { s' with rest := behind }
      ('(' :: (toRule (joinSeq inner) ++ [')']), false) ((body.sides dotall).1 + (body.sides dotall).2) := by
    refine ⟨⟨hcollects.rules, hcollects.errors, hcollects.warnings⟩, fun hfinal hs => ?_⟩
    obtain ⟨hs', A, B, hseq, hAB⟩ := hcollects.means hfinal ⟨hs.rules, hs.ids⟩
    exact ⟨⟨hs'.rules, hs'.ids⟩, _, hseq.alts.group, noSpace_of_head (by decide) _, fun env henv =>
      (hAB env henv).1.add (hAB env henv).2⟩
  refine h.cons_atom hq hatom (fun hi => nomatch hi) htail hbehind ?_ before seq
  have hle : behind.length < (body.render ++ ')' :: behind).length := by
    rw [List.length_append, List.length_cons]
    omega
  exact hle.trans hlength

section Leaf

variable {p : Pattern} (h : p.Clear false → CollectsPattern final dotall name p)
  (h' : p.Clear true → CollectsBehind final dotall name p)

lemma render_leaf (a : Leaf) (q : Option Quantifier) (p : Pattern) (tail : List Char) :
    (Pattern.leaf a q p).render ++ tail = a.render ++ (quantified q ++ (p.render ++ tail)) := by
  rw [Pattern.render, List.append_assoc, List.append_assoc]

include h

lemma collects_other {a : Leaf} (ha : a.isLiteral = false) (q : Option Quantifier)
    (hhead : ∀ rest, ∀ c ∈ (a.render ++ rest).head?, isNonLiteral c = true) :
    ((Pattern.leaf a q p).Clear false → CollectsPattern final dotall name (.leaf a q p)) ∧
      ((Pattern.leaf a q p).Clear true → CollectsBehind final dotall name (.leaf a q p)) := by
  have hleaf : (Pattern.leaf a q p).Clear false → CollectsPattern final dotall name (.leaf a q p) := by
    rintro ⟨-, hq, hp⟩
    rw [ha, Bool.false_and] at hp
    exact (h hp).cons_leaf hq fun htrue => absurd (ha.symm.trans htrue) Bool.false_ne_true
  refine ⟨hleaf, fun hp => (hleaf hp.mono).behind fun tail _ => ?_⟩
  rw [render_leaf]
  exact hhead _

include h'

lemma collects_char (c : Alnum) (q : Option Quantifier) :
    ((Pattern.leaf (.char c) q p).Clear false →
      CollectsPattern final dotall name (.leaf (.char c) q p)) ∧
    ((Pattern.leaf (.char c) q p).Clear true →
      CollectsBehind final dotall name (.leaf (.char c) q p)) := by
  have hquote : c.1 ≠ '"' := c.ne rfl
  have hback : c.1 ≠ '\\' := c.ne rfl
  have htext : literalText [c.1] = [c.1] := by
    simp [literalText, hback]
  have hleaf : (Pattern.leaf (.char c) q p).Clear false →
      CollectsPattern final dotall name (.leaf (.char c) q p) := by
    rintro ⟨-, hq, hp⟩
    cases q with
    | some op => exact (h hp).cons_leaf hq fun _ => Option.some_ne_none op
    | none =>
      intro fuel before seq s tail hrest htail hfuel
      exact (h' hp).cons_literal [c.1] hquote (fun rest => by
        rw [htext]
        exact readLiteral_begin c rest) c.1 [] rfl (.inr c.2) hrest htail hfuel before seq
  refine ⟨hleaf, fun hp v hne hv fuel before seq s tail htail hfuel => ?_⟩
  cases q with
  | some op =>
    -- the character begins a literal of its own
    obtain ⟨d, others, heq, hd, hdot⟩ := head_quantifierText op.1 (p.render ++ tail)
    refine (hleaf hp.mono).behind_stop hne hv htail ?_ hfuel before seq s
    rw [render_leaf, quantified, heq]
    exact readLiteral_char_stop c (fun hnil => hne (literalText_eq_nil.1 hnil)) hd hdot
  | none =>
    rcases readLiteral_char c (literalText v) (p.render ++ tail) with hread | hread
    · rw [render_leaf] at hfuel ⊢
      rw [← htext, ← literalText_append] at hread
      refine (h' hp.2.2).goes_on hv hquote hread htail ?_ before seq s
      simp only [List.length_append] at hfuel ⊢
      omega
    · refine (hleaf hp.mono).behind_stop hne hv htail ?_ hfuel before seq s
      rw [render_leaf]
      exact hread

lemma collects_escape (c : Metachar) (q : Option Quantifier) :
    ((Pattern.leaf (.escape c) q p).Clear false →
      CollectsPattern final dotall name (.leaf (.escape c) q p)) ∧
    ((Pattern.leaf (.escape c) q p).Clear true →
      CollectsBehind final dotall name (.leaf (.escape c) q p)) := by
  have hquote : c.1 ≠ '"' := by
    intro hc
    have hmem := c.2
    rw [hc] at hmem
    exact absurd hmem (by decide)
  constructor
  · rintro ⟨-, hq, hp⟩
    cases q with
    | some op => exact (h hp).cons_leaf hq fun _ => Option.some_ne_none op
    | none =>
      intro fuel before seq s tail hrest htail hfuel
      exact (h' hp).cons_literal ['\\', c.1] hquote (readLiteral_escape c []) '\\' [c.1] rfl
        (.inl rfl) hrest htail hfuel before seq
  · rintro ⟨hclear, -, hp⟩ v hne hv fuel before seq s tail htail hfuel
    obtain rfl := hclear c rfl rfl
    rw [render_leaf] at hfuel ⊢
    refine (h' hp).goes_on hv hquote ?_ htail ?_ before seq s
    · rw [literalText_append]
      exact readLiteral_escape c (literalText v) (p.render ++ tail)
    · simp only [List.length_append] at hfuel ⊢
      omega

end Leaf

theorem collects_pattern (p : Pattern) :
    (p.Clear false → CollectsPattern final dotall name p) ∧
      (p.Clear true → CollectsBehind final dotall name p) := by
  induction p with
  | nil =>
    have hnil : CollectsPattern final dotall name .nil := by
      intro fuel before seq s tail hrest _ hfuel
      rw [Pattern.render, List.nil_append] at hrest
      refine ⟨fuel, [], s, ?_, hrest ▸ hfuel, hrest, collects_nil s⟩
      rw [List.append_nil]
    exact ⟨fun _ => hnil, fun _ => hnil.behind fun tail htail => isNonLiteral_of_ends htail⟩
  | bar p ih =>
    have hbar : p.Clear false → CollectsPattern final dotall name (.bar p) := by
      intro hp fuel before seq s tail hrest htail hfuel
      rw [Pattern.render, List.cons_append] at hrest
      obtain ⟨fuel, rfl⟩ : ∃ n, fuel = n + 1 := ⟨fuel - 1, by omega⟩
      rw [transformLoop_bar fuel before seq hrest]
      rw [hrest, List.length_cons] at hfuel
      exact .cons_bar (.of_rest (ih.1 hp fuel before _ _ tail rfl htail
        (show (p.render ++ tail).length < fuel by omega)))
    refine ⟨hbar, fun hp => (hbar hp).behind fun tail _ => ?_⟩
    exact headAll_cons rfl
  | group body q p ihbody ih =>
    have hgroup : (Pattern.group body q p).Clear false →
        CollectsPattern final dotall name (.group body q p) := fun hp =>
      (ihbody.1 hp.1).cons_group (ih.1 hp.2.2) hp.2.1
    refine ⟨hgroup, fun hp => (hgroup hp).behind fun tail _ => ?_⟩
    exact headAll_cons rfl
  | leaf a q p ih =>
    cases a with
    | char c => exact collects_char ih.1 ih.2 c q
    | escape c => exact collects_escape ih.1 ih.2 c q
    | dot =>
      refine collects_other ih.1 rfl q fun rest => ?_
      exact headAll_cons rfl
    | cls item items =>
      refine collects_other ih.1 rfl q fun rest => ?_
      exact headAll_cons rfl

end IFairy.JsonSchema
