import IFairy.Json.NotStringsSpec

/-!
# Names with a bracket

For a name with a `]` the key rule has the class `[]]`.  The parser takes `[]` for a class without a
character and stops at the other bracket, inside a group: it rejects the grammar (`jams`).
-/

namespace IFairy.JsonSchema

open LlamaGrammar ParserState

variable {refs : List Char → Prop}

/-! ## Texts that stop the parser -/

/-- The parser has failed, or stands in front of a `]`. -/
def Fails (x : Except String Cursor) : Prop :=
  (∃ e, x = .error e) ∨ ∃ s, x = .ok s ∧ s.pos.head? = some ']'

/-- The parser of sequences does not get behind the text. -/
def Jams (text : List Char) : Prop :=
  ∀ (ruleName : List Char) (fuel : ℕ) (nested : Bool) (rest : List Char) (last : ℕ) (rule : Rule)
    (p : ParserState), 2 * (text ++ rest).length < fuel →
    Fails (parseSequence ruleName fuel nested ⟨text ++ rest, last, rule, p⟩)

/-- The parser of alternates does not get behind the text. -/
def JamsAlts (text : List Char) : Prop :=
  ∀ (ruleName : List Char) (fuel : ℕ) (rest : List Char) (last : ℕ) (rule : Rule) (p : ParserState),
    2 * (text ++ rest).length < fuel →
    Fails ((parseSequence ruleName fuel true ⟨text ++ rest, last, rule, p⟩).bind
      (parseBars ruleName fuel true))

lemma jams_bracket (more : List Char) : Jams ('[' :: ']' :: ']' :: more) := by
  intro ruleName fuel nested rest last rule p hfuel
  obtain ⟨fuel, rfl⟩ : ∃ n, fuel = n + 1 + 1 := ⟨fuel - 2, by
    simp only [List.cons_append, List.length_cons] at hfuel
    omega⟩
  have hhead : (']' :: ']' :: (more ++ rest)).head? ≠ some '^' := by
    rw [List.head?_cons]
    decide
  have hspace : parseSpace nested (']' :: (more ++ rest)) = ']' :: (more ++ rest) :=
    parseSpace_of_head (headAll_cons rfl) nested
  refine .inr ⟨⟨']' :: (more ++ rest), rule.length, rule ++ [], p⟩, ?_, rfl⟩
  simp only [List.cons_append]
  rw [parseSequence_class _ _ _ _ _ _ _ hhead]
  show parseSequence ruleName (fuel + 1) nested
    ⟨parseSpace nested (']' :: (more ++ rest)), rule.length, rule ++ [], p⟩ = _
  rw [hspace, parseSequence]
  rfl

lemma JamsAlts.group {text inner rest : List Char} (h : JamsAlts text)
    (hinner : parseSpace true inner = text ++ rest) {ruleName : List Char} {fuel : ℕ} {nested : Bool}
    {last : ℕ} {rule : Rule} {p : ParserState} (hfuel : 2 * (text ++ rest).length + 2 < fuel) :
    ∃ e, parseSequence ruleName fuel nested ⟨'(' :: inner, last, rule, p⟩ = .error e := by
  obtain ⟨fuel, rfl⟩ : ∃ n, fuel = n + 1 + 1 := ⟨fuel - 2, by omega⟩
  have hgroup : ∀ x : Except String (List Char × ParserState),
      parseAlternates ruleName (fuel + 1) p.symbolIds.length true (text ++ rest)
        (p.generateSymbolId ruleName).2 = x →
      ((∃ e, x = .error e) ∨ ∃ r, x = .ok r ∧ r.1.head? = some ']') →
      ∃ e, parseSequence ruleName (fuel + 1 + 1) nested ⟨'(' :: inner, last, rule, p⟩ = .error e := by
    rintro x hx hfails
    rw [parseSequence]
    show ∃ e, (parseAlternates ruleName (fuel + 1) p.symbolIds.length true (parseSpace true inner)
      (p.generateSymbolId ruleName).2).bind _ = .error e
    rw [hinner, hx]
    rcases hfails with ⟨e, rfl⟩ | ⟨⟨pos, p'⟩, rfl, hpos⟩
    · exact ⟨e, rfl⟩
    · obtain ⟨pos', rfl⟩ : ∃ pos', pos = ']' :: pos' := by
        cases pos with
        | nil => cases hpos
        | cons c pos =>
          obtain rfl := Option.some.inj hpos
          exact ⟨pos, rfl⟩
      exact ⟨_, rfl⟩
  refine hgroup _ rfl ?_
  rw [parseAlternates]
  have hjam := h ruleName fuel rest 0 [] (p.generateSymbolId ruleName).2 (by omega)
  cases hseq : parseSequence ruleName fuel true
      ⟨text ++ rest, 0, [], (p.generateSymbolId ruleName).2⟩ with
  | error e => exact .inl ⟨e, rfl⟩
  | ok s =>
    rw [hseq] at hjam
    rcases hjam with ⟨e, he⟩ | ⟨s', hs', hpos⟩
    · refine .inl ⟨e, ?_⟩
      show (parseBars ruleName fuel true s).map _ = _
      rw [show parseBars ruleName fuel true s = .error e from he]
      rfl
    · refine .inr ⟨(s'.pos, s'.parser.addRule p.symbolIds.length (s'.rule ++ [⟨.endRule, 0⟩])), ?_, hpos⟩
      show (parseBars ruleName fuel true s).map _ = _
      rw [show parseBars ruleName fuel true s = .ok s' from hs']
      rfl

/-! ## Lists of alternates -/

lemma joinAlts_cons (text : List Char) {texts : List (List Char)} (hne : texts ≠ []) :
    joinAlts (text :: texts) = text ++ ' ' :: '|' :: ' ' :: joinAlts texts := by
  obtain ⟨t, ts, rfl⟩ := List.exists_cons_of_ne_nil hne
  rfl

lemma noSpace_joinAlts {text : List Char} (h : NoSpace text) (texts : List (List Char)) :
    NoSpace (joinAlts (text :: texts)) := by
  obtain ⟨c, cs, rfl⟩ := List.exists_cons_of_ne_nil h.1
  exact ⟨List.cons_ne_nil _ _, fun d hd => h.2 d hd⟩

lemma jamsAlts_join {pre : List (List Char × (Meaning → Language ℕ))} {text : List Char}
    {post : List (List Char)} (hpre : ∀ a ∈ pre, NoSpace a.1 ∧ Scans refs false a.1 a.2)
    (hspace : NoSpace text) (h : Jams text) :
    JamsAlts (joinAlts (pre.map Prod.fst ++ text :: post)) := by
  induction pre with
  | nil =>
    intro ruleName fuel rest last rule p hfuel
    rw [List.map_nil, List.nil_append, joinAlts, List.append_assoc] at hfuel ⊢
    rcases h ruleName fuel true _ last rule p hfuel with ⟨e, he⟩ | ⟨s, hs, hpos⟩
    · rw [he]
      exact .inl ⟨e, rfl⟩
    · rw [hs]
      obtain ⟨fuel, rfl⟩ : ∃ n, fuel = n + 1 := ⟨fuel - 1, by omega⟩
      refine .inr ⟨s, ?_, hpos⟩
      show parseBars ruleName (fuel + 1) true s = .ok s
      rw [parseBars]
      split
      · rename_i heq
        rw [heq] at hpos
        exact absurd (Option.some.inj hpos) (by decide)
      · rfl
  | cons a pre ih =>
    intro ruleName fuel rest last rule p hfuel
    have hne : pre.map Prod.fst ++ text :: post ≠ [] :=
      List.append_ne_nil_of_right_ne_nil _ (List.cons_ne_nil text post)
    obtain ⟨haspace, hascan⟩ := hpre a List.mem_cons_self
    have hnext : NoSpace (joinAlts (pre.map Prod.fst ++ text :: post)) := by
      cases pre with
      | nil => exact noSpace_joinAlts hspace post
      | cons b pre => exact noSpace_joinAlts (hpre b (by simp)).1 _
    rw [List.map_cons, List.cons_append, joinAlts_cons _ hne, List.append_assoc] at hfuel ⊢
    set next := joinAlts (pre.map Prod.fst ++ text :: post)
    have htail : ' ' :: '|' :: ' ' :: next ++ rest = ' ' :: '|' :: ' ' :: (next ++ rest) := rfl
    rw [htail] at hfuel ⊢
    have hbar : parseSpace true (' ' :: '|' :: ' ' :: (next ++ rest)) =
        '|' :: ' ' :: (next ++ rest) := by
      rw [parseSpace_space]
      exact parseSpace_of_head (headAll_cons rfl) true
    have hword : HeadAll (fun c => isWordChar c = false) (' ' :: '|' :: ' ' :: (next ++ rest)) := headAll_cons rfl
    have hstop : HeadAll (fun c => isStop c = true)
        (parseSpace true (' ' :: '|' :: ' ' :: (next ++ rest))) := by
      rw [hbar]
      exact headAll_cons rfl
    obtain ⟨last', elems, p', hparse, -⟩ := (hascan.alternate haspace).parse hword hstop
      (fun hnil => absurd hnil haspace.1) ruleName hfuel last rule p
    rw [haspace.append, hbar] at hparse
    rw [hparse]
    obtain ⟨fuel, rfl⟩ : ∃ n, fuel = n + 1 := ⟨fuel - 1, by omega⟩
    simp only [Except.bind]
    rw [parseBars]
    simp only [parseSpace_space, hnext.append]
    refine ih (fun b hb => hpre b (List.mem_cons_of_mem a hb)) ruleName fuel rest _ _ p' ?_
    simp only [List.length_append, List.length_cons] at hfuel ⊢
    omega

/-! ## Tries with a bracket -/

lemma exists_first_of {α : Type*} {P : α → Prop} {l : List α} (h : ∃ x ∈ l, P x) :
    ∃ pre x post, l = pre ++ x :: post ∧ P x ∧ ∀ y ∈ pre, ¬P y := by
  induction l with
  | nil => exact absurd h.choose_spec.1 List.not_mem_nil
  | cons a l ih =>
    by_cases ha : P a
    · exact ⟨[], a, l, rfl, ha, fun y hy => absurd hy List.not_mem_nil⟩
    · obtain ⟨x, hx, hP⟩ := h
      have hx' : x ∈ l := (List.mem_cons.1 hx).resolve_left fun heq => ha (heq ▸ hP)
      obtain ⟨pre, y, post, rfl, hy, hpre⟩ := ih ⟨x, hx', hP⟩
      exact ⟨a :: pre, y, post, rfl, hy, List.forall_mem_cons.2 ⟨ha, hpre⟩⟩

namespace TrieNode

variable {p q : Char → Prop} {n : TrieNode}

lemma WellFormed.of_has (h : WellFormed p n) (hq : ∀ s, n.Has s → ∀ c ∈ s, q c) :
    WellFormed q n := by
  induction h with
  | @node e children hsorted hkeys hstrings hchildren ih =>
    refine .node hsorted (fun x hx => ?_) hstrings fun x hx => ih x hx fun s hs c hc => ?_
    · obtain ⟨s, hs⟩ := hstrings x hx
      exact hq (x.1 :: s) ⟨x.2, hx, hs⟩ x.1 List.mem_cons_self
    · exact hq (x.1 :: s) ⟨x.2, hx, hs⟩ c (List.mem_cons_of_mem x.1 hc)

lemma noSpace_childText (x : Char × TrieNode) : NoSpace (childText x) :=
  noSpace_of_head (by decide) _

lemma jams_childText {c : Char} (hc : KeyChar c) (hclose : c ≠ ']') (hne : n.children ≠ [])
    (hnode : NoSpace (n.visit charName)) (h : JamsAlts (n.visit charName)) :
    Jams (childText (c, n)) := by
  intro ruleName fuel nested rest last rule p hfuel
  obtain ⟨G, hbracket, -⟩ : ∃ G : Language ℕ,
      Scans (fun _ => True) false ['[', c, ']'] (fun _ => G) ∧ _ := scans_bracket hc hclose
  have htext : childText (c, n) ++ rest =
      ['[', c, ']'] ++ (' ' :: '(' :: (n.visit charName ++ (')' :: rest))) := by
    rw [childText, if_pos (by simpa using hne)]
    simp
  rw [htext] at hfuel ⊢
  obtain ⟨fuel', last', elems, p', hparse, hfuel', -⟩ := hbracket ruleName nested
    ⟨['[', c, ']'] ++ (' ' :: '(' :: (n.visit charName ++ (')' :: rest))), last, rule, p⟩ _ fuel rfl
    (headAll_cons rfl) hfuel
  have hgroup : parseSpace nested (' ' :: '(' :: (n.visit charName ++ (')' :: rest))) =
      '(' :: (n.visit charName ++ (')' :: rest)) := by
    rw [parseSpace_space]
    exact parseSpace_of_head (headAll_cons rfl) nested
  rw [hparse, hgroup]
  refine .inl (h.group (hnode.append _ true) ?_)
  simp only [List.length_cons] at hfuel'
  omega

lemma jamsAlts_visit (h : WellFormed KeyChar n) (hhas : ∃ s, n.Has s ∧ ']' ∈ s) :
    n.children ≠ [] ∧ NoSpace (n.visit charName) ∧ JamsAlts (n.visit charName) := by
  induction h with
  | @node e children hsorted hkeys hstrings hchildren ih =>
    have hexists : ∃ x ∈ children, x.1 = ']' ∨ ∃ s, x.2.Has s ∧ ']' ∈ s := by
      obtain ⟨s, hs, hmem⟩ := hhas
      cases s with
      | nil => cases hmem
      | cons c s =>
        obtain ⟨m, hm, hs⟩ := hs
        refine ⟨_, hm, (List.mem_cons.1 hmem).imp Eq.symm fun hmem => ⟨s, hs, hmem⟩⟩
    obtain ⟨pre, x, post, rfl, hx, hpre⟩ := exists_first_of hexists
    have hne : pre ++ x :: post ≠ [] := List.append_ne_nil_of_right_ne_nil pre (List.cons_ne_nil x post)
    have hmem : x ∈ pre ++ x :: post := by simp
    -- the alternates in front of the first bracket can be read
    have hread : ∀ y ∈ pre, KeyChar y.1 ∧ y.1 ≠ ']' ∧ Readable (fun _ => True) y.2 ∧
        ∃ s, y.2.Has s := by
      intro y hy
      have hy' : y ∈ pre ++ x :: post := List.mem_append_left _ hy
      have hnot := hpre y hy
      rw [not_or, not_exists] at hnot
      have hwf : WellFormed (fun c => KeyChar c ∧ c ≠ ']') y.2 :=
        (hchildren y hy').of_has fun s hs c hc => ⟨(hchildren y hy').of_mem hs c hc, by
          rintro rfl
          exact hnot.2 s ⟨hs, hc⟩⟩
      exact ⟨hkeys y hy', hnot.1, hwf.readable trivial fun _ h => h, hstrings y hy'⟩
    obtain ⟨alts, htexts, hscans, -⟩ := scans_childTexts (show (fun _ : List Char => True) charName from trivial) hread
    have hjam : Jams (childText x) := by
      obtain ⟨c, m⟩ := x
      by_cases hc : c = ']'
      · subst hc
        exact jams_bracket _
      · obtain ⟨hne', hspace, hjams⟩ := ih _ hmem (hx.resolve_left hc)
        exact jams_childText (hkeys _ hmem) hc hne' hspace hjams
    have hvisit : visit charName (.node e (pre ++ x :: post)) =
        joinAlts (alts.map Prod.fst ++
          childText x :: (post.map childText ++ [otherText (pre ++ x :: post)])) := by
      rw [visit_eq hne, htexts]
      simp
    refine ⟨hne, ?_, ?_⟩
    · rw [visit_eq hne]
      cases pre with
      | nil => exact noSpace_joinAlts (noSpace_childText x) _
      | cons y pre => exact noSpace_joinAlts (noSpace_childText y) _
    · rw [hvisit]
      exact jamsAlts_join hscans (noSpace_childText x) hjam

end TrieNode

end IFairy.JsonSchema
