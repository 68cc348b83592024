import IFairy.Json.NotStringsBracket
import IFairy.Json.NotStringsSound

/-!
# When the key rule is right

The grammar of the key rule (`keyGrammar`) and the strings that it derives.  The rule derives the
literals of exactly the other strings when no name has a `]` and the trie of the names is sound
(`notStringsRight_iff`).  A `]` makes the class of its own alternate end too early, and the parser
rejects the grammar.
-/

namespace IFairy.JsonSchema

open LlamaGrammar ContextFreeGrammar

variable {refs : List Char → Prop}

/-! ## The grammar -/

/-- The name of the key rule of an object without a name. -/
def keyName : List Char := "additional-k".toList

lemma isWordChar_keyName : ∀ c ∈ keyName, isWordChar c = true := List.all_eq_true.1 rfl

/-- The rules that the key rule needs. -/
def keyGrammar (strings : List (List Char)) : List (List Char × List Char) :=
  [(keyName, notStrings charName strings), (charName, charRule), (spaceName, spaceRule)]

/-- The JSON literal of a string in which JSON escapes nothing. -/
def quoted (t : List Char) : List ℕ := 34 :: (t.map Char.toNat ++ [34])

/-- The key rule derives the literals of exactly the strings that are not in `strings`. -/
def NotStringsRight (strings : List (List Char)) : Prop :=
  ∃ q, parseGrammar (formatGrammar (keyGrammar strings)) = some q ∧
    ∀ t, (∀ c ∈ t, KeyChar c) → (quoted t ∈ q.langOf keyName ↔ t ∉ strings)

/-! ## Names without a bracket -/

lemma scans_root {p : Char → Prop} (href : refs charName) (hp : ∀ c, p c → KeyChar c ∧ c ≠ ']')
    {n : TrieNode} (h : n.WellFormed p) (hend : n.isEndOfString = false) :
    ∃ F, ScansAlts refs true (n.visit charName) F ∧ TrieNode.StandsFor F n.Accepts := by
  obtain ⟨e, children⟩ := n
  by_cases hne : children = []
  · subst hne
    have he : e = false := hend
    subst he
    refine ⟨fun _ => 1, alternate_nil.alts_single fun _ => rfl, fun env _ => ?_⟩
    refine agrees_one.congr fun t _ => ?_
    constructor
    · rintro rfl
      exact .leaf
    · rintro (⟨h, -, -⟩ | ⟨h, -⟩ | ⟨h, -⟩ | _ | _)
      · cases h
      · cases h
      · exact absurd rfl h
      · rfl
  · exact h.readable href hp hne

lemma scans_quote : Scans refs true ['[', '"', ']'] fun _ => {[34]} := by
  have h : Scans refs true ['[', '"', ']'] fun _ => chars (ClassHas ['"']) :=
    scans_plainClass (List.cons_ne_nil '"' []) (List.forall_mem_singleton.2 (by decide))
      (by decide)
  have hchars : chars (ClassHas ['"']) = ({[34]} : Language ℕ) := by
    ext s
    rw [mem_chars]
    constructor
    · rintro ⟨c, hc, rfl⟩
      rw [classHas_singleton.1 hc]
      rfl
    · rintro rfl
      exact ⟨34, classHas_singleton.2 rfl, rfl⟩
  rwa [hchars] at h

lemma Agrees.optional {L : Language ℕ} {P : List Char → Prop} (h : Agrees L P) :
    Agrees (powers L RepeatOp.opt.counts) fun t => t = [] ∨ P t := by
  have heq : powers L RepeatOp.opt.counts = 1 + L := by
    ext s
    rw [Language.mem_add]
    constructor
    · rintro ⟨k, hk, hs⟩
      have hk' : k ≤ 1 := hk
      obtain rfl | rfl : k = 0 ∨ k = 1 := by omega
      · rw [pow_zero] at hs
        exact .inl hs
      · rw [pow_one] at hs
        exact .inr hs
    · rintro (hs | hs)
      · exact ⟨0, Nat.zero_le 1, by rwa [pow_zero]⟩
      · exact ⟨1, show 1 ≤ 1 from le_rfl, by rwa [pow_one]⟩
  rw [heq]
  exact agrees_one.add h

lemma quoted_mem_iff {L : Language ℕ} {P : List Char → Prop} (h : Agrees L P) {t : List Char}
    (ht : ∀ c ∈ t, KeyChar c) : quoted t ∈ {[34]} * L * {[34]} * spaceLang ↔ P t := by
  rw [← h t ht]
  constructor
  · intro hmem
    obtain ⟨s₁, h₁, blanks, hblanks, heq⟩ := Language.mem_mul.1 hmem
    obtain ⟨s₂, h₂, _, rfl, rfl⟩ := Language.mem_mul.1 h₁
    obtain ⟨_, rfl, s, hs, rfl⟩ := Language.mem_mul.1 h₂
    -- the last character is the quote, so there is no white space
    rcases List.eq_nil_or_concat blanks with rfl | ⟨blanks, c, rfl⟩
    · rw [List.append_nil, quoted, List.append_assoc, List.singleton_append, List.cons.injEq] at heq
      rwa [← List.append_cancel_right heq.2]
    · rw [List.concat_eq_append, ← List.append_assoc, quoted, ← List.cons_append] at heq
      have hc := (List.append_inj' heq rfl).2
      have hblank := blank_of_mem_spaceLang hblanks c (by simp)
      rw [List.cons.injEq] at hc
      omega
  · intro hmem
    refine Language.mem_mul.2 ⟨_, Language.mem_mul.2 ⟨_, Language.mem_mul.2 ⟨[34], rfl, _, hmem, rfl⟩,
      [34], rfl, rfl⟩, [], nil_mem_spaceLang, ?_⟩
    rw [List.append_nil, quoted]
    rfl

lemma scans_notStrings {strings : List (List Char)} (hchar : refs charName) (hspace : refs spaceName)
    (hstrings : ∀ s ∈ strings, ∀ c ∈ s, KeyChar c ∧ c ≠ ']') (hnil : [] ∉ strings) :
    ∃ F, ScansAlts refs false (notStrings charName strings) F ∧
      ∀ env : Meaning, env charName = charLang → env spaceName = spaceLang →
        ∀ t, (∀ c ∈ t, KeyChar c) →
          (quoted t ∈ F env ↔ t = [] ∨ (TrieNode.ofStrings strings).Accepts t) := by
  obtain ⟨hwf, hhas⟩ := TrieNode.ofStrings_spec hstrings
  have hend : (TrieNode.ofStrings strings).isEndOfString = false := by
    rw [← Bool.not_eq_true]
    exact fun h => hnil ((hhas []).1 h)
  obtain ⟨F, hF, hstands⟩ := scans_root hchar (fun _ h => h) hwf hend
  have hgroup := hF.space.space_right.group.repeat readsOperator_opt trivial
  have hopen := scans_quote.append hgroup (noSpace_of_head (by decide) _) (List.cons_ne_nil ' ' [])
    fun _ => mem_blank
  have hclose := hopen.append scans_quote (noSpace_of_head (by decide) _) (List.cons_ne_nil ' ' [])
    fun _ => mem_blank
  have hall := hclose.append (scans_spaceName hspace) noSpace_spaceName (List.cons_ne_nil ' ' [])
    fun _ => mem_blank
  have htext : notStrings charName strings = ['[', '"', ']'] ++ [' '] ++ ('(' :: (' ' ::
      (TrieNode.ofStrings strings).visit charName ++ [' '] ++ [')']) ++ ['?']) ++ [' '] ++
      ['[', '"', ']'] ++ [' '] ++ spaceName := by
    have hfirst : "[\"] ( ".toList = ['[', '"', ']', ' ', '(', ' '] := rfl
    have hsecond : " )".toList = [' ', ')'] := rfl
    have hthird : " [\"] space".toList = ' ' :: '[' :: '"' :: ']' :: ' ' :: spaceName := rfl
    unfold notStrings
    rw [hfirst, hsecond, hthird]
    simp only [hend, Bool.false_eq_true, if_false, List.append_assoc, List.cons_append,
      List.nil_append]
  refine ⟨fun env => {[34]} * powers (F env) RepeatOp.opt.counts * {[34]} * env spaceName, ?_,
    fun env hchar' hspace' t ht => ?_⟩
  · rw [htext]
    exact (hall.alternate (noSpace_of_head (by decide) _)).alts_single fun h => nomatch h
  · dsimp only
    rw [hspace']
    exact quoted_mem_iff (hstands env hchar').optional ht

lemma keyGrammar_spec {strings : List (List Char)}
    (hstrings : ∀ s ∈ strings, ∀ c ∈ s, KeyChar c ∧ c ≠ ']') (hnil : [] ∉ strings) :
    ∃ q, parseGrammar (formatGrammar (keyGrammar strings)) = some q ∧
      ∀ t, (∀ c ∈ t, KeyChar c) →
        (quoted t ∈ q.langOf keyName ↔ t = [] ∨ (TrieNode.ofStrings strings).Accepts t) := by
  have hnames : (keyGrammar strings).map Prod.fst = [keyName, charName, spaceName] := rfl
  have hnodup : [keyName, charName, spaceName].Nodup := by decide
  have hcharName : charName ∈ [keyName, charName, spaceName] := by simp
  have hspaceName : spaceName ∈ [keyName, charName, spaceName] := by simp
  obtain ⟨F, hF, hlang⟩ : ∃ F, ScansAlts (· ∈ [keyName, charName, spaceName]) false
      (notStrings charName strings) F ∧ _ := scans_notStrings hcharName hspaceName hstrings hnil
  let meaning : List Char → Meaning → Language ℕ := fun name =>
    if name = keyName then F else if name = charName then fun _ => charLang else fun _ => spaceLang
  have hkey : meaning keyName = F := if_pos rfl
  have hchar : meaning charName = fun _ => charLang :=
    (if_neg (by decide)).trans (if_pos rfl)
  have hspace : meaning spaceName = fun _ => spaceLang :=
    (if_neg (by decide)).trans (if_neg (by decide))
  have hread : ∀ e ∈ keyGrammar strings,
      ScansAlts (· ∈ (keyGrammar strings).map Prod.fst) false e.2 (meaning e.1) := by
    rw [hnames]
    intro e he
    simp only [keyGrammar, List.mem_cons, List.not_mem_nil, or_false] at he
    rcases he with rfl | rfl | rfl
    · rw [hkey]
      exact hF
    · rw [hchar]
      exact scansAlts_char
    · rw [hspace]
      exact scansAlts_space
  have hwords : ∀ e ∈ keyGrammar strings, e.1 ≠ [] ∧ ∀ c ∈ e.1, isWordChar c = true := by
    intro e he
    simp only [keyGrammar, List.mem_cons, List.not_mem_nil, or_false] at he
    rcases he with rfl | rfl | rfl
    · exact ⟨List.cons_ne_nil _ _, isWordChar_keyName⟩
    · exact ⟨List.cons_ne_nil _ _, isWordChar_charName⟩
    · exact ⟨List.cons_ne_nil _ _, isWordChar_spaceName⟩
  obtain ⟨q, hq, hmeaning⟩ := parseGrammar_format (hnames ▸ hnodup) hwords hread
  refine ⟨q, hq, fun t ht => ?_⟩
  have hkeyLang := hmeaning _ (show (keyName, notStrings charName strings) ∈ keyGrammar strings by
    simp [keyGrammar])
  have hcharLang := hmeaning _ (show (charName, charRule) ∈ keyGrammar strings by simp [keyGrammar])
  have hspaceLang := hmeaning _ (show (spaceName, spaceRule) ∈ keyGrammar strings by
    simp [keyGrammar])
  rw [hkey] at hkeyLang
  rw [hchar] at hcharLang
  rw [hspace] at hspaceLang
  rw [hkeyLang]
  exact hlang q.langOf hcharLang hspaceLang t ht

/-! ## Names with a bracket -/

lemma notStrings_begins (strings : List (List Char)) : ∃ tail, notStrings charName strings =
    ['[', '"', ']'] ++ (' ' :: '(' :: ' ' ::
      ((TrieNode.ofStrings strings).visit charName ++ tail)) := by
  have hfirst : "[\"] ( ".toList = ['[', '"', ']', ' ', '(', ' '] := rfl
  refine ⟨" )".toList ++ (if (TrieNode.ofStrings strings).isEndOfString then [] else ['?']) ++
    " [\"] space".toList, ?_⟩
  unfold notStrings
  rw [hfirst]
  simp only [List.append_assoc, List.cons_append, List.nil_append]

lemma parseAlternates_bracket {strings : List (List Char)}
    (hspace : NoSpace ((TrieNode.ofStrings strings).visit charName))
    (hjams : JamsAlts ((TrieNode.ofStrings strings).visit charName)) (ruleName : List Char)
    (ruleId : ℕ) (p : ParserState) (rest : List Char) {fuel : ℕ}
    (hfuel : 2 * (notStrings charName strings ++ rest).length + 2 ≤ fuel) :
    ∃ e, parseAlternates ruleName fuel ruleId false
      (parseSpace true (notStrings charName strings ++ rest)) p = .error e := by
  obtain ⟨tail, htail⟩ := notStrings_begins strings
  obtain ⟨fuel, rfl⟩ : ∃ n, fuel = n + 1 := ⟨fuel - 1, by omega⟩
  set visit := (TrieNode.ofStrings strings).visit charName
  have htext : notStrings charName strings ++ rest =
      ['[', '"', ']'] ++ (' ' :: '(' :: ' ' :: (visit ++ (tail ++ rest))) := by
    rw [htail]
    simp only [List.append_assoc, List.cons_append]
  rw [htext] at hfuel ⊢
  have hstart : parseSpace true (['[', '"', ']'] ++ (' ' :: '(' :: ' ' :: (visit ++ (tail ++ rest)))) =
      ['[', '"', ']'] ++ (' ' :: '(' :: ' ' :: (visit ++ (tail ++ rest))) :=
    parseSpace_of_head (headAll_cons rfl) true
  have hgroup : parseSpace false (' ' :: '(' :: ' ' :: (visit ++ (tail ++ rest))) =
      '(' :: ' ' :: (visit ++ (tail ++ rest)) := by
    rw [parseSpace_space]
    exact parseSpace_of_head (headAll_cons rfl) false
  have hinner : parseSpace true (' ' :: (visit ++ (tail ++ rest))) = visit ++ (tail ++ rest) := by
    rw [parseSpace_space, hspace.append]
  have hquote : Scans (fun _ => True) true ['[', '"', ']'] fun _ => {[34]} := scans_quote
  obtain ⟨fuel', last, elems, p', hparse, hfuel', -⟩ := hquote ruleName false
    ⟨['[', '"', ']'] ++ (' ' :: '(' :: ' ' :: (visit ++ (tail ++ rest))), 0, [], p⟩ _ fuel rfl
    (headAll_cons rfl) (by dsimp only; omega)
  rw [hgroup] at hparse
  simp only [List.length_cons] at hfuel'
  obtain ⟨e, he⟩ : ∃ e, parseSequence ruleName fuel' false
      ⟨'(' :: ' ' :: (visit ++ (tail ++ rest)), last, [] ++ elems, p'⟩ = .error e :=
    hjams.group hinner (by omega)
  refine ⟨e, ?_⟩
  rw [hstart, parseAlternates, hparse, he]
  rfl

lemma parseGrammar_bracket {strings : List (List Char)}
    (hstrings : ∀ s ∈ strings, ∀ c ∈ s, KeyChar c) {s : List Char} (hs : s ∈ strings)
    (hbracket : ']' ∈ s) : parseGrammar (formatGrammar (keyGrammar strings)) = none := by
  obtain ⟨hwf, hhas⟩ := TrieNode.ofStrings_spec hstrings
  obtain ⟨-, hspace, hjams⟩ := TrieNode.jamsAlts_visit hwf ⟨s, (hhas s).2 hs, hbracket⟩
  have hne : keyName ≠ [] := List.cons_ne_nil _ _
  have hword := isWordChar_keyName
  set others := formatGrammar [(charName, charRule), (spaceName, spaceRule)]
  have hgrammar : formatGrammar (keyGrammar strings) =
      formatRule (keyName, notStrings charName strings) ++ others := List.flatMap_cons
  obtain ⟨e, he⟩ := parseAlternates_bracket hspace hjams keyName
    (ParserState.getSymbolId ⟨[], []⟩ keyName).1 (ParserState.getSymbolId ⟨[], []⟩ keyName).2
    ('\n' :: others) (show _ ≤ 2 * (' ' :: (notStrings charName strings ++ ('\n' :: others))).length + 2
      by rw [List.length_cons]; omega)
  have hrule := parseRule_error hne hword he
  have hstart : parseSpace true (formatRule (keyName, notStrings charName strings) ++ others) =
      formatRule (keyName, notStrings charName strings) ++ others := by
    rw [formatRule_append]
    exact (noSpace_name hne hword).append _ true
  have hrules : ∀ fuel, parseRules (fuel + 1)
      (formatRule (keyName, notStrings charName strings) ++ others) ⟨[], []⟩ = .error e := by
    intro fuel
    cases htext : formatRule (keyName, notStrings charName strings) ++ others with
    | nil =>
      rw [formatRule_append] at htext
      exact absurd htext (List.cons_ne_nil _ _)
    | cons c cs =>
      rw [htext] at hrule
      rw [parseRules, hrule]
      · rfl
      · exact List.cons_ne_nil c cs
  rw [parseGrammar, hgrammar, hstart, hrules]

/-! ## The condition -/

/-- There are names, without a bracket, and the trie of the names is sound. -/
structure GoodNames (strings : List (List Char)) : Prop where
  nonempty : strings ≠ []
  bracket : ∀ s ∈ strings, ']' ∉ s
  sound : TrieNode.SoundStrings (· ∈ strings)

/-- The key rule derives the literals of exactly the other strings when there are names, none of
them has a `]` or a `^`, the beginnings of a name are names, too, and a `-` comes last or stands
between `,` and `.` wherever names go on with it. -/
theorem notStringsRight_iff (strings : List (List Char))
    (hstrings : ∀ s ∈ strings, s ≠ [] ∧ ∀ c ∈ s, KeyChar c) :
    NotStringsRight strings ↔ GoodNames strings := by
  have hkeys : ∀ s ∈ strings, ∀ c ∈ s, KeyChar c := fun s hs => (hstrings s hs).2
  have hnil : [] ∉ strings := fun h => (hstrings [] h).1 rfl
  obtain ⟨hwf, hhas⟩ := TrieNode.ofStrings_spec hkeys
  have hhas' : (TrieNode.ofStrings strings).Has = (· ∈ strings) := funext fun s => propext (hhas s)
  have hsound := TrieNode.sound_iff hwf
  rw [hhas'] at hsound
  constructor
  · rintro ⟨q, hq, hright⟩
    have hbracket : ∀ s ∈ strings, ']' ∉ s := by
      intro s hs hmem
      rw [parseGrammar_bracket hkeys hs hmem] at hq
      cases hq
    obtain ⟨q', hq', hlang⟩ := keyGrammar_spec (fun s hs c hc => ⟨hkeys s hs c hc, by
      rintro rfl
      exact hbracket s hs hc⟩) hnil
    obtain rfl := Option.some.inj (hq.symm.trans hq')
    refine ⟨?_, hbracket, hsound.1 (TrieNode.sound_of_accepts hwf fun t ht htkeys => ?_)⟩
    · rintro rfl
      have ha : ∀ c ∈ ['a'], KeyChar c := List.forall_mem_singleton.2 (by decide)
      rcases (hlang ['a'] ha).1 ((hright ['a'] ha).2 List.not_mem_nil) with h | h
      · cases h
      · rcases h with ⟨h, -, -⟩ | ⟨h, -⟩ | ⟨h, -⟩
        · cases h
        · cases h
        · exact h rfl
    · have h := (hlang t htkeys).symm.trans (hright t htkeys)
      rw [or_iff_right ht, ← hhas t] at h
      exact h
  · rintro ⟨hne, hbracket, hs⟩
    obtain ⟨q, hq, hlang⟩ := keyGrammar_spec (fun s hs c hc => ⟨hkeys s hs c hc, by
      rintro rfl
      exact hbracket s hs hc⟩) hnil
    refine ⟨q, hq, fun t ht => ?_⟩
    obtain ⟨s, hmem⟩ := List.exists_mem_of_ne_nil strings hne
    have haccepts := (hsound.2 hs).accepts_iff hwf ⟨s, (hhas s).2 hmem⟩ ht
    rw [hlang t ht, haccepts, hhas]
    constructor
    · rintro (rfl | h)
      · exact hnil
      · exact h.2
    · intro h
      by_cases ht : t = []
      · exact .inl ht
      · exact .inr ⟨ht, h⟩

/-- The rule for the keys other than `a` and `ab`. -/
theorem notStringsRight_a_ab : NotStringsRight [['a'], ['a', 'b']] := by
  have hkeys : ∀ s ∈ [['a'], ['a', 'b']], s ≠ [] ∧ ∀ c ∈ s, KeyChar c := by
    simp only [List.forall_mem_cons, List.not_mem_nil, IsEmpty.forall_iff, implies_true, and_true]
    decide
  refine (notStringsRight_iff _ hkeys).2 ⟨List.cons_ne_nil _ _, by decide, ?_, ?_, ?_⟩
  · intro t ht
    simp only [List.mem_cons, List.not_mem_nil, or_false] at ht
    rcases ht with rfl | rfl <;> decide
  · intro u v hu huv
    obtain ⟨c, u, rfl⟩ := List.exists_cons_of_ne_nil hu
    simp only [List.mem_cons, List.not_mem_nil, or_false, List.cons_append, List.cons.injEq,
      List.append_eq_nil_iff, List.append_eq_singleton_iff] at huv ⊢
    rcases huv with ⟨rfl, rfl, -⟩ | ⟨rfl, ⟨rfl, -⟩ | ⟨rfl, -⟩⟩ <;> simp
  · intro u t ht
    have hdash : '-' ∈ u ++ '-' :: t := by simp
    simp only [List.mem_cons, List.not_mem_nil, or_false] at ht
    rcases ht with h | h
    · rw [h] at hdash
      exact absurd hdash (by decide)
    · rw [h] at hdash
      exact absurd hdash (by decide)

/-- The rule for the keys other than `ab` rejects `a`. -/
theorem not_notStringsRight_ab :
    (∀ s ∈ [['a', 'b']], s ≠ [] ∧ ∀ c ∈ s, KeyChar c) ∧ ¬NotStringsRight [['a', 'b']] := by
  have hkeys : ∀ s ∈ [['a', 'b']], ∀ c ∈ s, KeyChar c ∧ c ≠ ']' := by
    simp only [List.forall_mem_cons, List.not_mem_nil, IsEmpty.forall_iff, implies_true, and_true]
    decide
  refine ⟨fun s hs => ⟨?_, fun c hc => (hkeys s hs c hc).1⟩, ?_⟩
  · rintro rfl
    exact absurd hs (by decide)
  rintro ⟨q, hq, hright⟩
  have ha : ∀ c ∈ ['a'], KeyChar c := List.forall_mem_singleton.2 (by decide)
  obtain ⟨q', hq', hlang⟩ : ∃ q, parseGrammar (formatGrammar (keyGrammar [['a', 'b']])) = some q ∧ _ :=
    keyGrammar_spec hkeys (by decide)
  obtain rfl := Option.some.inj (hq.symm.trans hq')
  rcases (hlang ['a'] ha).1 ((hright ['a'] ha).2 (by decide)) with h | h
  · cases h
  · have htrie : TrieNode.ofStrings [['a', 'b']] =
        .node false [('a', .node false [('b', .node true [])])] := rfl
    rw [htrie, TrieNode.accepts_cons (by simp) List.mem_cons_self (by decide) (by simp)] at h
    exact TrieNode.not_accepts_nil (List.cons_ne_nil _ _) (by simp) h

end IFairy.JsonSchema
