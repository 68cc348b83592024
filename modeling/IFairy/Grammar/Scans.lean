import IFairy.Grammar.ParserSpecs

/-!
# Reading symbols and alternates

One rule for each form of text.  `Scans` is about the symbols of a sequence, `ScansBars` about the
alternates behind the first one, `ScansAlts` about all alternates of a rule or a group.
-/

namespace IFairy.LlamaGrammar

open ParserState ContextFreeGrammar

variable {refs : List Char → Prop} {rules : Rules}

/-! ## Terminals -/

lemma elemsLang_class {e : GrammarElement} {es : Rule}
    (he : e.type = .char ∨ e.type = .charNot ∨ e.type = .charAny) (hes : ∀ x ∈ es, InsideClass x) :
    elemsLang rules (e :: es) = chars (classOf (e :: es)).Has := by
  have hrest : syms es = [] := by
    induction es with
    | nil => rfl
    | cons x es ih =>
      rw [syms, ih fun y hy => hes y (List.mem_cons_of_mem x hy)]
      rcases hes x List.mem_cons_self with h | h <;> rw [h]
  have hsyms : syms (e :: es) = [.terminal (classOf (e :: es))] := by
    rw [syms, hrest]
    rcases he with h | h | h <;> rw [h]
  rw [elemsLang, hsyms, lang_terminal]

lemma symbols_class {e : GrammarElement} {es : Rule}
    (he : e.type = .char ∨ e.type = .charNot ∨ e.type = .charAny) (hes : ∀ x ∈ es, InsideClass x) :
    Symbols (e :: es) := by
  constructor
  · intro x hx
    rcases List.mem_cons.1 hx with rfl | hx
    · rcases he with h | h | h <;> simp [isEndOfSequence, h]
    · rcases hes x hx with h | h <;> simp [isEndOfSequence, h]
  · intro x hx
    obtain rfl := Option.some.inj hx
    rcases he with h | h | h <;> simp [InsideClass, h]

def literalElems (values : List ℕ) : Rule := values.map fun c => ⟨.char, c⟩

lemma symbols_literalElems (values : List ℕ) : Symbols (literalElems values) := by
  constructor
  · intro x hx
    obtain ⟨c, -, rfl⟩ := List.mem_map.1 hx
    rfl
  · intro x hx
    cases values with
    | nil => cases hx
    | cons c values =>
      obtain rfl := Option.some.inj hx
      simp [InsideClass]

lemma elemsLang_literalElems (values : List ℕ) :
    elemsLang rules (literalElems values) = {values} := by
  induction values with
  | nil => exact elemsLang_nil
  | cons c values ih =>
    have hfirst : Symbols [⟨.char, c⟩] := symbols_literalElems [c]
    have hcons : literalElems (c :: values) = [⟨.char, c⟩] ++ literalElems values := rfl
    rw [hcons, elemsLang_append hfirst.plain (symbols_literalElems values).starts, ih,
      RepeatOp.elemsLang_char]
    ext s
    rw [Language.mem_mul]
    constructor
    · rintro ⟨s₁, ⟨d, rfl, rfl⟩, s₂, rfl, rfl⟩
      rfl
    · rintro rfl
      exact ⟨[c], ⟨c, rfl, rfl⟩, values, rfl, rfl⟩

/-! ## Symbols -/

/-- The parser of sequences gets behind `text`, which stands for the language `F`; `single` if the
text is one symbol, which an operator could follow. -/
def Scans (refs : List Char → Prop) (single : Bool) (text : List Char)
    (F : Meaning → Language ℕ) : Prop :=
  ∀ (ruleName : List Char) (nested : Bool) (s : Cursor) (rest : List Char) (fuel : ℕ),
    s.pos = text ++ rest → HeadAll (fun c => isWordChar c = false) rest →
    2 * s.pos.length < fuel →
    ∃ fuel' last elems p',
      parseSequence ruleName fuel nested s =
        parseSequence ruleName fuel' nested
          ⟨parseSpace nested rest, last, s.rule ++ elems, p'⟩ ∧
      2 * rest.length < fuel' ∧ Symbols elems ∧ s.parser.Grows refs p' ∧
      (∀ q, s.parser.Later p' q → ∀ env, q.Means env → elemsLang q.rules elems = F env) ∧
      (single = true → last = s.rule.length ∧ elems ≠ [])

lemma Scans.of_single {text : List Char} {F : Meaning → Language ℕ} (h : Scans refs true text F) :
    Scans refs false text F := by
  intro ruleName nested s rest fuel hpos hrest hfuel
  obtain ⟨fuel', last, elems, p', hparse, hfuel', hsymbols, hgrows, hlang, -⟩ :=
    h ruleName nested s rest fuel hpos hrest hfuel
  exact ⟨fuel', last, elems, p', hparse, hfuel', hsymbols, hgrows, hlang, fun h => nomatch h⟩

lemma scans_of_push {single : Bool} {c : Char} {text : List Char} {F : Meaning → Language ℕ}
    (h : ∀ (ruleName : List Char) (nested : Bool) (last : ℕ) (rule : Rule) (p : ParserState)
      (rest : List Char) (fuel : ℕ), HeadAll (fun c => isWordChar c = false) rest →
      2 * (text ++ rest).length + 2 ≤ fuel →
      ∃ elems p', parseSequence ruleName (fuel + 1) nested ⟨c :: text ++ rest, last, rule, p⟩ =
          parseSequence ruleName fuel nested
            (Cursor.push ⟨c :: text ++ rest, last, rule, p⟩ (parseSpace nested rest) elems p') ∧
        Symbols elems ∧ p.Grows refs p' ∧
        (∀ q, p.Later p' q → ∀ env, q.Means env → elemsLang q.rules elems = F env) ∧
        (single = true → elems ≠ [])) :
    Scans refs single (c :: text) F := by
  rintro ruleName nested ⟨pos, last, rule, p⟩ rest fuel hpos hrest hfuel
  dsimp only at hpos hfuel
  subst hpos
  obtain ⟨fuel, rfl⟩ : ∃ n, fuel = n + 1 := ⟨fuel - 1, by omega⟩
  have hlength : 2 * (text ++ rest).length + 2 ≤ fuel := by
    simp only [List.cons_append, List.length_cons] at hfuel
    omega
  obtain ⟨elems, p', hparse, hsymbols, hgrows, hlang, hne⟩ :=
    h ruleName nested last rule p rest fuel hrest hlength
  refine ⟨fuel, rule.length, elems, p', hparse, ?_, hsymbols, hgrows, hlang, fun hs => ⟨rfl, hne hs⟩⟩
  rw [List.length_append] at hlength
  omega

section Rounds

variable (ruleName : List Char) (fuel : ℕ) (nested : Bool) (pos : List Char) (last : ℕ) (rule : Rule)
  (p : ParserState)

lemma parseSequence_literal :
    parseSequence ruleName (fuel + 1) nested ⟨'"' :: pos, last, rule, p⟩ =
      (parseLiteral (pos.length + 1) pos).bind fun r =>
        parseSequence ruleName fuel nested
          ⟨parseSpace nested r.2, rule.length, rule ++ literalElems r.1, p⟩ := by
  rw [parseSequence]
  rfl

lemma parseSequence_inverse :
    parseSequence ruleName (fuel + 1) nested ⟨'[' :: '^' :: pos, last, rule, p⟩ =
      (parseClass (pos.length + 1) .charNot pos).bind fun r =>
        parseSequence ruleName fuel nested
          ⟨parseSpace nested r.2, rule.length, rule ++ r.1, p⟩ := by
  rw [parseSequence]
  rfl

lemma parseSequence_class (h : pos.head? ≠ some '^') :
    parseSequence ruleName (fuel + 1) nested ⟨'[' :: pos, last, rule, p⟩ =
      (parseClass (pos.length + 1) .char pos).bind fun r =>
        parseSequence ruleName fuel nested
          ⟨parseSpace nested r.2, rule.length, rule ++ r.1, p⟩ := by
  have hquote : ('[' : Char) ≠ '"' := by decide
  rw [parseSequence]
  simp only [if_neg hquote, if_pos, if_neg h]
  rfl

end Rounds

lemma scans_literal (body : List Char) (values : List ℕ)
    (h : ∀ rest, parseLiteral ((body ++ '"' :: rest).length + 1) (body ++ '"' :: rest) =
      .ok (values, rest)) :
    Scans refs (!values.isEmpty) ('"' :: (body ++ ['"'])) fun _ => {values} := by
  refine scans_of_push fun ruleName nested last rule p rest fuel _ _ =>
    ⟨literalElems values, p, ?_, symbols_literalElems values, .refl p,
      fun q _ env _ => elemsLang_literalElems values, fun hne hnil => ?_⟩
  · rw [List.cons_append, List.append_assoc, List.singleton_append, parseSequence_literal, h rest]
    rfl
  · obtain rfl := List.map_eq_nil_iff.1 hnil
    cases hne

lemma scans_class {body : List Char} {e : GrammarElement} {es : Rule} (hhead : body.head? ≠ some '^')
    (h : ∀ rest, parseClass ((body ++ ']' :: rest).length + 1) .char (body ++ ']' :: rest) =
      .ok (e :: es, rest))
    (he : e.type = .char) (hes : ∀ x ∈ es, InsideClass x) :
    Scans refs true ('[' :: (body ++ [']'])) fun _ => chars (classOf (e :: es)).Has := by
  refine scans_of_push fun ruleName nested last rule p rest fuel _ _ =>
    ⟨e :: es, p, ?_, symbols_class (.inl he) hes, .refl p,
      fun q _ env _ => elemsLang_class (.inl he) hes, fun _ => List.cons_ne_nil e es⟩
  have hnot : (body ++ ']' :: rest).head? ≠ some '^' := by
    cases body with
    | nil => exact fun h => absurd (Option.some.inj h) (by decide)
    | cons c body => exact hhead
  rw [List.cons_append, List.append_assoc, List.singleton_append,
    parseSequence_class _ _ _ _ _ _ _ hnot, h rest]
  rfl

lemma scans_inverse {body : List Char} {e : GrammarElement} {es : Rule}
    (h : ∀ rest, parseClass ((body ++ ']' :: rest).length + 1) .charNot (body ++ ']' :: rest) =
      .ok (e :: es, rest))
    (he : e.type = .charNot) (hes : ∀ x ∈ es, InsideClass x) :
    Scans refs true ('[' :: '^' :: (body ++ [']'])) fun _ => chars (classOf (e :: es)).Has := by
  refine scans_of_push fun ruleName nested last rule p rest fuel _ _ =>
    ⟨e :: es, p, ?_, symbols_class (.inr (.inl he)) hes, .refl p,
      fun q _ env _ => elemsLang_class (.inr (.inl he)) hes, fun _ => List.cons_ne_nil e es⟩
  rw [List.cons_append, List.cons_append, List.append_assoc, List.singleton_append,
    parseSequence_inverse, h rest]
  rfl

/-- `[^]` is taken for an inverse class without an element. -/
lemma scans_inverse_empty : Scans refs false ['[', '^', ']'] fun _ => 1 :=
  scans_of_push fun ruleName nested last rule p rest fuel _ _ =>
    ⟨[], p, by
      rw [List.cons_append, List.cons_append, List.cons_append, List.nil_append,
        parseSequence_inverse]
      rfl, symbols_nil, .refl p, fun _ _ _ _ => elemsLang_nil, fun h => nomatch h⟩

/-! ### References -/

section Names

variable {name rest : List Char}

lemma takeWhile_append_of_head {f : Char → Bool} (hname : ∀ c ∈ name, f c = true)
    (hrest : HeadAll (fun c => f c = false) rest) :
    (name ++ rest).takeWhile f = name ∧ (name ++ rest).dropWhile f = rest := by
  rw [List.takeWhile_append_of_pos hname, List.dropWhile_append_of_pos hname]
  cases rest with
  | nil => exact ⟨List.append_nil name, rfl⟩
  | cons c rest =>
    have hc := hrest c rfl
    rw [List.takeWhile_cons, List.dropWhile_cons, hc]
    exact ⟨List.append_nil name, rfl⟩

lemma parseName_append (hne : name ≠ []) (hname : ∀ c ∈ name, isWordChar c = true)
    (hrest : HeadAll (fun c => isWordChar c = false) rest) :
    parseName (name ++ rest) = .ok (name, rest) := by
  obtain ⟨htake, hdrop⟩ := takeWhile_append_of_head hname hrest
  rw [parseName, htake, hdrop]
  cases name with
  | nil => exact absurd rfl hne
  | cons c name => rfl

lemma not_word_underscore : isWordChar '_' = false := by decide

lemma underscore_not_mem (hname : ∀ c ∈ name, isWordChar c = true) : '_' ∉ name := fun h => by
  have hword := hname '_' h
  rw [not_word_underscore] at hword
  cases hword

lemma parseSequence_name {c : Char} (hc : isWordChar c = true) (ruleName : List Char) (fuel : ℕ)
    (nested : Bool) (pos : List Char) (last : ℕ) (rule : Rule) (p : ParserState) :
    parseSequence ruleName (fuel + 1) nested ⟨c :: pos, last, rule, p⟩ =
      (parseName (c :: pos)).bind fun r =>
        parseSequence ruleName fuel nested
          ⟨parseSpace nested r.2, rule.length, rule ++ [⟨.ruleRef, (p.getSymbolId r.1).1⟩],
            (p.getSymbolId r.1).2⟩ := by
  have hquote : c ≠ '"' := by
    rintro rfl
    exact absurd hc (by decide)
  have hbracket : c ≠ '[' := by
    rintro rfl
    exact absurd hc (by decide)
  rw [parseSequence]
  simp only [if_neg hquote, if_neg hbracket, if_pos hc]
  rfl

lemma scans_name (hne : name ≠ []) (hname : ∀ c ∈ name, isWordChar c = true) (href : refs name) :
    Scans refs true name fun env => env name := by
  obtain ⟨c, cs, rfl⟩ := List.exists_cons_of_ne_nil hne
  refine scans_of_push fun ruleName nested last rule p rest fuel hrest _ => ?_
  have hunder := underscore_not_mem hname
  obtain ⟨hgrows, hmem, hid⟩ := grows_getSymbolId (p := p) hunder href
  refine ⟨[⟨.ruleRef, (p.getSymbolId (c :: cs)).1⟩], (p.getSymbolId (c :: cs)).2, ?_, symbols_ref _,
    hgrows, fun q hq env henv => ?_, fun _ => List.cons_ne_nil _ _⟩
  · rw [List.cons_append, parseSequence_name (hname c List.mem_cons_self), ← List.cons_append,
      parseName_append hne hname hrest]
    rfl
  · rw [elemsLang_ref, hid, ← idxOf_eq_of_initial hq.names hmem]
    exact henv _ (hq.names.subset hmem) hunder

end Names

/-! ### Sequences -/

/-- What comes is not space, nor a comment. -/
def NoSpace (text : List Char) : Prop :=
  text ≠ [] ∧ HeadAll (fun c => isSpaceChar c = false) text

lemma noSpace_of_head {c : Char} (hc : isSpaceChar c = false) (text : List Char) :
    NoSpace (c :: text) :=
  ⟨List.cons_ne_nil c text, headAll_cons hc⟩

lemma isSpaceChar_of_isWordChar {c : Char} (h : isWordChar c = true) : isSpaceChar c = false := by
  by_contra hspace
  simp only [isSpaceChar, isLineEnd, Bool.not_eq_false, Bool.or_eq_true, decide_eq_true_eq]
    at hspace
  rcases hspace with ((rfl | rfl) | rfl) | rfl | rfl <;> exact absurd h (by decide)

lemma noSpace_name {name : List Char} (hne : name ≠ []) (hname : ∀ c ∈ name, isWordChar c = true) :
    NoSpace name :=
  ⟨hne, fun _ hc => isSpaceChar_of_isWordChar (hname _ (List.mem_of_mem_head? hc))⟩

lemma NoSpace.append {text : List Char} (h : NoSpace text) (rest : List Char) (nested : Bool) :
    parseSpace nested (text ++ rest) = text ++ rest := by
  obtain ⟨c, cs, rfl⟩ := List.exists_cons_of_ne_nil h.1
  have hhead : HeadAll (fun d => isSpaceChar d = false) (c :: (cs ++ rest)) := fun d hd => h.2 d hd
  exact parseSpace_of_head hhead nested

lemma parseSpace_of_spaces {sp : List Char} (hsp : ∀ c ∈ sp, c = ' ') (nested : Bool)
    (pos : List Char) : parseSpace nested (sp ++ pos) = parseSpace nested pos := by
  rw [List.eq_replicate_of_mem hsp]
  exact parseSpace_spaces nested sp.length pos

lemma headAll_of_spaces {sp : List Char} (hne : sp ≠ []) (hsp : ∀ c ∈ sp, c = ' ')
    (pos : List Char) : HeadAll (fun c => isWordChar c = false) (sp ++ pos) := by
  obtain ⟨c, cs, rfl⟩ := List.exists_cons_of_ne_nil hne
  intro d hd
  obtain rfl := Option.some.inj hd
  rw [hsp c List.mem_cons_self]
  decide

lemma Scans.append {single single' : Bool} {a b sp : List Char} {F G : Meaning → Language ℕ}
    (ha : Scans refs single a F) (hb : Scans refs single' b G) (hspace : NoSpace b)
    (hne : sp ≠ []) (hsp : ∀ c ∈ sp, c = ' ') :
    Scans refs false (a ++ sp ++ b) fun env => F env * G env := by
  intro ruleName nested s rest fuel hpos hrest hfuel
  rw [List.append_assoc, List.append_assoc] at hpos
  obtain ⟨fuel₁, last₁, elems₁, p₁, hparse₁, hfuel₁, hsymbols₁, hgrows₁, hlang₁, -⟩ :=
    ha ruleName nested s _ fuel hpos (headAll_of_spaces hne hsp (b ++ rest)) hfuel
  rw [parseSpace_of_spaces hsp, hspace.append] at hparse₁
  have hfuel₁' : 2 * (b ++ rest).length < fuel₁ := by
    rw [List.length_append] at hfuel₁
    omega
  obtain ⟨fuel₂, last₂, elems₂, p₂, hparse₂, hfuel₂, hsymbols₂, hgrows₂, hlang₂, -⟩ :=
    hb ruleName nested ⟨b ++ rest, last₁, s.rule ++ elems₁, p₁⟩ rest fuel₁ rfl hrest hfuel₁'
  refine ⟨fuel₂, last₂, elems₁ ++ elems₂, p₂, ?_, hfuel₂, hsymbols₁.append hsymbols₂,
    hgrows₁.trans hgrows₂, fun q hq env henv => ?_, fun h => nomatch h⟩
  · rw [hparse₁, hparse₂, List.append_assoc]
  · rw [elemsLang_append hsymbols₁.plain hsymbols₂.starts,
      hlang₁ q (hq.left hgrows₂.toExtends) env henv, hlang₂ q (hq.right hgrows₁.toExtends) env henv]

/-! ### Repetitions -/

/-- The parser of sequences takes `text` for the operator. -/
structure ReadsOperator (op : RepeatOp) (text : List Char) : Prop where
  noSpace : NoSpace text
  noWord : HeadAll (fun c => isWordChar c = false) text
  reads : ∀ (ruleName : List Char) (fuel : ℕ) (nested : Bool) (rest : List Char) (last : ℕ)
    (rule : Rule) (p : ParserState),
    parseSequence ruleName (fuel + 1) nested ⟨text ++ rest, last, rule, p⟩ =
      (handleRepetitions ruleName last op.bounds.1 op.bounds.2 (parseSpace nested rest) rule p).bind
        fun r => parseSequence ruleName fuel nested ⟨parseSpace nested rest, last, r.1, r.2⟩

lemma bind_map_cursor {ε α : Type*} (x : Except String α) (f : α → Cursor)
    (g : Cursor → Except String ε) : (x.map f).bind g = x.bind fun a => g (f a) := by
  cases x <;> rfl

lemma readsOperator_star : ReadsOperator .star ['*'] := by
  refine ⟨noSpace_of_head rfl _, headAll_cons rfl, fun ruleName fuel nested rest last rule p => ?_⟩
  rw [List.singleton_append, parseSequence]
  exact bind_map_cursor _ _ _

lemma readsOperator_plus : ReadsOperator .plus ['+'] := by
  refine ⟨noSpace_of_head rfl _, headAll_cons rfl, fun ruleName fuel nested rest last rule p => ?_⟩
  rw [List.singleton_append, parseSequence]
  exact bind_map_cursor _ _ _

lemma readsOperator_opt : ReadsOperator .opt ['?'] := by
  refine ⟨noSpace_of_head rfl _, headAll_cons rfl, fun ruleName fuel nested rest last rule p => ?_⟩
  rw [List.singleton_append, parseSequence]
  exact bind_map_cursor _ _ _

lemma parseSequence_braces (ruleName : List Char) (fuel : ℕ) (nested : Bool) (pos : List Char)
    (last : ℕ) (rule : Rule) (p : ParserState) :
    parseSequence ruleName (fuel + 1) nested ⟨'\x7b' :: pos, last, rule, p⟩ =
      (parseBraces nested pos).bind fun r =>
        (handleRepetitions ruleName last r.1 r.2.1 r.2.2 rule p).bind fun r' =>
          parseSequence ruleName fuel nested ⟨r.2.2, last, r'.1, r'.2⟩ := by
  rw [parseSequence]
  have hmap : ∀ r : ℤ × ℤ × List Char, (Cursor.repeat ⟨'\x7b' :: pos, last, rule, p⟩ ruleName r.1
      r.2.1 r.2.2).bind (parseSequence ruleName fuel nested) =
      (handleRepetitions ruleName last r.1 r.2.1 r.2.2 rule p).bind fun r' =>
        parseSequence ruleName fuel nested ⟨r.2.2, last, r'.1, r'.2⟩ := fun r =>
    bind_map_cursor _ _ _
  exact congrArg (Except.bind (parseBraces nested pos)) (funext hmap)

def numeral (n : ℕ) : List Char := Nat.toDigits 10 n

lemma isDigitChar_of_mem_numeral {n : ℕ} {c : Char} (h : c ∈ numeral n) : isDigitChar c = true := by
  have hdigit := Nat.isDigit_of_mem_toDigits (by decide) (by decide) h
  simp only [Char.isDigit, Bool.and_eq_true, decide_eq_true_eq] at hdigit
  simp only [isDigitChar, Bool.and_eq_true, decide_eq_true_eq]
  exact hdigit

lemma digitsValue_numeral (n : ℕ) : digitsValue (numeral n) = n := by
  rw [digitsValue, numeral]
  have h := Nat.ofDigitChars_ten_toDigits (n := n)
  rw [Nat.ofDigitChars_eq_foldl] at h
  simpa only [Nat.mul_comm] using h

lemma parseInt_numeral {n : ℕ} (hn : n < 2 ^ 64) {rest : List Char}
    (hrest : HeadAll (fun c => isDigitChar c = false) rest) :
    parseInt (numeral n ++ rest) = .ok (toInt32 n, rest) := by
  obtain ⟨htake, hdrop⟩ :=
    takeWhile_append_of_head (fun _ hc => isDigitChar_of_mem_numeral (n := n) hc) hrest
  have hvalue := digitsValue_numeral n
  rw [parseInt, htake, hdrop]
  obtain ⟨c, cs, hcs⟩ := List.exists_cons_of_ne_nil (Nat.toDigits_ne_nil (n := n) (b := 10))
  rw [numeral] at hvalue ⊢
  rw [hcs] at hvalue ⊢
  simp only [hvalue, stoul, if_pos hn]
  rfl

lemma noSpace_numeral (n : ℕ) : NoSpace (numeral n) := by
  refine ⟨Nat.toDigits_ne_nil, fun c hc => ?_⟩
  have hdigit := isDigitChar_of_mem_numeral (List.mem_of_mem_head? hc)
  refine isSpaceChar_of_isWordChar ?_
  rw [isWordChar, hdigit, Bool.or_true]

lemma any_head_numeral (n : ℕ) (rest : List Char) :
    (numeral n ++ rest).head?.any isDigitChar = true := by
  obtain ⟨c, cs, hcs⟩ := List.exists_cons_of_ne_nil (Nat.toDigits_ne_nil (n := n) (b := 10))
  have hc : c ∈ numeral n := by
    rw [numeral, hcs]
    exact List.mem_cons_self
  rw [numeral, hcs]
  exact isDigitChar_of_mem_numeral hc

lemma readsOperator_braces {op : RepeatOp} {text : List Char}
    (h : ∀ nested rest, parseBraces nested (text ++ rest) =
      .ok (op.bounds.1, op.bounds.2, parseSpace nested rest)) :
    ReadsOperator op ('\x7b' :: text) := by
  refine ⟨noSpace_of_head rfl _, headAll_cons rfl, fun ruleName fuel nested rest last rule p => ?_⟩
  rw [List.cons_append, parseSequence_braces, h]
  rfl

/-- `{m,n}`. -/
lemma readsOperator_between (m n : ℕ) (hm : m < 2 ^ 64) (hn : n < 2 ^ 64) :
    ReadsOperator (.between m n) ('\x7b' :: (numeral m ++ ',' :: (numeral n ++ ['\x7d']))) := by
  refine readsOperator_braces fun nested rest => ?_
  have hcomma : HeadAll (fun c => isDigitChar c = false) (',' :: (numeral n ++ ['\x7d'] ++ rest)) := headAll_cons rfl
  have hbrace : HeadAll (fun c => isDigitChar c = false) ('\x7d' :: rest) := headAll_cons rfl
  rw [List.append_assoc, List.cons_append, parseBraces, (noSpace_numeral m).append,
    any_head_numeral, parseInt_numeral hm hcomma]
  simp only [Bool.not_true, Bool.false_eq_true, if_false, Except.bind]
  have hspace : parseSpace nested (',' :: (numeral n ++ ['\x7d'] ++ rest)) =
      ',' :: (numeral n ++ ['\x7d'] ++ rest) := parseSpace_of_head (headAll_cons rfl) nested
  rw [hspace]
  simp only [List.append_assoc, (noSpace_numeral n).append, any_head_numeral, if_true]
  rw [List.singleton_append, parseInt_numeral hn hbrace]
  have hspace' : parseSpace nested ('\x7d' :: rest) = '\x7d' :: rest :=
    parseSpace_of_head (headAll_cons rfl) nested
  simp only [Except.map, hspace']
  rfl

/-- `{m,}`. -/
lemma readsOperator_atLeast (m : ℕ) (hm : m < 2 ^ 64) :
    ReadsOperator (.atLeast m) ('\x7b' :: (numeral m ++ [',', '\x7d'])) := by
  refine readsOperator_braces fun nested rest => ?_
  have hcomma : HeadAll (fun c => isDigitChar c = false) (',' :: '\x7d' :: rest) := headAll_cons rfl
  rw [List.append_assoc, List.cons_append, List.singleton_append, parseBraces,
    (noSpace_numeral m).append, any_head_numeral, parseInt_numeral hm hcomma]
  simp only [Bool.not_true, Bool.false_eq_true, if_false, Except.bind]
  have hspace : parseSpace nested (',' :: '\x7d' :: rest) = ',' :: '\x7d' :: rest :=
    parseSpace_of_head (headAll_cons rfl) nested
  have hspace' : parseSpace nested ('\x7d' :: rest) = '\x7d' :: rest :=
    parseSpace_of_head (headAll_cons rfl) nested
  rw [hspace]
  simp only [hspace']
  rfl

/-- `{m}`. -/
lemma readsOperator_exactly (m : ℕ) (hm : m < 2 ^ 64) :
    ReadsOperator (.exactly m) ('\x7b' :: (numeral m ++ ['\x7d'])) := by
  refine readsOperator_braces fun nested rest => ?_
  have hbrace : HeadAll (fun c => isDigitChar c = false) ('\x7d' :: rest) := headAll_cons rfl
  rw [List.append_assoc, List.singleton_append, parseBraces, (noSpace_numeral m).append,
    any_head_numeral, parseInt_numeral hm hbrace]
  simp only [Bool.not_true, Bool.false_eq_true, if_false, Except.bind]
  have hspace : parseSpace nested ('\x7d' :: rest) = '\x7d' :: rest :=
    parseSpace_of_head (headAll_cons rfl) nested
  rw [hspace]
  rfl

lemma Scans.repeat {a text : List Char} {F : Meaning → Language ℕ} {op : RepeatOp}
    (ha : Scans refs true a F) (hop : ReadsOperator op text) (hfits : op.Fits) :
    Scans refs false (a ++ text) fun env => powers (F env) op.counts := by
  intro ruleName nested s rest fuel hpos hrest hfuel
  rw [List.append_assoc] at hpos
  obtain ⟨c, cs, hcs⟩ := List.exists_cons_of_ne_nil hop.noSpace.1
  have hword : HeadAll (fun c => isWordChar c = false) (text ++ rest) := by
    have := hop.noWord
    rw [hcs] at this ⊢
    exact fun d hd => this d hd
  obtain ⟨fuel', last, elems, p', hparse, hfuel', hsymbols, hgrows, hlang, hsingle⟩ :=
    ha ruleName nested s (text ++ rest) fuel hpos hword hfuel
  obtain ⟨rfl, hne⟩ := hsingle rfl
  rw [hop.noSpace.append] at hparse
  obtain ⟨fuel', rfl⟩ : ∃ n, fuel' = n + 1 := ⟨fuel' - 1, by omega⟩
  rw [hop.reads] at hparse
  obtain ⟨elems', p'', hok, hsymbols', hextends, hlang'⟩ := handleRepetitions_spec ruleName s.rule
    hne hsymbols op.bounds.1 op.bounds.2 (parseSpace nested rest) p'
  rw [hok] at hparse
  have hcounts := (RepeatOp.copies_eq_counts_iff op).2 hfits
  refine ⟨fuel', s.rule.length, elems', p'', hparse, ?_, hsymbols', ?_, fun q hq env henv => ?_,
    fun h => nomatch h⟩
  · have hlength : (text ++ rest).length = cs.length + 1 + rest.length := by
      rw [hcs, List.length_append, List.length_cons]
    omega
  · exact hgrows.trans (grows_handleRepetitions hok)
  · rw [hlang' q (hq.right hgrows.toExtends), hcounts, hlang q (hq.left hextends) env henv]

/-! ## Alternates -/

def isStop (c : Char) : Bool := c = '|' || c = ')' || isLineEnd c

lemma parseSequence_stop {pos : List Char} (h : HeadAll (fun c => isStop c = true) pos)
    (ruleName : List Char) (fuel : ℕ) (nested : Bool) (last : ℕ) (rule : Rule) (p : ParserState) :
    parseSequence ruleName (fuel + 1) nested ⟨pos, last, rule, p⟩ = .ok ⟨pos, last, rule, p⟩ := by
  rw [parseSequence]
  cases pos with
  | nil => rfl
  | cons c pos =>
    have hc := h c rfl
    simp only [isStop, isLineEnd, Bool.or_eq_true, decide_eq_true_eq] at hc
    rcases hc with (rfl | rfl) | rfl | rfl <;> rfl

/-- The alternates of a rule or a group end here. -/
structure Closes (nested : Bool) (rest : List Char) : Prop where
  noWord : HeadAll (fun c => isWordChar c = false) rest
  closes : HeadAll (fun c => c = ')' ∨ isLineEnd c = true) (parseSpace nested rest)

lemma Closes.stops {nested : Bool} {rest : List Char} (h : Closes nested rest) :
    HeadAll (fun c => isStop c = true) (parseSpace nested rest) := by
  intro c hc
  rw [isStop]
  rcases h.closes c hc with rfl | hend
  · rfl
  · rw [hend, Bool.or_true]

/-- The symbols of an alternate; there may be none. -/
def Alternate (refs : List Char → Prop) (text : List Char) (F : Meaning → Language ℕ) : Prop :=
  (text = [] ∧ F = fun _ => 1) ∨ (NoSpace text ∧ Scans refs false text F)

lemma alternate_nil : Alternate refs [] fun _ => 1 := .inl ⟨rfl, rfl⟩

lemma Scans.alternate {single : Bool} {text : List Char} {F : Meaning → Language ℕ}
    (h : Scans refs single text F) (hspace : NoSpace text) : Alternate refs text F := by
  cases single with
  | false => exact .inr ⟨hspace, h⟩
  | true => exact .inr ⟨hspace, h.of_single⟩

lemma Alternate.parse {text : List Char} {F : Meaning → Language ℕ} (h : Alternate refs text F)
    {nested : Bool} {tail : List Char} (hword : HeadAll (fun c => isWordChar c = false) tail)
    (hstop : HeadAll (fun c => isStop c = true) (parseSpace nested tail))
    (hempty : text = [] → parseSpace true tail = parseSpace nested tail)
    (ruleName : List Char) {fuel : ℕ} (hfuel : 2 * (text ++ tail).length < fuel) (last : ℕ)
    (rule : Rule) (p : ParserState) :
    ∃ last' elems p', parseSequence ruleName fuel nested
        ⟨parseSpace true (text ++ tail), last, rule, p⟩ =
          .ok ⟨parseSpace nested tail, last', rule ++ elems, p'⟩ ∧
      Symbols elems ∧ p.Grows refs p' ∧
      ∀ q, p.Later p' q → ∀ env, q.Means env → elemsLang q.rules elems = F env := by
  rcases h with ⟨rfl, rfl⟩ | ⟨hspace, h⟩
  · obtain ⟨fuel, rfl⟩ : ∃ n, fuel = n + 1 := ⟨fuel - 1, by omega⟩
    refine ⟨last, [], p, ?_, symbols_nil, .refl p, fun _ _ _ _ => elemsLang_nil⟩
    rw [List.nil_append, hempty rfl, parseSequence_stop hstop, List.append_nil]
  · rw [hspace.append]
    obtain ⟨fuel', last', elems, p', hparse, hfuel', hsymbols, hgrows, hlang, -⟩ :=
      h ruleName nested ⟨text ++ tail, last, rule, p⟩ tail fuel rfl hword hfuel
    obtain ⟨fuel', rfl⟩ : ∃ n, fuel' = n + 1 := ⟨fuel' - 1, by omega⟩
    rw [parseSequence_stop hstop] at hparse
    exact ⟨last', elems, p', hparse, hsymbols, hgrows, hlang⟩

/-- The parser of alternates goes through `text`, behind the first alternate. -/
structure ScansBars (refs : List Char → Prop) (nested : Bool) (text : List Char)
    (F : Meaning → Language ℕ) : Prop where
  noWord : ∀ rest, Closes nested rest → HeadAll (fun c => isWordChar c = false) (text ++ rest)
  stops : ∀ rest, Closes nested rest →
    HeadAll (fun c => isStop c = true) (parseSpace nested (text ++ rest))
  reads : ∀ (ruleName : List Char) (last : ℕ) (rule : Rule) (p : ParserState) (rest : List Char)
    (fuel : ℕ), Closes nested rest → 2 * (text ++ rest).length < fuel →
    ∃ last' more p', parseBars ruleName fuel nested
        ⟨parseSpace nested (text ++ rest), last, rule, p⟩ =
          .ok ⟨parseSpace nested rest, last', rule ++ more, p'⟩ ∧
      p.Grows refs p' ∧
      ∀ q, p.Later p' q → ∀ env, q.Means env → ∀ alt, Plain alt →
        bodyLang q.rules (alt ++ (more ++ [⟨.endRule, 0⟩])) = elemsLang q.rules alt + F env

lemma scansBars_nil (nested : Bool) : ScansBars refs nested [] fun _ => 0 where
  noWord rest hrest := hrest.noWord
  stops rest hrest := hrest.stops
  reads ruleName last rule p rest fuel hrest hfuel := by
    obtain ⟨fuel, rfl⟩ : ∃ n, fuel = n + 1 := ⟨fuel - 1, by omega⟩
    refine ⟨last, [], p, ?_, .refl p, fun q _ env _ alt halt => ?_⟩
    · rw [List.nil_append, List.append_nil, parseBars]
      cases hpos : parseSpace nested rest with
      | nil => rfl
      | cons c pos =>
        have hc := hrest.closes c (by rw [hpos]; rfl)
        have hbar : c ≠ '|' := by
          rintro rfl
          rcases hc with hc | hc <;> exact absurd hc (by decide)
        split
        · rename_i heq
          exact absurd (List.cons.inj heq).1 hbar
        · rfl
    · rw [List.nil_append, bodyLang_end halt, add_zero]

lemma ScansBars.space {nested : Bool} {text : List Char} {F : Meaning → Language ℕ}
    (h : ScansBars refs nested text F) : ScansBars refs nested (' ' :: text) F where
  noWord rest _ := headAll_cons rfl
  stops rest hrest := by
    rw [List.cons_append, parseSpace_space]
    exact h.stops rest hrest
  reads ruleName last rule p rest fuel hrest hfuel := by
    rw [List.cons_append, parseSpace_space]
    refine h.reads ruleName last rule p rest fuel hrest ?_
    simp only [List.cons_append, List.length_cons] at hfuel
    omega

lemma ScansBars.spaces {nested : Bool} {sp text : List Char} {F : Meaning → Language ℕ}
    (h : ScansBars refs nested text F) (hsp : ∀ c ∈ sp, c = ' ') :
    ScansBars refs nested (sp ++ text) F := by
  induction sp with
  | nil => exact h
  | cons c sp ih =>
    obtain rfl := hsp c List.mem_cons_self
    exact (ih fun d hd => hsp d (List.mem_cons_of_mem _ hd)).space

lemma parseSpace_bars {nested : Bool} {bars : List Char}
    (h : nested = true ∨ ∃ n t, bars = List.replicate n ' ' ++ '|' :: t) (rest : List Char) :
    parseSpace true (bars ++ rest) = parseSpace nested (bars ++ rest) := by
  rcases h with rfl | ⟨n, t, rfl⟩
  · rfl
  · have hbar : ∀ nested, parseSpace nested ('|' :: t ++ rest) = '|' :: t ++ rest :=
      parseSpace_of_head (headAll_cons rfl)
    rw [List.append_assoc, parseSpace_spaces, parseSpace_spaces, hbar, hbar]

lemma ScansBars.cons {nested : Bool} {sp text bars : List Char} {F G : Meaning → Language ℕ}
    (hbars : ScansBars refs nested bars G) (htext : Alternate refs text F)
    (hsp : ∀ c ∈ sp, c = ' ')
    (hempty : text = [] → nested = true ∨ ∃ n t, bars = List.replicate n ' ' ++ '|' :: t) :
    ScansBars refs nested ('|' :: (sp ++ text ++ bars)) fun env => F env + G env where
  noWord rest _ := headAll_cons rfl
  stops rest _ := by
    have hspace : parseSpace nested ('|' :: (sp ++ text ++ bars) ++ rest) =
        '|' :: (sp ++ text ++ bars) ++ rest := parseSpace_of_head (headAll_cons rfl) nested
    rw [hspace]
    exact headAll_cons rfl
  reads ruleName last rule p rest fuel hrest hfuel := by
    have hspace : parseSpace nested ('|' :: (sp ++ text ++ bars) ++ rest) =
        '|' :: (sp ++ text ++ bars) ++ rest := parseSpace_of_head (headAll_cons rfl) nested
    obtain ⟨fuel, rfl⟩ : ∃ n, fuel = n + 1 := ⟨fuel - 1, by omega⟩
    have hlength : 2 * (text ++ (bars ++ rest)).length < fuel := by
      simp only [List.cons_append, List.length_cons, List.length_append] at hfuel ⊢
      omega
    obtain ⟨last₁, elems, p₁, hparse₁, hsymbols, hgrows₁, hlang₁⟩ := htext.parse
      (hbars.noWord rest hrest) (hbars.stops rest hrest) (fun hnil => parseSpace_bars (hempty hnil) rest) ruleName hlength
      (rule.length + 1) (rule ++ [⟨.alt, 0⟩]) p
    obtain ⟨last₂, more, p₂, hparse₂, hgrows₂, hlang₂⟩ := hbars.reads ruleName last₁
      (rule ++ [⟨.alt, 0⟩] ++ elems) p₁ rest fuel hrest (by
        rw [List.length_append] at hlength
        omega)
    refine ⟨last₂, ⟨.alt, 0⟩ :: (elems ++ more), p₂, ?_, hgrows₁.trans hgrows₂,
      fun q hq env henv alt halt => ?_⟩
    · rw [hspace, List.cons_append, parseBars]
      simp only [List.append_assoc, parseSpace_of_spaces hsp] at hparse₁ hparse₂ ⊢
      rw [hparse₁]
      simp only [Except.bind]
      rw [hparse₂]
      rfl
    · have hcons : alt ++ (⟨.alt, 0⟩ :: (elems ++ more) ++ [⟨.endRule, 0⟩]) =
          alt ++ ⟨.alt, 0⟩ :: (elems ++ (more ++ [⟨.endRule, 0⟩])) := by
        rw [List.cons_append, List.append_assoc]
      rw [hcons, bodyLang_alt halt, hlang₂ q (hq.right hgrows₁.toExtends) env henv elems
        hsymbols.plain, hlang₁ q (hq.left hgrows₂.toExtends) env henv]

/-- The parser of alternates goes through `text`, which stands for the language `F`. -/
def ScansAlts (refs : List Char → Prop) (nested : Bool) (text : List Char)
    (F : Meaning → Language ℕ) : Prop :=
  ∀ (ruleName : List Char) (ruleId : ℕ) (p : ParserState) (rest : List Char) (fuel : ℕ),
    Closes nested rest → 2 * (text ++ rest).length + 2 ≤ fuel →
    ∃ rule p', parseAlternates ruleName fuel ruleId nested (parseSpace true (text ++ rest)) p =
        .ok (parseSpace nested rest, p'.addRule ruleId rule) ∧
      p.Grows refs p' ∧ rule ≠ [] ∧
      ∀ q, p.Later p' q → ∀ env, q.Means env → bodyLang q.rules rule = F env

lemma Alternate.alts {nested : Bool} {text bars : List Char} {F G : Meaning → Language ℕ}
    (htext : Alternate refs text F) (hbars : ScansBars refs nested bars G)
    (hempty : text = [] → nested = true ∨ ∃ n t, bars = List.replicate n ' ' ++ '|' :: t) :
    ScansAlts refs nested (text ++ bars) fun env => F env + G env := by
  intro ruleName ruleId p rest fuel hrest hfuel
  obtain ⟨fuel, rfl⟩ : ∃ n, fuel = n + 1 := ⟨fuel - 1, by omega⟩
  rw [List.append_assoc] at hfuel
  obtain ⟨last₁, elems, p₁, hparse₁, hsymbols, hgrows₁, hlang₁⟩ := htext.parse
    (hbars.noWord rest hrest) (hbars.stops rest hrest) (fun hnil => parseSpace_bars (hempty hnil) rest)
    ruleName (show 2 * (text ++ (bars ++ rest)).length < fuel by omega) 0 [] p
  obtain ⟨last₂, more, p₂, hparse₂, hgrows₂, hlang₂⟩ := hbars.reads ruleName last₁
    ([] ++ elems) p₁ rest fuel hrest (by
      rw [List.length_append] at hfuel
      omega)
  refine ⟨elems ++ (more ++ [⟨.endRule, 0⟩]), p₂, ?_, hgrows₁.trans hgrows₂, by simp,
    fun q hq env henv => ?_⟩
  · rw [List.append_assoc, parseAlternates, hparse₁]
    simp only [Except.bind]
    rw [hparse₂]
    simp only [Except.map, List.nil_append, List.append_assoc]
  · rw [hlang₂ q (hq.right hgrows₁.toExtends) env henv elems hsymbols.plain,
      hlang₁ q (hq.left hgrows₂.toExtends) env henv]

lemma Alternate.alts_single {nested : Bool} {text : List Char} {F : Meaning → Language ℕ}
    (htext : Alternate refs text F) (hempty : text = [] → nested = true) :
    ScansAlts refs nested text F := by
  have h := htext.alts (scansBars_nil nested) fun hnil => .inl (hempty hnil)
  simpa only [List.append_nil, add_zero] using h

lemma ScansAlts.space {nested : Bool} {text : List Char} {F : Meaning → Language ℕ}
    (h : ScansAlts refs nested text F) : ScansAlts refs nested (' ' :: text) F := by
  intro ruleName ruleId p rest fuel hrest hfuel
  rw [List.cons_append, parseSpace_space]
  refine h ruleName ruleId p rest fuel hrest ?_
  simp only [List.cons_append, List.length_cons] at hfuel
  omega

lemma ScansAlts.spaces {nested : Bool} {sp text : List Char} {F : Meaning → Language ℕ}
    (h : ScansAlts refs nested text F) (hsp : ∀ c ∈ sp, c = ' ') :
    ScansAlts refs nested (sp ++ text) F := by
  induction sp with
  | nil => exact h
  | cons c sp ih =>
    obtain rfl := hsp c List.mem_cons_self
    exact (ih fun d hd => hsp d (List.mem_cons_of_mem _ hd)).space

lemma ScansAlts.space_right {nested : Bool} {text : List Char} {F : Meaning → Language ℕ}
    (h : ScansAlts refs nested text F) : ScansAlts refs nested (text ++ [' ']) F := by
  intro ruleName ruleId p rest fuel hrest hfuel
  rw [List.append_assoc, List.singleton_append] at hfuel ⊢
  have hcloses : Closes nested (' ' :: rest) := by
    refine ⟨headAll_cons rfl, ?_⟩
    rw [parseSpace_space]
    exact hrest.closes
  have := h ruleName ruleId p (' ' :: rest) fuel hcloses hfuel
  rwa [parseSpace_space] at this

/-! ## Groups -/

lemma parseSequence_group {ruleName : List Char} {fuel : ℕ} {nested : Bool} {pos rest : List Char}
    {last : ℕ} {rule : Rule} {p p' : ParserState}
    (h : parseAlternates ruleName fuel p.symbolIds.length true (parseSpace true pos)
      (p.generateSymbolId ruleName).2 = .ok (')' :: rest, p')) :
    parseSequence ruleName (fuel + 1) nested ⟨'(' :: pos, last, rule, p⟩ =
      parseSequence ruleName fuel nested
        ⟨parseSpace nested rest, rule.length, rule ++ [⟨.ruleRef, p.symbolIds.length⟩], p'⟩ := by
  rw [parseSequence]
  show (parseAlternates ruleName fuel p.symbolIds.length true (parseSpace true pos)
    (p.generateSymbolId ruleName).2).bind _ = _
  rw [h]
  rfl

lemma ScansAlts.group {text : List Char} {F : Meaning → Language ℕ}
    (h : ScansAlts refs true text F) : Scans refs true ('(' :: (text ++ [')'])) F := by
  refine scans_of_push fun ruleName nested last rule p rest fuel _ hfuel => ?_
  have hspace : parseSpace true (')' :: rest) = ')' :: rest :=
    parseSpace_of_head (headAll_cons rfl) true
  have hcloses : Closes true (')' :: rest) := by
    refine ⟨headAll_cons rfl, ?_⟩
    rw [hspace]
    rintro c ⟨⟩
    exact .inl rfl
  obtain ⟨body, p', hparse, hgrows, hne, hlang⟩ := h ruleName p.symbolIds.length
    (p.generateSymbolId ruleName).2 (')' :: rest) fuel hcloses (by
      simpa only [List.append_assoc, List.singleton_append] using hfuel)
  obtain ⟨hgrows', hlater⟩ := grows_generated hne hgrows
  refine ⟨[⟨.ruleRef, p.symbolIds.length⟩], p'.addRule p.symbolIds.length body, ?_, symbols_ref _,
    hgrows', fun q hq env henv => ?_, fun _ => List.cons_ne_nil _ _⟩
  · rw [hspace] at hparse
    rw [List.cons_append, List.append_assoc, List.singleton_append, parseSequence_group hparse]
    rfl
  · obtain ⟨hq', hrule⟩ := hlater q hq
    have hlt : p.symbolIds.length < q.rules.length := lt_length_of_getD (by rwa [hrule])
    rw [elemsLang_ref, ruleLang_eq hlt, hrule]
    exact hlang q hq' env henv

end IFairy.LlamaGrammar
