import IFairy.Chat.RegexPartial
import IFairy.Framework.KeyedMaps
import IFairy.Json.PatternItems

/-!
# When a partial match is the longest one

For a pattern that is one sequence (`Plain`) the reversed regular expression matches the beginnings
of what the pattern matches, the longest first, so the search finds the longest end of the input
that is one (`search_right`).  A group that more follows is opened where it stands, and then also
what is no beginning is taken for one (`not_searchRight_abd`).
-/

namespace IFairy.Chat

open JsonSchema LlamaGrammar

/-! ## Patterns -/

/-- The quantifiers. -/
inductive Quantifier where
  | one
  | opt
  | star
  | plus
  | exactly (m : ℕ)
  | atLeast (m : ℕ)
  | between (m n : ℕ)

namespace Quantifier

def text : Quantifier → List Char
  | one => []
  | opt => ['?']
  | star => ['*']
  | plus => ['+']
  | exactly m => '\x7b' :: (numeral m ++ ['\x7d'])
  | atLeast m => '\x7b' :: (numeral m ++ [',', '\x7d'])
  | between m n => '\x7b' :: (numeral m ++ ',' :: numeral n ++ ['\x7d'])

/-- The repetitions that a quantifier stands for, one after the other. -/
def repetitions : Quantifier → List Repetition
  | one => [.one]
  | opt => [.opt]
  | star => [.star]
  | plus => [.plus]
  | exactly m => List.replicate m .one
  | atLeast m => List.replicate m .one ++ [.star]
  | between m n => List.replicate m .one ++ List.replicate (n - m) .opt

/-- The regular expression with a quantifier. -/
def regex (q : Quantifier) (r : Regex Char) : Regex Char :=
  match q with
  | one => r
  | q => Regex.sequence (q.repetitions.map fun rep => rep.regex r)

/-- The steps of a class with a quantifier. -/
def steps (q : Quantifier) (cls : Char → Bool) : List (Step Char) :=
  q.repetitions.map fun rep => ⟨cls, rep⟩

/-- The numbers of a quantifier are those of an `int`, and in order. -/
def Fits : Quantifier → Prop
  | exactly m => m < 2 ^ 31
  | atLeast m => m < 2 ^ 31
  | between m n => m ≤ n ∧ n < 2 ^ 31
  | _ => True

end Quantifier

/-- A pattern: a single character, an escape or a class by its text, or a group, each with a
quantifier, and sequences and alternatives of patterns. -/
inductive Pattern where
  | single (text : List Char) (q : Quantifier)
  | group (nonCapturing : Bool) (p : Pattern) (q : Quantifier)
  | seq (p p' : Pattern)
  | alt (p p' : Pattern)

namespace Pattern

def text : Pattern → List Char
  | single text q => text ++ q.text
  | group nonCapturing p q =>
    '(' :: ((if nonCapturing then ['?', ':'] else []) ++ p.text ++ ')' :: q.text)
  | seq p p' => p.text ++ p'.text
  | alt p p' => p.text ++ '|' :: p'.text

/-- The regular expression of a pattern. -/
def regex (charMatches : CharMatches) : Pattern → Regex Char
  | single text q => q.regex (.symbol (charMatches text))
  | group _ p q => q.regex (p.regex charMatches)
  | seq p p' => .seq (p.regex charMatches) (p'.regex charMatches)
  | alt p p' => .alt (p.regex charMatches) (p'.regex charMatches)

end Pattern

/-- A character that stands for itself or for any one. -/
def isPlainChar (c : Char) : Bool :=
  !(c ∈ ['[', '*', '?', '+', '\x7b', '(', ')', '|', '\\'])

/-- The texts of single characters: a character, an escape, or a class. -/
inductive SingleText : List Char → Prop where
  | char {c : Char} (hc : isPlainChar c = true) : SingleText [c]
  | escape (c : Char) : SingleText ['\\', c]
  | cls {body : List Char} (hbody : ∀ rest, scanClass (body ++ rest) = some (body, rest)) :
    SingleText ('[' :: body)

/-- A character, an escape or a class that matches something, perhaps in brackets of its own. -/
structure IsItem (charMatches : CharMatches) (p : Pattern) (text : List Char) (q : Quantifier) :
    Prop where
  single : SingleText text
  cls_ne : ∃ c, charMatches text c = true
  fits : q.Fits
  eq : p = .single text q ∨ ∃ nonCapturing, p = .group nonCapturing (.single text .one) q

/-- A single sequence of such items, perhaps with a group at its end that is one; it consists of
the steps. -/
inductive Plain (charMatches : CharMatches) : Pattern → List (Step Char) → Prop where
  | item {p : Pattern} {text : List Char} {q : Quantifier} (h : IsItem charMatches p text q) :
    Plain charMatches p (q.steps (charMatches text))
  | tail {nonCapturing : Bool} {p : Pattern} {steps : List (Step Char)}
    (hp : Plain charMatches p steps) (hne : steps ≠ []) :
    Plain charMatches (.group nonCapturing p .one) steps
  | seq {p p' : Pattern} {text : List Char} {q : Quantifier} {steps : List (Step Char)}
    (h : IsItem charMatches p text q) (hp : Plain charMatches p' steps) :
    Plain charMatches (.seq p p') (q.steps (charMatches text) ++ steps)

/-! ## What is read -/

/-- The parts that a quantifier makes of an atom. -/
def Quantifier.parts (q : Quantifier) (r : Regex Char) : List Part :=
  match q with
  | .one => [⟨r, []⟩]
  | .opt => [⟨r, ['?']⟩]
  | .star => [⟨r, ['*']⟩]
  | .plus => [⟨r, ['+']⟩]
  | .exactly m => List.replicate m ⟨r, []⟩
  | .atLeast m => List.replicate m ⟨r, []⟩ ++ [⟨r, ['*']⟩]
  | .between m n => List.replicate m ⟨r, []⟩ ++ List.replicate (n - m) ⟨r, ['?']⟩

lemma mapM_regex_replicate (n : ℕ) {part : Part} {r : Regex Char} (h : part.regex = some r) :
    (List.replicate n part).mapM Part.regex = some (List.replicate n r) := by
  rw [mapM_eq_some (g := fun _ => r) fun a ha => by rw [List.eq_of_mem_replicate ha, h],
    List.map_replicate]

lemma mapM_regex_parts (q : Quantifier) (cls : Char → Bool) :
    (q.parts (.symbol cls)).mapM Part.regex = some ((q.steps cls).map Step.regex) := by
  cases q with
  | one => rfl
  | opt => rfl
  | star => rfl
  | plus => rfl
  | exactly m =>
    rw [Quantifier.parts, mapM_regex_replicate m rfl, Quantifier.steps, Quantifier.repetitions,
      List.map_replicate, List.map_replicate]
    rfl
  | atLeast m =>
    rw [Quantifier.parts, List.mapM_append, mapM_regex_replicate m rfl, Quantifier.steps,
      Quantifier.repetitions, List.map_append, List.map_append, List.map_replicate,
      List.map_replicate]
    rfl
  | between m n =>
    rw [Quantifier.parts, List.mapM_append, mapM_regex_replicate m rfl,
      mapM_regex_replicate (n - m) rfl, Quantifier.steps, Quantifier.repetitions, List.map_append,
      List.map_append, List.map_replicate, List.map_replicate, List.map_replicate,
      List.map_replicate]
    rfl

variable {charMatches : CharMatches}

/-- Reading a text adds the parts to the sequence, and enough fuel is left for the rest. -/
def Reads (charMatches : CharMatches) (text : List Char) (parts : List Part) (rest : List Char) :
    Prop :=
  ∀ fuel alternatives sequence, (text ++ rest).length < fuel → ∃ fuel', rest.length < fuel' ∧
    processLoop charMatches fuel (text ++ rest) alternatives sequence =
      processLoop charMatches fuel' rest alternatives (sequence ++ parts)

lemma reads_single {text : List Char} (h : SingleText text) (rest : List Char) :
    Reads charMatches text [⟨.symbol (charMatches text), []⟩] rest := by
  rintro (- | fuel) alternatives sequence hfuel
  · exact absurd hfuel (Nat.not_lt_zero _)
  refine ⟨fuel, ?_, ?_⟩
  · cases h with
    | char _ => simpa using hfuel
    | escape c =>
      simp only [List.cons_append, List.nil_append, List.length_cons] at hfuel
      omega
    | cls _ =>
      simp only [List.cons_append, List.length_cons, List.length_append] at hfuel
      omega
  · cases h with
    | @char c hc =>
      simp only [isPlainChar, List.mem_cons, List.not_mem_nil, or_false, Bool.not_eq_true',
        decide_eq_false_iff_not, not_or] at hc
      obtain ⟨h1, h2, h3, h4, h5, h6, h7, h8, h9⟩ := hc
      rw [List.singleton_append, processLoop, if_neg h1, if_neg (by simp [h2, h3, h4]), if_neg h5,
        if_neg h6, if_neg h7, if_neg h8, if_neg h9]
    | escape c => rfl
    | cls hbody =>
      rw [List.cons_append, processLoop, if_pos rfl, hbody rest, Option.bind_some]

lemma processLoop_braces {inner : List Char} (hinner : '\x7d' ∉ inner) (part : Part) (fuel : ℕ)
    (rest : List Char) (alternatives : List (List Part)) (sequence : List Part) :
    processLoop charMatches (fuel + 1) ('\x7b' :: (inner ++ '\x7d' :: rest)) alternatives
        (sequence ++ [part]) =
      (parseRange (inner.splitOn ',')).bind fun range =>
        processLoop charMatches fuel rest alternatives
          (sequence ++ repeatPart part range.1 range.2) := by
  have hall : ∀ c ∈ inner, decide (c ≠ '\x7d') = true := fun c hc =>
    decide_eq_true fun heq => hinner (heq ▸ hc)
  have htake : (inner ++ '\x7d' :: rest).takeWhile (fun c => decide (c ≠ '\x7d')) = inner := by
    rw [List.takeWhile_append_of_pos hall]
    simp
  have hdrop : (inner ++ '\x7d' :: rest).dropWhile (fun c => decide (c ≠ '\x7d')) =
      '\x7d' :: rest := by
    rw [List.dropWhile_append_of_pos hall]
    simp
  rw [processLoop, if_neg (by decide), if_neg (by decide), if_pos rfl, List.getLast?_concat,
    Option.bind_some, if_pos (List.mem_append_right _ List.mem_cons_self), htake, hdrop,
    List.dropLast_concat, List.tail_cons]

lemma parseOptInt_numeral {m : ℕ} (hm : m < 2 ^ 31) (default : Option ℤ) :
    parseOptInt (numeral m) default = some (some (m : ℤ)) := by
  rw [parseOptInt, if_neg (numeral_ne_nil m), stoi_numeral hm]
  rfl

lemma parseRange_exactly {m : ℕ} (hm : m < 2 ^ 31) :
    parseRange [numeral m] = some ((m : ℤ), some (m : ℤ)) := by
  have hmin := parseOptInt_numeral hm (some 0)
  rw [parseRange]
  simp [hmin]

lemma parseRange_atLeast {m : ℕ} (hm : m < 2 ^ 31) :
    parseRange [numeral m, []] = some ((m : ℤ), none) := by
  have hmin := parseOptInt_numeral hm (some 0)
  have hmax : parseOptInt [] none = some none := rfl
  rw [parseRange]
  simp [hmin, hmax]

lemma parseRange_between {m n : ℕ} (hmn : m ≤ n) (hn : n < 2 ^ 31) :
    parseRange [numeral m, numeral n] = some ((m : ℤ), some (n : ℤ)) := by
  have hmin := parseOptInt_numeral (hmn.trans_lt hn) (some 0)
  have hmax := parseOptInt_numeral hn none
  rw [parseRange]
  simp [hmin, hmax, hmn]

lemma exists_processLoop_quantifier {q : Quantifier} (hq : q.Fits) (r : Regex Char)
    {rest : List Char} (hrest : rest.head? ≠ some '?') {fuel : ℕ}
    (hfuel : (q.text ++ rest).length < fuel) (alternatives : List (List Part))
    (sequence : List Part) : ∃ fuel', rest.length < fuel' ∧
      processLoop charMatches fuel (q.text ++ rest) alternatives (sequence ++ [⟨r, []⟩]) =
        processLoop charMatches fuel' rest alternatives (sequence ++ q.parts r) := by
  rw [List.length_append] at hfuel
  obtain _ | fuel := fuel
  · exact absurd hfuel (Nat.not_lt_zero _)
  have hsymbol : ∀ c : Char, c = '*' ∨ c = '?' ∨ c = '+' → c ≠ '[' →
      processLoop charMatches (fuel + 1) (c :: rest) alternatives (sequence ++ [⟨r, []⟩]) =
        processLoop charMatches fuel rest alternatives (sequence ++ [⟨r, [c]⟩]) := by
    intro c hc hne
    rw [processLoop, if_neg hne, if_pos hc, List.getLast?_concat, Option.bind_some,
      if_neg (fun h => hrest h.2), List.dropLast_concat]
    rfl
  have hfuel' : q.text ≠ [] → rest.length < fuel := by
    intro hne
    have hpos := List.length_pos_iff.2 hne
    omega
  cases q with
  | one => exact ⟨fuel + 1, by omega, rfl⟩
  | opt => exact ⟨fuel, hfuel' (List.cons_ne_nil _ _), hsymbol '?' (by simp) (by decide)⟩
  | star => exact ⟨fuel, hfuel' (List.cons_ne_nil _ _), hsymbol '*' (by simp) (by decide)⟩
  | plus => exact ⟨fuel, hfuel' (List.cons_ne_nil _ _), hsymbol '+' (by simp) (by decide)⟩
  | exactly m =>
    refine ⟨fuel, hfuel' (List.cons_ne_nil _ _), ?_⟩
    have hbraces := @processLoop_braces charMatches _ (brace_not_mem_numeral m)
      ⟨r, []⟩ fuel rest alternatives sequence
    rw [splitOn_single (comma_not_mem_numeral m), parseRange_exactly hq, Option.bind_some] at hbraces
    rw [Quantifier.text, List.cons_append, List.append_assoc, List.singleton_append, hbraces,
      repeatPart]
    simp [Quantifier.parts]
  | atLeast m =>
    refine ⟨fuel, hfuel' (List.cons_ne_nil _ _), ?_⟩
    have hbraces := @processLoop_braces charMatches (numeral m ++ [','])
      (by simp [brace_not_mem_numeral]) ⟨r, []⟩ fuel rest alternatives sequence
    rw [splitOn_pair (comma_not_mem_numeral m) List.not_mem_nil, parseRange_atLeast hq,
      Option.bind_some] at hbraces
    rw [Quantifier.text, List.cons_append, List.append_assoc]
    rw [List.append_assoc] at hbraces
    refine hbraces.trans ?_
    rw [repeatPart]
    simp [Quantifier.parts]
  | between m n =>
    refine ⟨fuel, hfuel' (List.cons_ne_nil _ _), ?_⟩
    have hbraces := @processLoop_braces charMatches
      (numeral m ++ ',' :: numeral n)
      (by simp [brace_not_mem_numeral]) ⟨r, []⟩ fuel rest alternatives sequence
    rw [splitOn_pair (comma_not_mem_numeral m) (comma_not_mem_numeral n),
      parseRange_between hq.1 hq.2, Option.bind_some] at hbraces
    rw [Quantifier.text, List.cons_append, List.append_assoc _ ['\x7d']]
    refine hbraces.trans ?_
    rw [repeatPart, Int.toNat_natCast]
    simp [Quantifier.parts]

/-- The parts have the regular expressions of the steps, those of a group at the end together. -/
structure Opens (parts : List Part) (steps : List (Step Char)) : Prop where
  exists_regexes : ∃ rs, parts.mapM Part.regex = some rs ∧
    ∀ front, Regex.backward (front ++ rs) = Regex.backward (front ++ steps.map Step.regex)
  eq_nil_iff : parts = [] ↔ steps = []

lemma Opens.openTails {parts : List Part} {steps : List (Step Char)} (h : Opens parts steps)
    (hne : steps ≠ []) : openTails parts = some (Regex.backward (steps.map Step.regex)) := by
  obtain ⟨rs, hrs, hbackward⟩ := h.exists_regexes
  rw [Chat.openTails, if_neg (mt h.eq_nil_iff.1 hne), hrs]
  exact congrArg some (hbackward [])

lemma parts_eq_nil_iff (q : Quantifier) (r : Regex Char) (cls : Char → Bool) :
    q.parts r = [] ↔ q.steps cls = [] := by
  cases q <;> simp [Quantifier.parts, Quantifier.steps, Quantifier.repetitions]

lemma Opens.append {q : Quantifier} {cls : Char → Bool} {parts : List Part}
    {steps : List (Step Char)} (h : Opens parts steps) :
    Opens (q.parts (.symbol cls) ++ parts) (q.steps cls ++ steps) := by
  obtain ⟨rs, hrs, hbackward⟩ := h.exists_regexes
  refine ⟨⟨(q.steps cls).map Step.regex ++ rs, ?_, fun front => ?_⟩, ?_⟩
  · rw [List.mapM_append, mapM_regex_parts, hrs]
    rfl
  · rw [← List.append_assoc, hbackward, List.map_append, List.append_assoc]
  · rw [List.append_eq_nil_iff, List.append_eq_nil_iff, parts_eq_nil_iff q _ cls, h.eq_nil_iff]

/-- The text does not begin with a question mark. -/
def HeadOk (text : List Char) : Prop := ∃ c rest, text = c :: rest ∧ c ≠ '?'

lemma HeadOk.append {text : List Char} (h : HeadOk text) (rest : List Char) :
    HeadOk (text ++ rest) := by
  obtain ⟨c, rest', rfl, hc⟩ := h
  exact ⟨c, rest' ++ rest, rfl, hc⟩

lemma HeadOk.head? {text : List Char} (h : HeadOk text) : text.head? ≠ some '?' := by
  obtain ⟨c, rest, rfl, hc⟩ := h
  exact fun heq => hc (Option.some.inj heq)

lemma SingleText.headOk {text : List Char} (h : SingleText text) : HeadOk text := by
  cases h with
  | @char c hc =>
    refine ⟨c, [], rfl, ?_⟩
    rintro rfl
    exact absurd hc (by decide)
  | escape c => exact ⟨_, _, rfl, by decide⟩
  | cls _ => exact ⟨_, _, rfl, by decide⟩

lemma processLoop_group {inner : List Char} (hhead : HeadOk inner) {parts : List Part}
    {rest : List Char} (hreads : Reads charMatches inner parts (')' :: rest)) {r : Regex Char}
    (hr : openTails parts = some r) (nonCapturing : Bool) {fuel : ℕ}
    (hfuel : (inner ++ ')' :: rest).length < fuel) (alternatives : List (List Part))
    (sequence : List Part) :
    processLoop charMatches (fuel + 1)
        ('(' :: ((if nonCapturing then ['?', ':'] else []) ++ (inner ++ ')' :: rest)))
        alternatives sequence =
      processLoop charMatches fuel rest alternatives (sequence ++ [⟨r, []⟩]) := by
  have hinner : (if ((if nonCapturing then ['?', ':'] else []) ++ (inner ++ ')' :: rest)).take 2 =
      ['?', ':'] then ((if nonCapturing then ['?', ':'] else []) ++ (inner ++ ')' :: rest)).drop 2
      else (if nonCapturing then ['?', ':'] else []) ++ (inner ++ ')' :: rest)) =
        inner ++ ')' :: rest := by
    rcases nonCapturing with - | -
    · obtain ⟨c, inner', rfl, hc⟩ := hhead
      rw [if_neg Bool.false_ne_true, List.nil_append, List.cons_append, if_neg]
      intro heq
      rw [List.take_succ_cons] at heq
      exact hc (List.cons.inj heq).1
    · rfl
  obtain ⟨fuel', hfuel', hread⟩ := hreads fuel [] [] hfuel
  obtain _ | fuel' := fuel'
  · exact absurd hfuel' (Nat.not_lt_zero _)
  have hend : processLoop charMatches (fuel' + 1) (')' :: rest) [] ([] ++ parts) =
      some ([parts], ')' :: rest) := by
    rw [processLoop, if_neg (by decide), if_neg (by decide), if_neg (by decide),
      if_neg (by decide), if_pos rfl]
    rfl
  have hsub : reverseAlternatives [parts] = some r := by
    rw [reverseAlternatives, List.mapM_cons, hr]
    rfl
  rw [processLoop, if_neg (by decide), if_neg (by decide), if_neg (by decide), if_pos rfl, hinner,
    hread, hend, Option.bind_some, hsub, Option.bind_some]
  exact if_pos rfl

lemma IsItem.reads {p : Pattern} {text : List Char} {q : Quantifier}
    (h : IsItem charMatches p text q) :
    HeadOk p.text ∧ ∀ rest : List Char, rest.head? ≠ some '?' →
      Reads charMatches p.text (q.parts (.symbol (charMatches text))) rest := by
  have hhead := h.single.headOk
  rcases h.eq with rfl | ⟨nonCapturing, rfl⟩
  · refine ⟨hhead.append _, fun rest hrest fuel alternatives sequence hfuel => ?_⟩
    rw [Pattern.text, List.append_assoc] at hfuel ⊢
    obtain ⟨fuel', hfuel', hread⟩ := reads_single h.single (q.text ++ rest) fuel alternatives
      sequence hfuel
    rw [hread]
    exact exists_processLoop_quantifier h.fits _ hrest hfuel' alternatives sequence
  · refine ⟨⟨'(', _, rfl, by decide⟩, fun rest hrest fuel alternatives sequence hfuel => ?_⟩
    obtain _ | fuel := fuel
    · exact absurd hfuel (Nat.not_lt_zero _)
    have htext : (Pattern.group nonCapturing (.single text .one) q).text ++ rest =
        '(' :: ((if nonCapturing then ['?', ':'] else []) ++ (text ++ ')' :: (q.text ++ rest))) := by
      simp [Pattern.text, Quantifier.text]
    have hlength : (text ++ ')' :: (q.text ++ rest)).length < fuel := by
      rw [htext, List.length_cons, List.length_append] at hfuel
      omega
    have hopen : openTails [⟨.symbol (charMatches text), []⟩] =
        some (.symbol (charMatches text)) := rfl
    rw [htext, processLoop_group hhead (reads_single h.single _) hopen nonCapturing hlength]
    rw [List.length_append, List.length_cons] at hlength
    exact exists_processLoop_quantifier h.fits _ hrest (by omega) alternatives sequence

end IFairy.Chat
