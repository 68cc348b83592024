import IFairy.Grammar.Stacks
import Mathlib.Algebra.Group.Nat.Defs

/-!
# The parser of grammars

`llama_grammar_parser` reads the text of a grammar and gives each rule its elements.  A group and a
repetition become rules of their own, under names that no text can spell, since they have an
underscore.  A text is a list of characters here: it is valid UTF-8 and ends where the list ends.

The source calls itself once for each group; here the calls and the rounds of the loops take a
bound, and `outOfFuel` says that it was not enough.  It is enough when it is more than twice the
length of the text.
-/

namespace IFairy.LlamaGrammar

def outOfFuel : String := "out of fuel"

/-! ## Characters -/

/-- `is_digit_char`. -/
def isDigitChar (c : Char) : Bool := '0' ≤ c && c ≤ '9'

/-- `is_word_char`. -/
def isWordChar (c : Char) : Bool :=
  ('a' ≤ c && c ≤ 'z') || ('A' ≤ c && c ≤ 'Z') || c = '-' || isDigitChar c

/-- The value of a hexadecimal digit. -/
def hexValue (c : Char) : Option ℕ :=
  if 'a' ≤ c && c ≤ 'f' then some (c.toNat - 'a'.toNat + 10)
  else if 'A' ≤ c && c ≤ 'F' then some (c.toNat - 'A'.toNat + 10)
  else if isDigitChar c then some (c.toNat - '0'.toNat)
  else none

/-- The loop of `parse_hex`. -/
def parseHexLoop : ℕ → ℕ → List Char → Option (ℕ × List Char)
  | 0, value, pos => some (value, pos)
  | _ + 1, _, [] => none
  | size + 1, value, c :: pos =>
    match hexValue c with
    | some d => parseHexLoop size (value * 16 + d) pos
    | none => none

/-- `parse_hex`. -/
def parseHex (size : ℕ) (src : List Char) : Except String (ℕ × List Char) :=
  match parseHexLoop size 0 src with
  | some r => .ok r
  | none => .error ("expecting " ++ toString size ++ " hex chars at " ++ String.ofList src)

/-- The escapes of `parse_char` that stand for one character. -/
def simpleEscape (c : Char) : Option Char :=
  if c = 't' then some '\t'
  else if c = 'r' then some '\r'
  else if c = 'n' then some '\n'
  else if c = '\\' || c = '"' || c = '[' || c = ']' then some c
  else none

/-- `parse_char`. -/
def parseChar (src : List Char) : Except String (ℕ × List Char) :=
  match src with
  | [] => .error "unexpected end of input"
  | c :: pos =>
    if c = '\\' then
      match pos with
      | [] => .error ("unknown escape at " ++ String.ofList src)
      | e :: pos =>
        if e = 'x' then parseHex 2 pos
        else if e = 'u' then parseHex 4 pos
        else if e = 'U' then parseHex 8 pos
        else
          match simpleEscape e with
          | some d => .ok (d.toNat, pos)
          | none => .error ("unknown escape at " ++ String.ofList src)
    else .ok (c.toNat, pos)

/-! ## Space, names and numbers -/

def isLineEnd (c : Char) : Bool := c = '\r' || c = '\n'

/-- `parse_space`, outside or inside a comment. -/
def parseSpaceLoop (newlineOk : Bool) : Bool → List Char → List Char
  | _, [] => []
  | comment, c :: pos =>
    if comment && !isLineEnd c then parseSpaceLoop newlineOk true pos
    else if c = ' ' || c = '\t' || (newlineOk && isLineEnd c) then
      parseSpaceLoop newlineOk false pos
    else if c = '#' then parseSpaceLoop newlineOk true pos
    else c :: pos

/-- `parse_space`. -/
def parseSpace (newlineOk : Bool) (src : List Char) : List Char :=
  parseSpaceLoop newlineOk false src

/-- `parse_name`: the name and the text behind it. -/
def parseName (src : List Char) : Except String (List Char × List Char) :=
  match src.takeWhile isWordChar with
  | [] => .error ("expecting name at " ++ String.ofList src)
  | name => .ok (name, src.dropWhile isWordChar)

/-- The value of a sequence of digits. -/
def digitsValue (digits : List Char) : ℕ :=
  digits.foldl (fun value c => value * 10 + (c.toNat - '0'.toNat)) 0

/-- `std::stoul`. -/
def stoul (n : ℕ) : Except String ℕ := if n < 2 ^ 64 then .ok n else .error "stoul"

/-- The conversion of an `unsigned long` to an `int`. -/
@[irreducible] def toInt32 (n : ℕ) : ℤ := Int.bmod n (2 ^ 32)

/-- `parse_int` and `std::stoul`, as an `int`: the value and the text behind the number. -/
def parseInt (src : List Char) : Except String (ℤ × List Char) :=
  match src.takeWhile isDigitChar with
  | [] => .error ("expecting integer at " ++ String.ofList src)
  | digits => (stoul (digitsValue digits)).map fun n => (toInt32 n, src.dropWhile isDigitChar)

/-! ## Symbols and rules -/

/-- The state of `llama_grammar_parser`: the name of each symbol, and the rules. -/
structure ParserState where
  symbolIds : List (List Char)
  rules : Rules
  deriving DecidableEq

namespace ParserState

/-- `get_symbol_id`. -/
def getSymbolId (p : ParserState) (name : List Char) : ℕ × ParserState :=
  if name ∈ p.symbolIds then (p.symbolIds.idxOf name, p)
  else (p.symbolIds.length, { p with symbolIds := p.symbolIds ++ [name] })

/-- The name of a symbol that the parser makes up. -/
def generatedName (baseName : List Char) (id : ℕ) : List Char :=
  baseName ++ '_' :: (toString id).toList

/-- `generate_symbol_id`. -/
def generateSymbolId (p : ParserState) (baseName : List Char) : ℕ × ParserState :=
  (p.symbolIds.length,
    { p with symbolIds := p.symbolIds ++ [generatedName baseName p.symbolIds.length] })

/-- `add_rule`. -/
def addRule (p : ParserState) (ruleId : ℕ) (rule : Rule) : ParserState :=
  { p with
    rules := (p.rules ++ List.replicate (ruleId + 1 - p.rules.length) []).set ruleId rule }

end ParserState

/-! ## Repetitions -/

def optionalRef : Option ℕ → Rule
  | some id => [⟨.ruleRef, id⟩]
  | none => []

/-- `rec_rule`: what is repeated, perhaps a reference, or nothing. -/
def recRule (prevRule : Rule) (ref : Option ℕ) : Rule :=
  prevRule ++ optionalRef ref ++ [⟨.alt, 0⟩, ⟨.endRule, 0⟩]

/-- A round of the loop that adds the rules of a repetition: `last_rec_rule_id`, and the parser. -/
def addRecRule (ruleName : List Char) (prevRule : Rule) (maxTimes : ℤ)
    (s : ℕ × ParserState) (i : ℕ) : ℕ × ParserState :=
  let generated := s.2.generateSymbolId ruleName
  let recRuleId := generated.1
  let ref := if 0 < i ∨ maxTimes < 0 then some (if maxTimes < 0 then recRuleId else s.1) else none
  (recRuleId, generated.2.addRule recRuleId (recRule prevRule ref))

/-- `handle_repetitions`. -/
def handleRepetitions (ruleName : List Char) (lastSymStart : ℕ) (minTimes maxTimes : ℤ)
    (pos : List Char) (rule : Rule) (p : ParserState) : Except String (Rule × ParserState) :=
  if lastSymStart = rule.length then
    .error ("expecting preceding item to */+/?/\x7b at " ++ String.ofList pos)
  else
    let prevRule := rule.drop lastSymStart
    let repeated :=
      if minTimes = 0 then rule.take lastSymStart
      else rule ++ (List.replicate (minTimes - 1).toNat prevRule).flatten
    let nOpt := if maxTimes < 0 then 1 else maxTimes - minTimes
    let added := (List.range nOpt.toNat).foldl (addRecRule ruleName prevRule maxTimes) (0, p)
    .ok (if 0 < nOpt then repeated ++ [⟨.ruleRef, added.1⟩] else repeated, added.2)

/-- The numbers in the braces of a repetition, with `-1` for no upper bound, and the text behind
the braces; `pos` is behind the opening one. -/
def parseBraces (nested : Bool) (pos : List Char) : Except String (ℤ × ℤ × List Char) :=
  let pos := parseSpace nested pos
  if !(pos.head?.any isDigitChar) then .error ("expecting an int at " ++ String.ofList pos)
  else
    (parseInt pos).bind fun (minTimes, intEnd) =>
      match parseSpace nested intEnd with
      | '}' :: pos => .ok (minTimes, minTimes, parseSpace nested pos)
      | ',' :: pos =>
        let pos := parseSpace nested pos
        let upper : Except String (ℤ × List Char) :=
          if pos.head?.any isDigitChar then
            (parseInt pos).map fun (maxTimes, intEnd) => (maxTimes, parseSpace nested intEnd)
          else .ok (-1, pos)
        upper.bind fun (maxTimes, pos) =>
          match pos with
          | '}' :: pos => .ok (minTimes, maxTimes, parseSpace nested pos)
          | pos => .error ("expecting '\x7d' at " ++ String.ofList pos)
      | pos => .error ("expecting ',' at " ++ String.ofList pos)

/-! ## Literals and classes -/

/-- The characters of a literal, up to the closing quote. -/
def parseLiteral : ℕ → List Char → Except String (List ℕ × List Char)
  | 0, _ => .error outOfFuel
  | _ + 1, [] => .error "unexpected end of input"
  | fuel + 1, c :: pos =>
    if c = '"' then .ok ([], pos)
    else
      (parseChar (c :: pos)).bind fun (value, pos) =>
        (parseLiteral fuel pos).map fun (values, pos) => (value :: values, pos)

/-- The elements of a class, up to the closing bracket. -/
def parseClass : ℕ → GreType → List Char → Except String (Rule × List Char)
  | 0, _, _ => .error outOfFuel
  | _ + 1, _, [] => .error "unexpected end of input"
  | fuel + 1, type, c :: pos =>
    if c = ']' then .ok ([], pos)
    else
      (parseChar (c :: pos)).bind fun (value, pos) =>
        match pos with
        | ['-'] => .error "unexpected end of input"
        | '-' :: e :: rest =>
          if e = ']' then
            (parseClass fuel .charAlt pos).map fun (elems, pos) => (⟨type, value⟩ :: elems, pos)
          else
            (parseChar (e :: rest)).bind fun (upper, pos) =>
              (parseClass fuel .charAlt pos).map fun (elems, pos) =>
                (⟨type, value⟩ :: ⟨.charRngUpper, upper⟩ :: elems, pos)
        | pos =>
          (parseClass fuel .charAlt pos).map fun (elems, pos) => (⟨type, value⟩ :: elems, pos)

/-! ## Sequences and alternates -/

/-- Where `parse_sequence` stands: the text, `last_sym_start`, the rule and the parser. -/
structure Cursor where
  pos : List Char
  lastSymStart : ℕ
  rule : Rule
  parser : ParserState

/-- The cursor behind a symbol of the elements `elems`. -/
def Cursor.push (s : Cursor) (pos : List Char) (elems : Rule) (parser : ParserState) : Cursor :=
  ⟨pos, s.rule.length, s.rule ++ elems, parser⟩

/-- The cursor behind a repetition operator. -/
def Cursor.repeat (s : Cursor) (ruleName : List Char) (minTimes maxTimes : ℤ) (pos : List Char) :
    Except String Cursor :=
  (handleRepetitions ruleName s.lastSymStart minTimes maxTimes pos s.rule s.parser).map
    fun (rule, parser) => ⟨pos, s.lastSymStart, rule, parser⟩

mutual

/-- The loop of `parse_sequence`. -/
def parseSequence (ruleName : List Char) : ℕ → Bool → Cursor → Except String Cursor
  | 0, _, _ => .error outOfFuel
  | fuel + 1, nested, s =>
    match s.pos with
    | [] => .ok s
    | c :: pos =>
      if c = '"' then
        (parseLiteral (pos.length + 1) pos).bind fun (values, pos) =>
          parseSequence ruleName fuel nested
            (s.push (parseSpace nested pos) (values.map (⟨.char, ·⟩)) s.parser)
      else if c = '[' then
        let inverse := pos.head? = some '^'
        let pos := if inverse then pos.tail else pos
        (parseClass (pos.length + 1) (if inverse then .charNot else .char) pos).bind
          fun (elems, pos) =>
            parseSequence ruleName fuel nested (s.push (parseSpace nested pos) elems s.parser)
      else if isWordChar c then
        (parseName (c :: pos)).bind fun (name, nameEnd) =>
          let ref := s.parser.getSymbolId name
          parseSequence ruleName fuel nested
            (s.push (parseSpace nested nameEnd) [⟨.ruleRef, ref.1⟩] ref.2)
      else if c = '(' then
        let sub := s.parser.generateSymbolId ruleName
        (parseAlternates ruleName fuel sub.1 true (parseSpace true pos) sub.2).bind
          fun (pos, parser) =>
            match pos with
            | ')' :: pos =>
              parseSequence ruleName fuel nested
                (s.push (parseSpace nested pos) [⟨.ruleRef, sub.1⟩] parser)
            | pos => .error ("expecting ')' at " ++ String.ofList pos)
      else if c = '.' then
        parseSequence ruleName fuel nested
          (s.push (parseSpace nested pos) [⟨.charAny, 0⟩] s.parser)
      else if c = '*' then
        (s.repeat ruleName 0 (-1) (parseSpace nested pos)).bind (parseSequence ruleName fuel nested)
      else if c = '+' then
        (s.repeat ruleName 1 (-1) (parseSpace nested pos)).bind (parseSequence ruleName fuel nested)
      else if c = '?' then
        (s.repeat ruleName 0 1 (parseSpace nested pos)).bind (parseSequence ruleName fuel nested)
      else if c = '{' then
        (parseBraces nested pos).bind fun (minTimes, maxTimes, pos) =>
          (s.repeat ruleName minTimes maxTimes pos).bind (parseSequence ruleName fuel nested)
      else .ok s

/-- The loop of `parse_alternates`, behind an alternate. -/
def parseBars (ruleName : List Char) : ℕ → Bool → Cursor → Except String Cursor
  | 0, _, _ => .error outOfFuel
  | fuel + 1, nested, s =>
    match s.pos with
    | '|' :: pos =>
      (parseSequence ruleName fuel nested
        ⟨parseSpace true pos, s.rule.length + 1, s.rule ++ [⟨.alt, 0⟩], s.parser⟩).bind
        (parseBars ruleName fuel nested)
    | _ => .ok s

/-- `parse_alternates`: the text behind the alternates, and the parser. -/
def parseAlternates (ruleName : List Char) :
    ℕ → ℕ → Bool → List Char → ParserState → Except String (List Char × ParserState)
  | 0, _, _, _, _ => .error outOfFuel
  | fuel + 1, ruleId, nested, src, p =>
    (parseSequence ruleName fuel nested ⟨src, 0, [], p⟩).bind fun s =>
      (parseBars ruleName fuel nested s).map fun s =>
        (s.pos, s.parser.addRule ruleId (s.rule ++ [⟨.endRule, 0⟩]))

end

/-! ## Grammars -/

/-- `parse_rule`. -/
def parseRule (src : List Char) (p : ParserState) : Except String (List Char × ParserState) :=
  (parseName src).bind fun (name, nameEnd) =>
    let id := p.getSymbolId name
    match parseSpace false nameEnd with
    | ':' :: ':' :: '=' :: pos =>
      (parseAlternates name (2 * pos.length + 2) id.1 false (parseSpace true pos) id.2).bind
        fun (pos, p) =>
          match pos with
          | [] => .ok ([], p)
          | '\r' :: '\n' :: pos => .ok (parseSpace true pos, p)
          | '\r' :: pos => .ok (parseSpace true pos, p)
          | '\n' :: pos => .ok (parseSpace true pos, p)
          | pos => .error ("expecting newline or end at " ++ String.ofList pos)
    | pos => .error ("expecting ::= at " ++ String.ofList pos)

/-- The loop of `parse` over the rules. -/
def parseRules : ℕ → List Char → ParserState → Except String ParserState
  | 0, _, _ => .error outOfFuel
  | fuel + 1, src, p =>
    match src with
    | [] => .ok p
    | src => (parseRule src p).bind fun (pos, p) => parseRules fuel pos p

/-- The references that `parse` rejects. -/
def ParserState.undefinedRef (p : ParserState) (e : GrammarElement) : Bool :=
  e.type = .ruleRef && (p.rules.getD e.value []).isEmpty && decide (e.value < p.symbolIds.length)

/-- `parse`: the rules, or none after an exception. -/
def parseGrammar (src : List Char) : Option ParserState :=
  let src := parseSpace true src
  match parseRules (src.length + 1) src ⟨[], []⟩ with
  | .error _ => none
  | .ok p =>
    if p.rules.any (·.isEmpty) || p.rules.any (·.any p.undefinedRef) then none else some p

end IFairy.LlamaGrammar
