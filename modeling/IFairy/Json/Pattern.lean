import IFairy.Json.IntegerRange
import IFairy.Json.RuleMap

/-!
# Patterns as rules

`_visit_pattern`: a regular expression between `^` and `$` becomes a rule.  One loop goes through the
characters and collects literals and texts of rules (`transform`); a literal goes on as long as no
operator follows, and an operator takes the last thing that was collected.
-/

namespace IFairy.JsonSchema

open LlamaGrammar

/-! ## Repetitions -/

/-- `std::to_string`. -/
def intNumeral : ℤ → List Char
  | .ofNat n => numeral n
  | .negSucc n => '-' :: numeral (n + 1)

/-- `build_repetition` without a separator. -/
def repeatItem (itemRule : List Char) (minItems maxItems : ℤ) : List Char :=
  if maxItems = 0 then []
  else if minItems = 0 ∧ maxItems = 1 then itemRule ++ ['?']
  else if minItems = 1 ∧ maxItems = intMax then itemRule ++ ['+']
  else if minItems = 0 ∧ maxItems = intMax then itemRule ++ ['*']
  else
    itemRule ++ '\x7b' :: (intNumeral minItems ++ ',' ::
      ((if maxItems = intMax then [] else intNumeral maxItems) ++ ['\x7d']))

/-- `build_repetition`. -/
def buildRepetition (itemRule : List Char) (minItems maxItems : ℤ) (separatorRule : List Char) :
    List Char :=
  if separatorRule = [] ∨ maxItems = 0 ∨ (minItems = 0 ∧ maxItems = 1) then
    repeatItem itemRule minItems maxItems
  else
    let result := itemRule ++ ' ' :: repeatItem ('(' :: (separatorRule ++ ' ' :: itemRule ++ [')']))
      (if minItems = 0 then 0 else minItems - 1)
      (if maxItems = intMax then maxItems else maxItems - 1)
    if minItems = 0 then '(' :: (result ++ [')', '?']) else result

/-! ## Numbers in curly brackets -/

/-- What `std::stoi` throws. -/
inductive StoiError where
  | invalidArgument
  | outOfRange
  deriving DecidableEq

/-- `std::isspace`. -/
def isSpace (c : Char) : Bool := c = ' ' || (9 ≤ c.toNat && c.toNat ≤ 13)

/-- `std::stoi`. -/
def stoi (text : List Char) : Except StoiError ℤ :=
  let text := text.dropWhile isSpace
  let negative : Bool := text.head? = some '-'
  let text := if negative ∨ text.head? = some '+' then text.tail else text
  let digits := text.takeWhile isDigitChar
  if digits = [] then .error .invalidArgument
  else
    let value : ℤ := if negative then -(digitsValue digits : ℤ) else digitsValue digits
    if -2 ^ 31 ≤ value ∧ value ≤ intMax then .ok value else .error .outOfRange

/-- `min_times` and `max_times`, and whether the number of values is wrong. -/
def parseTimes : List (List Char) → Except StoiError (ℤ × ℤ × Bool)
  | [num] => (stoi num).map fun n => (n, n, false)
  | [low, high] =>
    (if low = [] then .ok 0 else stoi low).bind fun m =>
      (if high = [] then .ok intMax else stoi high).map fun n => (m, n, false)
  | _ => .ok (0, intMax, true)

/-! ## Literals and brackets -/

/-- `NON_LITERAL_SET`. -/
def isNonLiteral (c : Char) : Bool := c ∈ ['|', '.', '(', ')', '[', ']', '\x7b', '\x7d', '*', '+', '?']

/-- `ESCAPED_IN_REGEXPS_BUT_NOT_IN_LITERALS`. -/
def isEscapedInRegexps (c : Char) : Bool :=
  c ∈ ['^', '$', '.', '[', ']', '(', ')', '|', '\x7b', '\x7d', '*', '+', '?']

/-- The loop that goes on with a literal, and what it leaves. -/
def readLiteral (literal : List Char) : List Char → List Char × List Char
  | [] => (literal, [])
  | [c] =>
    if c = '"' then (literal ++ ['\\', '"'], [])
    else if isNonLiteral c then (literal, [c])
    else (literal ++ [c], [])
  | c :: next :: rest =>
    if c = '\\' then
      if isEscapedInRegexps next then readLiteral (literal ++ [next]) rest
      else readLiteral (literal ++ [c, next]) rest
    else if c = '"' then readLiteral (literal ++ ['\\', '"']) (next :: rest)
    else if !isNonLiteral c && (literal.isEmpty || next = '.' || !isNonLiteral next) then
      readLiteral (literal ++ [c]) (next :: rest)
    else (literal, c :: next :: rest)

/-- The loop over a class, what it leaves, and whether the class is closed. -/
def readBrackets : List Char → List Char × List Char × Bool
  | [] => ([], [], false)
  | [c] => if c = ']' then ([], [], true) else ([c], [], false)
  | c :: next :: rest =>
    if c = ']' then ([], next :: rest, true)
    else if c = '\\' then
      let r := readBrackets rest
      (c :: next :: r.1, r.2)
    else
      let r := readBrackets (next :: rest)
      (c :: r.1, r.2)

/-! ## Sequences -/

/-- `literal_or_rule`: a text, and whether it is a literal. -/
abbrev LiteralOrRule := List Char × Bool

/-- `to_rule`. -/
def toRule (ls : LiteralOrRule) : List Char := if ls.2 then '"' :: (ls.1 ++ ['"']) else ls.1

/-- `flush_literal`. -/
def flushLiteral (literal : List Char) : List LiteralOrRule :=
  if literal = [] then [] else [(literal, true)]

/-- The loop of `join_seq`, with the literal so far. -/
def mergeFrom (literal : List Char) : List LiteralOrRule → List LiteralOrRule
  | [] => flushLiteral literal
  | (s, true) :: seq => mergeFrom (literal ++ s) seq
  | (s, false) :: seq => flushLiteral literal ++ (s, false) :: mergeFrom [] seq

/-- `join_seq`: consecutive literals are merged. -/
def joinSeq (seq : List LiteralOrRule) : LiteralOrRule :=
  (List.intercalate [' '] ((mergeFrom [] seq).map toRule), false)

/-! ## The loop -/

/-- What `transform` works on: the rest of the pattern, and what the converter has so far. -/
structure PatternState where
  rest : List Char
  rules : RuleMap
  subRuleIds : List (List Char × List Char)
  errors : List String
  warnings : List String

namespace PatternState

def fail (s : PatternState) (message : String) : PatternState :=
  { s with errors := s.errors ++ [message] }

/-- The name of the rule for a text, which is added if there is none. -/
def subRule (s : PatternState) (name text : List Char) : List Char × PatternState :=
  match s.subRuleIds.lookup text with
  | some id => (id, s)
  | none =>
    let r := addRule s.rules (name ++ '-' :: numeral (s.subRuleIds.length + 1)) text
    (r.1, { s with rules := r.2, subRuleIds := (text, r.1) :: s.subRuleIds })

end PatternState

/-- `get_dot`. -/
def getDot (dotall : Bool) (rules : RuleMap) : List Char × RuleMap :=
  addRule rules "dot".toList
    (if dotall then "[\\U00000000-\\U0010FFFF]".toList else "[^\\x0A\\x0D]".toList)

/-- Curly brackets behind the last item of `seq`; `none` if there is no item, or the program ends. -/
def repeatBack (name times : List Char) (seq : List LiteralOrRule) (s : PatternState) :
    Option (Option (List LiteralOrRule) × PatternState) :=
  match parseTimes (times.splitOn ',') with
  | .error .outOfRange => none
  | .error .invalidArgument => some (none, s.fail "Invalid number in curly brackets")
  | .ok (minTimes, maxTimes, wrong) =>
    let s := if wrong then s.fail "Wrong number of values in curly brackets" else s
    match seq.getLast? with
    | none => none
    | some last =>
      if last.2 then
        some (some (seq.dropLast ++ [(buildRepetition (toRule last) minTimes maxTimes [], false)]), s)
      else
        let r := s.subRule name last.1
        some (some (seq.dropLast ++ [(buildRepetition r.1 minTimes maxTimes [], false)]), r.2)

/-- The loop of `transform`.  `before` is the character in front of its start, `seq` what it has
collected.  `none` if the fuel runs out, or where the program has no defined behaviour. -/
def transformLoop (dotall : Bool) (name : List Char) :
    ℕ → Option Char → List LiteralOrRule → PatternState → Option (LiteralOrRule × PatternState)
  | 0, _, _, _ => none
  | fuel + 1, before, seq, s =>
    match s.rest with
    | [] => some (joinSeq seq, s)
    | c :: rest =>
      if c = '.' then
        let r := getDot dotall s.rules
        transformLoop dotall name fuel before (seq ++ [(r.1, false)])
          { s with rest := rest, rules := r.2 }
      else if c = '(' then
        let warnings := if rest.head? = some '?' then ["Unsupported pattern syntax"] else []
        (transformLoop dotall name fuel (some '(') []
            { s with rest := rest, warnings := s.warnings ++ warnings }).bind fun r =>
          transformLoop dotall name fuel before (seq ++ [('(' :: (toRule r.1 ++ [')']), false)]) r.2
      else if c = ')' then
        let s := { s with rest := rest }
        some (joinSeq seq,
          if before.isSome ∧ before ≠ some '(' then s.fail "Unbalanced parentheses" else s)
      else if c = '[' then
        let r := readBrackets rest
        let s := { s with rest := r.2.1 }
        transformLoop dotall name fuel before (seq ++ [('[' :: (r.1 ++ [']']), false)])
          (if r.2.2 then s else s.fail "Unbalanced square brackets")
      else if c = '|' then
        transformLoop dotall name fuel before (seq ++ [(['|'], false)]) { s with rest := rest }
      else if c = '*' ∨ c = '+' ∨ c = '?' then
        seq.getLast?.bind fun last =>
          transformLoop dotall name fuel before (seq.dropLast ++ [(toRule last ++ [c], false)])
            { s with rest := rest }
      else if c = '\x7b' then
        let times := rest.takeWhile (· ≠ '\x7d')
        let behind := rest.dropWhile (· ≠ '\x7d')
        let s := { s with rest := behind.tail }
        let s := if behind = [] then s.fail "Unbalanced curly brackets" else s
        (repeatBack name times seq s).bind fun r =>
          match r.1 with
          | none => some (([], false), r.2)
          | some seq => transformLoop dotall name fuel before seq r.2
      else
        let r := readLiteral [] (c :: rest)
        transformLoop dotall name fuel before (if r.1 = [] then seq else seq ++ [(r.1, true)])
          { s with rest := r.2 }

/-- What the converter has after a pattern: the name of its rule, the rules, and the messages. -/
structure VisitedPattern where
  ruleName : List Char
  rules : RuleMap
  errors : List String
  warnings : List String

/-- `_visit_pattern`. -/
def visitPattern (dotall : Bool) (pattern name : List Char) (rules : RuleMap) :
    Option VisitedPattern :=
  if pattern.head? = some '^' ∧ pattern.getLast? = some '$' then
    let subPattern := pattern.tail.dropLast
    (transformLoop dotall name (subPattern.length + 1) none [] ⟨subPattern, rules, [], [], []⟩).map
      fun r =>
        let rule := addRule r.2.rules name
          ("\"\\\"\" (".toList ++ toRule r.1 ++ ") \"\\\"\" space".toList)
        ⟨rule.1, rule.2, r.2.errors, r.2.warnings⟩
  else some ⟨[], rules, ["Pattern must start with '^' and end with '$'"], []⟩

end IFairy.JsonSchema
