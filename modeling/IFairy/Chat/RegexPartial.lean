import IFairy.Framework.FlatRegex
import IFairy.Json.Pattern

/-!
# Partial matches of regular expressions

`common_regex` of `common/regex-partial.cpp` looks for a match, and when there is none for the
beginning of one at the end of the input.  For that the pattern is turned around: its parts are read
from the last one on, and the later ones are optional.

`std::regex` is taken as the engine of `Framework/Regex`; what a text that stands for one character
matches (a character, an escape or a class) is a parameter.  A part is the regular expression that
its text is.
-/

namespace IFairy.Chat

open JsonSchema

/-- The characters that the text of a single one matches. -/
abbrev CharMatches := List Char → Char → Bool

/-! ## The reversed regular expression -/

/-- A part of a sequence: an atom and the quantifiers behind it. -/
structure Part where
  atom : Regex Char
  quantifiers : List Char

/-- The regular expression of a part; only one quantifier is possible, and no reluctant one. -/
def Part.regex (part : Part) : Option (Regex Char) :=
  if part.quantifiers = [] then some part.atom
  else if part.quantifiers = ['*'] then some (.star part.atom)
  else if part.quantifiers = ['+'] then some (.plus part.atom)
  else if part.quantifiers = ['?'] then some (.opt part.atom)
  else none

/-- The loop over a class from behind its bracket: its text and what follows. -/
def scanClass : List Char → Option (List Char × List Char)
  | [] => none
  | [c] => if c = ']' then some ([']'], []) else none
  | c :: next :: rest =>
    if c = '\\' then (scanClass rest).map fun r => (c :: next :: r.1, r.2)
    else if c = ']' then some ([']'], next :: rest)
    else (scanClass (next :: rest)).map fun r => (c :: r.1, r.2)

/-- `parseOptInt`. -/
def parseOptInt (text : List Char) (default : Option ℤ) : Option (Option ℤ) :=
  if text = [] then some default else (stoi text).toOption.map some

/-- The smallest and the largest number of repetitions between curly brackets. -/
def parseRange (parts : List (List Char)) : Option (ℤ × Option ℤ) :=
  (parseOptInt (parts.getD 0 []) (some 0)).bind fun min =>
    (if parts.length = 1 then some min else parseOptInt (parts.getD 1 []) none).bind fun max =>
      min.bind fun min =>
        if 2 < parts.length ∨ max.any (fun max => max < min) then none else some (min, max)

/-- A part is repeated as often as it has to be, and then optional for as often as it may be. -/
def repeatPart (part : Part) (min : ℤ) (max : Option ℤ) : List Part :=
  List.replicate min.toNat part ++
    max.elim [{ part with quantifiers := part.quantifiers ++ ['*'] }] fun max =>
      List.replicate (max - min).toNat { part with quantifiers := part.quantifiers ++ ['?'] }

/-- The parts of an alternative from the last one on, the later ones optional.  For no parts the
loop over them does not end. -/
def openTails (parts : List Part) : Option (Regex Char) :=
  if parts = [] then none else (parts.mapM Part.regex).map Regex.backward

/-- The alternatives one after the other. -/
def joinAlternatives : List (Regex Char) → Option (Regex Char)
  | [] => none
  | [r] => some r
  | r :: rs => (joinAlternatives rs).map (.alt r)

/-- What `process` returns for the alternatives. -/
def reverseAlternatives (alternatives : List (List Part)) : Option (Regex Char) :=
  (alternatives.mapM openTails).bind joinAlternatives

/-- The loop of `process`: the finished alternatives and the one that is read. -/
def processLoop (charMatches : CharMatches) : ℕ → List Char → List (List Part) → List Part →
    Option (List (List Part) × List Char)
  | 0, _, _, _ => none
  | _ + 1, [], alternatives, sequence => some (alternatives ++ [sequence], [])
  | fuel + 1, c :: rest, alternatives, sequence =>
    if c = '[' then
      (scanClass rest).bind fun r =>
        processLoop charMatches fuel r.2 alternatives
          (sequence ++ [⟨.symbol (charMatches (c :: r.1)), []⟩])
    else if c = '*' ∨ c = '?' ∨ c = '+' then
      sequence.getLast?.bind fun part =>
        processLoop charMatches fuel
          (if c = '*' ∧ rest.head? = some '?' then rest.tail else rest) alternatives
          (sequence.dropLast ++ [{ part with quantifiers := part.quantifiers ++ [c] }])
    else if c = '\x7b' then
      sequence.getLast?.bind fun part =>
        if '\x7d' ∈ rest then
          (parseRange ((rest.takeWhile (· ≠ '\x7d')).splitOn ',')).bind fun range =>
            processLoop charMatches fuel (rest.dropWhile (· ≠ '\x7d')).tail alternatives
              (sequence.dropLast ++ repeatPart part range.1 range.2)
        else none
    else if c = '(' then
      (processLoop charMatches fuel
        (if rest.take 2 = ['?', ':'] then rest.drop 2 else rest) [] []).bind fun r =>
        (reverseAlternatives r.1).bind fun sub =>
          if r.2.head? = some ')' then
            processLoop charMatches fuel r.2.tail alternatives (sequence ++ [⟨sub, []⟩])
          else none
    else if c = ')' then some (alternatives ++ [sequence], c :: rest)
    else if c = '|' then processLoop charMatches fuel rest (alternatives ++ [sequence]) []
    else if c = '\\' then
      rest.head?.elim (some (alternatives ++ [sequence], [])) fun d =>
        processLoop charMatches fuel rest.tail alternatives
          (sequence ++ [⟨.symbol (charMatches [c, d]), []⟩])
    else processLoop charMatches fuel rest alternatives (sequence ++ [⟨.symbol (charMatches [c]), []⟩])

/-- `common_regex`. -/
structure CommonRegex where
  rx : Regex Char
  rxReversedPartial : Regex Char

/-- `common_regex_match`, without the groups of a full match. -/
inductive CommonRegexMatch where
  | noMatch
  | partialMatch (start stop : ℕ)
  | fullMatch
  deriving DecidableEq

/-- `search`, which throws for a position behind the input. -/
def CommonRegex.search (regex : CommonRegex) (input : List Char) (pos : ℕ) (asMatch : Bool) :
    Option CommonRegexMatch :=
  if input.length < pos then none
  else
    let start := input.drop pos
    if (if asMatch then decide (start.length ∈ regex.rx.ends start)
      else (regex.rx.search start).isSome) then some .fullMatch
    else
      some <| (regex.rxReversedPartial.firstEnd start.reverse).elim .noMatch fun k =>
        if k ≠ 0 ∧ (asMatch = false ∨ k = input.length) then
          .partialMatch (input.length - k) input.length
        else .noMatch

end IFairy.Chat
