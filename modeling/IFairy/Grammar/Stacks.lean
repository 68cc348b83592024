import Mathlib.Data.List.Basic

/-!
# Pushdown stacks of a grammar

The rules of a grammar are arrays of elements (`GrammarElement`).  A rule ends with an `END`
element and its alternates are separated by `ALT` elements; a character class is a `CHAR`,
`CHAR_NOT` or `CHAR_ANY` element, followed by the upper ends of its ranges and by further
characters.  A grammar is run on a set of stacks of pointers into these arrays.  Between two
characters every stack is empty or has a character class on top; `advanceStack` brings a stack
into this form by replacing the rule references on its top by the alternates of the rule, and
`accept` moves every stack whose top class has the character behind this class.

`advanceStack` calls itself without a bound in the source.  Here it takes the depth of the calls
it may make, and `Halt.outOfFuel` says that this was not enough.
-/

namespace IFairy.LlamaGrammar

/-! ## Rules and positions -/

/-- `llama_gretype`. -/
inductive GreType where
  | endRule
  | alt
  | ruleRef
  | char
  | charNot
  | charRngUpper
  | charAlt
  | charAny
  deriving DecidableEq, Repr

/-- `llama_grammar_element`; the value is a code point or the index of a rule. -/
structure GrammarElement where
  type : GreType
  value : ℕ
  deriving DecidableEq, Repr

/-- `llama_grammar_rule`. -/
abbrev Rule := List GrammarElement

/-- `llama_grammar_rules`. -/
abbrev Rules := List Rule

/-- A `const llama_grammar_element *`: an element of one of the rules. -/
structure Pos where
  rule : ℕ
  idx : ℕ
  deriving DecidableEq, Repr

/-- `llama_grammar_stack`, with the top (the back of the vector) first. -/
abbrev Stack := List Pos

instance : LawfulBEq (List Pos) := inferInstance

/-- Why a call does not return: the depth of its recursion, a failed `GGML_ASSERT` or `GGML_ABORT`,
or an exception. -/
inductive Halt where
  | outOfFuel
  | abort
  | throw
  deriving DecidableEq, Repr

/-- The elements of the rule from a position on. -/
def suffix (rules : Rules) (pos : Pos) : List GrammarElement :=
  (rules.getD pos.rule []).drop pos.idx

/-- `*pos`. -/
def elemAt (rules : Rules) (pos : Pos) : GrammarElement :=
  (suffix rules pos).headD ⟨.endRule, 0⟩

/-- `pos + n`. -/
def Pos.add (pos : Pos) (n : ℕ) : Pos := { pos with idx := pos.idx + n }

/-- `llama_grammar_is_end_of_sequence`. -/
def isEndOfSequence (e : GrammarElement) : Bool :=
  match e.type with
  | .endRule => true
  | .alt => true
  | _ => false

/-- `is_positive_char` of `llama_grammar_match_char` and `llama_grammar_match_partial_char`. -/
def isPositiveChar (e : GrammarElement) : Bool := e.type = .char || e.type = .charAny

/-- The condition of the loops over a character class. -/
def startsCharAlt : List GrammarElement → Bool
  | [] => false
  | e :: _ => e.type = .charAlt

/-- The loop of `llama_grammar_match_char` from a position on: `found`, and how many elements it
went on by. -/
def matchCharLoop (chr : ℕ) : List GrammarElement → Bool → ℕ → Bool × ℕ
  | [], found, n => (found, n)
  | [e], found, n => (found || e.type = .charAny || e.value = chr, n + 1)
  | e :: upper :: rest, found, n =>
    if upper.type = .charRngUpper then
      let found := found || (e.value ≤ chr && chr ≤ upper.value)
      if startsCharAlt rest then matchCharLoop chr rest found (n + 2) else (found, n + 2)
    else
      let found := found || e.type = .charAny || e.value = chr
      if startsCharAlt (upper :: rest) then matchCharLoop chr (upper :: rest) found (n + 1)
      else (found, n + 1)

/-- `llama_grammar_match_char`: whether the class has the character, and the position behind the
class. -/
def matchChar (rules : Rules) (pos : Pos) (chr : ℕ) : Except Halt (Bool × Pos) :=
  let isPositive := isPositiveChar (elemAt rules pos)
  if isPositive || (elemAt rules pos).type = .charNot then
    let loop := matchCharLoop chr (suffix rules pos) false 0
    .ok (loop.1 == isPositive, pos.add loop.2)
  else .error .abort

/-! ## Advancing a stack -/

/-- The positions behind the `ALT` elements up to the `END` element. -/
def altStarts : ℕ → List GrammarElement → List ℕ
  | _, [] => []
  | i, e :: rest =>
    match e.type with
    | .endRule => []
    | .alt => (i + 1) :: altStarts (i + 1) rest
    | _ => altStarts (i + 1) rest

/-- The values that `subpos` takes in the loop over the alternates of a rule. -/
def alternates (rules : Rules) (ruleId : ℕ) : List Pos :=
  (0 :: altStarts 0 (rules.getD ruleId [])).map fun i => ⟨ruleId, i⟩

/-- `new_stack.push_back(pos)`, unless the position is at the end of its alternate. -/
def pushUnlessEnd (rules : Rules) (pos : Pos) (stack : Stack) : Stack :=
  if isEndOfSequence (elemAt rules pos) then stack else pos :: stack

/-- `new_stacks.emplace_back(stack)`, unless the stack is there already. -/
def addStack (stack : Stack) (newStacks : List Stack) : List Stack :=
  if stack ∈ newStacks then newStacks else newStacks ++ [stack]

/-- `llama_grammar_advance_stack`. -/
def advanceStack (rules : Rules) : ℕ → Stack → List Stack → Except Halt (List Stack)
  | 0, _, _ => .error .outOfFuel
  | _ + 1, [], newStacks => .ok (addStack [] newStacks)
  | fuel + 1, pos :: below, newStacks =>
    match (elemAt rules pos).type with
    | .ruleRef =>
      (alternates rules (elemAt rules pos).value).foldlM
        (fun newStacks subpos => advanceStack rules fuel
          (pushUnlessEnd rules subpos (pushUnlessEnd rules (pos.add 1) below)) newStacks)
        newStacks
    | .char | .charNot | .charAny => .ok (addStack (pos :: below) newStacks)
    | _ => .error .abort

/-- The body of the loop of `llama_grammar_accept`. -/
def acceptOne (rules : Rules) (fuel : ℕ) (chr : ℕ) (stacksNew : List Stack) :
    Stack → Except Halt (List Stack)
  | [] => .ok stacksNew
  | pos :: below => do
    let found ← matchChar rules pos chr
    if found.1 then advanceStack rules fuel (pushUnlessEnd rules found.2 below) stacksNew
    else .ok stacksNew

/-- `llama_grammar_accept`. -/
def accept (rules : Rules) (fuel : ℕ) (sts : List Stack) (chr : ℕ) :
    Except Halt (List Stack) :=
  sts.foldlM (acceptOne rules fuel chr) []

/-! ## The check for left recursion -/

/-- The three flags that `llama_grammar_detect_left_recursion` keeps for every rule. -/
structure DetectState where
  visited : ℕ → Bool
  inProgress : ℕ → Bool
  mayBeEmpty : ℕ → Bool

/-- The first loop of `llama_grammar_detect_left_recursion`: some alternate of the rule is
empty. -/
def hasEmptyAlternate : List GrammarElement → Bool → Bool
  | [], _ => false
  | e :: rest, atRuleStart =>
    if isEndOfSequence e then
      if atRuleStart then true else hasEmptyAlternate rest true
    else hasEmptyAlternate rest false

/-- The second loop of `llama_grammar_detect_left_recursion`, with the call it makes on leading
rule references as a parameter. -/
def recurseLoop (detect : ℕ → DetectState → Except Halt (Bool × DetectState)) :
    List GrammarElement → Bool → DetectState → Except Halt (Bool × DetectState)
  | [], _, s => .ok (false, s)
  | e :: rest, recurseIntoNonterminal, s =>
    if e.type = .ruleRef ∧ recurseIntoNonterminal then do
      let found ← detect e.value s
      if found.1 then .ok (true, found.2)
      else recurseLoop detect rest (found.2.mayBeEmpty e.value) found.2
    else if isEndOfSequence e then recurseLoop detect rest true s
    else recurseLoop detect rest false s

/-- What `llama_grammar_detect_left_recursion` sets before its second loop. -/
def DetectState.enter (rules : Rules) (ruleIndex : ℕ) (s : DetectState) : DetectState where
  visited := s.visited
  inProgress := Function.update s.inProgress ruleIndex true
  mayBeEmpty :=
    if hasEmptyAlternate (rules.getD ruleIndex []) true then
      Function.update s.mayBeEmpty ruleIndex true
    else s.mayBeEmpty

/-- What `llama_grammar_detect_left_recursion` sets after its second loop. -/
def DetectState.leave (ruleIndex : ℕ) (s : DetectState) : DetectState where
  visited := Function.update s.visited ruleIndex true
  inProgress := Function.update s.inProgress ruleIndex false
  mayBeEmpty := s.mayBeEmpty

/-- `llama_grammar_detect_left_recursion`. -/
def detectLeftRecursion (rules : Rules) :
    ℕ → ℕ → DetectState → Except Halt (Bool × DetectState)
  | 0, _, _ => .error .outOfFuel
  | fuel + 1, ruleIndex, s =>
    if s.inProgress ruleIndex then .ok (true, s)
    else do
      let found ← recurseLoop (detectLeftRecursion rules fuel) (rules.getD ruleIndex []) true
        (s.enter rules ruleIndex)
      if found.1 then .ok (true, found.2) else .ok (false, found.2.leave ruleIndex)

/-- The loop of `llama_grammar_init_impl` that checks the rules one after the other; `true` when
left recursion is detected. -/
def checkLoop (rules : Rules) : List ℕ → DetectState → Except Halt Bool
  | [], _ => .ok false
  | i :: rest, s =>
    if s.visited i then checkLoop rules rest s
    else do
      -- every call marks one more rule
      let found ← detectLeftRecursion rules (rules.length + 1) i s
      if found.1 then .ok true else checkLoop rules rest found.2

/-- The check for left recursion of `llama_grammar_init_impl`. -/
def leftRecursionDetected (rules : Rules) : Except Halt Bool :=
  checkLoop rules (List.range rules.length)
    ⟨fun _ => false, fun _ => false, fun _ => false⟩

/-! ## The initial stacks -/

/-- The loop of `llama_grammar_init_impl` over the alternates of the start rule. -/
def initialStacks (rules : Rules) (fuel startRuleIndex : ℕ) : Except Halt (List Stack) :=
  (alternates rules startRuleIndex).foldlM
    (fun sts pos => advanceStack rules fuel (pushUnlessEnd rules pos []) sts) []

/-- `llama_grammar_init_impl`, from the copied rules on: `none` is the null pointer it returns when
the check detects left recursion. -/
def init (rules : Rules) (fuel startRuleIndex : ℕ) : Except Halt (Option (List Stack)) := do
  let detected ← leftRecursionDetected rules
  if detected then .ok none
  else
    let sts ← initialStacks rules fuel startRuleIndex
    .ok (some sts)

/-- `llama_grammar_accept` on one code point after the other. -/
def acceptAll (rules : Rules) (fuel : ℕ) (sts : List Stack) (codePoints : List ℕ) :
    Except Halt (List Stack) :=
  codePoints.foldlM (accept rules fuel) sts

end IFairy.LlamaGrammar
