import IFairy.Grammar.Stacks
import Mathlib.Algebra.Group.Nat.Defs

/-!
# Tokens

A token is a piece of text in UTF-8, which may begin and end in the middle of a character.
`decodeUtf8` turns it into code points, with the bytes that an earlier token left over in front and
the bytes that are left over at the end as a `PartialUtf8`.  `acceptStr` accepts the code points
one after the other.  `applyImpl` forbids tokens before one is sampled: it follows all pieces
through the stacks at once, and rejects those that no stack can take.

The vocabulary is a parameter: the text of every token, and whether it ends the generation.  So are
the trigger patterns: what a regular expression says about a text.
-/

namespace IFairy.LlamaGrammar

/-! ## Decoding -/

/-- `llama_partial_utf8`: the bits so far, and how many bytes remain; `-1` is an invalid
sequence. -/
structure PartialUtf8 where
  value : ℕ
  nRemain : ℤ
  deriving DecidableEq, Repr

/-- `(value << 6) + (byte & 0x3F)` in 32 bits. -/
def appendBits (value : ℕ) (byte : UInt8) : ℕ := (value * 2 ^ 6 + byte.toNat % 2 ^ 6) % 2 ^ 32

/-- `lookup[highbits] - 1` of `decode_utf8`: the bytes that follow a first byte, `-1` for a byte
that is no first byte. -/
def bytesAfter (firstByte : UInt8) : ℤ :=
  ([1, 1, 1, 1, 1, 1, 1, 1, 0, 0, 0, 0, 2, 2, 3, 4] : List ℤ).getD (firstByte.toNat / 2 ^ 4) 0 - 1

/-- The loop of `decode_utf8` that continues the previous decode: the rest of the text, the value
and the bytes that remain, or nothing for an invalid sequence. -/
def continueLoop : List UInt8 → ℕ → ℤ → Option (List UInt8 × ℕ × ℤ)
  | [], value, nRemain => some ([], value, nRemain)
  | byte :: rest, value, nRemain =>
    if byte ≠ 0 ∧ 0 < nRemain then
      if byte.toNat / 2 ^ 6 ≠ 2 then none
      else continueLoop rest (appendBits value byte) (nRemain - 1)
    else some (byte :: rest, value, nRemain)

/-- The loop of `decode_utf8` over the sequences, nothing for an invalid one.  Its inner loop reads
the bytes for which some of a sequence remains. -/
def decodeLoop : List UInt8 → ℕ → ℤ → List ℕ → Option (List ℕ × PartialUtf8)
  | [], value, nRemain, codePoints => some (codePoints, ⟨value, nRemain⟩)
  | byte :: rest, value, nRemain, codePoints =>
    if byte = 0 then some (codePoints, ⟨value, nRemain⟩)
    else if 0 < nRemain then
      let value := appendBits value byte
      decodeLoop rest value (nRemain - 1)
        (if nRemain - 1 = 0 then codePoints ++ [value] else codePoints)
    else
      let nRemain := bytesAfter byte
      if nRemain < 0 then none
      else
        let value := byte.toNat % 2 ^ (7 - nRemain.toNat)
        decodeLoop rest value nRemain (if nRemain = 0 then codePoints ++ [value] else codePoints)

/-- `decode_utf8`: the code points with the terminating zero, and what is left over. -/
def decodeUtf8 (src : List UInt8) (partialStart : PartialUtf8) : List ℕ × PartialUtf8 :=
  match continueLoop src partialStart.value partialStart.nRemain with
  | none => ([0], ⟨0, -1⟩)
  | some (rest, value, nRemain) =>
    let codePoints := if 0 < partialStart.nRemain ∧ nRemain = 0 then [value] else []
    match decodeLoop rest value nRemain codePoints with
    | none => ([0], ⟨0, -1⟩)
    | some (codePoints, left) => (codePoints ++ [0], left)

/-! ## Partial characters -/

/-- The loop of `llama_grammar_match_partial_char` from a position on. -/
def matchPartialLoop (isPositive : Bool) (low high : ℕ) : List GrammarElement → Bool
  | [] => !isPositive
  | [e] =>
    if e.type = .charAny then true
    else if low ≤ e.value ∧ e.value ≤ high then isPositive
    else !isPositive
  | e :: upper :: rest =>
    if upper.type = .charRngUpper then
      if e.value ≤ high ∧ low ≤ upper.value then isPositive
      else if startsCharAlt rest then matchPartialLoop isPositive low high rest
      else !isPositive
    else if e.type = .charAny then true
    else if low ≤ e.value ∧ e.value ≤ high then isPositive
    else if startsCharAlt (upper :: rest) then matchPartialLoop isPositive low high (upper :: rest)
    else !isPositive

/-- `low`, after the overlong sequences have been excluded. -/
def PartialUtf8.low (left : PartialUtf8) : ℕ :=
  let low := left.value <<< (left.nRemain.toNat * 6) % 2 ^ 32
  if low = 0 then
    if left.nRemain = 2 then 1 <<< 11
    else if left.nRemain = 3 then 1 <<< 16
    else low
  else low

/-- `high`. -/
def PartialUtf8.high (left : PartialUtf8) : ℕ :=
  left.value <<< (left.nRemain.toNat * 6) % 2 ^ 32 ||| (1 <<< (left.nRemain.toNat * 6) - 1)

/-- `llama_grammar_match_partial_char`. -/
def matchPartialChar (rules : Rules) (pos : Pos) (left : PartialUtf8) : Except Halt Bool :=
  let isPositive := isPositiveChar (elemAt rules pos)
  if isPositive || (elemAt rules pos).type = .charNot then
    if left.nRemain < 0 ∨ left.nRemain = 1 ∧ left.value < 2 then .ok false
    else .ok (matchPartialLoop isPositive left.low left.high (suffix rules pos))
  else .error .abort

/-! ## Rejecting candidates -/

/-- `llama_grammar_candidate`; the pointer into the code points is the array and an offset. -/
structure Candidate where
  index : ℕ
  codePoints : List ℕ
  offset : ℕ
  partialUtf8 : PartialUtf8
  deriving DecidableEq, Repr

/-- `*tok.code_points`. -/
def Candidate.codePoint (tok : Candidate) : ℕ := tok.codePoints.getD tok.offset 0

/-- The candidate with `tok.code_points + 1`. -/
def Candidate.next (tok : Candidate) : Candidate := { tok with offset := tok.offset + 1 }

/-- The candidate with `tok.code_points - 1`. -/
def Candidate.prev (tok : Candidate) : Candidate := { tok with offset := tok.offset - 1 }

/-- The body of the loop of `llama_grammar_reject_candidates_for_stack`, on `rejects` and
`next_candidates`. -/
def sortCandidate (rules : Rules) (stackPos : Pos) (sorted : List Candidate × List Candidate)
    (tok : Candidate) : Except Halt (List Candidate × List Candidate) :=
  if tok.codePoint = 0 then
    if tok.partialUtf8.nRemain ≠ 0 then do
      let fits ← matchPartialChar rules stackPos tok.partialUtf8
      if fits then .ok sorted else .ok (sorted.1 ++ [tok], sorted.2)
    else .ok sorted
  else do
    let found ← matchChar rules stackPos tok.codePoint
    if found.1 then .ok (sorted.1, sorted.2 ++ [tok.next]) else .ok (sorted.1 ++ [tok], sorted.2)

/-- `llama_grammar_reject_candidates_for_stack`, with the call of
`llama_grammar_reject_candidates` as a parameter. -/
def rejectCandidatesForStack (rules : Rules) (fuel : ℕ)
    (rejectCandidates : List Stack → List Candidate → Except Halt (List Candidate))
    (stack : Stack) (candidates : List Candidate) : Except Halt (List Candidate) :=
  match stack with
  | [] => .ok (candidates.filter fun tok => tok.codePoint ≠ 0 || tok.partialUtf8.nRemain ≠ 0)
  | stackPos :: below => do
    let sorted ← candidates.foldlM (sortCandidate rules stackPos) ([], [])
    let stackPosAfter ← matchChar rules stackPos 0
    let nextStacks ← advanceStack rules fuel (pushUnlessEnd rules stackPosAfter.2 below) []
    let nextRejects ← rejectCandidates nextStacks sorted.2
    .ok (sorted.1 ++ nextRejects.map Candidate.prev)

/-- `llama_grammar_reject_candidates`. -/
def rejectCandidates (rules : Rules) :
    ℕ → List Stack → List Candidate → Except Halt (List Candidate)
  | 0, _, _ => .error .outOfFuel
  | _ + 1, [], _ => .error .abort
  | fuel + 1, stack :: rest, candidates =>
    if candidates = [] then .ok []
    else do
      let reject := rejectCandidatesForStack rules fuel (rejectCandidates rules fuel)
      let rejects ← reject stack candidates
      rest.foldlM (fun rejects stack => reject stack rejects) rejects

/-! ## Grammar states -/

/-- The part of `llama_vocab` that a grammar uses. -/
structure Vocab where
  tokenToPiece : ℤ → List UInt8
  isEog : ℤ → Bool

/-- What `std::regex_match` says about a text: the position and the length of every group of the
match, with the whole match first. -/
abbrev TriggerPattern := List UInt8 → Option (List (ℕ × ℕ))

/-- `llama_grammar`, with its stacks as `stackSet`. -/
structure GrammarState where
  rules : Rules
  stackSet : List Stack
  partialUtf8 : PartialUtf8
  awaitingTrigger : Bool
  triggerBuffer : List UInt8
  triggerTokens : List ℤ
  triggerPatterns : List TriggerPattern

/-- The grammar that `llama_grammar_init_impl` returns. -/
def initState (rules : Rules) (stackSet : List Stack) (lazy : Bool) (triggerTokens : List ℤ)
    (triggerPatterns : List TriggerPattern) : GrammarState :=
  ⟨rules, stackSet, ⟨0, 0⟩, lazy, [], triggerTokens, triggerPatterns⟩

/-- `llama_token_data`. -/
structure TokenData (L : Type) where
  id : ℤ
  logit : L
  deriving DecidableEq, Repr

/-- The body of the loop of `llama_grammar_apply_impl` over the tokens: the token's data, and the
candidate it adds. -/
def sortToken {L : Type} (vocab : Vocab) (negInf : L) (grammar : GrammarState) (i : ℕ)
    (data : TokenData L) : TokenData L × Option Candidate :=
  if vocab.isEog data.id then
    if [] ∈ grammar.stackSet then (data, none) else ({ data with logit := negInf }, none)
  else if (vocab.tokenToPiece data.id).headD 0 = 0 then ({ data with logit := negInf }, none)
  else
    let decoded := decodeUtf8 (vocab.tokenToPiece data.id) grammar.partialUtf8
    (data, some ⟨i, decoded.1, 0, decoded.2⟩)

/-- The loop of `llama_grammar_apply_impl` over the rejected candidates. -/
def forbid {L : Type} (negInf : L) (curP : List (TokenData L)) (rejects : List Candidate) :
    List (TokenData L) :=
  rejects.foldl (fun curP tok => curP.modify tok.index fun data => { data with logit := negInf })
    curP

/-- `llama_grammar_apply_impl`. -/
def applyImpl {L : Type} (vocab : Vocab) (negInf : L) (fuel : ℕ) (grammar : GrammarState)
    (curP : List (TokenData L)) : Except Halt (List (TokenData L)) :=
  if grammar.awaitingTrigger then .ok curP
  else do
    let sorted := curP.mapIdx (sortToken vocab negInf grammar)
    let rejects ← rejectCandidates grammar.rules fuel grammar.stackSet
      (sorted.filterMap Prod.snd)
    .ok (forbid negInf (sorted.map Prod.fst) rejects)

/-- `llama_grammar_accept_str`. -/
def acceptStr (fuel : ℕ) (grammar : GrammarState) (piece : List UInt8) :
    Except Halt GrammarState := do
  let decoded := decodeUtf8 piece grammar.partialUtf8
  let stackSet ← acceptAll grammar.rules fuel grammar.stackSet decoded.1.dropLast
  if stackSet = [] then .error .throw
  else .ok { grammar with stackSet, partialUtf8 := decoded.2 }

/-- Where the text that a trigger pattern has matched begins to be constrained: at the first group
that is not empty, or at the match. -/
def constrainedStart (groups : List (ℕ × ℕ)) : ℕ :=
  match groups.tail.find? fun group => 0 < group.2 with
  | some group => group.1
  | none => (groups.headD (0, 0)).1

/-- `llama_grammar_accept_impl`. -/
def acceptImpl (vocab : Vocab) (fuel : ℕ) (grammar : GrammarState) (token : ℤ) :
    Except Halt GrammarState :=
  let piece := vocab.tokenToPiece token
  if grammar.awaitingTrigger then
    if token ∈ grammar.triggerTokens then
      acceptStr fuel { grammar with awaitingTrigger := false, triggerBuffer := [] } piece
    else
      let buffer := grammar.triggerBuffer ++ piece
      match grammar.triggerPatterns.findSome? fun pattern => pattern buffer with
      | some groups =>
        acceptStr fuel { grammar with awaitingTrigger := false, triggerBuffer := [] }
          (buffer.drop (constrainedStart groups))
      | none => .ok { grammar with triggerBuffer := buffer }
  else if vocab.isEog token then
    if [] ∈ grammar.stackSet then .ok grammar else .error .abort
  else acceptStr fuel grammar piece

end IFairy.LlamaGrammar
