import IFairy.Framework.BestPaths
import IFairy.Framework.PrefixTree
import IFairy.Vocab.CodePoints

/-!
# The UGM tokenizer

`llm_tokenizer_ugm` and `llm_tokenizer_ugm_session::tokenize` of `llama-vocab.cpp`, from the
normalized text on and with exact scores.  The forward pass relaxes the edges of `BestPaths`: from
the beginning of every code point, one for each token that the text goes on with, and one for the
unknown token if the code point is no token.

The backtrack gives a segmentation with the largest score (`ugm_isBest`).  Only normal, user
defined and unused tokens take part; and neighbouring ids of the unknown token are merged whether
or not they stand for unknown code points.
-/

namespace IFairy

open BestPaths

/-! ## The vocabulary -/

/-- A token: its text and score, and of its attributes those that the tokenizer looks at. -/
structure UgmToken where
  text : List UInt8
  score : ℚ
  normal : Bool
  userDefined : Bool
  unused : Bool
  deriving DecidableEq

/-- A vocabulary as it is loaded: no text is empty, and no two are the same. -/
structure UgmVocab where
  tokens : List UgmToken
  tokenUnk : ℤ
  ne_nil : ∀ t ∈ tokens, t.text ≠ []
  nodup : (tokens.map UgmToken.text).Nodup

/-- `FLT_MAX`. -/
def fltMax : ℚ := (2 ^ 24 - 1) * 2 ^ 104

/-- `DBL_MAX`. -/
def dblMax : ℚ := (2 ^ 53 - 1) * 2 ^ 971

/-- The token goes into the `token_matcher`. -/
def UgmToken.matched (t : UgmToken) : Bool := t.normal || t.userDefined || t.unused

/-- The score that counts in a segmentation. -/
def UgmToken.tokenScore (t : UgmToken) : ℚ := if t.userDefined then 0 else t.score

namespace UgmVocab

variable (vocab : UgmVocab)

/-- `token_matcher`. -/
def tokenMatcher : PrefixTree UInt8 ℕ :=
  PrefixTree.ofList ((vocab.tokens.zipIdx.filter (·.1.matched)).map fun e => (e.1.text, e.2))

/-- `min_score`. -/
def minScore : ℚ := ((vocab.tokens.filter (·.normal)).map UgmToken.score).foldl min fltMax

/-- `unknown_token_score`. -/
def unknownTokenScore : ℚ := vocab.minScore - 10

def tokenScore (id : ℕ) : ℚ := (vocab.tokens[id]?.map UgmToken.tokenScore).getD 0

end UgmVocab

/-! ## The tokenizer -/

/-- `best_tokenization`: `token_id`, `input_offset` and `score_sum`. -/
abbrev BestTokenization := Entry ℤ ℚ

/-- `tokenization_results`. -/
abbrev TokenizationResults := ℕ → BestTokenization

/-- `tokenization_results` at the beginning. -/
def initialResults (tokenUnk : ℤ) : TokenizationResults :=
  Function.update (fun _ => ⟨tokenUnk, 0, -dblMax⟩) 0 ⟨tokenUnk, 0, 0⟩

/-- A challenger for the champion at `prefixOffset`. -/
def challenge (results : TokenizationResults) (inputOffset prefixOffset : ℕ) (tokenId : ℤ)
    (tokenScore : ℚ) : TokenizationResults :=
  let challengerScore := (results inputOffset).score + tokenScore
  if challengerScore > (results prefixOffset).score then
    Function.update results prefixOffset ⟨tokenId, inputOffset, challengerScore⟩
  else results

namespace UgmVocab

variable (vocab : UgmVocab)

/-- The loop over the prefixes at `inputOffset`: the node, the end of the prefix, and the bytes
behind it.  At the end of the text the loop reads the terminator and stops. -/
def matchTokens (inputOffset nUtf8CodeUnits : ℕ) : PrefixTree UInt8 ℕ → ℕ → List UInt8 →
    TokenizationResults × Bool → TokenizationResults × Bool
  | node, prefixOffset, rest, (results, singleCodepointTokenFound) =>
    let visited :=
      match node.value with
      | some tokenId =>
        (challenge results inputOffset prefixOffset tokenId (vocab.tokenScore tokenId),
          singleCodepointTokenFound || decide (prefixOffset - inputOffset = nUtf8CodeUnits))
      | none => (results, singleCodepointTokenFound)
    match rest with
    | [] => visited
    | c :: rest =>
      match node.traverse c with
      | some node => matchTokens inputOffset nUtf8CodeUnits node (prefixOffset + 1) rest visited
      | none => visited

/-- The loop over the code points.  Every round moves on, so the length of the text is enough fuel. -/
def forwardPass : ℕ → ℕ → List UInt8 → TokenizationResults → TokenizationResults
  | _, _, [], results => results
  | 0, _, _ :: _, results => results
  | fuel + 1, inputOffset, c :: rest, results =>
    let nUtf8CodeUnits := min (unicodeLenUtf8 c) (rest.length + 1)
    let (results, singleCodepointTokenFound) :=
      match vocab.tokenMatcher.traverse c with
      | some node =>
        vocab.matchTokens inputOffset nUtf8CodeUnits node (inputOffset + 1) rest (results, false)
      | none => (results, false)
    let results :=
      if !singleCodepointTokenFound then
        challenge results inputOffset (inputOffset + nUtf8CodeUnits) vocab.tokenUnk
          vocab.unknownTokenScore
      else results
    forwardPass fuel (inputOffset + nUtf8CodeUnits) ((c :: rest).drop nUtf8CodeUnits) results

/-- The backtrack, which writes the entry it has come to at the end of the results. -/
def backtrack (inputLen : ℕ) : ℕ → TokenizationResults → Bool → List ℤ → Option (List ℤ)
  | 0, _, _, _ => none
  | fuel + 1, results, isPrevUnknown, output =>
    let tokenization := results inputLen
    let isUnknown := decide (tokenization.label = vocab.tokenUnk)
    let output := if !(isPrevUnknown && isUnknown) then output ++ [tokenization.label] else output
    if tokenization.source = 0 then some output.reverse
    else
      backtrack inputLen fuel
        (Function.update results inputLen (results tokenization.source)) isUnknown output

/-- `llm_tokenizer_ugm_session::tokenize` on the normalized text. -/
def tokenize (normalized : List UInt8) : Option (List ℤ) :=
  if normalized.length = 0 then some []
  else
    vocab.backtrack normalized.length normalized.length
      (vocab.forwardPass normalized.length 0 normalized (initialResults vocab.tokenUnk)) false []

end UgmVocab

/-! ## Segmentations -/

/-- A piece of a segmentation. -/
inductive UgmPiece where
  | token (id : ℕ)
  | unknown (c : Char)
  deriving DecidableEq

namespace UgmVocab

variable (vocab : UgmVocab) (usable : UgmToken → Bool)

def pieceText : UgmPiece → List UInt8
  | .token id => (vocab.tokens[id]?.map UgmToken.text).getD []
  | .unknown c => String.utf8EncodeChar c

def pieceScore : UgmPiece → ℚ
  | .token id => vocab.tokenScore id
  | .unknown _ => vocab.unknownTokenScore

def pieceId : UgmPiece → ℤ
  | .token id => id
  | .unknown _ => vocab.tokenUnk

/-- A piece is a usable token, or a code point that is no usable token. -/
def IsPiece : UgmPiece → Prop
  | .token id => ∃ t ∈ vocab.tokens[id]?, usable t = true
  | .unknown c => ∀ t ∈ vocab.tokens, usable t = true → t.text ≠ String.utf8EncodeChar c

/-- The pieces make up the text. -/
structure IsSegmentation (text : List UInt8) (pieces : List UgmPiece) : Prop where
  isPiece : ∀ p ∈ pieces, vocab.IsPiece usable p
  text_eq : pieces.flatMap vocab.pieceText = text

def totalScore (pieces : List UgmPiece) : ℚ := (pieces.map vocab.pieceScore).sum

/-- No segmentation has a larger score. -/
def IsBest (text : List UInt8) (pieces : List UgmPiece) : Prop :=
  vocab.IsSegmentation usable text pieces ∧
    ∀ pieces', vocab.IsSegmentation usable text pieces' →
      vocab.totalScore pieces' ≤ vocab.totalScore pieces

end UgmVocab

/-- Runs of an id are merged into one. -/
def mergeRuns (id : ℤ) : List ℤ → List ℤ
  | a :: b :: l => if a = id ∧ b = id then mergeRuns id (b :: l) else a :: mergeRuns id (b :: l)
  | l => l

end IFairy
