import IFairy.Framework.Rounding
import IFairy.Vocab.CodePoints
import Mathlib.Data.List.AList
import Mathlib.Data.List.Sort

/-!
# The PLaMo-2 tokenizer

`llm_tokenizer_plamo2` of `llama-vocab.cpp`.  All suffixes of the tokens are numbered, and a table
has for each of them the rows of the pieces that it begins with, the longest one first, and a
sentinel row for the fallback to bytes.  The text is gone through from its end to its beginning:
at every position the longest suffix of a token that the text goes on with is found from the one
at the next position, and its rows are the steps of a segmentation.

A text is a list of code points; a conversion to `int32_t` that is undefined is an error.
-/

namespace IFairy.Vocab.Plamo2

/-! ## The vocabulary -/

/-- The value of a hexadecimal digit. -/
def hexDigit (c : Char) : Option ℕ :=
  if '0' ≤ c ∧ c ≤ '9' then some (c.toNat - 48)
  else if 'A' ≤ c ∧ c ≤ 'F' then some (c.toNat - 55)
  else if 'a' ≤ c ∧ c ≤ 'f' then some (c.toNat - 87)
  else none

/-- The byte of a text `<0xHH>`. -/
def byteVal (text : List Char) : Option ℕ :=
  if text.length = 6 ∧ text.take 3 = ['<', '0', 'x'] ∧ text.getLast? = some '>' then
    (text[3]?.bind hexDigit).bind fun high => (text[4]?.bind hexDigit).map fun low => 16 * high + low
  else none

/-- `token_data`: the text, the attribute that makes it a byte token, and the score. -/
structure Token where
  text : List Char
  byte : Bool
  score : ℚ

/-- A vocabulary with distinct texts and with all bytes; its scores are floats. -/
structure Vocabulary where
  tokens : List Token
  text_ne_nil : ∀ t ∈ tokens, t.text ≠ []
  nodup : (tokens.map Token.text).Nodup
  byteVal_isSome : ∀ t ∈ tokens, t.byte = true → (byteVal t.text).isSome
  exists_byte : ∀ b < 256, ∃ t ∈ tokens, t.byte = true ∧ byteVal t.text = some b
  isFloat_score : ∀ t ∈ tokens, IsFloat 24 (-149) t.score
  lt_score : ∀ t ∈ tokens, -1000 < t.score

/-! ## The suffixes -/

/-- `bytes_`, `suffix_to_score` with none for a NaN, and `token_to_id`. -/
structure Maps where
  bytes : ℕ → ℤ
  suffixToScore : AList fun _ : List Char => Option ℚ
  tokenToId : List Char → Option ℤ

/-- The proper suffixes of a text, for those that are not there yet. -/
def addSuffixes (text : List Char) (suffixToScore : AList fun _ : List Char => Option ℚ) :
    AList fun _ : List Char => Option ℚ :=
  (List.range' 1 (text.length - 1)).foldl (fun m i =>
    if (m.lookup (text.drop i)).isNone then m.insert (text.drop i) none else m) suffixToScore

/-- The round of the loop over the vocabulary for a token with its id. -/
def addToken (m : Maps) (e : Token × ℕ) : Maps :=
  let tokenToId := Function.update m.tokenToId e.1.text (some e.2)
  if e.1.byte then
    { m with
      tokenToId := tokenToId
      bytes := (byteVal e.1.text).elim m.bytes fun b => Function.update m.bytes b e.2 }
  else
    { m with
      tokenToId := tokenToId
      suffixToScore := addSuffixes e.1.text (m.suffixToScore.insert e.1.text (some e.1.score)) }

def maps (vocab : Vocabulary) : Maps :=
  vocab.tokens.zipIdx.foldl addToken ⟨fun _ => 0, ∅, fun _ => none⟩

/-- The bytes of a suffix from the last one to the first one. -/
def revBytes (suffix : List Char) : List ℕ := ((encodeUtf8 suffix).map UInt8.toNat).reverse

/-- `suffixes`, in the order of the reversed strings. -/
def suffixes (m : Maps) : List (List Char) :=
  (m.suffixToScore.keys ++ [[]]).insertionSort fun a b => revBytes a ≤ revBytes b

/-- The pieces that a suffix begins with, in decreasing order of length; both the number of its
rows and the rows go through them. -/
def pieces (m : Maps) (suffix : List Char) : List (List Char) :=
  ((List.range suffix.length).reverse.map fun n => suffix.take (n + 1)).filter fun piece =>
    (m.suffixToScore.lookup piece).isSome

/-- `suffix_to_id`, `to_suffix_id_` with the two halves of a `piece_code`, and `num_pieces`. -/
structure Numbering where
  suffixToId : List Char → Option ℕ
  toSuffixId : Char × ℕ → Option ℕ
  numPieces : ℕ

/-- The round of the loop over the suffixes that numbers them. -/
def numberSuffix (m : Maps) (n : Numbering) (suffix : List Char) : Numbering :=
  let suffixToId := Function.update n.suffixToId suffix (some n.numPieces)
  match suffix with
  | [] => ⟨suffixToId, n.toSuffixId, n.numPieces + 1⟩
  | c :: remaining =>
    ⟨suffixToId,
      Function.update n.toSuffixId (c, (suffixToId remaining).getD 0) (some n.numPieces),
      n.numPieces + (1 + (pieces m suffix).length)⟩

def numbering (m : Maps) : Numbering :=
  (suffixes m).foldl (numberSuffix m) ⟨fun _ => none, fun _ => none, 0⟩

/-! ## The table -/

/-- `INVALID_SCORE`. -/
def invalidScore : ℤ := -20000000

/-- `UNKNOWN_SCORE`. -/
def unknownScore : ℤ := -10000000

/-- `std::round`: halves are rounded away from zero. -/
def round (x : ℚ) : ℤ := if 0 ≤ x then ⌊x + 1 / 2⌋ else -⌊-x + 1 / 2⌋

def scaledScore (score : ℚ) : ℤ := round (score * 10000)

/-- `TABLE_SCORE` of a piece; none when the conversion to `int32_t` is undefined. -/
def tableScore (score : Option ℚ) : Option ℤ :=
  score.elim (some invalidScore) fun score =>
    if -2 ^ 31 ≤ scaledScore score ∧ scaledScore score < 2 ^ 31 then some (scaledScore score)
    else none

/-- A row of `table_`. -/
structure Row where
  pieceLength : ℕ
  tokenId : ℤ
  score : ℤ
  pieceId : ℕ

/-- The row behind those of a suffix. -/
def sentinel : Row := ⟨1, -1, unknownScore, 0⟩

def tableRow (m : Maps) (suffixToId : List Char → Option ℕ) (piece : List Char) : Option Row :=
  (tableScore ((m.suffixToScore.lookup piece).getD none)).map fun score =>
    ⟨piece.length, (m.tokenToId piece).getD (-1), score, (suffixToId piece).getD 0⟩

def tableRows (m : Maps) (suffixToId : List Char → Option ℕ) (suffix : List Char) :
    Option (List Row) :=
  ((pieces m suffix).mapM (tableRow m suffixToId)).map fun rows => rows ++ [sentinel]

/-- `llm_tokenizer_plamo2`. -/
structure Tokenizer where
  bytes : ℕ → ℤ
  toSuffixId : Char × ℕ → Option ℕ
  table : List Row

/-- The ways in which `build` fails. -/
inductive BuildError where
  | byteNotSet (byte : ℕ)
  | undefinedConversion

/-- `build`. -/
def build (vocab : Vocabulary) : Except BuildError Tokenizer :=
  let m := maps vocab
  ((List.range 256).find? fun i => m.bytes i = 0).elim
    (((suffixes m).mapM (tableRows m (numbering m).suffixToId)).elim
      (.error .undefinedConversion)
      fun rows => .ok ⟨m.bytes, (numbering m).toSuffixId, rows.flatten⟩)
    fun i => .error (.byteNotSet i)

/-! ## Encoding -/

/-- An entry of `scores` and `path`: the cost from a position on, and the first token there. -/
structure PathEntry where
  score : ℤ
  tokenLength : ℕ
  tokenId : ℤ

def unsetEntry : PathEntry := ⟨2 ^ 60, 0, 0⟩

namespace Tokenizer

variable (t : Tokenizer)

/-- The loop that finds the next suffix id, over the rows from the last one on. -/
def findSuffix (c : Char) : List Row → ℕ → ℕ
  | [], suffixId => suffixId
  | row :: rows, _ =>
    let suffixId := (t.toSuffixId (c, row.pieceId)).getD 0
    if 0 < suffixId ∨ row.score = unknownScore then suffixId else findSuffix c rows suffixId

/-- The loop that updates the best path, over the rows of the suffix; `behind` are the entries of
the positions behind this one. -/
def updatePath (behind : List PathEntry) : List Row → PathEntry → PathEntry
  | [], e => e
  | row :: rows, e =>
    let e :=
      if invalidScore < row.score then
        let s := (behind.getD (row.pieceLength - 1) unsetEntry).score - row.score
        if s < e.score then ⟨s, row.pieceLength, row.tokenId⟩ else e
      else e
    if row.score = unknownScore then e else updatePath behind rows e

/-- The variables of the loop over the positions: the suffix id, and the entries from the position
on. -/
structure Scan where
  suffixId : ℕ
  path : List PathEntry

/-- The loop over the positions, from the end to the beginning. -/
def scan : List Char → Scan
  | [] => ⟨0, [⟨0, 0, 0⟩]⟩
  | c :: rest =>
    let behind := scan rest
    let suffixId := t.findSuffix c (t.table.drop behind.suffixId) behind.suffixId
    ⟨suffixId, updatePath behind.path (t.table.drop suffixId) unsetEntry :: behind.path⟩

/-- The byte tokens of a code point. -/
def byteTokens (c : ℕ) : List ℤ :=
  let s := 1 + (if 0x80 ≤ c then 1 else 0) + (if 0x800 ≤ c then 1 else 0) +
    (if 0x10000 ≤ c then 1 else 0)
  (List.range s).map fun i =>
    let b := if s = 1 then c % 256 else if i = 0 then (0xF00 >>> s) &&& 0xFF else 0x80
    t.bytes (b ||| ((c >>> ((s - i - 1) * 6)) &&& 0x3F))

/-- The loop that decodes the best path, over the code points with their entries; `skip` of them
belong to the last token.  A token without a length fails the assertion. -/
def decodePath : ℕ → List (Char × PathEntry) → Option (List ℤ)
  | _, [] => some []
  | skip + 1, _ :: rest => decodePath skip rest
  | 0, (c, e) :: rest =>
    if e.tokenLength = 0 then none
    else (decodePath (e.tokenLength - 1) rest).map fun ids =>
      (if 0 ≤ e.tokenId then [e.tokenId] else t.byteTokens c.toNat) ++ ids

/-- The text without a leading byte order mark. -/
def withoutBom (text : List Char) : List Char :=
  if text.head? = some (Char.ofNat 0xFEFF) then text.tail else text

/-- `encode`. -/
def encode (text : List Char) : Option (List ℤ) :=
  t.decodePath 0 ((withoutBom text).zip (t.scan (withoutBom text)).path)

end Tokenizer

end IFairy.Vocab.Plamo2
