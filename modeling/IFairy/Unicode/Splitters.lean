import IFairy.Framework.Loops

/-!
# The custom splitters: `unicode_regex_split_custom_gpt2` and `..._llama3`

Two regular expressions have a splitter of their own (`src/unicode.cpp`): a loop that moves a cursor
through the code points of a segment and adds the length of every word that it passes.  The text is
the list of its code points; the tables of the code points (their flags, their lower case) are
parameters.
-/

namespace IFairy.Unicode

/-! ## Code points -/

/-- `unicode_cpt_flags`. -/
structure CptFlags where
  asUint : ℕ

namespace CptFlags

variable (f : CptFlags)

/-- `is_number`. -/
def isNumber : Bool := f.asUint.testBit 1

/-- `is_letter`. -/
def isLetter : Bool := f.asUint.testBit 2

/-- `is_whitespace`. -/
def isWhitespace : Bool := f.asUint.testBit 8

/-- Neither whitespace nor letter nor number. -/
def isOther : Bool := !(f.isWhitespace || f.isLetter || f.isNumber)

end CptFlags

/-- The tables: `unicode_cpt_flags_from_cpt` and `unicode_tolower`. -/
structure UnicodeData where
  flags : ℕ → CptFlags
  toLower : ℕ → ℕ

/-- `OUT_OF_RANGE`. -/
def outOfRangeCpt : ℕ := 0xFFFFFFFF

/-- A carriage return or a line feed. -/
def isNewline (cpt : ℕ) : Bool := cpt = '\r'.toNat ∨ cpt = '\n'.toNat

/-! ## Segments -/

/-- The code points of the text, and the segment from `offset_ini` to `offset_end`. -/
structure Segment where
  cpts : List ℕ
  ini : ℕ
  stop : ℕ

namespace Segment

variable (U : UnicodeData) (g : Segment)

/-- `_get_cpt`. -/
def getCpt (pos : ℕ) : ℕ := if g.ini ≤ pos ∧ pos < g.stop then g.cpts.getD pos 0 else outOfRangeCpt

/-- `_get_flags`. -/
def getFlags (pos : ℕ) : CptFlags :=
  if g.ini ≤ pos ∧ pos < g.stop then U.flags (g.cpts.getD pos 0) else ⟨0⟩

/-- `while (p(pos)) pos++`, for at most so many rounds. -/
def advanceLoop (p : ℕ → Bool) : ℕ → ℕ → ℕ
  | 0, pos => pos
  | rounds + 1, pos => if p pos then advanceLoop p rounds (pos + 1) else pos

/-- `while (p(pos)) pos++`, for a condition that fails outside the segment. -/
def advance (p : ℕ → Bool) (pos : ℕ) : ℕ := advanceLoop p (g.stop - pos) pos

end Segment

/-- `pos`, `_prev_end` and the lengths that were added. -/
structure Cursor where
  pos : ℕ
  prevEnd : ℕ
  out : List ℕ

namespace Cursor

/-- `_add_token`. -/
def addToken (s : Cursor) (stop : ℕ) : Cursor :=
  { s with
    prevEnd := stop
    out := if 0 < stop - s.prevEnd then s.out ++ [stop - s.prevEnd] else s.out }

/-- `pos = stop; _add_token(pos);`. -/
def moveTo (s : Cursor) (stop : ℕ) : Cursor := { s.addToken stop with pos := stop }

/-- `pos += _add_token(stop);`. -/
def moveBy (s : Cursor) (stop : ℕ) : Cursor :=
  { s.addToken stop with pos := s.pos + (stop - s.prevEnd) }

end Cursor

/-! ## The splitters -/

section Steps

variable (U : UnicodeData) (g : Segment)

/-- The length of `'s`, `'t`, `'m`, `'d`, `'re`, `'ve` or `'ll` at a position, `0` without one. -/
def contraction (lower : ℕ → ℕ) (pos : ℕ) : ℕ :=
  if g.getCpt pos = '\''.toNat ∧ pos + 1 < g.stop then
    let next := lower (g.getCpt (pos + 1))
    if next = 's'.toNat ∨ next = 't'.toNat ∨ next = 'm'.toNat ∨ next = 'd'.toNat then 2
    else if pos + 2 < g.stop then
      let nextNext := lower (g.getCpt (pos + 2))
      if next = 'r'.toNat ∧ nextNext = 'e'.toNat ∨ next = 'v'.toNat ∧ nextNext = 'e'.toNat ∨
          next = 'l'.toNat ∧ nextNext = 'l'.toNat then 3
      else 0
    else 0
  else 0

/-- The branches for whitespace without a newline, which ends at `spaces`, and for what matches
nothing. -/
def whitespaceStep (s : Cursor) (spaces : ℕ) : Cursor :=
  if 1 < spaces - s.pos ∧ g.getCpt spaces ≠ outOfRangeCpt then s.moveTo (spaces - 1)
  else if 0 < spaces - s.pos then s.moveTo spaces
  else s.moveTo (s.pos + 1)

/-- One round of `unicode_regex_split_custom_gpt2`. -/
def gpt2Step (s : Cursor) : Cursor :=
  let isSpace : Bool := g.getCpt s.pos = ' '.toNat
  let flags2 := if isSpace then g.getFlags U (s.pos + 1) else g.getFlags U s.pos
  let start := if isSpace then s.pos + 1 else s.pos
  let short := contraction g id s.pos
  if 0 < short then s.moveBy (s.pos + short)
  else if flags2.isLetter then s.moveTo (g.advance (fun p => (g.getFlags U p).isLetter) start)
  else if flags2.isNumber then s.moveTo (g.advance (fun p => (g.getFlags U p).isNumber) start)
  else if flags2.isOther ∧ flags2.asUint ≠ 0 then
    s.moveTo (g.advance
      (fun p => (g.getFlags U p).isOther && (g.getFlags U p).asUint != 0) start)
  else whitespaceStep g s (g.advance (fun p => (g.getFlags U p).isWhitespace) s.pos)

/-- The loop for `\p{N}{1,3}` with its last `_add_token`; `ini` is where the word begins. -/
def numberLoop : ℕ → ℕ → Cursor → Cursor
  | 0, _, s => s.addToken s.pos
  | rounds + 1, ini, s =>
    if (g.getFlags U s.pos).isNumber then
      if 3 ≤ s.pos + 1 - ini then numberLoop rounds (s.pos + 1) (s.moveTo (s.pos + 1))
      else numberLoop rounds ini { s with pos := s.pos + 1 }
    else s.addToken s.pos

/-- `last_end_r_or_n`: behind the last newline of the whitespace, `0` without one. -/
def lastNewlineEnd (pos spaces : ℕ) : ℕ :=
  (List.range (spaces - pos)).foldl
    (fun last i => if isNewline (g.getCpt (pos + i)) then pos + i + 1 else last) 0

/-- One round of `unicode_regex_split_custom_llama3`. -/
def llama3Step (s : Cursor) : Cursor :=
  let cpt := g.getCpt s.pos
  let flags := g.getFlags U s.pos
  let isSpace : Bool := cpt = ' '.toNat
  let flags2 := if isSpace then g.getFlags U (s.pos + 1) else flags
  let short := contraction g U.toLower s.pos
  if 0 < short then s.moveBy (s.pos + short)
  else if ¬ (isNewline cpt ∨ flags.isNumber) ∧
      (flags.isLetter ∨ (g.getFlags U (s.pos + 1)).isLetter) then
    s.moveTo (g.advance (fun p => (g.getFlags U p).isLetter) (s.pos + 1))
  else if flags.isNumber then numberLoop U g (g.stop - s.pos) s.pos s
  else if flags2.isOther ∧ flags.asUint ≠ 0 then
    let stop := g.advance
      (fun p => (g.getFlags U p).isOther && (g.getFlags U p).asUint != 0)
      (if isSpace then s.pos + 1 else s.pos)
    s.moveTo (g.advance (fun p => isNewline (g.getCpt p)) stop)
  else
    let spaces := g.advance (fun p => (g.getFlags U p).isWhitespace) s.pos
    let lastEnd := lastNewlineEnd g s.pos spaces
    if 0 < lastEnd then s.moveTo lastEnd
    else whitespaceStep g s spaces

end Steps

/-- The loop of a splitter over one segment; every round moves on, so that there are at most as many
as code points. -/
def splitSegment (step : Segment → Cursor → Cursor) (cpts : List ℕ) (ini stop : ℕ) :
    Option (List ℕ) :=
  (whileLoop (fun s => s.pos < stop) (step ⟨cpts, ini, stop⟩) (stop - ini) ⟨ini, ini, []⟩).map
    Cursor.out

/-- The loop of a splitter over the segments from `start` on. -/
def splitOffsets (step : Segment → Cursor → Cursor) (cpts : List ℕ) :
    ℕ → List ℕ → Option (List ℕ)
  | _, [] => some []
  | start, offset :: offsets =>
    (splitSegment step cpts start (start + offset)).bind fun out =>
      (splitOffsets step cpts (start + offset) offsets).map (out ++ ·)

/-- `unicode_regex_split_custom_gpt2`. -/
def unicodeRegexSplitCustomGpt2 (U : UnicodeData) (cpts offsets : List ℕ) : Option (List ℕ) :=
  splitOffsets (gpt2Step U) cpts 0 offsets

/-- `unicode_regex_split_custom_llama3`. -/
def unicodeRegexSplitCustomLlama3 (U : UnicodeData) (cpts offsets : List ℕ) : Option (List ℕ) :=
  splitOffsets (llama3Step U) cpts 0 offsets

end IFairy.Unicode
