import IFairy.Framework.Occurrences
import Mathlib.Data.List.Find

/-!
# The partition at special tokens

`tokenizer_st_partition` cuts a text at the texts of the special tokens.  The text is a list of
fragments, tokens and slices of the text that are still raw, that is edited while it is gone
through: at every occurrence the slice is replaced by the part on the left, the token and the part
on the right, where the search goes on.  An iterator of the list is the index of its element, so it
moves when an element before it is erased.

The fragments are read as pieces, tokens and texts (`Fragment.piece`).  For tokens with a text and
without the attributes that strip blanks, the scan of a fragment replaces it by the pieces of its
text (`scanText_spec`), so the partition cuts the text at the enabled tokens one after the other and
written out it is the text (`fragmentBuffer_spec`).
-/

namespace IFairy.Vocab

/-! ## The data -/

/-- What the partition reads of the data of a token: its text and its attributes. -/
structure SpecialData where
  text : List UInt8
  attrControl : Bool
  attrUnknown : Bool
  attrLstrip : Bool
  attrRstrip : Bool

/-- `fragment_buffer_variant`; a raw text is a slice of the text that it refers to. -/
inductive Fragment where
  | token (id : ℤ)
  | rawText (rawText : List UInt8) (offset length : ℕ)

/-- The constructor of a raw text, with its assertions. -/
def Fragment.ofRawText (rawText : List UInt8) (offset length : ℕ) : Option Fragment :=
  if 1 ≤ length ∧ offset + length ≤ rawText.length then some (.rawText rawText offset length)
  else none

/-- `isspace` in the C locale. -/
def isspace (c : UInt8) : Bool := c == 32 || decide (9 ≤ c ∧ c ≤ 13)

/-- `std::string_view(raw_text.data(), stop).find(text, start)`. -/
def findFrom (rawText text : List UInt8) (stop start : ℕ) : Option ℕ :=
  (List.range' start (stop + 1 - text.length - start)).find? fun p =>
    text.isPrefixOf (rawText.drop p)

/-! ## One special token -/

/-- The variables of the loop over the text of a fragment. -/
structure TextScan where
  buffer : List Fragment
  it : ℕ
  rawTextBaseOffset : ℕ
  rawTextBaseLength : ℕ

/-- The loop for `LLAMA_TOKEN_ATTR_LSTRIP`. -/
def stripLeft (rawText : List UInt8) (offset : ℕ) : ℕ → ℕ
  | 0 => 0
  | n + 1 => if isspace (rawText.getD (offset + n) 0) then stripLeft rawText offset n else n + 1

/-- The loop for `LLAMA_TOKEN_ATTR_RSTRIP`: the offset and the length. -/
def stripRight (rawText : List UInt8) : ℕ → ℕ → ℕ × ℕ
  | offset, 0 => (offset, 0)
  | offset, n + 1 =>
    if isspace (rawText.getD offset 0) then stripRight rawText (offset + 1) n else (offset, n + 1)

/-- `buffer.emplace_after(it, x); it++;`. -/
def emplaceAfter (buffer : List Fragment) (it : ℕ) (x : Fragment) : List Fragment × ℕ :=
  (buffer.insertIdx (it + 1) x, it + 1)

/-- The same for a raw text, when it is not empty. -/
def emplaceRawText (buffer : List Fragment) (it : ℕ) (rawText : List UInt8) (offset length : ℕ) :
    Option (List Fragment × ℕ) :=
  if 0 < length then (Fragment.ofRawText rawText offset length).map (emplaceAfter buffer it)
  else some (buffer, it)

/-- What is done at a match, and whether the loop goes on with the part on the right. -/
def replaceMatch (data : SpecialData) (specialId : ℤ) (rawText : List UInt8) (s : TextScan)
    (pos : ℕ) : Option (TextScan × Bool) :=
  let source := s.it
  let leftLength := pos - s.rawTextBaseOffset
  let leftLength := if data.attrLstrip then stripLeft rawText s.rawTextBaseOffset leftLength
    else leftLength
  (if s.rawTextBaseOffset < pos then
    emplaceRawText s.buffer s.it rawText s.rawTextBaseOffset leftLength
  else some (s.buffer, s.it)).bind fun left =>
    let special := emplaceAfter left.1 left.2 (.token specialId)
    if pos + data.text.length < s.rawTextBaseOffset + s.rawTextBaseLength then
      let rightOffset := pos + data.text.length
      let rightLength := s.rawTextBaseLength - (pos - s.rawTextBaseOffset + data.text.length)
      let right := if data.attrRstrip then stripRight rawText rightOffset rightLength
        else (rightOffset, rightLength)
      (emplaceRawText special.1 special.2 rawText right.1 right.2).map fun added =>
        (⟨added.1.eraseIdx source, added.2 - 1, right.1, right.2⟩, true)
    else
      some (⟨special.1.eraseIdx source, special.2 - 1, s.rawTextBaseOffset,
        s.rawTextBaseLength⟩, false)

/-- The loop over the text of a fragment: the buffer and the iterator after it. -/
def scanText (data : SpecialData) (specialId : ℤ) (rawText : List UInt8) :
    ℕ → TextScan → Option (List Fragment × ℕ)
  | 0, _ => none
  | fuel + 1, s =>
    (findFrom rawText data.text (s.rawTextBaseOffset + s.rawTextBaseLength)
      s.rawTextBaseOffset).elim (some (s.buffer, s.it)) fun pos =>
        (replaceMatch data specialId rawText s pos).bind fun x =>
          if x.2 then scanText data specialId rawText fuel x.1 else some (x.1.buffer, x.1.it)

def scanFragments (data : SpecialData) (specialId : ℤ) :
    ℕ → List Fragment → ℕ → Option (List Fragment)
  | 0, _, _ => none
  | fuel + 1, buffer, it =>
    match buffer[it]? with
    | none => some buffer
    | some (.token _) => scanFragments data specialId fuel buffer (it + 1)
    | some (.rawText rawText offset length) =>
      (scanText data specialId rawText (length + 1) ⟨buffer, it, offset, length⟩).bind fun x =>
        scanFragments data specialId fuel x.1 (x.2 + 1)

/-! ## The whole partition -/

/-- What the partition reads of the vocabulary. -/
structure SpecialVocab where
  cacheSpecialTokens : List ℤ
  tokenData : ℤ → SpecialData

namespace SpecialVocab

/-- The token is looked for: control and unknown tokens are only with `parse_special`. -/
def isEnabled (vocab : SpecialVocab) (parseSpecial : Bool) (specialId : ℤ) : Bool :=
  parseSpecial || !((vocab.tokenData specialId).attrControl ||
    (vocab.tokenData specialId).attrUnknown)

/-- `tokenizer_st_partition`; every fragment is visited once for each token, and a round for each
byte is enough fuel for its text. -/
def tokenizerStPartition (vocab : SpecialVocab) (parseSpecial : Bool) (buffer : List Fragment) :
    Option (List Fragment) :=
  vocab.cacheSpecialTokens.foldlM (fun buffer specialId =>
    if vocab.isEnabled parseSpecial specialId then
      scanFragments (vocab.tokenData specialId) specialId (buffer.length + 1) buffer 0
    else some buffer) buffer

/-- The buffer for a text, which `tokenize` makes and gives to the partition. -/
def fragmentBuffer (vocab : SpecialVocab) (parseSpecial : Bool) (rawText : List UInt8) :
    Option (List Fragment) :=
  if rawText = [] then some []
  else (Fragment.ofRawText rawText 0 rawText.length).bind fun fragment =>
    vocab.tokenizerStPartition parseSpecial [fragment]

end SpecialVocab

/-! ## Fragments as pieces -/

def slice (rawText : List UInt8) (offset length : ℕ) : List UInt8 :=
  (rawText.drop offset).take length

def Fragment.piece : Fragment → ℤ ⊕ List UInt8
  | .token id => .inl id
  | .rawText raw offset length => .inr (slice raw offset length)

/-- A raw text is a slice of its text and not empty. -/
def Fragment.Valid : Fragment → Prop
  | .token _ => True
  | .rawText raw offset length => 1 ≤ length ∧ offset + length ≤ raw.length

variable {rawText : List UInt8} {offset length : ℕ}

lemma length_slice (h : offset + length ≤ rawText.length) :
    (slice rawText offset length).length = length := by
  rw [slice, List.length_take, List.length_drop]
  omega

lemma drop_slice (n : ℕ) :
    (slice rawText offset length).drop n = slice rawText (offset + n) (length - n) := by
  rw [slice, slice, List.drop_take, List.drop_drop]

lemma take_slice {n : ℕ} (h : n ≤ length) :
    (slice rawText offset length).take n = slice rawText offset n := by
  rw [slice, slice, List.take_take, min_eq_left h]

lemma ofRawText_eq (hlength : 1 ≤ length) (h : offset + length ≤ rawText.length) :
    Fragment.ofRawText rawText offset length = some (.rawText rawText offset length) :=
  if_pos ⟨hlength, h⟩

lemma findFrom_slice (text : List UInt8) (h : offset + length ≤ rawText.length) :
    findFrom rawText text (offset + length) offset =
      (firstOccurrence text (slice rawText offset length)).map (offset + ·) := by
  rw [findFrom, firstOccurrence, length_slice h,
    show offset + length + 1 - text.length - offset = length + 1 - text.length by omega,
    List.range'_eq_map_range, List.find?_map]
  congr 1
  refine List.find?_congr fun p hp => ?_
  have hp := List.mem_range.1 hp
  rw [drop_slice, Bool.eq_iff_iff, List.isPrefixOf_iff_prefix, Function.comp_apply,
    List.isPrefixOf_iff_prefix, slice, List.prefix_take_iff]
  exact (and_iff_left (by omega)).symm

/-- The fragments of a slice that is not empty, of an empty one none. -/
def rawFragments (rawText : List UInt8) (offset length : ℕ) : List Fragment :=
  if 0 < length then [.rawText rawText offset length] else []

lemma rawFragments_of_pos (h : 0 < length) :
    rawFragments rawText offset length = [.rawText rawText offset length] := if_pos h

lemma map_piece_rawFragments (h : offset + length ≤ rawText.length) :
    (rawFragments rawText offset length).map Fragment.piece =
      rawPiece (slice rawText offset length) := by
  have hlength := length_slice h
  rw [rawFragments, rawPiece]
  split_ifs with hpos hempty hempty
  · rw [List.isEmpty_iff_length_eq_zero] at hempty
    omega
  · rfl
  · rfl
  · rw [List.isEmpty_iff_length_eq_zero] at hempty
    omega

lemma valid_rawFragments (h : offset + length ≤ rawText.length) {f : Fragment}
    (hf : f ∈ rawFragments rawText offset length) : f.Valid := by
  rw [rawFragments] at hf
  split_ifs at hf with hpos
  · obtain rfl := List.mem_singleton.1 hf
    exact ⟨hpos, h⟩
  · cases hf

/-! ## Editing the buffer -/

variable {front rest : List Fragment} {n : ℕ}

lemma emplaceAfter_append (h : front.length = n + 1) (x : Fragment) :
    emplaceAfter (front ++ rest) n x = (front ++ [x] ++ rest, n + 1) := by
  rw [emplaceAfter, ← h, List.append_assoc]
  congr 1
  clear h
  induction front with
  | nil => rfl
  | cons z front ih => exact congrArg (z :: ·) ih

lemma emplaceRawText_append (h : front.length = n + 1) (hle : offset + length ≤ rawText.length) :
    emplaceRawText (front ++ rest) n rawText offset length =
      some (front ++ rawFragments rawText offset length ++ rest,
        n + (rawFragments rawText offset length).length) := by
  rw [emplaceRawText, rawFragments]
  split_ifs with hpos
  · rw [ofRawText_eq hpos hle, Option.map_some, emplaceAfter_append h]
    rfl
  · rw [List.append_nil]
    rfl

lemma eraseIdx_append (front mid rest : List Fragment) (x : Fragment) :
    (front ++ [x] ++ mid ++ rest).eraseIdx front.length = front ++ mid ++ rest := by
  rw [List.append_assoc, List.append_assoc,
    List.eraseIdx_append_of_length_le (Nat.le_refl _), Nat.sub_self, List.singleton_append,
    List.eraseIdx_cons_zero, List.append_assoc]

/-! ## A fragment -/

section Scan

variable {data : SpecialData} {specialId : ℤ}

/-- The fragments on the left of a match, and the token. -/
def leftFragments (rawText : List UInt8) (specialId : ℤ) (offset p : ℕ) : List Fragment :=
  rawFragments rawText offset p ++ [.token specialId]

lemma length_leftFragments_pos (rawText : List UInt8) (specialId : ℤ) (offset p : ℕ) :
    0 < (leftFragments rawText specialId offset p).length := by
  rw [leftFragments, List.length_append, List.length_singleton]
  exact Nat.succ_pos _

lemma replaceMatch_eq (hl : data.attrLstrip = false) (hr : data.attrRstrip = false)
    (hle : offset + length ≤ rawText.length) {p : ℕ} (hp : p + data.text.length ≤ length)
    (x : Fragment) :
    replaceMatch data specialId rawText ⟨front ++ x :: rest, front.length, offset, length⟩
        (offset + p) =
      some (if p + data.text.length < length then
        (⟨front ++ leftFragments rawText specialId offset p ++
            .rawText rawText (offset + (p + data.text.length))
              (length - (p + data.text.length)) :: rest,
          (front ++ leftFragments rawText specialId offset p).length,
          offset + (p + data.text.length), length - (p + data.text.length)⟩, true)
      else
        (⟨front ++ leftFragments rawText specialId offset p ++ rest,
          (front ++ leftFragments rawText specialId offset p).length - 1, offset, length⟩,
          false)) := by
  have hleft : (if offset < offset + p then
      emplaceRawText (front ++ x :: rest) front.length rawText offset p
    else some (front ++ x :: rest, front.length)) =
      some (front ++ [x] ++ rawFragments rawText offset p ++ rest,
        front.length + (rawFragments rawText offset p).length) := by
    rw [List.append_cons]
    split_ifs with hpos
    · exact emplaceRawText_append (by rw [List.length_append, List.length_singleton]) (by omega)
    · rw [rawFragments, if_neg (by omega), List.append_nil]
      rfl
  have hspecial : (front ++ [x] ++ rawFragments rawText offset p).length =
      front.length + (rawFragments rawText offset p).length + 1 := by
    rw [List.length_append, List.length_append, List.length_singleton]
    omega
  have hlength : (front ++ leftFragments rawText specialId offset p).length =
      front.length + (rawFragments rawText offset p).length + 1 := by
    rw [leftFragments, List.length_append, List.length_append, List.length_singleton]
    omega
  have herase : ∀ tail, (front ++ [x] ++ rawFragments rawText offset p ++
      [Fragment.token specialId] ++ tail).eraseIdx front.length =
        front ++ leftFragments rawText specialId offset p ++ tail := by
    intro tail
    rw [List.append_assoc (front ++ [x]), ← leftFragments, eraseIdx_append]
  rw [replaceMatch]
  simp only [hl, hr, Bool.false_eq_true, if_false, Nat.add_sub_cancel_left]
  rw [hleft, Option.bind_some, emplaceAfter_append hspecial, hlength]
  have hiff : offset + p + data.text.length < offset + length ↔
      p + data.text.length < length := by omega
  simp only [hiff]
  split_ifs with hmore
  · rw [emplaceRawText_append (by rw [List.length_append, hspecial, List.length_singleton])
      (by omega), rawFragments_of_pos (show 0 < length - (p + data.text.length) by omega),
      Option.map_some, List.append_assoc _ _ rest,
      herase, Nat.add_assoc offset]
    rfl
  · rw [herase]

lemma map_piece_leftFragments {p : ℕ} (hp : p ≤ length)
    (hle : offset + length ≤ rawText.length) :
    (leftFragments rawText specialId offset p).map Fragment.piece =
      rawPiece ((slice rawText offset length).take p) ++ [.inl specialId] := by
  rw [leftFragments, List.map_append, map_piece_rawFragments (by omega), take_slice hp]
  rfl

lemma valid_leftFragments {p : ℕ} (hp : p ≤ length) (hle : offset + length ≤ rawText.length)
    {f : Fragment} (hf : f ∈ leftFragments rawText specialId offset p) : f.Valid := by
  rcases List.mem_append.1 hf with hf | hf
  · exact valid_rawFragments (by omega) hf
  · obtain rfl := List.mem_singleton.1 hf
    exact trivial

variable (specialId) in
lemma scanText_spec (hl : data.attrLstrip = false) (hr : data.attrRstrip = false)
    (htext : data.text ≠ []) {fuel : ℕ} (front rest : List Fragment)
    (hlength : 1 ≤ length) (hle : offset + length ≤ rawText.length) (hfuel : length < fuel) :
    ∃ frags, scanText data specialId rawText fuel
        ⟨front ++ .rawText rawText offset length :: rest, front.length, offset, length⟩ =
          some (front ++ frags ++ rest, (front ++ frags).length - 1) ∧ frags ≠ [] ∧
      frags.map Fragment.piece = cut data.text specialId (slice rawText offset length) ∧
      ∀ f ∈ frags, f.Valid := by
  induction fuel generalizing front offset length with
  | zero => exact absurd hfuel (Nat.not_lt_zero _)
  | succ fuel ih =>
    rw [scanText, findFrom_slice data.text hle]
    rcases hfirst : firstOccurrence data.text (slice rawText offset length) with - | p
    · refine ⟨[.rawText rawText offset length], ?_, List.cons_ne_nil _ _, ?_, ?_⟩
      · rw [Option.map_none, Option.elim_none, List.append_assoc, List.length_append]
        rfl
      · rw [cut_of_none htext _ hfirst, ← map_piece_rawFragments hle,
          rawFragments_of_pos hlength]
      · intro f hf
        obtain rfl := List.mem_singleton.1 hf
        exact ⟨hlength, hle⟩
    · have hp := (firstOccurrence_eq_some_iff.1 hfirst).2.1
      have hpos := List.length_pos_iff.2 htext
      rw [length_slice hle] at hp
      rw [Option.map_some, Option.elim_some, replaceMatch_eq hl hr hle hp, Option.bind_some,
        cut_of_some htext _ hfirst, drop_slice]
      by_cases hmore : p + data.text.length < length
      · obtain ⟨frags, hscan, hne, hpieces, hvalid⟩ :=
          ih (front ++ leftFragments rawText specialId offset p)
            (show 1 ≤ length - (p + data.text.length) by omega)
            (show offset + (p + data.text.length) + (length - (p + data.text.length)) ≤
              rawText.length by omega) (by omega)
        refine ⟨leftFragments rawText specialId offset p ++ frags, ?_, ?_, ?_, ?_⟩
        · rw [if_pos hmore, if_pos rfl, hscan, List.append_assoc front]
        · exact fun h => hne (List.append_eq_nil_iff.1 h).2
        · rw [List.map_append, hpieces, map_piece_leftFragments (by omega) hle,
            List.append_assoc]
          rfl
        · intro f hf
          rcases List.mem_append.1 hf with hf | hf
          · exact valid_leftFragments (by omega) hle hf
          · exact hvalid f hf
      · refine ⟨leftFragments rawText specialId offset p, ?_, ?_, ?_, ?_⟩
        · rw [if_neg hmore, if_neg Bool.false_ne_true]
        · exact List.length_pos_iff.1 (length_leftFragments_pos _ _ _ _)
        · have hend : cut data.text specialId (slice rawText (offset + (p + data.text.length))
              (length - (p + data.text.length))) = [] := by
            rw [show length - (p + data.text.length) = 0 by omega, slice, List.take_zero]
            rfl
          rw [hend, map_piece_leftFragments (by omega) hle]
        · exact fun f hf => valid_leftFragments (by omega) hle hf

/-! ## All fragments -/

variable (specialId) in
lemma scanFragments_spec (hl : data.attrLstrip = false) (hr : data.attrRstrip = false)
    (htext : data.text ≠ []) (front buffer : List Fragment) (hvalid : ∀ f ∈ buffer, f.Valid)
    {fuel : ℕ} (hfuel : buffer.length < fuel) :
    ∃ frags, scanFragments data specialId fuel (front ++ buffer) front.length =
        some (front ++ frags) ∧
      frags.map Fragment.piece = cutPieces data.text specialId (buffer.map Fragment.piece) ∧
      ∀ f ∈ frags, f.Valid := by
  induction buffer generalizing front fuel with
  | nil =>
    obtain ⟨fuel, rfl⟩ := Nat.exists_eq_succ_of_ne_zero (Nat.ne_of_gt (Nat.zero_lt_of_lt hfuel))
    refine ⟨[], ?_, rfl, fun f hf => absurd hf (List.not_mem_nil)⟩
    rw [scanFragments, List.append_nil, List.getElem?_eq_none (Nat.le_refl _)]
  | cons x buffer ih =>
    obtain ⟨fuel, rfl⟩ := Nat.exists_eq_succ_of_ne_zero (Nat.ne_of_gt (Nat.zero_lt_of_lt hfuel))
    have hbuffer : ∀ f ∈ buffer, f.Valid := fun f hf => hvalid f (List.mem_cons_of_mem _ hf)
    have hshort : buffer.length < fuel := Nat.lt_of_succ_lt_succ hfuel
    have hx : (front ++ x :: buffer)[front.length]? = some x := by
      rw [List.getElem?_append_right (Nat.le_refl _), Nat.sub_self]
      rfl
    cases x with
    | token id =>
      obtain ⟨frags, hscan, hpieces, hfrags⟩ := ih (front ++ [.token id]) hbuffer hshort
      rw [List.length_append, List.length_singleton] at hscan
      refine ⟨.token id :: frags, ?_, ?_, ?_⟩
      · rw [scanFragments, hx]
        dsimp only
        rw [List.append_cons, hscan, ← List.append_cons]
      · rw [List.map_cons, hpieces]
        rfl
      · intro f hf
        rcases List.mem_cons.1 hf with rfl | hf
        · exact trivial
        · exact hfrags f hf
    | rawText raw offset length =>
      obtain ⟨hlength, hle⟩ := hvalid _ List.mem_cons_self
      obtain ⟨cutFrags, hcut, hne, hcutPieces, hcutValid⟩ := scanText_spec
        specialId hl hr htext front buffer hlength hle (Nat.lt_succ_self length)
      obtain ⟨frags, hscan, hpieces, hfrags⟩ := ih (front ++ cutFrags) hbuffer hshort
      have hindex : (front ++ cutFrags).length - 1 + 1 = (front ++ cutFrags).length := by
        have hpos := List.length_pos_iff.2 hne
        rw [List.length_append]
        omega
      refine ⟨cutFrags ++ frags, ?_, ?_, ?_⟩
      · rw [scanFragments, hx]
        dsimp only
        rw [hcut, Option.bind_some, hindex, hscan, List.append_assoc]
      · rw [List.map_append, hcutPieces, hpieces]
        rfl
      · intro f hf
        rcases List.mem_append.1 hf with hf | hf
        · exact hcutValid f hf
        · exact hfrags f hf

end Scan

/-! ## The whole partition -/

namespace SpecialVocab

variable {vocab : SpecialVocab}

def expand (vocab : SpecialVocab) : ℤ ⊕ List UInt8 → List UInt8 :=
  Sum.elim (fun id => (vocab.tokenData id).text) id

/-- The pieces after the enabled tokens were processed one after the other. -/
def processed (vocab : SpecialVocab) (parseSpecial : Bool) (tokens : List ℤ)
    (pieces : List (ℤ ⊕ List UInt8)) : List (ℤ ⊕ List UInt8) :=
  (tokens.filter (vocab.isEnabled parseSpecial)).foldl
    (fun pieces id => cutPieces (vocab.tokenData id).text id pieces) pieces

/-- The special tokens have a text, and none of them strips blanks. -/
def Plain (vocab : SpecialVocab) : Prop := ∀ id ∈ vocab.cacheSpecialTokens,
  (vocab.tokenData id).text ≠ [] ∧ (vocab.tokenData id).attrLstrip = false ∧
    (vocab.tokenData id).attrRstrip = false

lemma expand_processed {tokens : List ℤ} (h : ∀ id ∈ tokens, (vocab.tokenData id).text ≠ [])
    (parseSpecial : Bool) (pieces : List (ℤ ⊕ List UInt8)) :
    (vocab.processed parseSpecial tokens pieces).flatMap vocab.expand =
      pieces.flatMap vocab.expand := by
  rw [processed]
  induction tokens generalizing pieces with
  | nil => rfl
  | cons token tokens ih =>
    have htokens := ih fun id hid => h id (List.mem_cons_of_mem _ hid)
    rw [List.filter_cons]
    split_ifs with henabled
    · rw [List.foldl_cons, htokens]
      exact flatMap_cutPieces (fun _ => rfl) (h token List.mem_cons_self) rfl pieces
    · exact htokens pieces

lemma processed_nil (parseSpecial : Bool) (tokens : List ℤ) :
    vocab.processed parseSpecial tokens [] = [] := by
  rw [processed]
  induction tokens.filter (vocab.isEnabled parseSpecial) with
  | nil => rfl
  | cons token tokens ih => exact ih

lemma foldlM_spec (parseSpecial : Bool) {tokens : List ℤ}
    (h : ∀ id ∈ tokens, (vocab.tokenData id).text ≠ [] ∧
      (vocab.tokenData id).attrLstrip = false ∧ (vocab.tokenData id).attrRstrip = false)
    {buffer : List Fragment} (hvalid : ∀ f ∈ buffer, f.Valid) :
    ∃ out, tokens.foldlM (fun buffer specialId =>
        if vocab.isEnabled parseSpecial specialId then
          scanFragments (vocab.tokenData specialId) specialId (buffer.length + 1) buffer 0
        else some buffer) buffer = some out ∧
      out.map Fragment.piece =
        vocab.processed parseSpecial tokens (buffer.map Fragment.piece) := by
  induction tokens generalizing buffer with
  | nil => exact ⟨buffer, rfl, rfl⟩
  | cons token tokens ih =>
    have htokens := fun id hid => h id (List.mem_cons_of_mem _ hid)
    obtain ⟨htext, hl, hr⟩ := h token List.mem_cons_self
    rw [List.foldlM_cons, processed, List.filter_cons]
    by_cases henabled : vocab.isEnabled parseSpecial token = true
    · obtain ⟨frags, hscan, hpieces, hfrags⟩ := scanFragments_spec token hl hr htext
        [] buffer hvalid (Nat.lt_succ_self _)
      obtain ⟨out, hloop, hout⟩ := ih htokens hfrags
      refine ⟨out, ?_, ?_⟩
      · rw [if_pos henabled]
        rw [List.nil_append, List.nil_append] at hscan
        exact (congrArg (Option.bind · _) hscan).trans hloop
      · rw [if_pos henabled, List.foldl_cons, ← hpieces]
        exact hout
    · obtain ⟨out, hloop, hout⟩ := ih htokens hvalid
      rw [if_neg henabled, if_neg henabled]
      exact ⟨out, hloop, hout⟩

/-- The partition ends with fragments that are the text, cut at the enabled special tokens one after
the other. -/
theorem fragmentBuffer_spec (vocab : SpecialVocab) (hvocab : vocab.Plain) (parseSpecial : Bool)
    (text : List UInt8) :
    ∃ buffer, vocab.fragmentBuffer parseSpecial text = some buffer ∧
      (buffer.map Fragment.piece).flatMap vocab.expand = text ∧
      buffer.map Fragment.piece =
        vocab.processed parseSpecial vocab.cacheSpecialTokens (rawPiece text) := by
  have hexpand := expand_processed (fun id hid => (hvocab id hid).1) parseSpecial
    (rawPiece text)
  rw [flatMap_rawPiece fun _ => rfl] at hexpand
  rw [fragmentBuffer]
  by_cases htext : text = []
  · subst htext
    exact ⟨[], if_pos rfl, rfl, (processed_nil _ _).symm⟩
  · have hlength := List.length_pos_iff.2 htext
    have hvalid : ∀ f ∈ [Fragment.rawText text 0 text.length], f.Valid := by
      intro f hf
      obtain rfl := List.mem_singleton.1 hf
      exact ⟨hlength, (Nat.zero_add _).le⟩
    obtain ⟨buffer, hbuffer, hpieces⟩ := foldlM_spec parseSpecial hvocab hvalid
    have hwhole : [Fragment.rawText text 0 text.length].map Fragment.piece = rawPiece text := by
      rw [← rawFragments_of_pos hlength, map_piece_rawFragments (Nat.zero_add _).le, slice,
        List.drop_zero, List.take_length]
    rw [hwhole] at hpieces
    refine ⟨buffer, ?_, hpieces ▸ hexpand, hpieces⟩
    rw [if_neg htext, ofRawText_eq hlength (Nat.zero_add _).le]
    exact hbuffer

/-- The bytes of `<s>` and `<ss>`, a control token and a token of the user. -/
def twoTokens : SpecialVocab where
  cacheSpecialTokens := [2, 1]
  tokenData := fun id =>
    if id = 2 then ⟨[60, 115, 115, 62], false, false, false, false⟩
    else ⟨[60, 115, 62], true, false, false, false⟩

theorem fragmentBuffer_spec_twoTokens :
    ∃ buffer, twoTokens.fragmentBuffer true [60, 115, 62, 60, 115, 62, 97, 60, 115, 115, 62] =
        some buffer ∧
      buffer.map Fragment.piece = [.inl 1, .inl 1, .inr [97], .inl 2] := by
  obtain ⟨buffer, hbuffer, -, hpieces⟩ := fragmentBuffer_spec twoTokens
    (by unfold Plain; decide) true [60, 115, 62, 60, 115, 62, 97, 60, 115, 115, 62]
  exact ⟨buffer, hbuffer, hpieces.trans (by decide)⟩

end SpecialVocab

end IFairy.Vocab
