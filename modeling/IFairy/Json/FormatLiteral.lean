import IFairy.Grammar.Parser

/-!
# Constants of a schema as literals of a grammar

A constant, an entry of an enumeration and the name of a property come into the grammar as a
literal: their JSON text, with quotes and line breaks escaped (`formatLiteral`).  Backslashes are
not escaped, although the parser of grammars has escapes of its own.  The literal spells the JSON
text exactly when no string in the value has a character that JSON escapes
(`readsBack_dump_iff`).
-/

namespace IFairy.JsonSchema

open LlamaGrammar

/-! ## JSON texts -/

/-- The text of a number. -/
structure NumberText where
  chars : List Char
  valid : ∀ c ∈ chars, c ∈ ['0', '1', '2', '3', '4', '5', '6', '7', '8', '9', '+', '-', '.', 'e']
  deriving DecidableEq

/-- `nlohmann::ordered_json`, less the binary values, which no schema has. -/
inductive Json where
  | null
  | bool (b : Bool)
  | number (n : NumberText)
  | string (s : List Char)
  | array (values : List Json)
  | object (members : List (List Char × Json))

/-- A lower-case hexadecimal digit. -/
def hexDigitChar (d : ℕ) : Char := if d < 10 then Char.ofNat (0x30 + d) else Char.ofNat (0x57 + d)

/-- A character as `dump_escaped` writes it. -/
def escapeChar (c : Char) : List Char :=
  if c = '\x08' then ['\\', 'b']
  else if c = '\t' then ['\\', 't']
  else if c = '\n' then ['\\', 'n']
  else if c = '\x0c' then ['\\', 'f']
  else if c = '\r' then ['\\', 'r']
  else if c = '"' then ['\\', '"']
  else if c = '\\' then ['\\', '\\']
  else if c.toNat ≤ 0x1f then
    ['\\', 'u', '0', '0', hexDigitChar (c.toNat / 16), hexDigitChar (c.toNat % 16)]
  else [c]

def dumpString (s : List Char) : List Char := '"' :: (s.flatMap escapeChar ++ ['"'])

mutual

/-- `dump`. -/
def dump : Json → List Char
  | .null => "null".toList
  | .bool true => "true".toList
  | .bool false => "false".toList
  | .number n => n.chars
  | .string s => dumpString s
  | .array values => '[' :: (dumpValues values ++ [']'])
  | .object members => '{' :: (dumpMembers members ++ ['}'])

/-- The values of an array, with commas between them. -/
def dumpValues : List Json → List Char
  | [] => []
  | [v] => dump v
  | v :: values => dump v ++ ',' :: dumpValues values

/-- The members of an object, with commas between them. -/
def dumpMembers : List (List Char × Json) → List Char
  | [] => []
  | [(key, v)] => dumpString key ++ ':' :: dump v
  | (key, v) :: members => dumpString key ++ ':' :: (dump v ++ ',' :: dumpMembers members)

end

/-! ## Literals -/

/-- `GRAMMAR_LITERAL_ESCAPES` on the characters of `GRAMMAR_LITERAL_ESCAPE_RE`. -/
def literalEscape (c : Char) : List Char :=
  if c = '\r' then ['\\', 'r']
  else if c = '\n' then ['\\', 'n']
  else if c = '"' then ['\\', '"']
  else [c]

/-- `format_literal`. -/
def formatLiteral (literal : List Char) : List Char :=
  '"' :: (literal.flatMap literalEscape ++ ['"'])

/-- The parser of grammars, behind the opening quote of the literal, takes the whole literal and
gives its characters, whatever follows. -/
def ReadsBack (literal : List Char) : Prop :=
  ∀ rest, parseLiteral (((formatLiteral literal).tail ++ rest).length + 1)
    ((formatLiteral literal).tail ++ rest) = .ok (literal.map Char.toNat, rest)

/-- JSON does not escape the character. -/
def Unescaped (c : Char) : Prop := c ≠ '"' ∧ c ≠ '\\' ∧ 0x1f < c.toNat

mutual

/-- No string in the value has a character that JSON escapes. -/
def NoEscapes : Json → Prop
  | .null | .bool _ | .number _ => True
  | .string s => ∀ c ∈ s, Unescaped c
  | .array values => NoEscapesValues values
  | .object members => NoEscapesMembers members

def NoEscapesValues : List Json → Prop
  | [] => True
  | v :: values => NoEscapes v ∧ NoEscapesValues values

def NoEscapesMembers : List (List Char × Json) → Prop
  | [] => True
  | (key, v) :: members => (∀ c ∈ key, Unescaped c) ∧ NoEscapes v ∧ NoEscapesMembers members

end

/-! ## Texts without backslashes -/

lemma parseChar_literalEscape {c : Char} (hc : c ≠ '\\') (rest : List Char) :
    ∃ d ds, literalEscape c = d :: ds ∧ d ≠ '"' ∧
      parseChar (literalEscape c ++ rest) = .ok (c.toNat, rest) := by
  rw [literalEscape]
  split_ifs with hr hn hq
  · exact ⟨_, _, rfl, by decide, by rw [hr]; rfl⟩
  · exact ⟨_, _, rfl, by decide, by rw [hn]; rfl⟩
  · exact ⟨_, _, rfl, by decide, by rw [hq]; rfl⟩
  · exact ⟨_, _, rfl, hq, if_neg hc⟩

lemma parseLiteral_succ {fuel : ℕ} {c : Char} (hc : c ≠ '"') (pos : List Char) :
    parseLiteral (fuel + 1) (c :: pos) =
      (parseChar (c :: pos)).bind fun r =>
        (parseLiteral fuel r.2).map fun r' => (r.1 :: r'.1, r'.2) := by
  rw [parseLiteral, if_neg hc]

lemma parseLiteral_of_parseChar {fuel value : ℕ} {d : Char} {ds pos : List Char} (hd : d ≠ '"')
    (h : parseChar (d :: ds) = .ok (value, pos)) :
    parseLiteral (fuel + 1) (d :: ds) =
      (parseLiteral fuel pos).map fun r => (value :: r.1, r.2) := by
  rw [parseLiteral_succ hd, h]
  rfl

lemma parseLiteral_literal {t : List Char} (ht : '\\' ∉ t) (rest : List Char) {fuel : ℕ}
    (hfuel : t.length < fuel) :
    parseLiteral fuel (t.flatMap literalEscape ++ ('"' :: rest)) =
      .ok (t.map Char.toNat, rest) := by
  induction t generalizing fuel with
  | nil =>
    obtain ⟨fuel, rfl⟩ : ∃ n, fuel = n + 1 := ⟨fuel - 1, by simp at hfuel; omega⟩
    rw [List.flatMap_nil, List.nil_append, parseLiteral, if_pos rfl]
    rfl
  | cons c t ih =>
    obtain ⟨fuel, rfl⟩ : ∃ n, fuel = n + 1 := ⟨fuel - 1, by simp at hfuel; omega⟩
    rw [List.mem_cons, not_or] at ht
    obtain ⟨d, ds, hds, hd, hchar⟩ := parseChar_literalEscape (Ne.symm ht.1)
      (t.flatMap literalEscape ++ ('"' :: rest))
    rw [List.flatMap_cons, List.append_assoc]
    rw [hds, List.cons_append] at hchar ⊢
    rw [parseLiteral_of_parseChar hd hchar,
      ih ht.2 (Nat.lt_of_succ_lt_succ (by simpa using hfuel))]
    rfl

lemma length_le_flatMap_literalEscape (t : List Char) :
    t.length ≤ (t.flatMap literalEscape).length := by
  induction t with
  | nil => exact Nat.le_refl 0
  | cons c t ih =>
    have hpos : 1 ≤ (literalEscape c).length := by
      rw [literalEscape]
      split_ifs <;> exact Nat.succ_le_succ (Nat.zero_le _)
    rw [List.flatMap_cons, List.length_append, List.length_cons]
    omega

lemma readsBack_of_not_mem {t : List Char} (ht : '\\' ∉ t) : ReadsBack t := by
  intro rest
  have hlength := length_le_flatMap_literalEscape t
  rw [formatLiteral, List.tail_cons, List.append_assoc, List.singleton_append]
  refine parseLiteral_literal ht rest ?_
  rw [List.length_append]
  omega

/-! ## Texts with backslashes -/

/-- A text in which every backslash begins an escape of JSON; `n` is the number of its characters
and escapes. -/
inductive Escaped : ℕ → List Char → Prop
  | nil : Escaped 0 []
  | char {n t c} : c ≠ '\\' → Escaped n t → Escaped (n + 1) (c :: t)
  | escape {n t e} : e ∈ ['"', '\\', 'b', 'f', 'n', 'r', 't'] → Escaped n t →
      Escaped (n + 1) ('\\' :: e :: t)
  | unicode {n t h l} : (hexValue h).isSome = true → (hexValue l).isSome = true → Escaped n t →
      Escaped (n + 1) ('\\' :: 'u' :: '0' :: '0' :: h :: l :: t)

lemma Escaped.append {m n : ℕ} {t u : List Char} (ht : Escaped m t) (hu : Escaped n u) :
    ∃ k, Escaped k (t ++ u) := by
  induction ht with
  | nil => exact ⟨n, hu⟩
  | char hc _ ih =>
    obtain ⟨k, hk⟩ := ih
    exact ⟨k + 1, .char hc hk⟩
  | escape he _ ih =>
    obtain ⟨k, hk⟩ := ih
    exact ⟨k + 1, .escape he hk⟩
  | unicode hh hl _ ih =>
    obtain ⟨k, hk⟩ := ih
    exact ⟨k + 1, .unicode hh hl hk⟩

lemma Escaped.le_length {n : ℕ} {t : List Char} (h : Escaped n t) : n ≤ t.length := by
  induction h <;> simp only [List.length_nil, List.length_cons] <;> omega

lemma Escaped.lt_length {n : ℕ} {t : List Char} (h : Escaped n t) (ht : '\\' ∈ t) :
    n < t.length := by
  induction h with
  | nil => cases ht
  | char hc _ ih =>
    rcases List.mem_cons.1 ht with h | h
    · exact absurd h.symm hc
    · exact Nat.succ_lt_succ (ih h)
  | escape _ h _ =>
    have := h.le_length
    simp only [List.length_cons]
    omega
  | unicode _ _ h _ =>
    have := h.le_length
    simp only [List.length_cons]
    omega

lemma literalEscape_backslash : literalEscape '\\' = ['\\'] := by
  decide

lemma literalEscape_hex {h : Char} (hh : (hexValue h).isSome = true) : literalEscape h = [h] := by
  rw [literalEscape]
  split_ifs with hr hn hq
  · rw [hr] at hh
    exact absurd hh (by decide)
  · rw [hn] at hh
    exact absurd hh (by decide)
  · rw [hq] at hh
    exact absurd hh (by decide)
  · rfl

lemma Escaped.length_le_of_parseLiteral {n : ℕ} {t : List Char} (h : Escaped n t) {fuel : ℕ}
    {rest : List Char} {values : List ℕ} {pos : List Char}
    (hparse : parseLiteral fuel (t.flatMap literalEscape ++ ('"' :: rest)) = .ok (values, pos)) :
    values.length ≤ n := by
  -- a round of the loop that takes a character and goes on with the text of `t'`
  have hround : ∀ {n : ℕ} {t' : List Char} {fuel : ℕ} {values : List ℕ} {value : ℕ} {d : Char}
      {ds : List Char}, d ≠ '"' →
      parseChar (d :: ds) = .ok (value, t'.flatMap literalEscape ++ ('"' :: rest)) →
      parseLiteral fuel (d :: ds) = .ok (values, pos) →
      (∀ {fuel : ℕ} {values : List ℕ}, parseLiteral fuel
        (t'.flatMap literalEscape ++ ('"' :: rest)) = .ok (values, pos) → values.length ≤ n) →
      values.length ≤ n + 1 := by
    intro n t' fuel values value d ds hd hchar hparse ih
    cases fuel with
    | zero => cases hparse
    | succ fuel =>
      rw [parseLiteral_of_parseChar hd hchar] at hparse
      cases hnext : parseLiteral fuel (t'.flatMap literalEscape ++ ('"' :: rest)) with
      | error e =>
        rw [hnext] at hparse
        cases hparse
      | ok r =>
        obtain ⟨values', pos'⟩ := r
        rw [hnext] at hparse
        cases hparse
        exact Nat.succ_le_succ (ih hnext)
  induction h generalizing fuel values with
  | nil =>
    cases fuel with
    | zero => cases hparse
    | succ fuel =>
      cases hparse
      exact Nat.le_refl 0
  | @char n t c hc _ ih =>
    obtain ⟨d, ds, hds, hd, hchar⟩ := parseChar_literalEscape hc
      (t.flatMap literalEscape ++ ('"' :: rest))
    rw [List.flatMap_cons, List.append_assoc] at hparse
    rw [hds, List.cons_append] at hchar hparse
    exact hround hd hchar hparse ih
  | @escape n t e he _ ih =>
    simp only [List.mem_cons, List.not_mem_nil, or_false] at he
    rw [List.flatMap_cons, List.flatMap_cons, literalEscape_backslash, List.append_assoc,
      List.append_assoc, List.singleton_append] at hparse
    have hback : '\\' ≠ '"' := by decide
    rcases he with rfl | rfl | rfl | rfl | rfl | rfl | rfl
    · -- the quote behind a backslash ends the literal
      cases fuel with
      | zero => cases hparse
      | succ fuel =>
        cases fuel with
        | zero => cases hparse
        | succ fuel =>
          cases hparse
          exact Nat.succ_le_succ (Nat.zero_le n)
    · exact hround hback rfl hparse ih
    · cases fuel <;> cases hparse
    · cases fuel <;> cases hparse
    · exact hround hback rfl hparse ih
    · exact hround hback rfl hparse ih
    · exact hround hback rfl hparse ih
  | @unicode n t h l hh hl _ ih =>
    obtain ⟨hv, hhv⟩ := Option.isSome_iff_exists.1 hh
    obtain ⟨lv, hlv⟩ := Option.isSome_iff_exists.1 hl
    have hchar : parseChar ('\\' :: 'u' :: '0' :: '0' :: h :: l ::
        (t.flatMap literalEscape ++ ('"' :: rest))) =
        .ok (hv * 16 + lv, t.flatMap literalEscape ++ ('"' :: rest)) := by
      show parseHex 4 _ = _
      have hzero : hexValue '0' = some 0 := by decide
      simp only [parseHex, parseHexLoop, hzero, hhv, hlv]
      simp
    simp only [List.flatMap_cons, literalEscape_backslash, literalEscape_hex hh,
      literalEscape_hex hl, literalEscape_hex (show (hexValue '0').isSome = true by decide),
      show literalEscape 'u' = ['u'] by decide, List.singleton_append] at hparse
    exact hround (by decide) hchar hparse ih

lemma not_readsBack {n : ℕ} {t : List Char} (h : Escaped n t) (ht : '\\' ∈ t) :
    ¬ReadsBack t := by
  intro hback
  have hparse := hback []
  rw [formatLiteral, List.tail_cons, List.append_nil] at hparse
  have hle := h.length_le_of_parseLiteral hparse
  rw [List.length_map] at hle
  exact absurd (h.lt_length ht) (Nat.not_lt.2 hle)

/-! ## JSON texts and their backslashes -/

lemma isSome_hexValue_hexDigitChar : ∀ d < 16, (hexValue (hexDigitChar d)).isSome = true := by
  decide

lemma escaped_escapeChar (c : Char) {n : ℕ} {t : List Char} (h : Escaped n t) :
    Escaped (n + 1) (escapeChar c ++ t) := by
  rw [escapeChar]
  split_ifs with hb ht hn hf hr hq hs hcontrol
  all_goals try exact .escape (by decide) h
  · exact .unicode (isSome_hexValue_hexDigitChar _ (by omega))
      (isSome_hexValue_hexDigitChar _ (Nat.mod_lt _ (by decide))) h
  · exact .char hs h

lemma backslash_mem_escapeChar {c : Char} : '\\' ∈ escapeChar c ↔ ¬Unescaped c := by
  by_cases hc : Unescaped c
  · refine iff_of_false ?_ (not_not.2 hc)
    obtain ⟨hq, hs, hcontrol⟩ := hc
    have hne : ∀ d : Char, d.toNat ≤ 0x1f → c ≠ d := fun d hd h => by
      rw [h] at hcontrol
      omega
    rw [escapeChar, if_neg (hne _ (by decide)), if_neg (hne _ (by decide)),
      if_neg (hne _ (by decide)), if_neg (hne _ (by decide)), if_neg (hne _ (by decide)), if_neg hq,
      if_neg hs, if_neg (Nat.not_le.2 hcontrol), List.mem_singleton]
    exact fun h => hs h.symm
  · refine iff_of_true ?_ hc
    rw [escapeChar]
    split_ifs with hb ht hn hf hr hq hs hcontrol
    all_goals try exact List.mem_cons_self
    exact absurd ⟨hq, hs, Nat.lt_of_not_le hcontrol⟩ hc

lemma escaped_flatMap_escapeChar (s : List Char) : ∃ n, Escaped n (s.flatMap escapeChar) := by
  induction s with
  | nil => exact ⟨0, .nil⟩
  | cons c s ih =>
    obtain ⟨n, h⟩ := ih
    exact ⟨n + 1, by
      rw [List.flatMap_cons]
      exact escaped_escapeChar c h⟩

lemma escaped_of_not_mem {t : List Char} (ht : '\\' ∉ t) : ∃ n, Escaped n t := by
  induction t with
  | nil => exact ⟨0, .nil⟩
  | cons c t ih =>
    rw [List.mem_cons, not_or] at ht
    obtain ⟨n, h⟩ := ih ht.2
    exact ⟨n + 1, .char (Ne.symm ht.1) h⟩

lemma escaped_dumpString (s : List Char) : ∃ n, Escaped n (dumpString s) := by
  obtain ⟨n, h⟩ := escaped_flatMap_escapeChar s
  obtain ⟨k, hk⟩ := h.append (.char (show '"' ≠ '\\' by decide) .nil)
  exact ⟨k + 1, .char (by decide) hk⟩

lemma backslash_mem_dumpString {s : List Char} :
    '\\' ∈ dumpString s ↔ ¬∀ c ∈ s, Unescaped c := by
  rw [dumpString, List.mem_cons, List.mem_append, List.mem_flatMap]
  constructor
  · rintro (h | ⟨c, hc, h⟩ | h)
    · exact absurd h (by decide)
    · exact fun hall => backslash_mem_escapeChar.1 h (hall c hc)
    · exact absurd h (by decide)
  · intro h
    obtain ⟨c, hc⟩ := not_forall.1 h
    obtain ⟨hmem, hc⟩ := Classical.not_imp.1 hc
    exact .inr (.inl ⟨c, hmem, backslash_mem_escapeChar.2 hc⟩)

lemma backslash_not_mem_number (n : NumberText) : '\\' ∉ n.chars := fun h =>
  absurd (n.valid _ h) (by decide)

lemma Escaped.concat {n : ℕ} {t : List Char} (h : Escaped n t) {c : Char} (hc : c ≠ '\\') :
    ∃ k, Escaped k (t ++ [c]) :=
  h.append (.char hc .nil)

mutual

theorem escaped_dump : ∀ v, ∃ n, Escaped n (dump v)
  | .null => escaped_of_not_mem (by decide)
  | .bool true => escaped_of_not_mem (by decide)
  | .bool false => escaped_of_not_mem (by decide)
  | .number n => escaped_of_not_mem (backslash_not_mem_number n)
  | .string s => escaped_dumpString s
  | .array values => by
    obtain ⟨n, h⟩ := escaped_dumpValues values
    obtain ⟨k, hk⟩ := h.concat (show ']' ≠ '\\' by decide)
    exact ⟨k + 1, .char (by decide) hk⟩
  | .object members => by
    obtain ⟨n, h⟩ := escaped_dumpMembers members
    obtain ⟨k, hk⟩ := h.concat (show '}' ≠ '\\' by decide)
    exact ⟨k + 1, .char (by decide) hk⟩

theorem escaped_dumpValues : ∀ values, ∃ n, Escaped n (dumpValues values)
  | [] => ⟨0, .nil⟩
  | [v] => escaped_dump v
  | v :: w :: values => by
    obtain ⟨n, h⟩ := escaped_dump v
    obtain ⟨m, h'⟩ := escaped_dumpValues (w :: values)
    exact h.append (.char (by decide) h')

theorem escaped_dumpMembers : ∀ members, ∃ n, Escaped n (dumpMembers members)
  | [] => ⟨0, .nil⟩
  | [(key, v)] => by
    obtain ⟨n, h⟩ := escaped_dumpString key
    obtain ⟨m, h'⟩ := escaped_dump v
    exact h.append (.char (by decide) h')
  | (key, v) :: w :: members => by
    obtain ⟨n, h⟩ := escaped_dumpString key
    obtain ⟨m, h'⟩ := escaped_dump v
    obtain ⟨l, h''⟩ := escaped_dumpMembers (w :: members)
    obtain ⟨k, hk⟩ := h'.append (.char (show ',' ≠ '\\' by decide) h'')
    exact h.append (.char (by decide) hk)

end

mutual

/-- A JSON text has a backslash exactly if some string has a character that JSON escapes. -/
theorem backslash_mem_dump : ∀ v, '\\' ∈ dump v ↔ ¬NoEscapes v
  | .null => iff_of_false (by decide) (not_not.2 trivial)
  | .bool true => iff_of_false (by decide) (not_not.2 trivial)
  | .bool false => iff_of_false (by decide) (not_not.2 trivial)
  | .number n => iff_of_false (backslash_not_mem_number n) (not_not.2 trivial)
  | .string s => backslash_mem_dumpString
  | .array values => by
    have h := backslash_mem_dumpValues values
    simp [dump, NoEscapes, h]
  | .object members => by
    have h := backslash_mem_dumpMembers members
    simp [dump, NoEscapes, h]

theorem backslash_mem_dumpValues : ∀ values, '\\' ∈ dumpValues values ↔ ¬NoEscapesValues values
  | [] => iff_of_false (by decide) (not_not.2 trivial)
  | [v] => by
    have h := backslash_mem_dump v
    simp [dumpValues, NoEscapesValues, h]
  | v :: w :: values => by
    have h := backslash_mem_dump v
    have h' := backslash_mem_dumpValues (w :: values)
    rw [dumpValues, NoEscapesValues, List.mem_append, List.mem_cons, h, h', not_and_or]
    · simp
    · exact List.cons_ne_nil w values

theorem backslash_mem_dumpMembers : ∀ members,
    '\\' ∈ dumpMembers members ↔ ¬NoEscapesMembers members
  | [] => iff_of_false (by decide) (not_not.2 trivial)
  | [(key, v)] => by
    have h := backslash_mem_dump v
    have hkey := backslash_mem_dumpString (s := key)
    rw [dumpMembers, NoEscapesMembers, List.mem_append, List.mem_cons, h, hkey]
    simp [NoEscapesMembers, or_iff_not_imp_left]
  | (key, v) :: w :: members => by
    have h := backslash_mem_dump v
    have hkey := backslash_mem_dumpString (s := key)
    have h' := backslash_mem_dumpMembers (w :: members)
    rw [dumpMembers, NoEscapesMembers, List.mem_append, List.mem_cons, List.mem_append,
      List.mem_cons, h, hkey, h']
    · simp [or_iff_not_imp_left]
    · exact List.cons_ne_nil w members

end

/-- The literal of a constant spells its JSON text exactly when no string in it has a character
that JSON escapes. -/
theorem readsBack_dump_iff (v : Json) : ReadsBack (dump v) ↔ NoEscapes v := by
  constructor
  · intro h
    by_contra hv
    obtain ⟨n, hn⟩ := escaped_dump v
    exact not_readsBack hn ((backslash_mem_dump v).2 hv) h
  · intro h
    exact readsBack_of_not_mem fun hmem => (backslash_mem_dump v).1 hmem h

/-- A string with a backslash between two letters is not read back. -/
theorem not_readsBack_backslash : ¬ReadsBack (dump (.string ['a', '\\', 'b'])) := by
  intro h
  have hparse := h []
  revert hparse
  decide

end IFairy.JsonSchema
