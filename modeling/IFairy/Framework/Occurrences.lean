import Mathlib.Data.List.Basic

/-!
# Cutting a text at the occurrences of a word

`cut word mark text` replaces the leftmost occurrences of a word that do not overlap by a mark.  The
result is a list of pieces, marks and the parts of the text in between that are not empty; written
out with the word for the mark it is the text again (`flatMap_cut`).
-/

namespace IFairy

variable {α β : Type*} [BEq α]

/-- The first position of the text at which the word stands. -/
def firstOccurrence (word text : List α) : Option ℕ :=
  (List.range (text.length + 1 - word.length)).find? fun p => word.isPrefixOf (text.drop p)

/-- The part of a text that is left, unless it is empty. -/
def rawPiece (text : List α) : List (β ⊕ List α) := if text.isEmpty then [] else [.inr text]

/-- The pieces of a text, when there are at most `n` occurrences. -/
def cutUpTo (word : List α) (mark : β) : ℕ → List α → List (β ⊕ List α)
  | 0, text => rawPiece text
  | n + 1, text => (firstOccurrence word text).elim (rawPiece text) fun p =>
    rawPiece (text.take p) ++ .inl mark :: cutUpTo word mark n (text.drop (p + word.length))

/-- The pieces of a text, which has no more occurrences than elements. -/
def cut (word : List α) (mark : β) (text : List α) : List (β ⊕ List α) :=
  cutUpTo word mark text.length text

/-- The parts that are left are cut, the marks stay. -/
def cutPieces (word : List α) (mark : β) (pieces : List (β ⊕ List α)) : List (β ⊕ List α) :=
  pieces.flatMap fun piece => piece.elim (fun mark => [.inl mark]) (cut word mark)

lemma flatMap_rawPiece {α β : Type*} {expand : β ⊕ List α → List α}
    (hraw : ∀ t, expand (.inr t) = t) (text : List α) :
    (rawPiece text).flatMap expand = text := by
  rw [rawPiece]
  split_ifs with h
  · rw [List.isEmpty_iff.1 h]
    rfl
  · rw [List.flatMap_cons, hraw, List.flatMap_nil, List.append_nil]

variable {word text : List α}

lemma firstOccurrence_nil (hword : word ≠ []) : firstOccurrence word ([] : List α) = none := by
  rw [firstOccurrence, List.length_nil, Nat.zero_add,
    Nat.sub_eq_zero_of_le (List.length_pos_iff.2 hword)]
  rfl

lemma cutUpTo_of_length_le (hword : word ≠ []) (mark : β) {n : ℕ} (h : text.length ≤ n) :
    cutUpTo word mark n text = cut word mark text := by
  induction hlength : text.length using Nat.strongRecOn generalizing n text with
  | ind len ih =>
    subst hlength
    rcases n with - | n
    · rw [cut, Nat.le_zero.1 h]
    · rw [cut]
      rcases hsize : text.length with - | len
      · rw [List.length_eq_zero_iff.1 hsize, cutUpTo, cutUpTo, firstOccurrence_nil hword]
        rfl
      · rw [cutUpTo, cutUpTo]
        rcases hfirst : firstOccurrence word text with - | p
        · rfl
        · have hword := List.length_pos_iff.2 hword
          have hshort : (text.drop (p + word.length)).length < text.length := by
            rw [List.length_drop]
            omega
          rw [Option.elim_some, Option.elim_some, ih _ hshort (by omega) rfl,
            ih _ hshort (by omega) rfl]

lemma cut_of_none (hword : word ≠ []) (mark : β) (h : firstOccurrence word text = none) :
    cut word mark text = rawPiece text := by
  rw [← cutUpTo_of_length_le hword mark (Nat.le_succ text.length), cutUpTo, h]
  rfl

lemma cut_of_some (hword : word ≠ []) (mark : β) {p : ℕ} (h : firstOccurrence word text = some p) :
    cut word mark text =
      rawPiece (text.take p) ++ .inl mark :: cut word mark (text.drop (p + word.length)) := by
  rw [← cutUpTo_of_length_le hword mark (Nat.le_succ text.length), cutUpTo, h, Option.elim_some,
    cutUpTo_of_length_le hword mark (by rw [List.length_drop]; omega)]

section Occurrences

variable [LawfulBEq α]

lemma firstOccurrence_eq_some_iff {p : ℕ} :
    firstOccurrence word text = some p ↔
      word <+: text.drop p ∧ p + word.length ≤ text.length ∧ ∀ q < p, ¬word <+: text.drop q := by
  rw [firstOccurrence, List.find?_range_eq_some]
  simp only [List.isPrefixOf_iff_prefix, List.mem_range, Bool.not_eq_true',
    ← Bool.not_eq_true]
  constructor
  · rintro ⟨h, hp, hfirst⟩
    have hlength := h.length_le
    rw [List.length_drop] at hlength
    exact ⟨h, by omega, hfirst⟩
  · rintro ⟨h, hp, hfirst⟩
    exact ⟨h, by omega, hfirst⟩

lemma take_append_word_append_drop {p : ℕ} (h : firstOccurrence word text = some p) :
    text.take p ++ (word ++ text.drop (p + word.length)) = text := by
  obtain ⟨rest, hrest⟩ := (firstOccurrence_eq_some_iff.1 h).1
  have hdrop : text.drop (p + word.length) = rest := by
    rw [← List.drop_drop, ← hrest, List.drop_left]
  rw [hdrop, hrest, List.take_append_drop]

/-! ## Writing the pieces out -/

variable {expand : β ⊕ List α → List α}

lemma flatMap_cut (hraw : ∀ t, expand (.inr t) = t) (hword : word ≠ []) {mark : β}
    (hmark : expand (.inl mark) = word) (text : List α) :
    (cut word mark text).flatMap expand = text := by
  induction hlength : text.length using Nat.strongRecOn generalizing text with
  | ind len ih =>
    subst hlength
    rcases hfirst : firstOccurrence word text with - | p
    · rw [cut_of_none hword mark hfirst, flatMap_rawPiece hraw]
    · have hpos := List.length_pos_iff.2 hword
      have hle := (firstOccurrence_eq_some_iff.1 hfirst).2.1
      have hshort : (text.drop (p + word.length)).length < text.length := by
        rw [List.length_drop]
        omega
      rw [cut_of_some hword mark hfirst, List.flatMap_append, flatMap_rawPiece hraw,
        List.flatMap_cons, hmark, ih _ hshort _ rfl, take_append_word_append_drop hfirst]

lemma flatMap_cutPieces (hraw : ∀ t, expand (.inr t) = t) (hword : word ≠ []) {mark : β}
    (hmark : expand (.inl mark) = word) (pieces : List (β ⊕ List α)) :
    (cutPieces word mark pieces).flatMap expand = pieces.flatMap expand := by
  rw [cutPieces, List.flatMap_assoc]
  refine List.flatMap_congr fun piece _ => ?_
  rcases piece with mark' | text
  · exact List.append_nil _
  · rw [Sum.elim_inr, flatMap_cut hraw hword hmark, hraw]

end Occurrences

end IFairy
