import IFairy.Grammar.Sampling
import Mathlib.Tactic.IntervalCases

/-!
# A text in pieces

A token may end in the middle of a character, and `decodeUtf8` takes the partial character over to
the next token.  So what a text says should not depend on how it is cut into tokens.  It does not
for a text whose sequences are first bytes with their continuation bytes (`WellShaped`), which all
of UTF-8 is; the last sequence may be cut short.

The two loops of `decode_utf8` treat other texts differently.  The loop that continues a sequence
refuses a byte that is no continuation byte.  The loop over the sequences takes it into the
sequence, and when it finds an invalid first byte later on it forgets the code points before.  So a
cut matters, unless the text is refused before it has said anything and whatever follows is
refused too (`RefusedThroughout`).
-/

namespace IFairy.LlamaGrammar

/-! ## Pieces -/

/-- What the caller uses of `decode_utf8`: the code points without the terminating zero, and what
is left over. -/
def decodePiece (left : PartialUtf8) (piece : List UInt8) : List ℕ × PartialUtf8 :=
  ((decodeUtf8 piece left).1.dropLast, (decodeUtf8 piece left).2)

/-- Pieces decoded one after the other. -/
def decodePieces : PartialUtf8 → List (List UInt8) → List ℕ × PartialUtf8
  | left, [] => ([], left)
  | left, piece :: rest =>
    let decoded := decodePiece left piece
    let after := decodePieces decoded.2 rest
    (decoded.1 ++ after.1, after.2)

/-- However the text is cut, its pieces say what the text says in one call. -/
def PiecesAgree (left : PartialUtf8) (text : List UInt8) : Prop :=
  ∀ pieces : List (List UInt8), pieces.flatten = text →
    decodePieces left pieces = decodePiece left text

/-- Between characters, the code points of a text that is UTF-8 are its characters. -/
def DecodesUtf8 (left : PartialUtf8) (text : List UInt8) : Prop :=
  ∀ chars : List Char, left.nRemain ≤ 0 → chars.flatMap String.utf8EncodeChar = text →
    (decodePiece left text).1 = chars.map Char.toNat

/-! ## Shapes of texts -/

/-- A byte `10xxxxxx`. -/
def IsContinuation (byte : UInt8) : Prop := byte.toNat / 2 ^ 6 = 2

instance (byte : UInt8) : Decidable (IsContinuation byte) :=
  inferInstanceAs (Decidable (_ = _))

/-- After `nRemain` continuation bytes, every sequence is a first byte with its continuation bytes;
the text may end anywhere. -/
def WellShaped : ℤ → List UInt8 → Prop
  | _, [] => True
  | nRemain, byte :: rest =>
    if 0 < nRemain then IsContinuation byte ∧ WellShaped (nRemain - 1) rest
    else ¬ IsContinuation byte ∧ WellShaped (bytesAfter byte) rest

/-- The text is refused before a character is complete, and all bytes after the refused one are
continuation bytes, which no sequence begins with. -/
def RefusedThroughout : ℤ → List UInt8 → Prop
  | _, [] => False
  | nRemain, byte :: rest =>
    if 0 < nRemain then
      if IsContinuation byte then 1 < nRemain ∧ RefusedThroughout (nRemain - 1) rest
      else ∀ b ∈ rest, IsContinuation b
    else IsContinuation byte ∧ ∀ b ∈ rest, IsContinuation b

/-- What an invalid sequence leaves. -/
def refused : List ℕ × PartialUtf8 := ([], ⟨0, -1⟩)

lemma bytesAfter_neg_iff (byte : UInt8) : bytesAfter byte < 0 ↔ IsContinuation byte := by
  rw [IsContinuation, bytesAfter]
  have hlt : byte.toNat / 2 ^ 4 < 16 := by have := byte.toNat_lt; omega
  have hdiv : byte.toNat / 2 ^ 6 = byte.toNat / 2 ^ 4 / 4 := by omega
  rw [hdiv]
  generalize byte.toNat / 2 ^ 4 = high at hlt
  interval_cases high <;> simp

lemma bytesAfter_nonneg {byte : UInt8} (h : ¬ IsContinuation byte) : 0 ≤ bytesAfter byte := by
  have := (bytesAfter_neg_iff byte).not.2 h
  omega

/-! ## The loops -/

lemma decodeLoop_append {text : List UInt8} (h0 : 0 ∉ text) (rest : List UInt8) (value : ℕ)
    (nRemain : ℤ) (codePoints : List ℕ) :
    decodeLoop (text ++ rest) value nRemain codePoints =
      (decodeLoop text value nRemain codePoints).bind fun out =>
        decodeLoop rest out.2.value out.2.nRemain out.1 := by
  induction text generalizing value nRemain codePoints with
  | nil => rfl
  | cons byte text ih =>
    have hbyte : byte ≠ 0 := fun h => h0 (by simp [h])
    have htext : (0 : UInt8) ∉ text := fun h => h0 (by simp [h])
    simp only [List.cons_append, decodeLoop, hbyte, if_false]
    by_cases hr : 0 < nRemain
    · simp only [hr, if_true, ih htext]
    · simp only [hr, if_false]
      by_cases hb : bytesAfter byte < 0
      · simp [hb]
      · simp only [hb, if_false, ih htext]

lemma decodeLoop_codePoints (text : List UInt8) (value : ℕ) (nRemain : ℤ) (codePoints : List ℕ) :
    decodeLoop text value nRemain codePoints =
      (decodeLoop text value nRemain []).map fun out => (codePoints ++ out.1, out.2) := by
  induction text generalizing value nRemain codePoints with
  | nil => simp [decodeLoop]
  | cons byte text ih =>
    simp only [decodeLoop]
    by_cases hbyte : byte = 0
    · simp [hbyte]
    simp only [hbyte, if_false]
    by_cases hr : 0 < nRemain
    · simp only [hr, if_true]
      rw [ih _ _ (if nRemain - 1 = 0 then codePoints ++ _ else codePoints),
        ih _ _ (if nRemain - 1 = 0 then _ else _), Option.map_map]
      split <;> simp [Function.comp_def]
    · simp only [hr, if_false]
      by_cases hb : bytesAfter byte < 0
      · simp [hb]
      simp only [hb, if_false]
      rw [ih _ _ (if bytesAfter byte = 0 then codePoints ++ _ else codePoints),
        ih _ _ (if bytesAfter byte = 0 then _ else _), Option.map_map]
      split <;> simp [Function.comp_def]

lemma decodeLoop_nRemain {text : List UInt8} (h0 : 0 ∉ text) {value : ℕ} {nRemain : ℤ}
    {codePoints : List ℕ} {out : List ℕ × PartialUtf8}
    (h : decodeLoop text value nRemain codePoints = some out) (hr : 0 ≤ nRemain ∨ text ≠ []) :
    0 ≤ out.2.nRemain := by
  induction text generalizing value nRemain codePoints with
  | nil =>
    obtain rfl : (codePoints, (⟨value, nRemain⟩ : PartialUtf8)) = out := by
      simpa [decodeLoop] using h
    exact hr.resolve_right (by simp)
  | cons byte text ih =>
    have hbyte : byte ≠ 0 := fun h => h0 (by simp [h])
    have htext : (0 : UInt8) ∉ text := fun h => h0 (by simp [h])
    simp only [decodeLoop, hbyte, if_false] at h
    by_cases hpos : 0 < nRemain
    · rw [if_pos hpos] at h
      exact ih htext h (.inl (by omega))
    · rw [if_neg hpos] at h
      by_cases hb : bytesAfter byte < 0
      · simp [hb] at h
      · rw [if_neg hb] at h
        exact ih htext h (.inl (by omega))

lemma continueLoop_cons {byte : UInt8} (hbyte : byte ≠ 0) (text : List UInt8) (value : ℕ)
    {nRemain : ℤ} (hpos : 0 < nRemain) :
    continueLoop (byte :: text) value nRemain =
      if IsContinuation byte then continueLoop text (appendBits value byte) (nRemain - 1)
      else none := by
  rw [continueLoop, if_pos ⟨hbyte, hpos⟩]
  exact ite_not _ _ _

lemma continueLoop_some {text rest : List UInt8} (h0 : 0 ∉ text) {value value' : ℕ}
    {nRemain nRemain' : ℤ} (codePoints : List ℕ) (hpos : 0 < nRemain)
    (h : continueLoop text value nRemain = some (rest, value', nRemain')) :
    decodeLoop text value nRemain codePoints =
      decodeLoop rest value' nRemain' (if nRemain' = 0 then codePoints ++ [value'] else codePoints)
    := by
  induction text generalizing value nRemain codePoints with
  | nil =>
    obtain ⟨rfl, rfl, rfl⟩ : [] = rest ∧ value = value' ∧ nRemain = nRemain' := by
      simpa [continueLoop] using h
    rw [if_neg (by omega)]
  | cons byte text ih =>
    have hbyte : byte ≠ 0 := fun h => h0 (by simp [h])
    have htext : (0 : UInt8) ∉ text := fun h => h0 (by simp [h])
    rw [continueLoop_cons hbyte _ _ hpos] at h
    by_cases hcont : IsContinuation byte
    case neg => simp [hcont] at h
    rw [if_pos hcont] at h
    simp only [decodeLoop, hbyte, hpos, if_true, if_false]
    by_cases hlast : nRemain - 1 = 0
    · obtain ⟨rfl, rfl, rfl⟩ :
          text = rest ∧ appendBits value byte = value' ∧ 0 = nRemain' := by
        rw [hlast] at h
        cases text <;> simpa [continueLoop] using h
      simp [hlast]
    · rw [if_neg hlast]
      exact ih htext codePoints (by omega) h

lemma continueLoop_of_le {text : List UInt8} {value : ℕ} {nRemain : ℤ} (hr : nRemain ≤ 0) :
    continueLoop text value nRemain = some (text, value, nRemain) := by
  cases text with
  | nil => rfl
  | cons byte text => rw [continueLoop, if_neg (by omega)]

lemma decodePiece_eq {text : List UInt8} (h0 : 0 ∉ text) {value : ℕ} {nRemain : ℤ}
    (h : continueLoop text value nRemain ≠ none) :
    decodePiece ⟨value, nRemain⟩ text = (decodeLoop text value nRemain []).getD refused := by
  obtain ⟨⟨rest, value', nRemain'⟩, hc⟩ := Option.ne_none_iff_exists'.1 h
  rw [decodePiece, decodeUtf8]
  simp only [hc]
  have hloop : decodeLoop text value nRemain [] = decodeLoop rest value' nRemain'
      (if 0 < nRemain ∧ nRemain' = 0 then [value'] else []) := by
    by_cases hpos : 0 < nRemain
    · rw [continueLoop_some h0 [] hpos hc]
      simp [hpos]
    · rw [continueLoop_of_le (by omega)] at hc
      obtain ⟨rfl, rfl, rfl⟩ : text = rest ∧ value = value' ∧ nRemain = nRemain' := by
        simpa using hc
      simp [hpos]
  rw [hloop]
  cases decodeLoop rest value' nRemain' (if 0 < nRemain ∧ nRemain' = 0 then [value'] else []) with
  | none => rfl
  | some out => simp

lemma decodePiece_refused {text : List UInt8} {value : ℕ} {nRemain : ℤ}
    (h : continueLoop text value nRemain = none) :
    decodePiece ⟨value, nRemain⟩ text = refused := by
  rw [decodePiece, decodeUtf8]
  simp only [h]
  rfl

/-! ## Well-shaped texts -/

lemma continueLoop_wellShaped {text : List UInt8} (h0 : 0 ∉ text) {value : ℕ} {nRemain : ℤ}
    (h : WellShaped nRemain text) : continueLoop text value nRemain ≠ none := by
  induction text generalizing value nRemain with
  | nil => simp [continueLoop]
  | cons byte text ih =>
    have hbyte : byte ≠ 0 := fun h => h0 (by simp [h])
    by_cases hpos : 0 < nRemain
    · rw [WellShaped, if_pos hpos] at h
      rw [continueLoop_cons hbyte _ _ hpos, if_pos h.1]
      exact ih (fun h => h0 (by simp [h])) h.2
    · simp [continueLoop, hpos]

lemma exists_decodeLoop_wellShaped {text : List UInt8} (h0 : 0 ∉ text) {nRemain : ℤ}
    (h : WellShaped nRemain text) (value : ℕ) (codePoints : List ℕ) :
    ∃ out, decodeLoop text value nRemain codePoints = some out := by
  induction text generalizing value nRemain codePoints with
  | nil => exact ⟨_, rfl⟩
  | cons byte text ih =>
    have hbyte : byte ≠ 0 := fun h => h0 (by simp [h])
    have htext : (0 : UInt8) ∉ text := fun h => h0 (by simp [h])
    simp only [decodeLoop, hbyte, if_false]
    by_cases hpos : 0 < nRemain
    · rw [WellShaped, if_pos hpos] at h
      simp only [hpos, if_true]
      exact ih htext h.2 _ _
    · rw [WellShaped, if_neg hpos] at h
      have hb : ¬ bytesAfter byte < 0 := (bytesAfter_neg_iff byte).not.2 h.1
      simp only [hpos, hb, if_false]
      exact ih htext h.2 _ _

lemma WellShaped.append {text rest : List UInt8} (h0 : 0 ∉ text) {nRemain : ℤ}
    (h : WellShaped nRemain (text ++ rest)) {value : ℕ} {codePoints : List ℕ}
    {out : List ℕ × PartialUtf8} (hout : decodeLoop text value nRemain codePoints = some out) :
    WellShaped nRemain text ∧ WellShaped out.2.nRemain rest := by
  induction text generalizing value nRemain codePoints with
  | nil =>
    obtain rfl : (codePoints, (⟨value, nRemain⟩ : PartialUtf8)) = out := by
      simpa [decodeLoop] using hout
    exact ⟨trivial, h⟩
  | cons byte text ih =>
    have hbyte : byte ≠ 0 := fun h => h0 (by simp [h])
    have htext : (0 : UInt8) ∉ text := fun h => h0 (by simp [h])
    simp only [decodeLoop, hbyte, if_false] at hout
    rw [List.cons_append, WellShaped] at h
    rw [WellShaped]
    by_cases hpos : 0 < nRemain
    · rw [if_pos hpos] at h hout ⊢
      exact ⟨⟨h.1, (ih htext h.2 hout).1⟩, (ih htext h.2 hout).2⟩
    · rw [if_neg hpos] at h hout ⊢
      rw [if_neg ((bytesAfter_neg_iff byte).not.2 h.1)] at hout
      exact ⟨⟨h.1, (ih htext h.2 hout).1⟩, (ih htext h.2 hout).2⟩

lemma WellShaped.left {text rest : List UInt8} (h0 : 0 ∉ text) {nRemain : ℤ}
    (h : WellShaped nRemain (text ++ rest)) : WellShaped nRemain text := by
  induction text generalizing nRemain with
  | nil => trivial
  | cons byte text ih =>
    have htext : (0 : UInt8) ∉ text := fun h => h0 (by simp [h])
    rw [List.cons_append, WellShaped] at h
    rw [WellShaped]
    by_cases hpos : 0 < nRemain
    · rw [if_pos hpos] at h ⊢
      exact ⟨h.1, ih htext h.2⟩
    · rw [if_neg hpos] at h ⊢
      exact ⟨h.1, ih htext h.2⟩

lemma decodePiece_wellShaped {text : List UInt8} (h0 : 0 ∉ text) {left : PartialUtf8}
    (h : WellShaped left.nRemain text) {out : List ℕ × PartialUtf8}
    (hout : decodeLoop text left.value left.nRemain [] = some out) :
    decodePiece left text = out := by
  rw [decodePiece_eq h0 (continueLoop_wellShaped h0 h), hout]
  rfl

lemma decodePieces_wellShaped (pieces : List (List UInt8)) {left : PartialUtf8}
    (h0 : 0 ∉ pieces.flatten) (h : WellShaped left.nRemain pieces.flatten)
    {out : List ℕ × PartialUtf8}
    (hout : decodeLoop pieces.flatten left.value left.nRemain [] = some out) :
    decodePieces left pieces = out := by
  induction pieces generalizing left out with
  | nil =>
    obtain rfl : (([] : List ℕ), left) = out := by simpa [decodeLoop] using hout
    rfl
  | cons piece pieces ih =>
    rw [List.flatten_cons] at h0 h hout
    rw [List.mem_append, not_or] at h0
    obtain ⟨mid, hmid⟩ := exists_decodeLoop_wellShaped h0.1 (h.left h0.1) left.value []
    have hrest := (h.append h0.1 hmid).2
    obtain ⟨after, hafter⟩ := exists_decodeLoop_wellShaped h0.2 hrest mid.2.value []
    rw [decodeLoop_append h0.1, hmid, Option.bind_some, decodeLoop_codePoints, hafter,
      Option.map_some, Option.some.injEq] at hout
    rw [decodePieces, decodePiece_wellShaped h0.1 (h.left h0.1) hmid, ih h0.2 hrest hafter]
    exact hout

/-! ## Refused texts -/

lemma refusedThroughout_continuations {text : List UInt8} (hne : text ≠ [])
    (h : ∀ b ∈ text, IsContinuation b) {nRemain : ℤ} (hr : nRemain ≤ 0) :
    RefusedThroughout nRemain text := by
  cases text with
  | nil => exact absurd rfl hne
  | cons byte text =>
    rw [RefusedThroughout, if_neg (by omega)]
    exact ⟨h byte (by simp), fun b hb => h b (by simp [hb])⟩

lemma continueLoop_refused {text : List UInt8} (h0 : 0 ∉ text) {value : ℕ} {nRemain : ℤ}
    (hpos : 0 < nRemain) (h : RefusedThroughout nRemain text) :
    continueLoop text value nRemain = none := by
  induction text generalizing value nRemain with
  | nil => exact h.elim
  | cons byte text ih =>
    have hbyte : byte ≠ 0 := fun h => h0 (by simp [h])
    rw [RefusedThroughout, if_pos hpos] at h
    rw [continueLoop_cons hbyte _ _ hpos]
    by_cases hcont : IsContinuation byte
    · rw [if_pos hcont] at h ⊢
      exact ih (fun h => h0 (by simp [h])) (by omega) h.2
    · rw [if_neg hcont]

lemma decodePiece_refusedThroughout {text : List UInt8} (h0 : 0 ∉ text) {left : PartialUtf8}
    (h : RefusedThroughout left.nRemain text) : decodePiece left text = refused := by
  by_cases hpos : 0 < left.nRemain
  · exact decodePiece_refused (continueLoop_refused h0 hpos h)
  · have hr : left.nRemain ≤ 0 := by omega
    rw [decodePiece_eq h0 (by simp [continueLoop_of_le hr])]
    cases text with
    | nil => exact h.elim
    | cons byte text =>
      have hbyte : byte ≠ 0 := fun h => h0 (by simp [h])
      rw [RefusedThroughout, if_neg hpos] at h
      simp only [decodeLoop, hbyte, hpos, (bytesAfter_neg_iff byte).2 h.1, if_true, if_false]
      rfl

lemma RefusedThroughout.append_cases {text rest : List UInt8} (h0 : 0 ∉ text) {nRemain : ℤ}
    (h : RefusedThroughout nRemain (text ++ rest)) (value : ℕ) :
    (RefusedThroughout nRemain text ∧ ∀ b ∈ rest, IsContinuation b) ∨
      WellShaped nRemain text ∧ ∃ left,
        decodeLoop text value nRemain [] = some ([], left) ∧
        RefusedThroughout left.nRemain rest := by
  induction text generalizing value nRemain with
  | nil => exact .inr ⟨trivial, _, rfl, h⟩
  | cons byte text ih =>
    have hbyte : byte ≠ 0 := fun h => h0 (by simp [h])
    have htext : (0 : UInt8) ∉ text := fun h => h0 (by simp [h])
    rw [List.cons_append, RefusedThroughout] at h
    simp only [RefusedThroughout, WellShaped, decodeLoop, hbyte, if_false]
    by_cases hpos : 0 < nRemain
    · simp only [hpos, if_true] at h ⊢
      by_cases hcont : IsContinuation byte
      · simp only [hcont, if_true, true_and] at h ⊢
        rw [if_neg (by omega)]
        rcases ih htext h.2 (appendBits value byte) with hall | hsome
        · exact .inl ⟨⟨h.1, hall.1⟩, hall.2⟩
        · exact .inr hsome
      · simp only [hcont, if_false] at h ⊢
        exact .inl ⟨fun b hb => h b (by simp [hb]), fun b hb => h b (by simp [hb])⟩
    · simp only [hpos, if_false] at h ⊢
      exact .inl ⟨⟨h.1, fun b hb => h.2 b (by simp [hb])⟩, fun b hb => h.2 b (by simp [hb])⟩

lemma decodePiece_nil (left : PartialUtf8) : decodePiece left [] = ([], left) := by
  rw [decodePiece, decodeUtf8]
  simp only [continueLoop, decodeLoop]
  have hne : ¬ (0 < left.nRemain ∧ left.nRemain = 0) := by omega
  simp [hne]

lemma decodePieces_continuations (pieces : List (List UInt8)) (h0 : 0 ∉ pieces.flatten)
    (h : ∀ b ∈ pieces.flatten, IsContinuation b) :
    decodePieces ⟨0, -1⟩ pieces = refused := by
  induction pieces with
  | nil => rfl
  | cons piece pieces ih =>
    rw [List.flatten_cons] at h0 h
    rw [List.mem_append, not_or] at h0
    have hpiece : decodePiece ⟨0, -1⟩ piece = refused := by
      by_cases hne : piece = []
      · rw [hne, decodePiece_nil]
        rfl
      · exact decodePiece_refusedThroughout h0.1
          (refusedThroughout_continuations hne (fun b hb => h b (by simp [hb])) (by simp))
    rw [decodePieces, hpiece]
    exact ih h0.2 fun b hb => h b (List.mem_append_right _ hb)

lemma decodePieces_refusedThroughout (pieces : List (List UInt8)) {left : PartialUtf8}
    (h0 : 0 ∉ pieces.flatten) (h : RefusedThroughout left.nRemain pieces.flatten) :
    decodePieces left pieces = refused := by
  induction pieces generalizing left with
  | nil => exact h.elim
  | cons piece pieces ih =>
    rw [List.flatten_cons] at h0 h
    rw [List.mem_append, not_or] at h0
    rcases h.append_cases h0.1 left.value with ⟨hpiece, hrest⟩ | ⟨hshape, left', hout, hrest⟩
    · rw [decodePieces, decodePiece_refusedThroughout h0.1 hpiece]
      exact decodePieces_continuations pieces h0.2 hrest
    · rw [decodePieces, decodePiece_wellShaped h0.1 hshape hout]
      exact ih h0.2 hrest

/-! ## Cuts that matter -/

/-- Where the loop reads a text that is not well-shaped, it takes a byte into a sequence that is no
continuation byte. -/
lemma exists_stray {text : List UInt8} (h0 : 0 ∉ text) {value : ℕ} {nRemain : ℤ}
    {codePoints : List ℕ} {out : List ℕ × PartialUtf8}
    (hout : decodeLoop text value nRemain codePoints = some out) (h : ¬ WellShaped nRemain text) :
    ∃ before byte after mid, text = before ++ byte :: after ∧ WellShaped nRemain before ∧
      decodeLoop before value nRemain codePoints = some mid ∧ 0 < mid.2.nRemain ∧
      ¬ IsContinuation byte := by
  induction text generalizing value nRemain codePoints with
  | nil => exact absurd trivial h
  | cons byte text ih =>
    have hbyte : byte ≠ 0 := fun h => h0 (by simp [h])
    have htext : (0 : UInt8) ∉ text := fun h => h0 (by simp [h])
    rw [WellShaped] at h
    simp only [decodeLoop, hbyte, if_false] at hout
    by_cases hpos : 0 < nRemain
    · rw [if_pos hpos] at h hout
      by_cases hcont : IsContinuation byte
      · obtain ⟨before, b, after, mid, rfl, hshape, hmid, hleft, hb⟩ :=
          ih htext hout fun hshape => h ⟨hcont, hshape⟩
        refine ⟨byte :: before, b, after, mid, rfl, ?_, ?_, hleft, hb⟩
        · rw [WellShaped, if_pos hpos]
          exact ⟨hcont, hshape⟩
        · simp only [decodeLoop, hbyte, hpos, if_true, if_false]
          exact hmid
      · exact ⟨[], byte, text, _, rfl, trivial, rfl, hpos, hcont⟩
    · rw [if_neg hpos] at h hout
      by_cases hb : bytesAfter byte < 0
      · simp [hb] at hout
      rw [if_neg hb] at hout
      have hcont : ¬ IsContinuation byte := (bytesAfter_neg_iff byte).not.1 hb
      obtain ⟨before, b, after, mid, rfl, hshape, hmid, hleft, hstray⟩ :=
        ih htext hout fun hshape => h ⟨hcont, hshape⟩
      refine ⟨byte :: before, b, after, mid, rfl, ?_, ?_, hleft, hstray⟩
      · rw [WellShaped, if_neg hpos]
        exact ⟨hcont, hshape⟩
      · simp only [decodeLoop, hbyte, hpos, hb, if_false]
        exact hmid

lemma decodeLoop_pending {text : List UInt8} (h0 : 0 ∉ text) (value : ℕ) {nRemain : ℤ}
    (hpos : 0 < nRemain) (hlen : (text.length : ℤ) ≤ nRemain) :
    ∃ value', decodeLoop text value nRemain [] =
      some (if text.length = nRemain then [value'] else [], ⟨value', nRemain - text.length⟩) := by
  induction text generalizing value nRemain with
  | nil =>
    refine ⟨value, ?_⟩
    rw [if_neg (by simp only [List.length_nil]; omega)]
    simp [decodeLoop]
  | cons byte text ih =>
    have hbyte : byte ≠ 0 := fun h => h0 (by simp [h])
    have htext : (0 : UInt8) ∉ text := fun h => h0 (by simp [h])
    rw [List.length_cons] at hlen
    simp only [decodeLoop, hbyte, hpos, if_true, if_false]
    by_cases hlast : nRemain - 1 = 0
    · obtain rfl : text = [] := List.length_eq_zero_iff.1 (by omega)
      obtain rfl : nRemain = 1 := by omega
      exact ⟨_, rfl⟩
    · obtain ⟨value', hvalue⟩ := ih htext (appendBits value byte)
        (show 0 < nRemain - 1 by omega) (by omega)
      refine ⟨value', ?_⟩
      rw [if_neg hlast, hvalue, List.length_cons]
      push_cast
      have hiff : (text.length : ℤ) = nRemain - 1 ↔ (text.length + 1 : ℤ) = nRemain := by omega
      rw [sub_sub, add_comm (1 : ℤ), if_congr hiff rfl rfl]

lemma exists_pieces_of_firstByte {text : List UInt8} (h0 : 0 ∉ text)
    (h : ¬ ∀ b ∈ text, IsContinuation b) (left : PartialUtf8) (hr : left.nRemain ≤ 0) :
    ∃ pieces : List (List UInt8), pieces.flatten = text ∧ decodePieces left pieces ≠ refused := by
  induction text generalizing left with
  | nil => exact absurd (by simp) h
  | cons byte text ih =>
    have hbyte : byte ≠ 0 := fun h => h0 (by simp [h])
    have htext : (0 : UInt8) ∉ text := fun h => h0 (by simp [h])
    by_cases hcont : IsContinuation byte
    · obtain ⟨pieces, rfl, hne⟩ :=
        ih htext (fun hall => h (List.forall_mem_cons.2 ⟨hcont, hall⟩)) ⟨0, -1⟩ (by simp)
      refine ⟨[byte] :: pieces, rfl, ?_⟩
      have hpiece : decodePiece left [byte] = refused :=
        decodePiece_refusedThroughout (by simpa using hbyte.symm)
          (refusedThroughout_continuations (by simp) (by simpa using hcont) hr)
      rw [decodePieces, hpiece]
      exact hne
    · -- one piece holds the sequence, with whatever bytes it takes
      have hafter := bytesAfter_nonneg hcont
      set n := (bytesAfter byte).toNat with hn
      have hcast : (n : ℤ) = bytesAfter byte := Int.toNat_of_nonneg hafter
      have htake : (0 : UInt8) ∉ text.take n := fun hmem => htext (List.mem_of_mem_take hmem)
      refine ⟨[byte :: text.take n, text.drop n], by simp, ?_⟩
      have hpiece : decodePiece left (byte :: text.take n) =
          (decodeLoop (byte :: text.take n) left.value left.nRemain []).getD refused :=
        decodePiece_eq (by simp [hbyte.symm, htake]) (by simp [continueLoop_of_le hr])
      simp only [decodeLoop, hbyte, not_lt.2 hr, not_lt.2 hafter, if_false] at hpiece
      by_cases hzero : bytesAfter byte = 0
      · have hn0 : n = 0 := by omega
        rw [if_pos hzero, hn0, List.take_zero] at hpiece
        rw [hn0, List.take_zero, decodePieces, hpiece]
        exact fun heq => List.cons_ne_nil _ _ (congrArg Prod.fst heq)
      · obtain ⟨value', hvalue⟩ := decodeLoop_pending htake
          (byte.toNat % 2 ^ (7 - (bytesAfter byte).toNat))
          (show 0 < bytesAfter byte by omega)
          (by rw [← hcast]; exact_mod_cast List.length_take_le n text)
        rw [if_neg hzero, hvalue, Option.getD_some] at hpiece
        rw [decodePieces, hpiece]
        by_cases hlen : ((text.take n).length : ℤ) = bytesAfter byte
        · rw [if_pos hlen]
          exact fun heq => List.cons_ne_nil _ _ (congrArg Prod.fst heq)
        · have hdrop : text.drop n = [] := by
            rw [List.length_take] at hlen
            exact List.drop_eq_nil_of_le (by omega)
          rw [hdrop]
          simp only [decodePieces, decodePiece_nil]
          intro heq
          have hleft := congrArg (fun out => out.2.nRemain) heq
          have hle := List.length_take_le n text
          simp only [refused] at hleft
          omega

lemma exists_pieces {text : List UInt8} (h0 : 0 ∉ text) (left : PartialUtf8)
    (hshape : ¬ WellShaped left.nRemain text) (hrefused : ¬ RefusedThroughout left.nRemain text) :
    ∃ pieces : List (List UInt8), pieces.flatten = text ∧ decodePieces left pieces ≠ refused := by
  by_cases hr : left.nRemain ≤ 0
  · refine exists_pieces_of_firstByte h0 (fun hall => hrefused ?_) left hr
    refine refusedThroughout_continuations ?_ hall hr
    rintro rfl
    exact hshape trivial
  induction text generalizing left with
  | nil => exact absurd trivial hshape
  | cons byte text ih =>
    have hbyte : byte ≠ 0 := fun h => h0 (by simp [h])
    have htext : (0 : UInt8) ∉ text := fun h => h0 (by simp [h])
    have hpos : 0 < left.nRemain := by omega
    rw [WellShaped, if_pos hpos] at hshape
    rw [RefusedThroughout, if_pos hpos] at hrefused
    by_cases hcont : IsContinuation byte
    case neg =>
      rw [if_neg hcont] at hrefused
      obtain ⟨pieces, rfl, hne⟩ :=
        exists_pieces_of_firstByte htext hrefused ⟨0, -1⟩ (by simp)
      refine ⟨[byte] :: pieces, rfl, ?_⟩
      have hpiece : decodePiece left [byte] = refused :=
        decodePiece_refused (by rw [continueLoop_cons hbyte _ _ hpos, if_neg hcont])
      rw [decodePieces, hpiece]
      exact hne
    rw [if_pos hcont] at hrefused
    have h0byte : (0 : UInt8) ∉ [byte] := by simpa using hbyte.symm
    have hbyteShape : WellShaped left.nRemain [byte] := by
      rw [WellShaped, if_pos hpos]
      exact ⟨hcont, trivial⟩
    obtain ⟨value', hvalue⟩ := decodeLoop_pending h0byte left.value hpos
      (by simp only [List.length_singleton]; omega)
    have hpiece := decodePiece_wellShaped h0byte hbyteShape hvalue
    by_cases hlast : left.nRemain = 1
    · refine ⟨[[byte], text], by simp, ?_⟩
      rw [decodePieces, hpiece, hlast]
      exact fun heq => List.cons_ne_nil _ _ (congrArg Prod.fst heq)
    · obtain ⟨pieces, rfl, hne⟩ := ih htext ⟨value', left.nRemain - 1⟩
        (fun h => hshape ⟨hcont, h⟩) (fun h => hrefused ⟨by omega, h⟩)
        (by simp only [not_le]; omega)
      refine ⟨[byte] :: pieces, rfl, ?_⟩
      rw [decodePieces, hpiece, if_neg (by simpa using Ne.symm hlast)]
      exact hne

/-! ## The characters of UTF-8 -/

lemma bytesAfter_ofNat {n : ℕ} (h : n < 256) :
    bytesAfter (UInt8.ofNat n) =
      if n < 0x80 then 0 else if n < 0xC0 then -1 else if n < 0xE0 then 1 else if n < 0xF0 then 2
      else 3 := by
  rw [bytesAfter, UInt8.toNat_ofNat_of_lt' h]
  have hhigh : n / 2 ^ 4 < 16 := by omega
  generalize hn : n / 2 ^ 4 = high at hhigh
  interval_cases high <;> simp only [List.getD_eq_getElem?_getD] <;> split_ifs <;>
    first | omega | rfl

lemma ofNat_ne_zero {n : ℕ} (h : n < 256) (hpos : 0 < n) : UInt8.ofNat n ≠ 0 := by
  intro heq
  have := congrArg UInt8.toNat heq
  rw [UInt8.toNat_ofNat_of_lt' h, UInt8.toNat_zero] at this
  omega

/-- A sequence begins with a byte that announces `k` more bytes. -/
lemma decodeLoop_firstByte {n k bits : ℕ} (h : n < 256) (hpos : 0 < n)
    (hk : bytesAfter (UInt8.ofNat n) = k) (hbits : n % 2 ^ (7 - k) = bits) (rest : List UInt8)
    (value : ℕ) {nRemain : ℤ} (hr : nRemain ≤ 0) (codePoints : List ℕ) :
    decodeLoop (UInt8.ofNat n :: rest) value nRemain codePoints =
      decodeLoop rest bits k (if k = 0 then codePoints ++ [bits] else codePoints) := by
  have hk0 : ¬ (k : ℤ) < 0 := by omega
  simp only [decodeLoop, ofNat_ne_zero h hpos, not_lt.2 hr, hk, hk0, if_false, Int.toNat_natCast,
    UInt8.toNat_ofNat_of_lt' h, hbits, Nat.cast_eq_zero]

lemma decodeLoop_continuation (next : ℕ) {m : ℕ} (h : m < 64) (rest : List UInt8)
    {value k : ℕ} (hk : 0 < k) (hnext : value * 64 + m = next) (hlt : next < 2 ^ 32)
    (codePoints : List ℕ) :
    decodeLoop (UInt8.ofNat (m + 0x80) :: rest) value k codePoints =
      decodeLoop rest next (k - 1 : ℕ) (if k = 1 then codePoints ++ [next] else codePoints) := by
  have hbyte : m + 0x80 < 256 := by omega
  have hbits : appendBits value (UInt8.ofNat (m + 0x80)) = next := by
    rw [appendBits, UInt8.toNat_ofNat_of_lt' hbyte]
    omega
  have hpos : (0 : ℤ) < k := by exact_mod_cast hk
  have hpred : (k : ℤ) - 1 = (k - 1 : ℕ) := by omega
  have hlast : ((k - 1 : ℕ) : ℤ) = 0 ↔ k = 1 := by omega
  simp only [decodeLoop, ofNat_ne_zero hbyte (by omega), hpos, if_true, if_false, hbits, hpred,
    hlast]

lemma decodeLoop_char {c : Char} (hc : c.toNat ≠ 0) (rest : List UInt8) (value : ℕ) {nRemain : ℤ}
    (hr : nRemain ≤ 0) (codePoints : List ℕ) :
    decodeLoop (String.utf8EncodeChar c ++ rest) value nRemain codePoints =
      decodeLoop rest c.toNat 0 (codePoints ++ [c.toNat]) := by
  have hvalid : c.val.toNat < 0x110000 := by
    have := c.valid
    simp only [UInt32.isValidChar, Nat.isValidChar] at this
    omega
  have hfirst : ∀ {n k : ℕ}, n < 256 → (bytesAfter (UInt8.ofNat n) = k ↔
      (if n < 0x80 then 0 else if n < 0xC0 then -1 else if n < 0xE0 then 1 else if n < 0xF0 then 2
        else 3 : ℤ) = k) := fun h => by rw [bytesAfter_ofNat h]
  rw [Char.toNat] at hc ⊢
  fun_cases String.utf8EncodeChar c with
  | case1 v h =>
    have hv : v = c.val.toNat := rfl
    have hn : v < 256 := by omega
    have hk : bytesAfter (UInt8.ofNat v) = (0 : ℕ) := by
      rw [hfirst hn]; split_ifs <;> omega
    rw [List.singleton_append,
      decodeLoop_firstByte hn (by omega) hk (Nat.mod_eq_of_lt (by omega)) _ _ hr]
    rfl
  | case2 v h1 h2 =>
    have hv : v = c.val.toNat := rfl
    have hn : v / 64 % 0x20 + 0xC0 < 256 := by omega
    have hk : bytesAfter (UInt8.ofNat (v / 64 % 0x20 + 0xC0)) = (1 : ℕ) := by
      rw [hfirst hn]; split_ifs <;> omega
    simp only [List.cons_append, List.nil_append]
    rw [decodeLoop_firstByte hn (by omega) hk rfl _ _ hr,
      decodeLoop_continuation v (by omega) _ (by omega) (by omega) (by omega)]
    rfl
  | case3 v h1 h2 h3 =>
    have hv : v = c.val.toNat := rfl
    have hn : v / 4096 % 0x10 + 0xE0 < 256 := by omega
    have hk : bytesAfter (UInt8.ofNat (v / 4096 % 0x10 + 0xE0)) = (2 : ℕ) := by
      rw [hfirst hn]; split_ifs <;> omega
    simp only [List.cons_append, List.nil_append]
    rw [decodeLoop_firstByte hn (by omega) hk rfl _ _ hr,
      decodeLoop_continuation (v / 64) (by omega) _ (by omega) (by omega) (by omega),
      decodeLoop_continuation v (by omega) _ (by omega) (by omega) (by omega)]
    rfl
  | case4 v h1 h2 h3 =>
    have hv : v = c.val.toNat := rfl
    have hn : v / 262144 % 0x08 + 0xF0 < 256 := by omega
    have hk : bytesAfter (UInt8.ofNat (v / 262144 % 0x08 + 0xF0)) = (3 : ℕ) := by
      rw [hfirst hn]; split_ifs <;> omega
    simp only [List.cons_append, List.nil_append]
    rw [decodeLoop_firstByte hn (by omega) hk rfl _ _ hr,
      decodeLoop_continuation (v / 4096) (by omega) _ (by omega) (by omega) (by omega),
      decodeLoop_continuation (v / 64) (by omega) _ (by omega) (by omega) (by omega),
      decodeLoop_continuation v (by omega) _ (by omega) (by omega) (by omega)]
    rfl

lemma utf8EncodeChar_eq_zero {c : Char} (hc : c.toNat = 0) : String.utf8EncodeChar c = [0] := by
  obtain rfl : c = Char.ofNat 0 := by rw [← hc, Char.ofNat_toNat]
  rfl

lemma decodeLoop_chars (chars : List Char) (h0 : 0 ∉ chars.flatMap String.utf8EncodeChar)
    (value : ℕ) {nRemain : ℤ} (hr : nRemain ≤ 0) (codePoints : List ℕ) :
    ∃ left, decodeLoop (chars.flatMap String.utf8EncodeChar) value nRemain codePoints =
      some (codePoints ++ chars.map Char.toNat, left) := by
  induction chars generalizing value nRemain codePoints with
  | nil => exact ⟨⟨value, nRemain⟩, by simp [decodeLoop]⟩
  | cons c chars ih =>
    rw [List.flatMap_cons, List.mem_append, not_or] at h0
    have hc : c.toNat ≠ 0 := fun hc => h0.1 (by rw [utf8EncodeChar_eq_zero hc]; simp)
    obtain ⟨left, hleft⟩ := ih h0.2 c.toNat le_rfl (codePoints ++ [c.toNat])
    refine ⟨left, ?_⟩
    rw [List.flatMap_cons, decodeLoop_char hc _ _ hr, hleft]
    simp

lemma decodesUtf8 (left : PartialUtf8) {text : List UInt8} (h0 : 0 ∉ text) :
    DecodesUtf8 left text := by
  rintro chars hr rfl
  obtain ⟨left', hout⟩ := decodeLoop_chars chars h0 left.value hr []
  rw [decodePiece_eq h0 (by simp [continueLoop_of_le hr]), hout]
  simp

/-! ## When cuts do not matter -/

/-- The pieces of a text say what the text says, however it is cut, and UTF-8 is decoded, exactly
when the text is well-shaped or refused throughout. -/
theorem piecesAgree_iff (left : PartialUtf8) {text : List UInt8} (h0 : 0 ∉ text) :
    (PiecesAgree left text ∧ DecodesUtf8 left text) ↔
      WellShaped left.nRemain text ∨ RefusedThroughout left.nRemain text := by
  refine ⟨fun ⟨hagree, _⟩ => ?_, fun h => ⟨?_, decodesUtf8 left h0⟩⟩
  · by_contra hneither
    rw [not_or] at hneither
    obtain ⟨pieces, hpieces, hne⟩ := exists_pieces h0 left hneither.1 hneither.2
    rw [hagree pieces hpieces] at hne
    by_cases hc : continueLoop text left.value left.nRemain = none
    · exact hne (decodePiece_refused hc)
    rw [decodePiece_eq h0 hc] at hne
    obtain ⟨out, hout⟩ : ∃ out, decodeLoop text left.value left.nRemain [] = some out :=
      Option.ne_none_iff_exists'.1 fun hnone => hne (by rw [hnone]; rfl)
    obtain ⟨before, byte, after, mid, rfl, hshape, hmid, hleft, hstray⟩ :=
      exists_stray h0 hout hneither.1
    have hbefore : (0 : UInt8) ∉ before := fun h => h0 (by simp [h])
    have hbyte : byte ≠ 0 := fun h => h0 (by simp [h])
    -- cut in front of the byte that is no continuation byte, the second call refuses it
    have hcut := hagree [before, byte :: after] (by simp)
    have hsecond : decodePiece mid.2 (byte :: after) = refused :=
      decodePiece_refused (by rw [continueLoop_cons hbyte _ _ hleft, if_neg hstray])
    rw [decodePiece_eq h0 hc, hout, decodePieces, decodePieces,
      decodePiece_wellShaped hbefore hshape hmid, hsecond] at hcut
    have hend := decodeLoop_nRemain h0 hout (.inr (by simp))
    rw [← show _ = out from hcut] at hend
    exact absurd hend (by simp [decodePieces, refused])
  · rintro pieces rfl
    rcases h with hshape | hrefused
    · obtain ⟨out, hout⟩ := exists_decodeLoop_wellShaped h0 hshape left.value []
      rw [decodePieces_wellShaped pieces h0 hshape hout, decodePiece_wellShaped h0 hshape hout]
    · rw [decodePieces_refusedThroughout pieces h0 hrefused,
        decodePiece_refusedThroughout h0 hrefused]

/-- A text with a two-byte and a three-byte sequence. -/
theorem piecesAgree_twoSequences :
    (0 : UInt8) ∉ ([0xC3, 0xA9, 0xE2, 0x82, 0xAC] : List UInt8) ∧
      PiecesAgree ⟨0, 0⟩ [0xC3, 0xA9, 0xE2, 0x82, 0xAC] :=
  ⟨by decide, ((piecesAgree_iff ⟨0, 0⟩ (by decide)).2 (.inl (by simp [WellShaped]; decide))).1⟩

/-- `C3 41` is the character `0xC1` in one call, and an invalid sequence when it is cut. -/
theorem not_piecesAgree_strayByte :
    decodePiece ⟨0, 0⟩ [0xC3, 0x41] = ([0xC1], ⟨0xC1, 0⟩) ∧
      decodePieces ⟨0, 0⟩ [[0xC3], [0x41]] = ([], ⟨0, -1⟩) ∧
      ¬ ∀ text : List UInt8, 0 ∉ text → PiecesAgree ⟨0, 0⟩ text := by
  have hone : decodePiece ⟨0, 0⟩ [0xC3, 0x41] = ([0xC1], ⟨0xC1, 0⟩) := by decide
  have htwo : decodePieces ⟨0, 0⟩ [[0xC3], [0x41]] = ([], ⟨0, -1⟩) := by decide
  refine ⟨hone, htwo, fun h => ?_⟩
  have hagree := h [0xC3, 0x41] (by decide) [[0xC3], [0x41]] rfl
  rw [hone, htwo] at hagree
  exact absurd hagree (by decide)

/-! ## What a grammar reads of pieces -/

theorem acceptStr_pieces {fuel : ℕ} (pieces : List (List UInt8)) {g g' : GrammarState}
    (h : pieces.foldlM (acceptStr fuel) g = .ok g') :
    acceptAll g.rules fuel g.stackSet (decodePieces g.partialUtf8 pieces).1 = .ok g'.stackSet ∧
      g'.partialUtf8 = (decodePieces g.partialUtf8 pieces).2 := by
  induction pieces generalizing g with
  | nil =>
    obtain rfl : g = g' := by simpa [pure, Except.pure] using h
    exact ⟨rfl, rfl⟩
  | cons piece pieces ih =>
    rw [List.foldlM_cons, bind_eq_ok] at h
    obtain ⟨mid, hmid, hrest⟩ := h
    obtain ⟨out, hout, _, rfl⟩ := acceptStr_eq_ok.1 hmid
    obtain ⟨hall, hleft⟩ := ih hrest
    refine ⟨?_, hleft⟩
    rw [acceptAll, decodePieces, List.foldlM_append]
    exact (bind_eq_ok ..).2 ⟨out, hout, hall⟩

/-- However a well-shaped text is cut, a grammar that accepts its pieces has gone through the code
points of the text. -/
theorem acceptStr_wellShaped {fuel : ℕ} (pieces : List (List UInt8)) {g g' : GrammarState}
    (h0 : 0 ∉ pieces.flatten) (hshape : WellShaped g.partialUtf8.nRemain pieces.flatten)
    (h : pieces.foldlM (acceptStr fuel) g = .ok g') :
    acceptAll g.rules fuel g.stackSet (decodePiece g.partialUtf8 pieces.flatten).1 =
        .ok g'.stackSet ∧
      g'.partialUtf8 = (decodePiece g.partialUtf8 pieces.flatten).2 := by
  obtain ⟨out, hout⟩ := exists_decodeLoop_wellShaped h0 hshape g.partialUtf8.value []
  rw [decodePiece_wellShaped h0 hshape hout, ← decodePieces_wellShaped pieces h0 hshape hout]
  exact acceptStr_pieces pieces h

/-- The rule `"\u00E9" "a"`. -/
def accentState : GrammarState :=
  initState [[⟨.char, 0xE9⟩, ⟨.char, 97⟩, ⟨.endRule, 0⟩]] [[⟨0, 0⟩]] false [] []

/-- The accented letter comes in two pieces. -/
theorem acceptStr_wellShaped_accent : ∃ g',
    [[0xC3], [0xA9]].foldlM (acceptStr 2) accentState = .ok g' ∧ g'.stackSet = [[⟨0, 1⟩]] ∧
      acceptAll accentState.rules 2 accentState.stackSet (decodePiece ⟨0, 0⟩ [0xC3, 0xA9]).1 =
        .ok g'.stackSet := by
  have hshape : WellShaped 0 [0xC3, 0xA9] := by simp [WellShaped]; decide
  exact ⟨{ accentState with stackSet := [[⟨0, 1⟩]], partialUtf8 := ⟨0xE9, 0⟩ }, by rfl, rfl,
    (acceptStr_wellShaped [[0xC3], [0xA9]] (by decide) hshape (by rfl)).1⟩

end IFairy.LlamaGrammar
