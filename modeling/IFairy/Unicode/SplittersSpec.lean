import IFairy.Framework.Regex
import IFairy.Unicode.Splitters

/-!
# The custom splitters match their regular expressions

The splitters are compared with the regular expressions in their comments, read as an engine that
backtracks reads them, under one classification of the code points.  A round of a splitter passes
what the engine matches next (`Follows`), in the case of a long number over several matches, so that
a segment is cut where the engine cuts it (`split_gpt2_llama3`).
-/

namespace IFairy.Unicode

open Regex

/-! ## The regular expressions -/

/-- Tables that classify: letters, numbers and whitespace are different code points, and every code
point has some flag.  The apostrophe is none of them and its own lower case only. -/
structure Classification extends UnicodeData where
  letter_number : ∀ c, (flags c).isLetter = true → (flags c).isNumber = false
  whitespace_letter : ∀ c, (flags c).isWhitespace = true → (flags c).isLetter = false
  whitespace_number : ∀ c, (flags c).isWhitespace = true → (flags c).isNumber = false
  flags_ne_zero : ∀ c, (flags c).asUint ≠ 0
  space_whitespace : (flags ' '.toNat).isWhitespace = true
  newline_whitespace : ∀ c, isNewline c = true → (flags c).isWhitespace = true
  apostrophe_other : (flags '\''.toNat).isOther = true
  toLower_apostrophe : ∀ c, toLower c = '\''.toNat ↔ c = '\''.toNat

/-- The characters of a word, compared after `lower`. -/
def word (lower : ℕ → ℕ) : Char → List Char → Regex ℕ
  | x, [] => symbol fun c => lower c = x.toNat
  | x, y :: rest => seq (symbol fun c => lower c = x.toNat) (word lower y rest)

/-- `'s|'t|'re|'ve|'m|'ll|'d`. -/
def contractions (lower : ℕ → ℕ) : Regex ℕ :=
  alt (word lower '\'' ['s']) (alt (word lower '\'' ['t']) (alt (word lower '\'' ['r', 'e'])
    (alt (word lower '\'' ['v', 'e']) (alt (word lower '\'' ['m'])
      (alt (word lower '\'' ['l', 'l']) (word lower '\'' ['d']))))))

section

variable (U : Classification)

/-- `\p{L}`. -/
def letter (c : ℕ) : Bool := (U.flags c).isLetter

/-- `\p{N}`. -/
def number (c : ℕ) : Bool := (U.flags c).isNumber

/-- `\s`. -/
def whitespace (c : ℕ) : Bool := (U.flags c).isWhitespace

/-- `[^\s\p{L}\p{N}]`. -/
def other (c : ℕ) : Bool := !(whitespace U c || letter U c || number U c)

/-- `[^\r\n\p{L}\p{N}]`. -/
def leading (c : ℕ) : Bool := !(isNewline c || letter U c || number U c)

def space (c : ℕ) : Bool := c = ' '.toNat

/-- `\s+(?!\S)|\s+`. -/
def whitespaceRegex : Regex ℕ :=
  alt (seq (plus (symbol (whitespace U))) (notAhead fun c => !whitespace U c))
    (plus (symbol (whitespace U)))

/-- `'s|'t|'re|'ve|'m|'ll|'d| ?\p{L}+| ?\p{N}+| ?[^\s\p{L}\p{N}]+|\s+(?!\S)|\s+`. -/
def gpt2Regex : Regex ℕ :=
  alt (contractions id) (alt (seq (opt (symbol space)) (plus (symbol (letter U))))
    (alt (seq (opt (symbol space)) (plus (symbol (number U))))
      (alt (seq (opt (symbol space)) (plus (symbol (other U)))) (whitespaceRegex U))))

/-- `(?i:'s|'t|'re|'ve|'m|'ll|'d)|[^\r\n\p{L}\p{N}]?\p{L}+|\p{N}{1,3}| ?[^\s\p{L}\p{N}]+[\r\n]*|`
`\s*[\r\n]+|\s+(?!\S)|\s+`. -/
def llama3Regex : Regex ℕ :=
  alt (contractions U.toLower) (alt (seq (opt (symbol (leading U))) (plus (symbol (letter U))))
    (alt (upTo (symbol (number U)) 2)
      (alt (seq (seq (opt (symbol space)) (plus (symbol (other U)))) (star (symbol isNewline)))
        (alt (seq (star (symbol (whitespace U))) (plus (symbol isNewline))) (whitespaceRegex U)))))

end

/-- The segments of the given lengths. -/
def segments : List ℕ → List ℕ → List (List ℕ)
  | _, [] => []
  | cpts, offset :: offsets => cpts.take offset :: segments (cpts.drop offset) offsets

/-! ## Segments -/

namespace Segment

variable {U : UnicodeData} {g : Segment} {pos : ℕ}

/-- The code points from a position to the end of the segment. -/
def rest (g : Segment) (pos : ℕ) : List ℕ := (g.cpts.take g.stop).drop pos

lemma rest_add (k : ℕ) : g.rest (pos + k) = (g.rest pos).drop k := by
  rw [rest, rest, List.drop_drop]

lemma head?_rest (hstop : g.stop ≤ g.cpts.length) :
    (g.rest pos).head? = if pos < g.stop then some (g.cpts.getD pos 0) else none := by
  rw [rest, List.head?_drop, List.getElem?_take]
  split_ifs with h
  · rw [List.getD_eq_getElem?_getD, List.getElem?_eq_getElem (h.trans_le hstop), Option.getD_some]
  · rfl

variable (pos) in
lemma length_rest (hstop : g.stop ≤ g.cpts.length) : (g.rest pos).length = g.stop - pos := by
  rw [rest, List.length_drop, List.length_take, Nat.min_eq_left hstop]

lemma getCpt_eq (hstop : g.stop ≤ g.cpts.length) (hini : g.ini ≤ pos) :
    g.getCpt pos = (g.rest pos).head?.getD outOfRangeCpt := by
  rw [head?_rest hstop, getCpt]
  split_ifs with h hlt hlt
  · rfl
  · exact absurd h.2 hlt
  · exact absurd ⟨hini, hlt⟩ h
  · rfl

lemma getFlags_eq (hstop : g.stop ≤ g.cpts.length) (hini : g.ini ≤ pos) :
    g.getFlags U pos = ((g.rest pos).head?.map U.flags).getD ⟨0⟩ := by
  rw [head?_rest hstop, getFlags]
  split_ifs with h hlt hlt
  · rfl
  · exact absurd h.2 hlt
  · exact absurd ⟨hini, hlt⟩ h
  · rfl

lemma flags_any (hstop : g.stop ≤ g.cpts.length) (hini : g.ini ≤ pos) {f : CptFlags → Bool}
    (hf : f ⟨0⟩ = false) : f (g.getFlags U pos) = (g.rest pos).head?.any (f ∘ U.flags) := by
  rw [getFlags_eq hstop hini]
  cases (g.rest pos).head? with
  | none => exact hf
  | some c => rfl

lemma advance_eq (hstop : g.stop ≤ g.cpts.length) {p q : ℕ → Bool}
    (hpq : ∀ i, pos ≤ i → p i = (g.rest i).head?.any q) :
    g.advance p pos = pos + run q (g.rest pos) := by
  rw [advance, ← length_rest pos hstop]
  generalize hn : (g.rest pos).length = n
  induction n generalizing pos with
  | zero =>
    rw [List.length_eq_zero_iff.1 hn]
    rfl
  | succ n ih =>
    cases hrest : g.rest pos with
    | nil => rw [hrest] at hn; cases hn
    | cons c l =>
      have hnext : g.rest (pos + 1) = l := by rw [rest_add, hrest]; rfl
      rw [advanceLoop, hpq pos (Nat.le_refl _), hrest, List.head?_cons, Option.any_some, run_cons]
      split_ifs with h
      · rw [ih (fun i hi => hpq i (Nat.le_of_succ_le hi))
          (by rw [hnext]; rw [hrest] at hn; exact Nat.succ.inj hn), hnext]
        omega
      · rfl

end Segment

/-! ## Rounds -/

/-- A round passes matches, one after the other, and adds their lengths. -/
structure Follows (r : Regex ℕ) (g : Segment) (s s' : Cursor) : Prop where
  prevEnd : s'.prevEnd = s'.pos
  lt : s.pos < s'.pos
  le : s'.pos ≤ g.stop
  takes : ∃ lengths, s'.out = s.out ++ lengths ∧ Takes r (g.rest s.pos) lengths (g.rest s'.pos)

variable {g : Segment} {r : Regex ℕ} {s : Cursor}

lemma follows_moveTo (hstop : g.stop ≤ g.cpts.length) (hs : s.prevEnd = s.pos)
    (hlt : s.pos < g.stop) {k : ℕ} (hk : firstEnd r (g.rest s.pos) = some k) (hpos : 0 < k) :
    Follows r g s (s.moveTo (s.pos + k)) where
  prevEnd := rfl
  lt := Nat.lt_add_of_pos_right hpos
  le := by
    have hle := le_length_of_firstEnd hk
    rw [Segment.length_rest _ hstop] at hle
    change s.pos + k ≤ g.stop
    omega
  takes := by
    refine ⟨[k], ?_, .cons hk hpos ?_⟩
    · simp only [Cursor.moveTo, Cursor.addToken, hs, Nat.add_sub_cancel_left, if_pos hpos]
    · rw [← Segment.rest_add]
      exact .nil

lemma moveBy_eq (hs : s.prevEnd = s.pos) (k : ℕ) : s.moveBy (s.pos + k) = s.moveTo (s.pos + k) := by
  simp only [Cursor.moveBy, Cursor.moveTo, hs, Nat.add_sub_cancel_left]

lemma exists_splitSegment {step : Segment → Cursor → Cursor} {cpts : List ℕ} {ini stop : ℕ}
    (hini : ini ≤ stop) (hstop : stop ≤ cpts.length) (hnil : firstEnd r [] = none)
    (hround : ∀ s : Cursor, s.prevEnd = s.pos → ini ≤ s.pos → s.pos < stop →
      Follows r ⟨cpts, ini, stop⟩ s (step ⟨cpts, ini, stop⟩ s)) :
    ∃ out, splitSegment step cpts ini stop = some out ∧
      Splits r ((cpts.drop ini).take (stop - ini)) out := by
  let g : Segment := ⟨cpts, ini, stop⟩
  have hloop : ∃ s, whileLoop (fun s : Cursor => s.pos < stop) (step g) (stop - ini)
      ⟨ini, ini, []⟩ = some s ∧ (s.prevEnd = s.pos ∧ ini ≤ s.pos ∧ s.pos ≤ stop ∧
        Takes r (g.rest ini) s.out (g.rest s.pos)) ∧ decide (s.pos < stop) = false := by
    refine exists_whileLoop (fun s : Cursor => s.prevEnd = s.pos ∧ ini ≤ s.pos ∧ s.pos ≤ stop ∧
      Takes r (g.rest ini) s.out (g.rest s.pos)) (fun s => stop - s.pos) ?_
      ⟨rfl, Nat.le_refl _, hini, .nil⟩ (Nat.le_refl _)
    intro s ⟨hprev, hge, _, htakes⟩ hcond
    have hlt : s.pos < stop := of_decide_eq_true hcond
    obtain ⟨hprev', hlt', hle', lengths, hout, htakes'⟩ := hround s hprev hge hlt
    have hle : (step g s).pos ≤ stop := hle'
    exact ⟨⟨hprev', hge.trans hlt'.le, hle, hout ▸ htakes.trans htakes'⟩,
      Nat.sub_lt_sub_left hlt hlt'⟩
  obtain ⟨s, hs, ⟨-, -, hle, htakes⟩, hcond⟩ := hloop
  have hend : g.rest s.pos = [] := by
    have hge := of_decide_eq_false hcond
    rw [← List.length_eq_zero_iff, Segment.length_rest _ hstop]
    change stop - s.pos = 0
    omega
  refine ⟨s.out, Option.map_eq_some_iff.2 ⟨s, hs, rfl⟩, ?_⟩
  rw [hend] at htakes
  rw [← List.drop_take]
  exact htakes.splits hnil

lemma exists_splitOffsets {step : Segment → Cursor → Cursor} {cpts : List ℕ}
    (hnil : firstEnd r [] = none)
    (hround : ∀ (g : Segment) (s : Cursor), g.cpts = cpts → g.stop ≤ cpts.length →
      s.prevEnd = s.pos → g.ini ≤ s.pos → s.pos < g.stop → Follows r g s (step g s))
    {start : ℕ} {offsets : List ℕ} (hsum : start + offsets.sum ≤ cpts.length) :
    ∃ outs, splitOffsets step cpts start offsets = some outs.flatten ∧
      List.Forall₂ (Splits r) (segments (cpts.drop start) offsets) outs := by
  induction offsets generalizing start with
  | nil => exact ⟨[], rfl, .nil⟩
  | cons offset offsets ih =>
    rw [List.sum_cons] at hsum
    obtain ⟨out, hout, hsplits⟩ := exists_splitSegment (Nat.le_add_right start offset)
      (by omega : start + offset ≤ cpts.length) hnil fun s =>
        hround ⟨cpts, start, start + offset⟩ s rfl (by dsimp only; omega)
    obtain ⟨outs, houts, hall⟩ := ih (by omega : start + offset + offsets.sum ≤ cpts.length)
    refine ⟨out :: outs, ?_, .cons ?_ ?_⟩
    · rw [splitOffsets, hout, Option.bind_some, houts]
      rfl
    · rwa [Nat.add_sub_cancel_left] at hsplits
    · rwa [List.drop_drop]

/-! ## Contractions -/

lemma firstEnd_word {lower : ℕ → ℕ} {x : Char} {rest : List Char} {l : List ℕ} :
    firstEnd (word lower x rest) l =
      if (x :: rest).map Char.toNat <+: l.map lower then some (rest.length + 1) else none := by
  induction rest generalizing x l with
  | nil =>
    cases l with
    | nil => rfl
    | cons c l =>
      rw [word, firstEnd, ends, List.map_cons, List.map_nil, List.map_cons]
      simp only [decide_eq_true_eq, List.cons_prefix_cons, List.nil_prefix, and_true]
      by_cases h : lower c = x.toNat
      · rw [if_pos h, if_pos h.symm]
        rfl
      · rw [if_neg h, if_neg (Ne.symm h)]
        rfl
  | cons y rest ih =>
    cases l with
    | nil => rfl
    | cons c l =>
      rw [word, firstEnd_seq, ends]
      simp only [decide_eq_true_eq, List.map_cons, List.cons_prefix_cons]
      by_cases h : lower c = x.toNat
      · rw [if_pos h, List.findSome?_singleton, List.drop_succ_cons, List.drop_zero, ih]
        simp only [h, true_and, List.map_cons]
        split_ifs
        · rw [Option.map_some, List.length_cons, Nat.add_comm 1]
        · rfl
      · rw [if_neg h, if_neg fun hall => h hall.1.symm]
        rfl

lemma firstEnd_contractions_of_ne {lower : ℕ → ℕ} {c : ℕ} {l : List ℕ}
    (hc : lower c ≠ '\''.toNat) : firstEnd (contractions lower) (c :: l) = none := by
  have hword (x : Char) (rest : List Char) :
      firstEnd (word lower '\'' (x :: rest)) (c :: l) = none := by
    rw [firstEnd_word]
    exact if_neg fun hall => hc (List.cons_prefix_cons.1 hall).1.symm
  simp only [contractions, firstEnd_alt, hword, Option.or_none]

lemma firstEnd_words {x y : ℕ} :
    (if 's'.toNat = x then some 2 else none).or ((if 't'.toNat = x then some 2 else none).or
      ((if 'r'.toNat = x ∧ 'e'.toNat = y then some 3 else none).or
        ((if 'v'.toNat = x ∧ 'e'.toNat = y then some 3 else none).or
          ((if 'm'.toNat = x then some 2 else none).or
            ((if 'l'.toNat = x ∧ 'l'.toNat = y then some 3 else none).or
              (if 'd'.toNat = x then some 2 else none)))))) =
      positive (if x = 's'.toNat ∨ x = 't'.toNat ∨ x = 'm'.toNat ∨ x = 'd'.toNat then 2
        else if x = 'r'.toNat ∧ y = 'e'.toNat ∨ x = 'v'.toNat ∧ y = 'e'.toNat ∨
          x = 'l'.toNat ∧ y = 'l'.toNat then 3 else 0) := by
  simp only [Char.reduceToNat, eq_comm (b := x), eq_comm (b := y)]
  by_cases h : x = 115 ∨ x = 116 ∨ x = 109 ∨ x = 100
  · rw [if_pos h]
    rcases h with rfl | rfl | rfl | rfl <;> simp [positive]
  · rw [if_neg h]
    simp only [not_or] at h
    simp only [h, if_false, Option.none_or, Option.or_none]
    by_cases hr : x = 114
    · simp only [hr, true_and, Nat.reduceEqDiff, false_and, if_false, or_false, Option.or_none]
      split_ifs <;> rfl
    by_cases hv : x = 118
    · simp only [hv, true_and, Nat.reduceEqDiff, false_and, if_false, or_false, false_or,
        Option.or_none, Option.none_or]
      split_ifs <;> rfl
    · simp only [hr, hv, false_and, if_false, false_or, Option.none_or]
      split_ifs <;> rfl

lemma firstEnd_words_end {x : ℕ} :
    (if 's'.toNat = x then some 2 else none).or ((if 't'.toNat = x then some 2 else none).or
      ((if 'm'.toNat = x then some 2 else none).or (if 'd'.toNat = x then some 2 else none))) =
      positive (if x = 's'.toNat ∨ x = 't'.toNat ∨ x = 'm'.toNat ∨ x = 'd'.toNat then 2
        else 0) := by
  simp only [Char.reduceToNat, eq_comm (b := x)]
  by_cases h : x = 115 ∨ x = 116 ∨ x = 109 ∨ x = 100
  · rw [if_pos h]
    rcases h with rfl | rfl | rfl | rfl <;> simp [positive]
  · rw [if_neg h]
    simp only [not_or] at h
    simp only [h, if_false, Option.or_none]
    rfl

lemma firstEnd_contractions {lower : ℕ → ℕ} (hlower : ∀ c, lower c = '\''.toNat ↔ c = '\''.toNat)
    {pos : ℕ} (hstop : g.stop ≤ g.cpts.length) (hini : g.ini ≤ pos) (hlt : pos < g.stop) :
    firstEnd (contractions lower) (g.rest pos) = positive (contraction g lower pos) := by
  have hlength := Segment.length_rest pos hstop
  have hcpt (k : ℕ) : g.getCpt (pos + k) = ((g.rest pos).drop k).head?.getD outOfRangeCpt := by
    rw [Segment.getCpt_eq hstop (hini.trans (Nat.le_add_right pos k)), Segment.rest_add]
  have hcpt₀ := hcpt 0
  rw [Nat.add_zero, List.drop_zero] at hcpt₀
  cases hrest : g.rest pos with
  | nil => rw [hrest, List.length_nil] at hlength; omega
  | cons c l =>
    simp only [hrest, List.length_cons, List.head?_cons, Option.getD_some] at hlength hcpt hcpt₀
    by_cases hc : c = '\''.toNat
    · have hquote : lower c = '\''.toNat := (hlower c).2 hc
      cases l with
      | nil =>
        rw [List.length_nil] at hlength
        rw [contraction, if_neg (by omega)]
        simp [contractions, firstEnd_alt, firstEnd_word, positive]
      | cons d l =>
        rw [List.length_cons] at hlength
        have hnext : g.getCpt (pos + 1) = d := hcpt 1
        have hcond : g.getCpt pos = '\''.toNat ∧ pos + 1 < g.stop := ⟨hcpt₀.trans hc, by omega⟩
        cases l with
        | nil =>
          rw [List.length_nil] at hlength
          rw [contraction, if_pos hcond, hnext]
          dsimp only
          rw [if_neg (by omega : ¬ pos + 2 < g.stop), ← firstEnd_words_end]
          simp only [contractions, firstEnd_alt, firstEnd_word, List.map_cons, List.map_nil,
            List.cons_prefix_cons, hquote, true_and, and_true, List.prefix_nil,
            List.cons_ne_nil, and_false, if_false, Option.none_or]
          rfl
        | cons e l =>
          rw [List.length_cons] at hlength
          have hnextNext : g.getCpt (pos + 2) = e := hcpt 2
          rw [contraction, if_pos hcond, hnext]
          dsimp only
          rw [if_pos (by omega : pos + 2 < g.stop), hnextNext, ← firstEnd_words]
          simp only [contractions, firstEnd_alt, firstEnd_word, List.map_cons, List.map_nil,
            List.cons_prefix_cons, hquote, true_and, List.nil_prefix, and_true]
          rfl
    · rw [firstEnd_contractions_of_ne (mt (hlower c).1 hc), contraction, hcpt₀,
        if_neg fun hall => hc hall.1]
      rfl

/-! ## Rounds of the first splitter -/

/-- Where a round begins: within the segment, and all code points in range. -/
structure Ready (g : Segment) (s : Cursor) : Prop where
  stop_le : g.stop ≤ g.cpts.length
  ini_le : g.ini ≤ s.pos
  lt : s.pos < g.stop
  prevEnd : s.prevEnd = s.pos
  inRange : ∀ c ∈ g.cpts, c ≠ outOfRangeCpt

variable {U : Classification}

lemma Ready.exists_rest (h : Ready g s) :
    ∃ c l, g.rest s.pos = c :: l ∧ g.getCpt s.pos = c ∧
      g.getFlags U.toUnicodeData s.pos = U.flags c := by
  have hlength := Segment.length_rest s.pos h.stop_le
  cases hrest : g.rest s.pos with
  | nil =>
    rw [hrest, List.length_nil] at hlength
    have := h.lt
    omega
  | cons c l =>
    refine ⟨c, l, rfl, ?_, ?_⟩
    · rw [Segment.getCpt_eq h.stop_le h.ini_le, hrest]
      rfl
    · rw [Segment.getFlags_eq h.stop_le h.ini_le, hrest]
      rfl

lemma Ready.flags_eq (h : Ready g s) {i : ℕ} (hi : s.pos ≤ i) :
    (g.getFlags U.toUnicodeData i).isLetter = (g.rest i).head?.any (letter U) ∧
    (g.getFlags U.toUnicodeData i).isNumber = (g.rest i).head?.any (number U) ∧
    (g.getFlags U.toUnicodeData i).isWhitespace = (g.rest i).head?.any (whitespace U) ∧
    ((g.getFlags U.toUnicodeData i).isOther && (g.getFlags U.toUnicodeData i).asUint != 0) =
      (g.rest i).head?.any (other U) := by
  have hini := h.ini_le.trans hi
  refine ⟨Segment.flags_any h.stop_le hini rfl, Segment.flags_any h.stop_le hini rfl,
    Segment.flags_any h.stop_le hini rfl, ?_⟩
  have hother := Segment.flags_any (U := U.toUnicodeData) h.stop_le hini
    (f := fun f => f.isOther && f.asUint != 0) rfl
  have hclass : (fun f : CptFlags => f.isOther && f.asUint != 0) ∘ U.flags = other U := by
    funext c
    have hne : ((U.flags c).asUint != 0) = true := bne_iff_ne.2 (U.flags_ne_zero c)
    rw [Function.comp_apply, hne, Bool.and_true]
    rfl
  rw [hclass] at hother
  exact hother

lemma Ready.follows_run (h : Ready g s) {p P : ℕ → Bool} {k : ℕ}
    (hfirst : 0 < run p (g.rest (s.pos + k)) →
      firstEnd r (g.rest s.pos) = some (k + run p (g.rest (s.pos + k))))
    (hP : ∀ i, s.pos + k ≤ i → P i = (g.rest i).head?.any p) (hrun : P (s.pos + k) = true) :
    Follows r g s (s.moveTo (g.advance P (s.pos + k))) := by
  have hpos : 0 < run p (g.rest (s.pos + k)) := by
    rw [run_pos_iff, ← hP _ (Nat.le_refl _)]
    exact hrun
  rw [Segment.advance_eq h.stop_le hP, Nat.add_assoc]
  exact follows_moveTo h.stop_le h.prevEnd h.lt (hfirst hpos) (by omega)

lemma firstEnd_whitespace {l : List ℕ} : firstEnd (whitespaceRegex U) l =
    positive (if 1 < run (whitespace U) l ∧ l.drop (run (whitespace U) l) ≠ []
      then run (whitespace U) l - 1 else run (whitespace U) l) := by
  rw [whitespaceRegex, firstEnd_alt, firstEnd_plus_notAhead fun _ => rfl, firstEnd_plus_symbol]
  generalize run (whitespace U) l = n
  by_cases hend : l.drop n = []
  · rw [if_pos hend, if_neg fun hall => hall.2 hend]
    exact Option.or_self
  · rw [if_neg hend]
    rcases Nat.lt_or_ge 1 n with hn | hn
    · rw [if_pos ⟨hn, hend⟩, positive, if_pos (by omega)]
      rfl
    · rw [if_neg fun hall => absurd hall.1 (not_lt.2 hn), Nat.sub_eq_zero_of_le hn]
      rfl

lemma Ready.follows_whitespace (h : Ready g s)
    (hfirst : firstEnd r (g.rest s.pos) = firstEnd (whitespaceRegex U) (g.rest s.pos))
    (hpos : 0 < run (whitespace U) (g.rest s.pos)) :
    Follows r g s (whitespaceStep g s
      (g.advance (fun p => (g.getFlags U.toUnicodeData p).isWhitespace) s.pos)) := by
  have hadvance : g.advance (fun p => (g.getFlags U.toUnicodeData p).isWhitespace) s.pos =
      s.pos + run (whitespace U) (g.rest s.pos) :=
    Segment.advance_eq h.stop_le fun i hi => (h.flags_eq hi).2.2.1
  rw [firstEnd_whitespace] at hfirst
  have hend : g.getCpt (s.pos + run (whitespace U) (g.rest s.pos)) ≠ outOfRangeCpt ↔
      (g.rest s.pos).drop (run (whitespace U) (g.rest s.pos)) ≠ [] := by
    rw [Segment.getCpt_eq h.stop_le (h.ini_le.trans (Nat.le_add_right _ _)), Segment.rest_add]
    cases hrest : (g.rest s.pos).drop (run (whitespace U) (g.rest s.pos)) with
    | nil => simp
    | cons c l =>
      have hmem : c ∈ g.cpts := by
        have hc : c ∈ g.rest s.pos := List.mem_of_mem_drop (hrest ▸ List.mem_cons_self)
        exact List.mem_of_mem_take (List.mem_of_mem_drop hc)
      simp [h.inRange c hmem]
  generalize run (whitespace U) (g.rest s.pos) = n at *
  rw [hadvance, whitespaceStep, Nat.add_sub_cancel_left]
  simp only [hend]
  split_ifs at hfirst ⊢ with hmany
  · rw [Nat.add_sub_assoc hpos]
    exact follows_moveTo h.stop_le h.prevEnd h.lt (hfirst.trans (if_pos (by omega))) (by omega)
  · exact follows_moveTo h.stop_le h.prevEnd h.lt (hfirst.trans (if_pos hpos)) hpos

lemma space_whitespace : ∀ c, space c = true → whitespace U c = true := fun c hc => by
  rw [of_decide_eq_true hc]
  exact U.space_whitespace

lemma space_letter : ∀ c, space c = true → letter U c = false := fun c hc =>
  U.whitespace_letter c (space_whitespace c hc)

lemma space_number : ∀ c, space c = true → number U c = false := fun c hc =>
  U.whitespace_number c (space_whitespace c hc)

lemma space_other : ∀ c, space c = true → other U c = false := fun c hc => by
  rw [other, space_whitespace c hc]
  rfl

lemma Ready.start_eq (h : Ready g s) :
    (if decide (g.getCpt s.pos = ' '.toNat) = true then s.pos + 1 else s.pos) =
        s.pos + lead space (g.rest s.pos) ∧
    (if decide (g.getCpt s.pos = ' '.toNat) = true then g.getFlags U.toUnicodeData (s.pos + 1)
        else g.getFlags U.toUnicodeData s.pos) =
      g.getFlags U.toUnicodeData (s.pos + lead space (g.rest s.pos)) := by
  obtain ⟨c, l, hrest, hcpt, -⟩ := h.exists_rest (U := U)
  have hlead : lead space (g.rest s.pos) =
      if decide (g.getCpt s.pos = ' '.toNat) = true then 1 else 0 := by
    rw [lead, hrest, hcpt]
    rfl
  rw [hlead]
  split_ifs
  · exact ⟨rfl, rfl⟩
  · exact ⟨rfl, rfl⟩

/-- Where there is no space, neither a letter nor a number nor another code point, there is
whitespace. -/
lemma Ready.whitespace_pos (h : Ready g s)
    (hnone : lead space (g.rest s.pos) = 0 → (g.rest s.pos).head?.any (letter U) = false ∧
      (g.rest s.pos).head?.any (number U) = false ∧ (g.rest s.pos).head?.any (other U) = false) :
    0 < run (whitespace U) (g.rest s.pos) := by
  obtain ⟨c, l, hrest, -⟩ := h.exists_rest (U := U)
  rw [run_pos_iff, hrest, List.head?_cons, Option.any_some]
  by_cases hspace : space c = true
  · exact space_whitespace c hspace
  · rw [hrest, lead, List.head?_cons, Option.any_some, if_neg hspace] at hnone
    obtain ⟨hletter, hnumber, hother⟩ := hnone rfl
    rw [Option.any_some] at hletter hnumber hother
    rw [other, hletter, hnumber, Bool.or_false, Bool.or_false, Bool.not_eq_false'] at hother
    exact hother

lemma Ready.firstEnd_gpt2 (h : Ready g s) :
    let k := lead space (g.rest s.pos)
    let after p := (positive (run p (g.rest (s.pos + k)))).map (k + ·)
    firstEnd (gpt2Regex U) (g.rest s.pos) =
      (positive (contraction g id s.pos)).or ((after (letter U)).or ((after (number U)).or
        ((after (other U)).or (firstEnd (whitespaceRegex U) (g.rest s.pos))))) := by
  dsimp only
  have hcontractions : firstEnd (contractions id) (g.rest s.pos) =
      positive (contraction g id s.pos) :=
    firstEnd_contractions (fun _ => Iff.rfl) h.stop_le h.ini_le h.lt
  rw [gpt2Regex, firstEnd_alt, hcontractions, firstEnd_alt, firstEnd_lead_plus space_letter, firstEnd_alt, firstEnd_lead_plus space_number,
    firstEnd_alt, firstEnd_lead_plus space_other, Segment.rest_add]

lemma Ready.follows_gpt2 (h : Ready g s) :
    Follows (gpt2Regex U) g s (gpt2Step U.toUnicodeData g s) := by
  obtain ⟨hstart, hflags⟩ := h.start_eq (U := U)
  have hfirst := h.firstEnd_gpt2 (U := U)
  dsimp only at hfirst
  rw [gpt2Step]
  rw [hstart, hflags]
  set k := lead space (g.rest s.pos) with hk
  have hle : s.pos ≤ s.pos + k := Nat.le_add_right _ _
  obtain ⟨hletter, hnumber, -, hother⟩ := h.flags_eq (U := U) hle
  have hrun {p : ℕ → Bool} {b : Bool} (hb : b = (g.rest (s.pos + k)).head?.any p)
      (hfalse : ¬ b = true) : run p (g.rest (s.pos + k)) = 0 :=
    run_eq_zero (hb ▸ Bool.eq_false_iff.2 hfalse)
  split_ifs with hshort hisLetter hisNumber hisOther
  · rw [moveBy_eq h.prevEnd]
    refine follows_moveTo h.stop_le h.prevEnd h.lt ?_ hshort
    rw [hfirst, positive_of_pos hshort, Option.some_or]
  all_goals rw [Nat.eq_zero_of_not_pos hshort, positive_zero, Option.none_or] at hfirst
  · refine h.follows_run (fun hpos => ?_) (fun i hi => (h.flags_eq (hle.trans hi)).1) hisLetter
    rw [hfirst, positive_of_pos hpos, Option.map_some, Option.some_or]
  all_goals rw [hrun hletter hisLetter, positive_zero, Option.map_none, Option.none_or] at hfirst
  · refine h.follows_run (fun hpos => ?_) (fun i hi => (h.flags_eq (hle.trans hi)).2.1) hisNumber
    rw [hfirst, positive_of_pos hpos, Option.map_some, Option.some_or]
  all_goals rw [hrun hnumber hisNumber, positive_zero, Option.map_none, Option.none_or] at hfirst
  · refine h.follows_run (fun hpos => ?_) (fun i hi => (h.flags_eq (hle.trans hi)).2.2.2) ?_
    · rw [hfirst, positive_of_pos hpos, Option.map_some, Option.some_or]
    · rw [hisOther.1, bne_iff_ne.2 hisOther.2]
      rfl
  · have hnone : ¬ ((g.getFlags U.toUnicodeData (s.pos + k)).isOther &&
        (g.getFlags U.toUnicodeData (s.pos + k)).asUint != 0) = true := fun hboth =>
      hisOther ⟨(Bool.and_eq_true_iff.1 hboth).1, bne_iff_ne.1 (Bool.and_eq_true_iff.1 hboth).2⟩
    rw [hrun hother hnone, positive_zero, Option.map_none, Option.none_or] at hfirst
    refine h.follows_whitespace hfirst (h.whitespace_pos fun hzero => ?_)
    rw [← hk] at hzero
    rw [hzero, Nat.add_zero] at hletter hnumber hother hisLetter hisNumber hnone
    exact ⟨hletter ▸ Bool.eq_false_iff.2 hisLetter, hnumber ▸ Bool.eq_false_iff.2 hisNumber,
      hother ▸ Bool.eq_false_iff.2 hnone⟩

/-! ## Rounds of the second splitter -/

lemma leading_letter : ∀ c, leading U c = true → letter U c = false := fun c hc => by
  rw [leading, Bool.not_eq_true', Bool.or_eq_false_iff, Bool.or_eq_false_iff] at hc
  exact hc.1.2

lemma newline_whitespace : ∀ c, isNewline c = true → whitespace U c = true :=
  U.newline_whitespace

lemma firstEnd_llama3 {l : List ℕ} :
    let k := lead (leading U) l
    let n := run (whitespace U) l
    firstEnd (llama3Regex U) l =
      (firstEnd (contractions U.toLower) l).or
        (((positive (run (letter U) (l.drop k))).map (k + ·)).or
          ((positive (min 3 (run (number U) l))).or
            ((((positive (run (other U) (l.drop (lead space l)))).map (lead space l + ·)).map
                fun k => k + run isNewline (l.drop k)).or
              ((((List.range n).reverse.find? fun i => l[i]?.any isNewline).map (· + 1)).or
                (firstEnd (whitespaceRegex U) l))))) := by
  dsimp only
  rw [llama3Regex, firstEnd_alt, firstEnd_alt, firstEnd_lead_plus leading_letter, firstEnd_alt,
    firstEnd_upTo_symbol, firstEnd_alt, firstEnd_seq_star, firstEnd_lead_plus space_other,
    firstEnd_alt, firstEnd_star_plus newline_whitespace]

lemma number_letter {c : ℕ} (hc : number U c = true) : letter U c = false := by
  by_contra hne
  rw [number, U.letter_number c (Bool.not_eq_false _ ▸ hne)] at hc
  cases hc

lemma number_ne_apostrophe {c : ℕ} (hc : number U c = true) : U.toLower c ≠ '\''.toNat := by
  intro heq
  have hother : other U c = true := by
    rw [(U.toLower_apostrophe c).1 heq]
    exact U.apostrophe_other
  rw [other, hc, Bool.or_true] at hother
  cases hother

lemma firstEnd_llama3_number {l : List ℕ} (hl : 0 < run (number U) l) :
    firstEnd (llama3Regex U) l = some (min 3 (run (number U) l)) := by
  cases l with
  | nil => exact absurd hl (Nat.lt_irrefl 0)
  | cons c l =>
    have hc : number U c = true := run_pos_iff.1 hl
    have hlead : lead (leading U) (c :: l) = 0 := by
      rw [lead, List.head?_cons, Option.any_some, leading, hc, Bool.or_true]
      rfl
    have hletter : run (letter U) (c :: l) = 0 := run_eq_zero (number_letter hc)
    have hfirst := firstEnd_llama3 (U := U) (l := c :: l)
    dsimp only at hfirst
    rw [hfirst, firstEnd_contractions_of_ne (number_ne_apostrophe hc), Option.none_or, hlead,
      List.drop_zero, hletter, positive_zero, Option.map_none, Option.none_or,
      positive_of_pos (by omega), Option.some_or]

lemma run_rest_eq_add {p : ℕ → Bool} {i j : ℕ} (hj : j ≤ run p (g.rest i)) :
    run p (g.rest i) = j + run p (g.rest (i + j)) := by
  rw [run_eq_add_run_drop hj, Segment.rest_add]

/-- Where a number ends, with `j` digits since the last match. -/
lemma addToken_number {j : ℕ} (hpos : s.pos = s.prevEnd + j) (hj : j < 3)
    (hrun : run (number U) (g.rest s.prevEnd) = j) :
    ∃ lengths, (s.addToken s.pos).out = s.out ++ lengths ∧
      Takes (llama3Regex U) (g.rest s.prevEnd) lengths (g.rest s.pos) := by
  have hlen : s.pos - s.prevEnd = j := by omega
  rw [Cursor.addToken, hlen]
  split_ifs with hlt
  · refine ⟨[j], rfl, .cons ?_ hlt ?_⟩
    · rw [firstEnd_llama3_number (by omega), hrun, Nat.min_eq_right hj.le]
    · rw [hpos, Segment.rest_add]
      exact .nil
  · refine ⟨[], (List.append_nil _).symm, ?_⟩
    rw [hpos, Nat.eq_zero_of_not_pos hlt]
    exact .nil

lemma numberLoop_spec (hstop : g.stop ≤ g.cpts.length) {rounds : ℕ} (hini : g.ini ≤ s.prevEnd)
    {j : ℕ} (hpos : s.pos = s.prevEnd + j) (hj : j < 3)
    (hrun : j ≤ run (number U) (g.rest s.prevEnd)) (hrounds : (g.rest s.pos).length ≤ rounds) :
    let s' := numberLoop U.toUnicodeData g rounds s.prevEnd s
    s'.prevEnd = s'.pos ∧ s'.pos = s.prevEnd + run (number U) (g.rest s.prevEnd) ∧
      ∃ lengths, s'.out = s.out ++ lengths ∧
        Takes (llama3Regex U) (g.rest s.prevEnd) lengths (g.rest s'.pos) := by
  induction rounds generalizing s j with
  | zero =>
    have hsplit := run_rest_eq_add hrun
    rw [← hpos, List.length_eq_zero_iff.1 (Nat.le_zero.1 hrounds), run_nil, Nat.add_zero] at hsplit
    exact ⟨rfl, by rw [hsplit]; exact hpos, addToken_number hpos hj hsplit⟩
  | succ rounds ih =>
    have hsplit := run_rest_eq_add hrun
    rw [← hpos] at hsplit
    have hnumber : (g.getFlags U.toUnicodeData s.pos).isNumber =
        (g.rest s.pos).head?.any (number U) :=
      Segment.flags_any hstop (hini.trans (by omega)) rfl
    have hnext : (g.rest (s.pos + 1)).length ≤ rounds := by
      rw [Segment.rest_add, List.length_drop]
      omega
    rw [numberLoop]
    split_ifs with hisNumber hthree
    · -- three digits are a match
      have hmore := run_pos_iff.2 (hnumber ▸ hisNumber)
      have hend : s.pos + 1 = s.prevEnd + 3 := by omega
      obtain ⟨hprev, hstopped, lengths, hout, htakes⟩ :=
        ih (s := s.moveTo (s.pos + 1)) (j := 0) (show g.ini ≤ s.pos + 1 by omega) rfl
          (Nat.succ_pos 2) (Nat.zero_le _) hnext
      have hstart : (s.moveTo (s.pos + 1)).prevEnd = s.pos + 1 := rfl
      rw [hstart] at hprev hstopped hout htakes
      have hadd : (s.moveTo (s.pos + 1)).out = s.out ++ [3] := by
        have hlen : s.pos + 1 - s.prevEnd = 3 := by omega
        rw [Cursor.moveTo, Cursor.addToken, hlen]
        rfl
      have hrest := run_rest_eq_add (g := g) (i := s.prevEnd) (j := 3) (p := number U) (by omega)
      refine ⟨hprev, ?_, 3 :: lengths, ?_, .cons ?_ (Nat.succ_pos 2) ?_⟩
      · rw [hrest, ← hend, ← Nat.add_assoc, ← hend]
        exact hstopped
      · rw [hout, hadd, List.append_assoc]
        rfl
      · rw [firstEnd_llama3_number (by omega), Nat.min_eq_left (by omega)]
      · rw [← Segment.rest_add, ← hend]
        exact htakes
    · have hmore := run_pos_iff.2 (hnumber ▸ hisNumber)
      exact ih (s := { s with pos := s.pos + 1 }) (j := j + 1) hini (by dsimp only; omega)
        (by omega) (by dsimp only; omega) hnext
    · have hzero : run (number U) (g.rest s.pos) = 0 :=
        run_eq_zero (hnumber ▸ Bool.eq_false_iff.2 hisNumber)
      rw [hzero, Nat.add_zero] at hsplit
      exact ⟨rfl, by rw [hsplit]; exact hpos, addToken_number hpos hj hsplit⟩

lemma Ready.lastNewlineEnd_eq (h : Ready g s) {n : ℕ} (hn : n ≤ (g.rest s.pos).length) :
    lastNewlineEnd g s.pos (s.pos + n) =
      (((List.range n).reverse.find? fun i => (g.rest s.pos)[i]?.any isNewline).map
        fun i => s.pos + i + 1).getD 0 := by
  rw [lastNewlineEnd, Nat.add_sub_cancel_left]
  induction n with
  | zero => rfl
  | succ n ih =>
    have hnewline : isNewline (g.getCpt (s.pos + n)) = (g.rest s.pos)[n]?.any isNewline := by
      rw [Segment.getCpt_eq h.stop_le (h.ini_le.trans (Nat.le_add_right _ _)), Segment.rest_add,
        List.head?_drop, List.getElem?_eq_getElem hn]
      rfl
    rw [List.range_succ, List.foldl_append, List.foldl_cons, List.foldl_nil, hnewline,
      ih (Nat.le_of_succ_le hn), List.reverse_append, List.reverse_singleton,
      List.singleton_append, List.find?_cons]
    cases (g.rest s.pos)[n]?.any isNewline <;> rfl

lemma Ready.firstEnd_letters (h : Ready g s) :
    (positive (run (letter U) ((g.rest s.pos).drop (lead (leading U) (g.rest s.pos))))).map
        (lead (leading U) (g.rest s.pos) + ·) =
      if ¬ (isNewline (g.getCpt s.pos) = true ∨
            (g.getFlags U.toUnicodeData s.pos).isNumber = true) ∧
          ((g.getFlags U.toUnicodeData s.pos).isLetter = true ∨
            (g.getFlags U.toUnicodeData (s.pos + 1)).isLetter = true)
      then some (1 + run (letter U) (g.rest (s.pos + 1))) else none := by
  obtain ⟨c, l, hrest, hcpt, hflags⟩ := h.exists_rest (U := U)
  have hnext : g.rest (s.pos + 1) = l := by rw [Segment.rest_add, hrest]; rfl
  have hnextFlags : (g.getFlags U.toUnicodeData (s.pos + 1)).isLetter =
      l.head?.any (letter U) := by
    rw [(h.flags_eq (U := U) (Nat.le_succ s.pos)).1, hnext]
  rw [hcpt, hflags, hnextFlags, hnext, hrest, lead, List.head?_cons, Option.any_some]
  change _ = if ¬ (isNewline c = true ∨ number U c = true) ∧
    (letter U c = true ∨ l.head?.any (letter U) = true) then _ else _
  have hclash : isNewline c = true ∨ number U c = true → letter U c = false := fun hor =>
    hor.elim (fun hc => U.whitespace_letter c (newline_whitespace c hc)) number_letter
  by_cases hletter : letter U c = true
  · have hlead : leading U c = false := by
      rw [leading, hletter, Bool.or_true, Bool.true_or]
      rfl
    have hcond : ¬ (isNewline c = true ∨ number U c = true) := fun hor => by
      rw [hclash hor] at hletter
      cases hletter
    rw [hlead, if_neg Bool.false_ne_true, List.drop_zero, run_cons, if_pos hletter,
      positive_of_pos (Nat.succ_pos _), Option.map_some, Nat.zero_add, Nat.add_comm,
      if_pos ⟨hcond, .inl hletter⟩]
  · have hzero : run (letter U) (c :: l) = 0 := run_eq_zero (Bool.eq_false_iff.2 hletter)
    by_cases hcond : isNewline c = true ∨ number U c = true
    · have hlead : leading U c = false := by
        rw [leading]
        rcases hcond with hc | hc <;> simp [hc]
      rw [hlead, if_neg Bool.false_ne_true, List.drop_zero, hzero,
        if_neg fun hall => hall.1 hcond]
      rfl
    · have hlead : leading U c = true := by
        rw [not_or] at hcond
        simp [leading, hcond.1, hcond.2, hletter]
      rw [hlead, if_pos rfl, List.drop_succ_cons, List.drop_zero]
      by_cases hmore : l.head?.any (letter U) = true
      · rw [if_pos ⟨hcond, .inr hmore⟩, positive_of_pos (run_pos_iff.2 hmore), Option.map_some]
      · rw [if_neg fun hall => hall.2.elim hletter hmore,
          run_eq_zero (Bool.eq_false_iff.2 hmore)]
        rfl

lemma Ready.follows_number (h : Ready g s)
    (hnumber : (g.getFlags U.toUnicodeData s.pos).isNumber = true) :
    Follows (llama3Regex U) g s
      (numberLoop U.toUnicodeData g (g.stop - s.pos) s.pos s) := by
  have hpos : 0 < run (number U) (g.rest s.pos) :=
    run_pos_iff.2 ((h.flags_eq (U := U) (Nat.le_refl _)).2.1 ▸ hnumber)
  have hle := run_le (p := number U) (s := g.rest s.pos)
  have hlength := Segment.length_rest s.pos h.stop_le
  have hspec := numberLoop_spec (U := U) (s := s) h.stop_le (h.prevEnd ▸ h.ini_le) (j := 0)
    h.prevEnd.symm (Nat.succ_pos 2) (Nat.zero_le _) hlength.le
  rw [h.prevEnd] at hspec
  obtain ⟨hprev, hend, hout⟩ := hspec
  exact ⟨hprev, by rw [hend]; omega, by rw [hend]; omega, hout⟩

lemma Ready.isNewline_eq (h : Ready g s) {i : ℕ} (hi : s.pos ≤ i) :
    isNewline (g.getCpt i) = (g.rest i).head?.any isNewline := by
  rw [Segment.getCpt_eq h.stop_le (h.ini_le.trans hi)]
  cases (g.rest i).head? <;> rfl

lemma Ready.follows_other (h : Ready g s)
    (hother : (g.getFlags U.toUnicodeData (s.pos + lead space (g.rest s.pos))).isOther = true)
    (hsome : 0 < run (other U) ((g.rest s.pos).drop (lead space (g.rest s.pos))) →
      firstEnd r (g.rest s.pos) =
        some (lead space (g.rest s.pos) +
          run (other U) ((g.rest s.pos).drop (lead space (g.rest s.pos))) +
          run isNewline ((g.rest s.pos).drop (lead space (g.rest s.pos) +
            run (other U) ((g.rest s.pos).drop (lead space (g.rest s.pos)))))))
    (hnil : g.rest s.pos = [' '.toNat] → firstEnd r (g.rest s.pos) = some 1) :
    Follows r g s (s.moveTo (g.advance (fun p => isNewline (g.getCpt p))
      (g.advance (fun p => (g.getFlags U.toUnicodeData p).isOther &&
        (g.getFlags U.toUnicodeData p).asUint != 0) (s.pos + lead space (g.rest s.pos))))) := by
  generalize hk : lead space (g.rest s.pos) = k at *
  have hadvance : g.advance (fun p => (g.getFlags U.toUnicodeData p).isOther &&
      (g.getFlags U.toUnicodeData p).asUint != 0) (s.pos + k) =
        s.pos + (k + run (other U) ((g.rest s.pos).drop k)) := by
    rw [← Segment.rest_add, ← Nat.add_assoc]
    exact Segment.advance_eq h.stop_le fun i hi =>
      (h.flags_eq ((Nat.le_add_right _ _).trans hi)).2.2.2
  have hnewlines (m : ℕ) : g.advance (fun p => isNewline (g.getCpt p)) (s.pos + m) =
      s.pos + (m + run isNewline ((g.rest s.pos).drop m)) := by
    rw [← Segment.rest_add, ← Nat.add_assoc]
    exact Segment.advance_eq h.stop_le fun i hi =>
      h.isNewline_eq ((Nat.le_add_right _ _).trans hi)
  rw [hadvance, hnewlines]
  rcases Nat.eq_zero_or_pos (run (other U) ((g.rest s.pos).drop k)) with hzero | hpos
  · -- flags without any bit, and so the end of the segment behind a space
    have hend : g.rest (s.pos + k) = [] := by
      cases hrest : g.rest (s.pos + k) with
      | nil => rfl
      | cons d l =>
        rw [Segment.getFlags_eq h.stop_le (h.ini_le.trans (Nat.le_add_right _ _)), hrest] at hother
        have hpos : 0 < run (other U) (g.rest (s.pos + k)) := by
          rw [run_pos_iff, hrest]
          exact hother
        rw [Segment.rest_add, hzero] at hpos
        exact absurd hpos (Nat.lt_irrefl 0)
    obtain ⟨c, l, hrest, -⟩ := h.exists_rest (U := U)
    rw [hrest, lead, List.head?_cons, Option.any_some] at hk
    split_ifs at hk with hspace
    · subst hk
      rw [Segment.rest_add, hrest, List.drop_succ_cons, List.drop_zero] at hend
      have hone : g.rest s.pos = [' '.toNat] := by
        rw [hrest, hend, of_decide_eq_true hspace]
      rw [hzero, hone]
      exact follows_moveTo h.stop_le h.prevEnd h.lt (hnil hone) Nat.one_pos
    · rw [← hk, Nat.add_zero, hrest] at hend
      cases hend
  · exact follows_moveTo h.stop_le h.prevEnd h.lt (hsome hpos) (by omega)

lemma Ready.follows_blank (h : Ready g s)
    (hfirst : firstEnd r (g.rest s.pos) =
      (((List.range (run (whitespace U) (g.rest s.pos))).reverse.find? fun i =>
        (g.rest s.pos)[i]?.any isNewline).map (· + 1)).or
          (firstEnd (whitespaceRegex U) (g.rest s.pos)))
    (hpos : 0 < run (whitespace U) (g.rest s.pos)) :
    let spaces := g.advance (fun p => (g.getFlags U.toUnicodeData p).isWhitespace) s.pos
    let lastEnd := lastNewlineEnd g s.pos spaces
    Follows r g s (if 0 < lastEnd then s.moveTo lastEnd else whitespaceStep g s spaces) := by
  dsimp only
  have hadvance : g.advance (fun p => (g.getFlags U.toUnicodeData p).isWhitespace) s.pos =
      s.pos + run (whitespace U) (g.rest s.pos) :=
    Segment.advance_eq h.stop_le fun i hi => (h.flags_eq hi).2.2.1
  have hlast := h.lastNewlineEnd_eq (run_le (p := whitespace U))
  rw [← hadvance] at hlast
  rw [hlast]
  cases hfind : (List.range (run (whitespace U) (g.rest s.pos))).reverse.find? fun i =>
      (g.rest s.pos)[i]?.any isNewline with
  | some i =>
    rw [hfind, Option.map_some, Option.some_or] at hfirst
    rw [Option.map_some, Option.getD_some, if_pos (Nat.succ_pos _), Nat.add_assoc]
    exact follows_moveTo h.stop_le h.prevEnd h.lt hfirst (Nat.succ_pos i)
  | none =>
    rw [hfind, Option.map_none, Option.none_or] at hfirst
    rw [Option.map_none, Option.getD_none, if_neg (Nat.lt_irrefl 0)]
    exact h.follows_whitespace hfirst hpos

lemma Ready.follows_llama3 (h : Ready g s) :
    Follows (llama3Regex U) g s (llama3Step U.toUnicodeData g s) := by
  obtain ⟨hstart, hflags⟩ := h.start_eq (U := U)
  obtain ⟨c, l, hrest, hcpt, hflagsAt⟩ := h.exists_rest (U := U)
  have hfirst := firstEnd_llama3 (U := U) (l := g.rest s.pos)
  dsimp only at hfirst
  rw [firstEnd_contractions U.toLower_apostrophe h.stop_le h.ini_le h.lt, h.firstEnd_letters]
    at hfirst
  rw [llama3Step]
  rw [hstart, hflags]
  split_ifs with hshort hletters hisNumber hother
  · rw [moveBy_eq h.prevEnd]
    refine follows_moveTo h.stop_le h.prevEnd h.lt ?_ hshort
    rw [hfirst, positive_of_pos hshort, Option.some_or]
  all_goals rw [Nat.eq_zero_of_not_pos hshort, positive_zero, Option.none_or] at hfirst
  · rw [if_pos hletters, Option.some_or] at hfirst
    have hadvance : g.advance (fun p => (g.getFlags U.toUnicodeData p).isLetter) (s.pos + 1) =
        s.pos + 1 + run (letter U) (g.rest (s.pos + 1)) :=
      Segment.advance_eq h.stop_le fun i hi => (h.flags_eq (Nat.le_of_succ_le hi)).1
    rw [hadvance, Nat.add_assoc]
    exact follows_moveTo h.stop_le h.prevEnd h.lt hfirst (by omega)
  · exact h.follows_number hisNumber
  all_goals
    rw [if_neg hletters, Option.none_or, run_eq_zero (p := number U)
      ((h.flags_eq (Nat.le_refl _)).2.1 ▸ Bool.eq_false_iff.2 hisNumber), Nat.min_zero,
      positive_zero, Option.none_or] at hfirst
  · refine h.follows_other hother.1 (fun hsome => ?_) fun hnil => ?_
    · rw [hfirst, positive_of_pos hsome, Option.map_some, Option.map_some, Option.some_or]
    · have hrun : run (whitespace U) [' '.toNat] = 1 := by
        rw [run_cons, if_pos (show whitespace U ' '.toNat = true from U.space_whitespace), run_nil]
      rw [hnil, firstEnd_whitespace, hrun] at hfirst
      rw [hnil, hfirst]
      rfl
  · have hnotOther : (g.rest (s.pos + lead space (g.rest s.pos))).head?.any (other U) = false := by
      rw [← (h.flags_eq (Nat.le_add_right _ _)).2.2.2, Bool.and_eq_false_iff]
      refine .inl (Bool.eq_false_iff.2 fun htrue => hother ⟨htrue, ?_⟩)
      rw [hflagsAt]
      exact U.flags_ne_zero c
    rw [← Segment.rest_add, run_eq_zero hnotOther, positive_zero, Option.map_none,
      Option.map_none, Option.none_or] at hfirst
    refine h.follows_blank hfirst (h.whitespace_pos fun hzero => ?_)
    rw [hzero, Nat.add_zero] at hnotOther
    refine ⟨?_, (h.flags_eq (Nat.le_refl _)).2.1 ▸ Bool.eq_false_iff.2 hisNumber, hnotOther⟩
    rw [hflagsAt] at hisNumber hletters
    rw [hrest, List.head?_cons, Option.any_some]
    refine Bool.eq_false_iff.2 fun hletter => hletters ⟨fun hor => ?_, .inl hletter⟩
    rcases hor with hnewline | hnumber
    · rw [hcpt] at hnewline
      rw [letter, U.whitespace_letter c (newline_whitespace c hnewline)] at hletter
      cases hletter
    · exact hisNumber hnumber

/-! ## Whole texts -/

/-- The segments are cut one by one, and the lengths of the pieces are put together. -/
def SplitsAll (r : Regex ℕ) (segs : List (List ℕ)) (out : List ℕ) : Prop :=
  ∃ outs, List.Forall₂ (Splits r) segs outs ∧ out = outs.flatten

lemma forall₂_splits_unique {segs outs outs' : List (List ℕ)}
    (h : List.Forall₂ (Splits r) segs outs) (h' : List.Forall₂ (Splits r) segs outs') :
    outs = outs' := by
  induction h generalizing outs' with
  | nil => cases h'; rfl
  | cons hsplits _ ih =>
    cases h' with
    | cons hsplits' hrest => rw [hsplits.unique hsplits', ih hrest]

lemma splitOffsets_iff {step : Segment → Cursor → Cursor} {cpts offsets : List ℕ}
    (hnil : firstEnd r [] = none) (hround : ∀ (g : Segment) (s : Cursor), Ready g s →
      Follows r g s (step g s))
    (hsum : offsets.sum ≤ cpts.length) (hcpts : ∀ c ∈ cpts, c ≠ outOfRangeCpt) :
    (∃ out, splitOffsets step cpts 0 offsets = some out) ∧
      ∀ out, splitOffsets step cpts 0 offsets = some out ↔
        SplitsAll r (segments cpts offsets) out := by
  obtain ⟨outs, houts, hall⟩ := exists_splitOffsets hnil
    (fun g s hg hstop hprev hini hlt => hround g s ⟨hg ▸ hstop, hini, hlt, hprev, hg ▸ hcpts⟩)
    ((Nat.zero_add _).trans_le hsum)
  refine ⟨⟨_, houts⟩, fun out => ⟨fun hout => ?_, fun ⟨outs', hall', hout⟩ => ?_⟩⟩
  · exact ⟨outs, hall, Option.some.inj (hout.symm.trans houts)⟩
  · rw [houts, hout, forall₂_splits_unique hall hall']

/-- Both splitters cut every text into the matches of their regular expressions. -/
theorem split_gpt2_llama3 (U : Classification) {cpts offsets : List ℕ}
    (hsum : offsets.sum ≤ cpts.length) (hcpts : ∀ c ∈ cpts, c ≠ outOfRangeCpt) :
    ((∃ out, unicodeRegexSplitCustomGpt2 U.toUnicodeData cpts offsets = some out) ∧
      ∀ out, unicodeRegexSplitCustomGpt2 U.toUnicodeData cpts offsets = some out ↔
        SplitsAll (gpt2Regex U) (segments cpts offsets) out) ∧
    (∃ out, unicodeRegexSplitCustomLlama3 U.toUnicodeData cpts offsets = some out) ∧
      ∀ out, unicodeRegexSplitCustomLlama3 U.toUnicodeData cpts offsets = some out ↔
        SplitsAll (llama3Regex U) (segments cpts offsets) out :=
  ⟨splitOffsets_iff rfl (fun _ _ => Ready.follows_gpt2) hsum hcpts,
    splitOffsets_iff rfl (fun _ _ => Ready.follows_llama3) hsum hcpts⟩

/-- The flags of ASCII letters, digits and whitespace; other code points are undefined. -/
def asciiFlags (c : ℕ) : ℕ :=
  if 97 ≤ c ∧ c ≤ 122 ∨ 65 ≤ c ∧ c ≤ 90 then 4
  else if 48 ≤ c ∧ c ≤ 57 then 2
  else if c = 32 ∨ 9 ≤ c ∧ c ≤ 13 then 256
  else 1

lemma asciiFlags_cases (c : ℕ) :
    asciiFlags c = 4 ∨ asciiFlags c = 2 ∨ asciiFlags c = 256 ∨ asciiFlags c = 1 := by
  unfold asciiFlags
  split_ifs <;> simp

def ascii : Classification where
  flags c := ⟨asciiFlags c⟩
  toLower c := if 65 ≤ c ∧ c ≤ 90 then c + 32 else c
  letter_number c h := by
    obtain hc | hc | hc | hc := asciiFlags_cases c <;> rw [hc] at h ⊢ <;> first | rfl | cases h
  whitespace_letter c h := by
    obtain hc | hc | hc | hc := asciiFlags_cases c <;> rw [hc] at h ⊢ <;> first | rfl | cases h
  whitespace_number c h := by
    obtain hc | hc | hc | hc := asciiFlags_cases c <;> rw [hc] at h ⊢ <;> first | rfl | cases h
  flags_ne_zero c := by
    obtain hc | hc | hc | hc := asciiFlags_cases c <;> simp [hc]
  space_whitespace := rfl
  newline_whitespace c h := by
    obtain rfl | rfl := of_decide_eq_true h <;> rfl
  apostrophe_other := rfl
  toLower_apostrophe c := by
    simp only [Char.reduceToNat]
    split_ifs <;> omega

/-- A text in two segments. -/
theorem split_gpt2_llama3_ascii :
    unicodeRegexSplitCustomLlama3 ascii.toUnicodeData
        ("It'S 12345  ok".toList.map Char.toNat) [10, 4] = some [2, 2, 1, 3, 2, 1, 3] ∧
      SplitsAll (llama3Regex ascii) (segments ("It'S 12345  ok".toList.map Char.toNat) [10, 4])
        [2, 2, 1, 3, 2, 1, 3] := by
  have hsplit : unicodeRegexSplitCustomLlama3 ascii.toUnicodeData
      ("It'S 12345  ok".toList.map Char.toNat) [10, 4] = some [2, 2, 1, 3, 2, 1, 3] := by
    decide +kernel
  exact ⟨hsplit, ((split_gpt2_llama3 ascii (by decide) (by decide)).2.2 _).1 hsplit⟩

end IFairy.Unicode
