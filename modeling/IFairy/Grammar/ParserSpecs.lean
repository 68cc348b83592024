import IFairy.Grammar.Repetitions

/-!
# What the parser makes of a text

Rules for the parser of grammars, one for each form of text: `Scans` is about a sequence of
symbols, `ScansAlts` about alternates.  They say that the parser gets behind the text, and that
what it adds to the rule derives a certain language, in every later state of the parser.  The
language depends on what the names stand for (`Meaning`), since the rules they name may not have
been read yet.
-/

namespace IFairy.LlamaGrammar

open ParserState

/-! ## Space -/

/-- `parse_space` goes over the character, or it begins a comment. -/
def isSpaceChar (c : Char) : Bool := c = ' ' || c = '\t' || c = '#' || isLineEnd c

/-- The text begins with a character that satisfies `p`, if it begins at all. -/
def HeadAll (p : Char → Prop) (pos : List Char) : Prop := ∀ c ∈ pos.head?, p c

lemma headAll_cons {p : Char → Prop} {c : Char} {pos : List Char} (h : p c) :
    HeadAll p (c :: pos) := by
  rintro c ⟨⟩
  exact h

lemma parseSpace_of_head {pos : List Char} (h : HeadAll (fun c => isSpaceChar c = false) pos)
    (nested : Bool) : parseSpace nested pos = pos := by
  cases pos with
  | nil => rfl
  | cons c pos =>
    have hc := h c rfl
    simp only [isSpaceChar, Bool.or_eq_false_iff, decide_eq_false_iff_not] at hc
    simp [parseSpace, parseSpaceLoop, hc]

@[simp] lemma parseSpace_space (nested : Bool) (pos : List Char) :
    parseSpace nested (' ' :: pos) = parseSpace nested pos := by
  rw [parseSpace, parseSpaceLoop]
  rfl

lemma parseSpace_spaces (nested : Bool) (n : ℕ) (pos : List Char) :
    parseSpace nested (List.replicate n ' ' ++ pos) = parseSpace nested pos := by
  induction n with
  | zero => rfl
  | succ n ih => rw [List.replicate_succ, List.cons_append, parseSpace_space, ih]

/-! ## States of the parser -/

/-- What the names stand for. -/
abbrev Meaning := List Char → Language ℕ

namespace ParserState

/-- The rules of the names have these languages. -/
def Means (q : ParserState) (env : Meaning) : Prop :=
  ∀ name ∈ q.symbolIds, '_' ∉ name → ruleLang q.rules (q.symbolIds.idxOf name) = env name

/-- A part of a text has been read: the symbols that came are names in `refs`, or were made up and
have their rules. -/
structure Grows (refs : List Char → Prop) (p p' : ParserState) : Prop extends p.Extends p' where
  fresh : ∀ id name, p.symbolIds.length ≤ id → p'.symbolIds[id]? = some name →
    ('_' ∈ name ∧ p'.rules.getD id [] ≠ []) ∨
      ('_' ∉ name ∧ refs name ∧ p'.symbolIds.idxOf name = id)
  length_le : p.rules.length ≤ p.symbolIds.length → p'.rules.length ≤ p'.symbolIds.length

variable {refs : List Char → Prop} {p p' p'' q : ParserState}

lemma Grows.refl (p : ParserState) : p.Grows refs p where
  toExtends := .refl p
  fresh id name hid hname := by
    obtain ⟨hlt, -⟩ := List.getElem?_eq_some_iff.1 hname
    exact absurd hlt (not_lt.2 hid)
  length_le h := h

lemma idxOf_eq_of_initial {α : Type*} [BEq α] [LawfulBEq α] {l l' : List α} (h : l <+: l') {a : α}
    (ha : a ∈ l) : l'.idxOf a = l.idxOf a := by
  obtain ⟨m, rfl⟩ := h
  exact List.idxOf_append_of_mem ha

lemma getElem?_eq_of_initial {α : Type*} {l l' : List α} (h : l <+: l') {i : ℕ} (hi : i < l.length) :
    l'[i]? = l[i]? := by
  obtain ⟨m, rfl⟩ := h
  exact List.getElem?_append_left hi

lemma Grows.trans (h : p.Grows refs p') (h' : p'.Grows refs p'') : p.Grows refs p'' where
  toExtends := h.toExtends.trans h'.toExtends
  fresh id name hid hname := by
    rcases lt_or_ge id p'.symbolIds.length with hlt | hge
    · rw [getElem?_eq_of_initial h'.names hlt] at hname
      rcases h.fresh id name hid hname with ⟨hmem, hrule⟩ | ⟨hmem, href, hidx⟩
      · exact .inl ⟨hmem, by rwa [h'.rules id hlt]⟩
      · refine .inr ⟨hmem, href, ?_⟩
        rw [idxOf_eq_of_initial h'.names (List.mem_of_getElem? hname), hidx]
    · exact h'.fresh id name hge hname
  length_le hle := h'.length_le (h.length_le hle)

lemma grows_getSymbolId {name : List Char} (hname : '_' ∉ name) (href : refs name) :
    p.Grows refs (p.getSymbolId name).2 ∧ name ∈ (p.getSymbolId name).2.symbolIds ∧
      (p.getSymbolId name).1 = (p.getSymbolId name).2.symbolIds.idxOf name := by
  rw [getSymbolId]
  split_ifs with hmem
  · exact ⟨.refl p, hmem, rfl⟩
  · have hidx : (p.symbolIds ++ [name]).idxOf name = p.symbolIds.length := by
      rw [List.idxOf_append_of_notMem hmem, List.idxOf_cons_self, Nat.add_zero]
    refine ⟨⟨⟨List.prefix_append _ _, fun _ _ => rfl⟩, fun id name' hid hname' => ?_, fun h => ?_⟩,
      List.mem_append_right _ (List.mem_singleton_self _), hidx.symm⟩
    · obtain ⟨hlt, -⟩ := List.getElem?_eq_some_iff.1 hname'
      rw [List.length_append, List.length_singleton] at hlt
      obtain rfl : id = p.symbolIds.length := by omega
      rw [List.getElem?_concat_length] at hname'
      obtain rfl := Option.some.inj hname'
      exact .inr ⟨hname, href, hidx⟩
    · rw [List.length_append]
      exact h.trans (Nat.le_add_right _ _)

lemma grows_generated {ruleName : List Char} {rule : Rule} (hrule : rule ≠ [])
    (h : (p.generateSymbolId ruleName).2.Grows refs p') :
    p.Grows refs (p'.addRule p.symbolIds.length rule) ∧
      (∀ q, p.Later (p'.addRule p.symbolIds.length rule) q →
        (p.generateSymbolId ruleName).2.Later p' q ∧
          q.rules.getD p.symbolIds.length [] = rule) := by
  have hgen : (p.generateSymbolId ruleName).2.symbolIds =
      p.symbolIds ++ [generatedName ruleName p.symbolIds.length] := rfl
  have hlength : (p.generateSymbolId ruleName).2.symbolIds.length = p.symbolIds.length + 1 := by
    rw [hgen, List.length_append, List.length_singleton]
  have hname : p'.symbolIds[p.symbolIds.length]? =
      some (generatedName ruleName p.symbolIds.length) := by
    rw [getElem?_eq_of_initial h.names (by omega), hgen, List.getElem?_concat_length]
  have hlt := (List.getElem?_eq_some_iff.1 hname).1
  refine ⟨⟨⟨(List.prefix_append _ _).trans h.names, fun id hid => ?_⟩, ?_, fun hle => ?_⟩, ?_⟩
  · rw [getD_addRule, if_neg hid.ne, h.rules id (by omega)]
    rfl
  · intro id name hid hname'
    rw [symbolIds_addRule] at hname' ⊢
    rcases hid.eq_or_lt with rfl | hlt'
    · rw [hname] at hname'
      obtain rfl := Option.some.inj hname'
      refine .inl ⟨underscore_mem_generatedName _ _, ?_⟩
      rwa [getD_addRule, if_pos rfl]
    · rw [getD_addRule, if_neg hlt'.ne']
      exact h.fresh id name (by omega) hname'
  · have hle' := h.length_le (by
      rw [hlength]
      exact hle.trans (Nat.le_succ _))
    rw [symbolIds_addRule, addRule]
    simp only [List.length_set, List.length_append, List.length_replicate]
    omega
  · intro q hq
    refine ⟨⟨hq.names, fun id name hid hname' hgenerated => ?_⟩, ?_⟩
    · rw [hq.rules id name (by omega) hname' hgenerated, getD_addRule, if_neg (by omega)]
    · rw [hq.rules _ _ le_rfl hname (underscore_mem_generatedName _ _), getD_addRule, if_pos rfl]

lemma grows_handleRepetitions {ruleName : List Char} {last : ℕ} {minTimes maxTimes : ℤ}
    {pos : List Char} {rule rule' : Rule}
    (h : handleRepetitions ruleName last minTimes maxTimes pos rule p = .ok (rule', p')) :
    p.Grows refs p' := by
  have hloop : ∀ n, p.Grows refs
      ((List.range n).foldl (addRecRule ruleName (rule.drop last) maxTimes) (0, p)).2 := by
    intro n
    induction n with
    | zero => exact .refl p
    | succ n ih =>
      rw [List.range_succ, List.foldl_append, List.foldl_cons, List.foldl_nil]
      exact ih.trans (grows_generated (by simp [recRule]) (.refl _)).1
  rw [handleRepetitions] at h
  split_ifs at h
  all_goals
    obtain ⟨-, rfl⟩ := Prod.ext_iff.1 (Except.ok.inj h)
    exact hloop _

end ParserState

end IFairy.LlamaGrammar
