import IFairy.Framework.LeftRecursion
import IFairy.Grammar.Stacks
import Mathlib.Data.List.Chain

/-!
# What the elements of a grammar mean

The rules of a grammar denote a context free grammar (`cfg`): its nonterminals are the indices of
the rules, its terminals the character classes (`CharClass`), and every alternate of a rule is an
output (`syms`).  A stack denotes the sentential form that is still to be read (`formOf`).

`WellFormed` is what the parser guarantees about the rules it produces: a rule is one sequence of
elements closed by its only `END` element, references are to existing rules, and the elements that
continue a character class stand inside one.

The functions on positions act on the symbols that the positions denote: matching a character is
membership in the class on top (`matchChar_eq`), the position behind a class denotes the rest of the
alternate (`syms_of_terminal`), and the alternates of a rule are the outputs of its nonterminal
(`mem_cfg_rules`).  In a grammar that the parser produced, none of these positions is inside a class
(`ParsedGrammar.not_insideClass_*`), so that all stacks stay `Valid`.
-/

namespace IFairy.LlamaGrammar

/-! ## Character classes -/

/-- A part of a character class: the characters between two ends, or all of them. -/
inductive CharRange where
  | span (lower upper : ℕ)
  | any
  deriving DecidableEq, Repr

def CharRange.Has : CharRange → ℕ → Prop
  | .span lower upper, c => lower ≤ c ∧ c ≤ upper
  | .any, _ => True

instance (r : CharRange) (c : ℕ) : Decidable (r.Has c) := by
  cases r <;> unfold CharRange.Has <;> infer_instance

/-- A regular or inverse character class. -/
structure CharClass where
  inverse : Bool
  ranges : List CharRange
  deriving DecidableEq, Repr

def CharClass.Has (k : CharClass) (c : ℕ) : Prop :=
  (∃ r ∈ k.ranges, r.Has c) ↔ k.inverse = false

instance (k : CharClass) (c : ℕ) : Decidable (k.Has c) :=
  inferInstanceAs (Decidable (_ ↔ _))

def rangeOf (e : GrammarElement) : CharRange :=
  if e.type = .charAny then .any else .span e.value e.value

/-- The ranges of the class that the elements begin with. -/
def classRanges : List GrammarElement → List CharRange
  | [] => []
  | [e] => [rangeOf e]
  | e :: upper :: rest =>
    if upper.type = .charRngUpper then
      .span e.value upper.value :: if startsCharAlt rest then classRanges rest else []
    else
      rangeOf e :: if startsCharAlt (upper :: rest) then classRanges (upper :: rest) else []

/-- How many elements this class takes. -/
def classLength : List GrammarElement → ℕ
  | [] => 0
  | [_] => 1
  | _ :: upper :: rest =>
    if upper.type = .charRngUpper then
      2 + if startsCharAlt rest then classLength rest else 0
    else
      1 + if startsCharAlt (upper :: rest) then classLength (upper :: rest) else 0

/-- The class that the elements begin with. -/
def classOf (es : List GrammarElement) : CharClass :=
  ⟨!isPositiveChar (es.headD ⟨.endRule, 0⟩), classRanges es⟩

/-! ## The context free grammar -/

/-- The symbols of an alternate, from an element on. -/
def syms : List GrammarElement → List (Symbol CharClass ℕ)
  | [] => []
  | e :: rest =>
    match e.type with
    | .endRule | .alt => []
    | .ruleRef => .nonterminal e.value :: syms rest
    | .char | .charNot | .charAny => .terminal (classOf (e :: rest)) :: syms rest
    | .charAlt | .charRngUpper => syms rest

/-- The context free grammar of the rules, with the start rule `root`. -/
abbrev cfg (rules : Rules) (root : ℕ) : ContextFreeGrammar CharClass where
  NT := ℕ
  initial := root
  rules := ((List.range rules.length).flatMap fun r =>
    (alternates rules r).map fun alt => ⟨r, syms (suffix rules alt)⟩).toFinset

/-- The sentential form of a stack. -/
def formOf (rules : Rules) (stack : Stack) : List (Symbol CharClass ℕ) :=
  stack.flatMap fun pos => syms (suffix rules pos)

/-! ## What the parser guarantees -/

/-- The upper end of a range and a further character of a class stand inside a class. -/
def Follows (a b : GrammarElement) : Prop :=
  (b.type = .charRngUpper → a.type = .char ∨ a.type = .charNot ∨ a.type = .charAlt) ∧
  (b.type = .charAlt → a.type = .char ∨ a.type = .charNot ∨ a.type = .charAlt ∨
    a.type = .charRngUpper)

instance (a b : GrammarElement) : Decidable (Follows a b) :=
  inferInstanceAs (Decidable (_ ∧ _))

/-- The element continues a character class. -/
def InsideClass (e : GrammarElement) : Prop := e.type = .charAlt ∨ e.type = .charRngUpper

instance (e : GrammarElement) : Decidable (InsideClass e) :=
  inferInstanceAs (Decidable (_ ∨ _))

/-- A rule as the parser produces it, in a grammar of `n` rules. -/
structure WellFormedRule (n : ℕ) (rule : Rule) : Prop where
  ends : ∃ e ∈ rule.getLast?, e.type = .endRule
  ends_once : ∀ e ∈ rule.dropLast, e.type ≠ .endRule
  refs : ∀ e ∈ rule, e.type = .ruleRef → e.value < n
  chain : rule.IsChain Follows
  starts : ∀ e ∈ rule.head?, ¬ InsideClass e

instance (n : ℕ) (rule : Rule) : Decidable (WellFormedRule n rule) :=
  decidable_of_iff ((∃ e ∈ rule.getLast?, e.type = .endRule) ∧
      (∀ e ∈ rule.dropLast, e.type ≠ .endRule) ∧ (∀ e ∈ rule, e.type = .ruleRef → e.value < n) ∧
      rule.IsChain Follows ∧ ∀ e ∈ rule.head?, ¬ InsideClass e)
    ⟨fun ⟨h₁, h₂, h₃, h₄, h₅⟩ => ⟨h₁, h₂, h₃, h₄, h₅⟩, fun ⟨h₁, h₂, h₃, h₄, h₅⟩ =>
      ⟨h₁, h₂, h₃, h₄, h₅⟩⟩

/-- A grammar as the parser produces it. -/
structure ParsedGrammar where
  rules : Rules
  startRuleIndex : ℕ
  wellFormed : ∀ rule ∈ rules, WellFormedRule rules.length rule
  start_lt : startRuleIndex < rules.length

/-! ## Matching a character -/

@[simp] lemma has_span {lower upper c : ℕ} :
    (CharRange.span lower upper).Has c ↔ lower ≤ c ∧ c ≤ upper := Iff.rfl

lemma has_rangeOf {e : GrammarElement} {c : ℕ} :
    (rangeOf e).Has c ↔ e.type = .charAny ∨ e.value = c := by
  rw [rangeOf]
  split_ifs with h
  · simp [CharRange.Has, h]
  · simp only [CharRange.Has, h, false_or]
    omega

lemma matchCharLoop_eq (chr : ℕ) (es : List GrammarElement) (found : Bool) (n : ℕ) :
    matchCharLoop chr es found n =
      (found || decide (∃ r ∈ classRanges es, r.Has chr), n + classLength es) := by
  fun_induction matchCharLoop chr es found n with
  | case1 found n => simp [classRanges, classLength]
  | case2 e found n =>
    simp [classRanges, classLength, has_rangeOf, Bool.or_assoc]
  | case3 e upper rest found n hu found' hrest ih =>
    rw [ih, classRanges, classLength, if_pos hu, if_pos hu,
      if_pos hrest, if_pos hrest]
    simp [found', Bool.or_assoc, Nat.add_assoc]
  | case4 e upper rest found n hu found' hrest =>
    rw [classRanges, classLength, if_pos hu, if_pos hu,
      if_neg hrest, if_neg hrest]
    simp [found']
  | case5 e upper rest found n hu found' hrest ih =>
    rw [ih, classRanges, classLength, if_neg hu, if_neg hu,
      if_pos hrest, if_pos hrest]
    simp [found', has_rangeOf, Bool.or_assoc, Nat.add_assoc]
  | case6 e upper rest found n hu found' hrest =>
    rw [classRanges, classLength, if_neg hu, if_neg hu,
      if_neg hrest, if_neg hrest]
    simp [found', has_rangeOf, Bool.or_assoc]

/-! ## Positions -/

lemma suffix_add (rules : Rules) (pos : Pos) (n : ℕ) :
    suffix rules (pos.add n) = (suffix rules pos).drop n := by
  rw [suffix, suffix, List.drop_drop]
  rfl

/-- The element is a character class. -/
def IsClass (e : GrammarElement) : Prop :=
  e.type = .char ∨ e.type = .charNot ∨ e.type = .charAny

lemma suffix_eq_cons {rules : Rules} {pos : Pos} (h : (elemAt rules pos).type ≠ .endRule) :
    suffix rules pos = elemAt rules pos :: suffix rules (pos.add 1) := by
  rw [suffix_add]
  rw [elemAt] at h ⊢
  cases hs : suffix rules pos with
  | nil => simp [hs] at h
  | cons e rest => rfl

lemma matchChar_eq {rules : Rules} {pos : Pos} (h : IsClass (elemAt rules pos)) (chr : ℕ) :
    matchChar rules pos chr =
      .ok (decide ((classOf (suffix rules pos)).Has chr),
        pos.add (classLength (suffix rules pos))) := by
  rw [matchChar, if_pos, matchCharLoop_eq]
  · simp only [Bool.false_or, Nat.zero_add, Except.ok.injEq, Prod.mk.injEq, and_true]
    rw [Bool.eq_iff_iff, beq_iff_eq, decide_eq_true_iff, CharClass.Has, classOf, elemAt]
    simp only [Bool.not_eq_false']
    by_cases hr : ∃ r ∈ classRanges (suffix rules pos), r.Has chr <;> simp [hr]
  · rcases h with h | h | h <;> simp [isPositiveChar, h]

/-! ## Symbols -/

lemma syms_drop_classLength (e : GrammarElement) (rest : List GrammarElement) :
    syms ((e :: rest).drop (classLength (e :: rest))) = syms rest := by
  induction hn : rest.length using Nat.strong_induction_on generalizing e rest with
  | _ n ih =>
    subst hn
    have hskip : ∀ u us, InsideClass u → syms (u :: us) = syms us := by
      rintro u us (hu | hu) <;> simp [syms, hu]
    have halt : ∀ us, startsCharAlt us = true → us.length ≤ rest.length →
        ∃ w ws, us = w :: ws ∧ syms (us.drop (classLength us)) = syms us := by
      intro us hus hlen
      cases us with
      | nil => cases hus
      | cons w ws =>
        refine ⟨w, ws, rfl, ?_⟩
        rw [hskip w ws (.inl (by simpa [startsCharAlt] using hus))]
        exact ih ws.length hlen w ws rfl
    cases rest with
    | nil => simp [classLength, syms]
    | cons upper rest =>
      rw [classLength]
      split_ifs with hu hrest hrest
      · obtain ⟨w, ws, hus, hsyms⟩ := halt rest hrest (Nat.le_succ _)
        rw [hskip upper rest (.inr hu), Nat.add_comm 2, ← hsyms]
        rfl
      · rw [hskip upper rest (.inr hu)]
        rfl
      · obtain ⟨w, ws, hus, hsyms⟩ := halt (upper :: rest) hrest le_rfl
        rw [Nat.add_comm 1, ← hsyms]
        rfl
      · rfl

lemma syms_of_isClass {rules : Rules} {pos : Pos} (h : IsClass (elemAt rules pos)) :
    syms (suffix rules pos) = .terminal (classOf (suffix rules pos)) ::
      syms (suffix rules (pos.add (classLength (suffix rules pos)))) := by
  have hcons : suffix rules pos = elemAt rules pos :: suffix rules (pos.add 1) :=
    suffix_eq_cons (by rcases h with h | h | h <;> simp [h])
  have hdrop := syms_drop_classLength (elemAt rules pos) (suffix rules (pos.add 1))
  rw [← hcons, ← suffix_add] at hdrop
  rw [hdrop]
  conv_lhs => rw [hcons]
  rw [syms, ← hcons]
  rcases h with h | h | h <;> simp [h]

lemma syms_of_ruleRef {rules : Rules} {pos : Pos} (h : (elemAt rules pos).type = .ruleRef) :
    syms (suffix rules pos) =
      .nonterminal (elemAt rules pos).value :: syms (suffix rules (pos.add 1)) := by
  rw [suffix_eq_cons (by simp [h]), syms]
  simp [h]

lemma syms_of_endOfSequence {rules : Rules} {pos : Pos}
    (h : isEndOfSequence (elemAt rules pos) = true) : syms (suffix rules pos) = [] := by
  rw [elemAt] at h
  cases hs : suffix rules pos with
  | nil => rfl
  | cons e rest =>
    rw [hs] at h
    rw [syms]
    cases he : e.type <;> simp [isEndOfSequence, he] at h ⊢

@[simp] lemma formOf_nil (rules : Rules) : formOf rules [] = [] := rfl

@[simp] lemma formOf_cons (rules : Rules) (pos : Pos) (stack : Stack) :
    formOf rules (pos :: stack) = syms (suffix rules pos) ++ formOf rules stack := rfl

@[simp] lemma formOf_pushUnlessEnd (rules : Rules) (pos : Pos) (stack : Stack) :
    formOf rules (pushUnlessEnd rules pos stack) = syms (suffix rules pos) ++ formOf rules stack := by
  rw [pushUnlessEnd]
  split_ifs with h
  · rw [syms_of_endOfSequence h, List.nil_append]
  · rfl

/-! ## Alternates -/

lemma alternates_ne_nil (rules : Rules) (r : ℕ) : alternates rules r ≠ [] := by
  simp [alternates]

lemma mem_cfg_rules {rules : Rules} {root : ℕ} {rule : ContextFreeRule CharClass ℕ} :
    rule ∈ (cfg rules root).rules ↔ rule.input < rules.length ∧
      ∃ alt ∈ alternates rules rule.input, rule.output = syms (suffix rules alt) := by
  refine List.mem_toFinset.trans ?_
  simp only [List.mem_flatMap, List.mem_range, List.mem_map]
  constructor
  · rintro ⟨r, hr, alt, halt, rfl⟩
    exact ⟨hr, alt, halt, rfl⟩
  · rintro ⟨hr, alt, halt, hout⟩
    exact ⟨rule.input, hr, alt, halt, by rw [← hout]⟩

/-! ## Positions in a parsed grammar -/

/-- The position stands on a rule reference or on a character class. -/
def IsSymbol (rules : Rules) (pos : Pos) : Prop :=
  (elemAt rules pos).type = .ruleRef ∨ IsClass (elemAt rules pos)

/-- All positions of the stack stand on symbols. -/
def Valid (rules : Rules) (stack : Stack) : Prop := ∀ pos ∈ stack, IsSymbol rules pos

@[simp] lemma valid_nil (rules : Rules) : Valid rules [] := by simp [Valid]

@[simp] lemma valid_cons {rules : Rules} {pos : Pos} {stack : Stack} :
    Valid rules (pos :: stack) ↔ IsSymbol rules pos ∧ Valid rules stack :=
  List.forall_mem_cons

lemma isSymbol_of_not {e : GrammarElement} (hend : ¬ isEndOfSequence e = true)
    (hin : ¬ InsideClass e) : e.type = .ruleRef ∨ IsClass e := by
  cases he : e.type <;> simp [isEndOfSequence, InsideClass, IsClass, he] at hend hin ⊢

lemma valid_pushUnlessEnd {rules : Rules} {pos : Pos} {stack : Stack}
    (hpos : ¬ InsideClass (elemAt rules pos)) (h : Valid rules stack) :
    Valid rules (pushUnlessEnd rules pos stack) := by
  rw [pushUnlessEnd]
  split_ifs with hend
  · exact h
  · exact valid_cons.2 ⟨isSymbol_of_not hend hpos, h⟩

lemma elemAt_of_head {rules : Rules} {pos : Pos}
    (h : ∀ e ∈ (suffix rules pos).head?, ¬ InsideClass e) :
    ¬ InsideClass (elemAt rules pos) := by
  rw [elemAt]
  cases hs : suffix rules pos with
  | nil => simp [InsideClass]
  | cons e rest => exact h e (by simp [hs])

lemma Follows.not_insideClass {a b : GrammarElement} (h : Follows a b)
    (ha : a.type = .ruleRef ∨ a.type = .alt) : ¬ InsideClass b := by
  obtain ⟨hrng, halt⟩ := h
  rintro (hb | hb)
  · rcases ha with ha | ha <;> simpa [ha] using halt hb
  · rcases ha with ha | ha <;> simpa [ha] using hrng hb

lemma not_insideClass_drop {e : GrammarElement} {rest : List GrammarElement}
    (hchain : (e :: rest).IsChain Follows) (he : e.type ≠ .charRngUpper) :
    ∀ x ∈ ((e :: rest).drop (classLength (e :: rest))).head?, ¬ InsideClass x := by
  induction hn : rest.length using Nat.strong_induction_on generalizing e rest with
  | _ n ih =>
    subst hn
    have halt : ∀ us : List GrammarElement, us.IsChain Follows → startsCharAlt us = true →
        us.length ≤ rest.length → ∀ x ∈ (us.drop (classLength us)).head?, ¬ InsideClass x := by
      intro us hus halt hlen
      cases us with
      | nil => cases halt
      | cons w ws =>
        have hw : w.type = .charAlt := by simpa [startsCharAlt] using halt
        exact ih ws.length hlen hus (by simp [hw]) rfl
    cases rest with
    | nil => simp [classLength]
    | cons upper rest =>
      obtain ⟨-, hupper⟩ := List.isChain_cons_cons.1 hchain
      rw [classLength]
      split_ifs with hu hrest hrest
      · rw [Nat.add_comm 2]
        exact halt rest hupper.tail hrest (Nat.le_succ _)
      · -- the upper end of a range is followed by no other one
        intro x hx
        cases rest with
        | nil => simp at hx
        | cons w ws =>
          obtain rfl : w = x := by simpa using hx
          have hw := (List.isChain_cons_cons.1 hupper).1.1
          rintro (hx | hx)
          · simp [startsCharAlt, hx] at hrest
          · simpa [hu] using hw hx
      · rw [Nat.add_comm 1]
        exact halt (upper :: rest) hupper hrest le_rfl
      · intro x hx
        obtain rfl : upper = x := by simpa using hx
        rintro (hx | hx)
        · simp [startsCharAlt, hx] at hrest
        · exact hu hx

namespace ParsedGrammar

variable (G : ParsedGrammar)

lemma isChain_rule (r : ℕ) : (G.rules.getD r []).IsChain Follows := by
  rw [List.getD_eq_getElem?_getD]
  cases h : G.rules[r]? with
  | none => simp
  | some rule => exact (G.wellFormed rule (List.mem_of_getElem? h)).chain

lemma isChain_suffix (pos : Pos) : (suffix G.rules pos).IsChain Follows :=
  (G.isChain_rule pos.rule).drop pos.idx

variable {G} {pos : Pos}

lemma not_insideClass_add_one (h : (elemAt G.rules pos).type = .ruleRef) :
    ¬ InsideClass (elemAt G.rules (pos.add 1)) := by
  refine elemAt_of_head fun e he => ?_
  have hchain := G.isChain_suffix pos
  rw [suffix_eq_cons (by simp [h])] at hchain
  cases hs : suffix G.rules (pos.add 1) with
  | nil => simp [hs] at he
  | cons u us =>
    obtain rfl : u = e := by simpa [hs] using he
    rw [hs, List.isChain_cons_cons] at hchain
    exact hchain.1.not_insideClass (.inl h)

lemma not_insideClass_add_classLength (h : IsClass (elemAt G.rules pos)) :
    ¬ InsideClass (elemAt G.rules (pos.add (classLength (suffix G.rules pos)))) := by
  refine elemAt_of_head ?_
  have hne : (elemAt G.rules pos).type ≠ .endRule := by rcases h with h | h | h <;> simp [h]
  have hchain := G.isChain_suffix pos
  rw [suffix_add, suffix_eq_cons hne]
  rw [suffix_eq_cons hne] at hchain
  exact not_insideClass_drop hchain (by rcases h with h | h | h <;> simp [h])

lemma not_insideClass_altStarts {i : ℕ} {es : List GrammarElement} (hchain : es.IsChain Follows)
    {j : ℕ} (hj : j ∈ altStarts i es) : i < j ∧ ∀ e ∈ (es.drop (j - i)).head?, ¬ InsideClass e := by
  induction es generalizing i with
  | nil => simp [altStarts] at hj
  | cons u us ih =>
    have hstep : j ∈ altStarts (i + 1) us →
        i < j ∧ ∀ e ∈ ((u :: us).drop (j - i)).head?, ¬ InsideClass e := by
      intro hj
      obtain ⟨hlt, he⟩ := ih hchain.tail hj
      refine ⟨by omega, ?_⟩
      rw [show j - i = j - (i + 1) + 1 by omega]
      exact he
    rw [altStarts] at hj
    cases hu : u.type with
    | alt =>
      simp only [hu, List.mem_cons] at hj
      obtain rfl | hj := hj
      · refine ⟨by omega, fun e he => ?_⟩
        rw [show i + 1 - i = 1 by omega] at he
        cases us with
        | nil => simp at he
        | cons w ws =>
          obtain rfl : w = e := by simpa using he
          exact (List.isChain_cons_cons.1 hchain).1.not_insideClass (.inr hu)
      · exact hstep hj
    | endRule => simp [hu] at hj
    | _ => exact hstep (by simpa [hu] using hj)

lemma not_insideClass_alternate {r : ℕ} {alt : Pos} (h : alt ∈ alternates G.rules r) :
    ¬ InsideClass (elemAt G.rules alt) := by
  obtain ⟨i, hi, rfl⟩ := List.mem_map.1 h
  refine elemAt_of_head ?_
  rw [suffix]
  rcases List.mem_cons.1 hi with rfl | hi
  · rw [List.drop_zero, List.getD_eq_getElem?_getD]
    cases hr : G.rules[r]? with
    | none => simp
    | some rule => exact (G.wellFormed rule (List.mem_of_getElem? hr)).starts
  · exact (not_insideClass_altStarts (G.isChain_rule r) hi).2

lemma ref_lt (h : (elemAt G.rules pos).type = .ruleRef) :
    (elemAt G.rules pos).value < G.rules.length := by
  have hmem : elemAt G.rules pos ∈ suffix G.rules pos := by
    have hcons := @suffix_eq_cons G.rules pos (by simp [h])
    exact hcons ▸ List.mem_cons_self
  have hrule := List.mem_of_mem_drop hmem
  rw [List.getD_eq_getElem?_getD] at hrule
  cases hr : G.rules[pos.rule]? with
  | none => simp [hr] at hrule
  | some rule =>
    rw [hr] at hrule
    exact (G.wellFormed rule (List.mem_of_getElem? hr)).refs _ hrule h

end ParsedGrammar

end IFairy.LlamaGrammar
