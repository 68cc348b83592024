import IFairy.Framework.GrammarLanguage
import IFairy.Grammar.Forms

/-!
# Languages of rules

The strings that a rule derives (`ruleLang`) and the strings that a piece of an alternate derives
(`elemsLang`).  Pieces multiply when the second one does not continue a character class of the
first (`elemsLang_append`), and a rule is the union of its alternates (`ruleLang_eq`).
-/

namespace IFairy.LlamaGrammar

variable {rules : Rules} {a b : Rule}

/-- The strings that a rule derives. -/
def ruleLang (rules : Rules) (r : ℕ) : Language ℕ :=
  (cfg rules 0).lang CharClass.Has [.nonterminal r]

/-- The strings that elements derive, up to the end of the alternate. -/
def elemsLang (rules : Rules) (es : Rule) : Language ℕ :=
  (cfg rules 0).lang CharClass.Has (syms es)

def Plain (es : Rule) : Prop := ∀ e ∈ es, isEndOfSequence e = false

/-- The elements do not begin inside a character class. -/
def StartsSymbol (es : Rule) : Prop := ∀ e ∈ es.head?, ¬InsideClass e

/-- A piece of an alternate. -/
structure Symbols (es : Rule) : Prop where
  plain : Plain es
  starts : StartsSymbol es

lemma Plain.append (ha : Plain a) (hb : Plain b) : Plain (a ++ b) := fun e he => by
  rcases List.mem_append.1 he with he | he
  · exact ha e he
  · exact hb e he

lemma symbols_nil : Symbols [] := ⟨by simp [Plain], by simp [StartsSymbol]⟩

lemma Symbols.append (ha : Symbols a) (hb : Symbols b) : Symbols (a ++ b) := by
  refine ⟨ha.plain.append hb.plain, ?_⟩
  cases a with
  | nil => exact hb.starts
  | cons e a => exact ha.starts

lemma symbols_ref (r : ℕ) : Symbols [⟨.ruleRef, r⟩] :=
  ⟨by simp [Plain, isEndOfSequence], by simp [StartsSymbol, InsideClass]⟩

/-! ## Appends -/

lemma not_startsCharAlt (hb : StartsSymbol b) : startsCharAlt b = false := by
  cases b with
  | nil => rfl
  | cons e b =>
    have := hb e rfl
    simp only [InsideClass, not_or] at this
    simpa [startsCharAlt] using this.1

lemma classRanges_append (hb : StartsSymbol b) (e : GrammarElement) (rest : Rule) :
    classRanges (e :: rest ++ b) = classRanges (e :: rest) := by
  have halt : ∀ us : Rule, us ≠ [] → startsCharAlt (us ++ b) = startsCharAlt us := by
    intro us hus
    cases us with
    | nil => exact absurd rfl hus
    | cons u us => rfl
  induction hn : rest.length using Nat.strong_induction_on generalizing e rest with
  | _ n ih =>
    subst hn
    cases rest with
    | nil =>
      cases b with
      | nil => rfl
      | cons x b =>
        have hx := hb x rfl
        simp only [InsideClass, not_or] at hx
        simp [classRanges, startsCharAlt, hx.1, hx.2]
    | cons upper rest =>
      simp only [List.cons_append, classRanges]
      split_ifs with hupper hrest hrest' hrest' hrest hrest'
      · cases rest with
        | nil => exact absurd hrest (by simp [not_startsCharAlt hb])
        | cons w ws => rw [ih ws.length (by simp only [List.length_cons]; omega) w ws rfl]
      · cases rest with
        | nil => exact absurd hrest (by simp [not_startsCharAlt hb])
        | cons w ws => exact absurd hrest hrest'
      · cases rest with
        | nil => cases hrest'
        | cons w ws => exact absurd hrest' hrest
      · rfl
      · have hsame := ih rest.length (by simp) upper rest rfl
        rw [List.cons_append] at hsame
        rw [hsame]
      · exact absurd hrest hrest'
      · rename_i h
        exact absurd h hrest
      · rfl

lemma classOf_append (hb : StartsSymbol b) (e : GrammarElement) (rest : Rule) :
    classOf (e :: rest ++ b) = classOf (e :: rest) := by
  rw [classOf, classOf, classRanges_append hb]
  rfl

lemma syms_append (ha : Plain a) (hb : StartsSymbol b) : syms (a ++ b) = syms a ++ syms b := by
  induction a with
  | nil => rfl
  | cons e a ih =>
    have hrest := ih fun x hx => ha x (List.mem_cons_of_mem e hx)
    have he := ha e List.mem_cons_self
    have hclass := classOf_append hb e a
    rw [List.cons_append] at hclass ⊢
    rw [syms, syms, hclass, hrest]
    cases he' : e.type <;> simp_all [isEndOfSequence]

lemma elemsLang_append (ha : Plain a) (hb : StartsSymbol b) :
    elemsLang rules (a ++ b) = elemsLang rules a * elemsLang rules b := by
  rw [elemsLang, syms_append ha hb, ContextFreeGrammar.lang_append]
  rfl

@[simp] lemma elemsLang_nil : elemsLang rules [] = 1 := ContextFreeGrammar.lang_nil

lemma elemsLang_end {e : GrammarElement} (he : isEndOfSequence e = true) (rest : Rule) :
    elemsLang rules (e :: rest) = 1 := by
  have hsyms : syms (e :: rest) = [] := by
    rw [syms]
    cases he' : e.type <;> simp_all [isEndOfSequence]
  rw [elemsLang, hsyms, ContextFreeGrammar.lang_nil]

lemma elemsLang_append_end (ha : Plain a) {e : GrammarElement} (he : isEndOfSequence e = true)
    (rest : Rule) : elemsLang rules (a ++ e :: rest) = elemsLang rules a := by
  have hstarts : StartsSymbol (e :: rest) := by
    rintro x hx (h | h) <;>
    · obtain rfl := Option.some.inj hx
      simp [isEndOfSequence, h] at he
  rw [elemsLang_append ha hstarts, elemsLang_end he, mul_one]

lemma elemsLang_ref (r : ℕ) : elemsLang rules [⟨.ruleRef, r⟩] = ruleLang rules r := rfl

lemma symbols_replicate (ha : Symbols a) (n : ℕ) : Symbols (List.replicate n a).flatten := by
  induction n with
  | zero => exact symbols_nil
  | succ n ih =>
    rw [List.replicate_succ, List.flatten_cons]
    exact ha.append ih

lemma elemsLang_replicate (ha : Symbols a) (n : ℕ) :
    elemsLang rules (List.replicate n a).flatten = elemsLang rules a ^ n := by
  induction n with
  | zero => exact elemsLang_nil
  | succ n ih =>
    rw [List.replicate_succ, List.flatten_cons, pow_succ', ← ih,
      elemsLang_append ha.plain (symbols_replicate ha n).starts]

/-! ## Rules -/

/-- The strings of an element list with several alternates. -/
def bodyLang (rules : Rules) (es : Rule) : Language ℕ :=
  {s | ∃ i ∈ 0 :: altStarts 0 es, s ∈ elemsLang rules (es.drop i)}

lemma exists_output {r : ℕ} (hr : r < rules.length) {w : List (Symbol CharClass ℕ)} :
    (∃ rule ∈ (cfg rules 0).rules, rule.input = r ∧ rule.output = w) ↔
      ∃ i ∈ 0 :: altStarts 0 (rules.getD r []), w = syms ((rules.getD r []).drop i) := by
  constructor
  · rintro ⟨rule, hrule, rfl, rfl⟩
    obtain ⟨-, alt, halt, hout⟩ := mem_cfg_rules.1 hrule
    obtain ⟨i, hi, rfl⟩ := List.mem_map.1 halt
    exact ⟨i, hi, hout⟩
  · rintro ⟨i, hi, rfl⟩
    exact ⟨⟨r, _⟩, mem_cfg_rules.2 ⟨hr, _, List.mem_map_of_mem hi, rfl⟩, rfl, rfl⟩

lemma ruleLang_eq {r : ℕ} (hr : r < rules.length) :
    ruleLang rules r = bodyLang rules (rules.getD r []) := by
  ext s
  rw [ruleLang, ContextFreeGrammar.mem_lang_nonterminal]
  constructor
  · rintro ⟨rule, hrule, hin, hs⟩
    obtain ⟨i, hi, hout⟩ := (exists_output hr).1 ⟨rule, hrule, hin, rfl⟩
    exact ⟨i, hi, by rwa [elemsLang, ← hout]⟩
  · rintro ⟨i, hi, hs⟩
    obtain ⟨rule, hrule, hin, hout⟩ := (exists_output hr).2 ⟨i, hi, rfl⟩
    exact ⟨rule, hrule, hin, by rwa [hout]⟩

lemma lt_length_of_getD {r : ℕ} (h : rules.getD r [] ≠ []) : r < rules.length := by
  by_contra hr
  rw [List.getD_eq_getElem?_getD, List.getElem?_eq_none (not_lt.1 hr)] at h
  exact h rfl

lemma altStarts_append (ha : Plain a) (i : ℕ) (b : Rule) :
    altStarts i (a ++ b) = altStarts (i + a.length) b := by
  induction a generalizing i with
  | nil => rfl
  | cons e a ih =>
    have he := ha e List.mem_cons_self
    have hrest := ih (fun x hx => ha x (List.mem_cons_of_mem e hx)) (i + 1)
    rw [List.cons_append, altStarts, hrest, List.length_cons, Nat.add_right_comm, Nat.add_assoc]
    cases he' : e.type <;> simp_all [isEndOfSequence]

lemma altStarts_add (i k : ℕ) (b : Rule) : altStarts (i + k) b = (altStarts i b).map (· + k) := by
  induction b generalizing i with
  | nil => rfl
  | cons e b ih =>
    have hrest := ih (i + 1)
    rw [Nat.add_right_comm] at hrest
    rw [altStarts, altStarts]
    cases e.type <;> simp [hrest, Nat.add_right_comm]

lemma bodyLang_end (ha : Plain a) : bodyLang rules (a ++ [⟨.endRule, 0⟩]) = elemsLang rules a := by
  have hstarts : altStarts 0 (a ++ [⟨.endRule, 0⟩]) = [] := by
    rw [altStarts_append ha]
    rfl
  have hend : elemsLang rules (a ++ [⟨.endRule, 0⟩]) = elemsLang rules a :=
    elemsLang_append_end ha rfl []
  ext s
  rw [bodyLang, hstarts]
  constructor
  · rintro ⟨i, hi, hs⟩
    obtain rfl := List.mem_singleton.1 hi
    rwa [List.drop_zero, hend] at hs
  · intro hs
    exact ⟨0, List.mem_singleton_self 0, by rwa [List.drop_zero, hend]⟩

lemma bodyLang_alt (ha : Plain a) (b : Rule) :
    bodyLang rules (a ++ ⟨.alt, 0⟩ :: b) = elemsLang rules a + bodyLang rules b := by
  have hstarts : altStarts 0 (a ++ ⟨.alt, 0⟩ :: b) =
      (0 :: altStarts 0 b).map (· + (a.length + 1)) := by
    rw [altStarts_append ha, altStarts, List.map_cons, ← altStarts_add]
    simp
  have hfirst : elemsLang rules (a ++ ⟨.alt, 0⟩ :: b) = elemsLang rules a :=
    elemsLang_append_end ha rfl b
  have hdrop : ∀ i, (a ++ ⟨.alt, 0⟩ :: b).drop (i + (a.length + 1)) = b.drop i := by
    intro i
    rw [List.append_cons, List.drop_append, List.drop_eq_nil_of_le (by simp), List.nil_append]
    simp
  ext s
  rw [Language.mem_add, bodyLang, hstarts]
  constructor
  · rintro ⟨i, hi, hs⟩
    rcases List.mem_cons.1 hi with rfl | hi
    · exact .inl (by rwa [List.drop_zero, hfirst] at hs)
    · obtain ⟨j, hj, rfl⟩ := List.mem_map.1 hi
      exact .inr ⟨j, hj, by rwa [hdrop] at hs⟩
  · rintro (hs | ⟨j, hj, hs⟩)
    · exact ⟨0, List.mem_cons_self, by rwa [List.drop_zero, hfirst]⟩
    · exact ⟨_, List.mem_cons_of_mem _ (List.mem_map_of_mem hj), by rwa [hdrop]⟩

end IFairy.LlamaGrammar
