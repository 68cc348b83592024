import IFairy.Json.Primitives

/-!
# The rules of the converter

The rules that the converter has added so far (`RuleMap`), and how it adds one (`addRule`): a rule
whose name is taken by another text gets a number.  No rule ever changes (`addRule_spec`).  The
grammar of a map in which every rule can be read gives languages to the names that solve all
equations (`RuleMap.exists_grammar`).
-/

namespace IFairy.JsonSchema

open LlamaGrammar

/-- `_rules`: names with texts, ordered by name. -/
structure RuleMap where
  entries : List (List Char × List Char)
  nodup : (entries.map Prod.fst).Nodup

namespace RuleMap

def names (rules : RuleMap) : List (List Char) := rules.entries.map Prod.fst

/-- `_rules.find`. -/
def find (rules : RuleMap) (name : List Char) : Option (List Char) := rules.entries.lookup name

/-- The name is free, or has this very text. -/
def takes (rules : RuleMap) (name text : List Char) : Bool :=
  match rules.find name with
  | none => true
  | some old => old = text

def insert (rules : RuleMap) (rule : List Char × List Char) (hnew : rule.1 ∉ rules.names) :
    RuleMap where
  entries := rules.entries.orderedInsert (fun a b => a.1 < b.1) rule
  nodup := by
    have hperm := (List.perm_orderedInsert (fun a b : List Char × List Char => a.1 < b.1) rule
      rules.entries).map Prod.fst
    rw [hperm.nodup_iff, List.map_cons, List.nodup_cons]
    exact ⟨hnew, rules.nodup⟩

/-- `_rules[name] = text`, where the name is free or has this very text. -/
def set (rules : RuleMap) (name text : List Char) : RuleMap :=
  if h : rules.names.contains name then rules
  else rules.insert (name, text) fun hmem => h (List.contains_iff_mem.2 hmem)

end RuleMap

/-! ## Names -/

/-- `regex_replace` with `INVALID_RULE_CHARS_RE`: one dash for a run of other characters. -/
def escapeFrom (inRun : Bool) : List Char → List Char
  | [] => []
  | c :: cs =>
    if isWordChar c then c :: escapeFrom false cs
    else if inRun then escapeFrom true cs
    else '-' :: escapeFrom true cs

/-- The name of a rule, in the characters that a grammar allows. -/
def escapeName (name : List Char) : List Char := escapeFrom false name

example : escapeName "a b__c-é".toList = "a-b-c--".toList := by decide

lemma isWordChar_escapeFrom (inRun : Bool) (name : List Char) :
    ∀ c ∈ escapeFrom inRun name, isWordChar c = true := by
  induction name generalizing inRun with
  | nil => exact fun c hc => absurd hc List.not_mem_nil
  | cons d cs ih =>
    rw [escapeFrom]
    intro c hc
    split_ifs at hc with hd hrun
    · rcases List.mem_cons.1 hc with rfl | hc
      · exact hd
      · exact ih false c hc
    · exact ih true c hc
    · rcases List.mem_cons.1 hc with rfl | hc
      · decide
      · exact ih true c hc

lemma escapeName_ne_nil {name : List Char} (hne : name ≠ []) : escapeName name ≠ [] := by
  obtain ⟨c, cs, rfl⟩ := List.exists_cons_of_ne_nil hne
  rw [escapeName, escapeFrom]
  split_ifs with hc hrun
  · exact List.cons_ne_nil _ _
  · cases hrun
  · exact List.cons_ne_nil _ _

/-! ## Adding a rule -/

/-- The loop over the numbers, from `i`. -/
def numberFrom (rules : RuleMap) (escName text : List Char) : ℕ → ℕ → ℕ
  | 0, i => i
  | fuel + 1, i =>
    if rules.takes (escName ++ numeral i) text then i
    else numberFrom rules escName text fuel (i + 1)

/-- `_add_rule`. -/
def addRule (rules : RuleMap) (name text : List Char) : List Char × RuleMap :=
  let escName := escapeName name
  if rules.takes escName text then (escName, rules.set escName text)
  else
    let key := escName ++ numeral (numberFrom rules escName text (rules.entries.length + 1) 0)
    (key, rules.set key text)

namespace RuleMap

variable {rules : RuleMap} {name text : List Char}

lemma find_eq_none : rules.find name = none ↔ name ∉ rules.names := by
  rw [find, List.lookup_eq_none_iff, names, List.mem_map]
  constructor
  · rintro h ⟨e, he, rfl⟩
    exact absurd (h e he) (by simp)
  · intro h e he
    rw [bne_iff_ne]
    rintro rfl
    exact h ⟨e, he, rfl⟩

lemma mem_of_find_eq_some (h : rules.find name = some text) : (name, text) ∈ rules.entries := by
  obtain ⟨l₁, l₂, heq, -⟩ := List.lookup_eq_some_iff.1 h
  rw [heq]
  exact List.mem_append_right _ List.mem_cons_self

lemma mem_of_takes (h : rules.takes name text = true) (hmem : name ∈ rules.names) :
    (name, text) ∈ rules.entries := by
  rw [takes] at h
  cases hfind : rules.find name with
  | none => exact absurd hmem (find_eq_none.1 hfind)
  | some old =>
    rw [hfind] at h
    obtain rfl : old = text := of_decide_eq_true h
    exact mem_of_find_eq_some hfind

lemma takes_of_not_mem (h : name ∉ rules.names) : rules.takes name text = true := by
  rw [takes, find_eq_none.2 h]

lemma mem_entries_set (h : rules.takes name text = true) (e : List Char × List Char) :
    e ∈ (rules.set name text).entries ↔ e = (name, text) ∨ e ∈ rules.entries := by
  rw [set]
  split_ifs with hmem
  · refine ⟨.inr, ?_⟩
    rintro (rfl | he)
    · exact mem_of_takes h (List.contains_iff_mem.1 hmem)
    · exact he
  · exact List.mem_orderedInsert _

end RuleMap

section AddRule

variable (rules : RuleMap) (name text : List Char)

lemma numeral_injective : Function.Injective numeral := by
  intro m n h
  rw [← digitsValue_numeral m, h, digitsValue_numeral]

lemma exists_takes_numeral (escName : List Char) :
    ∃ i < rules.entries.length + 1, rules.takes (escName ++ numeral i) text = true := by
  by_contra hall
  have htaken : ∀ i ∈ List.range (rules.entries.length + 1), escName ++ numeral i ∈ rules.names := by
    intro i hi
    by_contra hfree
    exact hall ⟨i, List.mem_range.1 hi, RuleMap.takes_of_not_mem hfree⟩
  -- there are more numbers than rules
  have hnodup : ((List.range (rules.entries.length + 1)).map (escName ++ numeral ·)).Nodup :=
    List.nodup_range.map fun i j h => numeral_injective (List.append_cancel_left h)
  have hsub : (List.range (rules.entries.length + 1)).map (escName ++ numeral ·) ⊆ rules.names := by
    intro key hkey
    obtain ⟨i, hi, rfl⟩ := List.mem_map.1 hkey
    exact htaken i hi
  have hle := (hnodup.subperm hsub).length_le
  rw [List.length_map, List.length_range, RuleMap.names, List.length_map] at hle
  omega

lemma takes_numberFrom (escName : List Char) (fuel i : ℕ)
    (h : ∃ j, i ≤ j ∧ j < i + fuel ∧ rules.takes (escName ++ numeral j) text = true) :
    rules.takes (escName ++ numeral (numberFrom rules escName text fuel i)) text = true := by
  induction fuel generalizing i with
  | zero =>
    obtain ⟨j, hle, hlt, -⟩ := h
    omega
  | succ fuel ih =>
    rw [numberFrom]
    split_ifs with hi
    · exact hi
    · obtain ⟨j, hle, hlt, hj⟩ := h
      refine ih (i + 1) ⟨j, ?_, by omega, hj⟩
      rcases hle.eq_or_lt with rfl | hlt'
      · exact absurd hj hi
      · exact hlt'

/-- The rule stands under a name that the grammar allows; the other rules are those from before. -/
theorem addRule_spec (hne : name ≠ []) :
    ((addRule rules name text).1 ≠ [] ∧
      ∀ c ∈ (addRule rules name text).1, isWordChar c = true) ∧
    ∀ e, e ∈ (addRule rules name text).2.entries ↔
      e = ((addRule rules name text).1, text) ∨ e ∈ rules.entries := by
  have hword := isWordChar_escapeFrom false name
  rw [addRule]
  dsimp only
  split_ifs with htakes
  · exact ⟨⟨escapeName_ne_nil hne, hword⟩, RuleMap.mem_entries_set htakes⟩
  · have hnumber := takes_numberFrom rules text (escapeName name)
      (rules.entries.length + 1) 0 (by
        obtain ⟨i, hlt, hi⟩ := exists_takes_numeral rules text (escapeName name)
        exact ⟨i, Nat.zero_le i, by omega, hi⟩)
    refine ⟨⟨?_, fun c hc => ?_⟩, RuleMap.mem_entries_set hnumber⟩
    · exact List.append_ne_nil_of_left_ne_nil (escapeName_ne_nil hne) _
    · rcases List.mem_append.1 hc with hc | hc
      · exact hword c hc
      · rw [isWordChar, isDigitChar_of_mem_numeral hc, Bool.or_true]

end AddRule

/-! ## The grammar of a map -/

/-- A text that the parser takes for alternates. -/
def Readable (refs : List Char → Prop) (text : List Char) : Prop := ∃ F, ScansAlts refs false text F

/-- A name that the grammar allows. -/
def IsName (name : List Char) : Prop := name ≠ [] ∧ ∀ c ∈ name, isWordChar c = true

namespace RuleMap

def Sound (refs : List Char → Prop) (rules : RuleMap) : Prop :=
  ∀ e ∈ rules.entries, IsName e.1 ∧ Readable refs e.2

/-- The languages solve the equation of every rule. -/
def Solved (refs : List Char → Prop) (rules : RuleMap) (env : Meaning) : Prop :=
  ∀ e ∈ rules.entries, ∀ F, ScansAlts refs false e.2 F → env e.1 = F env

variable {refs : List Char → Prop} {rules rules' : RuleMap} {env : Meaning}

lemma Sound.addRule (h : rules.Sound refs) {name text : List Char} (hne : name ≠ [])
    (htext : Readable refs text) : (addRule rules name text).2.Sound refs := by
  obtain ⟨hname, hmem⟩ := addRule_spec rules name text hne
  intro e he
  rcases (hmem e).1 he with rfl | he
  · exact ⟨hname, htext⟩
  · exact h e he

theorem exists_grammar (rules : RuleMap) (h : rules.Sound (· ∈ rules.names)) :
    ∃ q, parseGrammar (formatGrammar rules.entries) = some q ∧
      rules.Solved (· ∈ rules.names) q.langOf :=
  parseGrammar_readable rules.nodup (fun e he => (h e he).1) fun e he => (h e he).2

end RuleMap

end IFairy.JsonSchema
