import IFairy.Grammar.Scans

/-!
# Whole grammars

A text with one line for each rule is parsed when every rule can be read and every name has a rule.
The languages of the names then solve the equations that the rules say (`parseGrammar_format`).
-/

namespace IFairy.LlamaGrammar

open ParserState

def formatRule (rule : List Char × List Char) : List Char :=
  rule.1 ++ (' ' :: ':' :: ':' :: '=' :: ' ' :: (rule.2 ++ ['\n']))

/-- `format_grammar`: the rules with their names, a line for each. -/
def formatGrammar (rules : List (List Char × List Char)) : List Char := rules.flatMap formatRule

namespace ParserState

def langOf (q : ParserState) : Meaning := fun name =>
  ruleLang q.rules (q.symbolIds.idxOf name)

lemma means_langOf (q : ParserState) : q.Means q.langOf := fun _ _ _ => rfl

variable {names : List Char → Prop} {done : List (List Char)} {p p' q : ParserState}

/-- The rules of the names `done` have been read; every other symbol is one of the names, or has its
rule. -/
structure HasRead (names : List Char → Prop) (done : List (List Char)) (p : ParserState) :
    Prop where
  symbols : ∀ id name, p.symbolIds[id]? = some name →
    ('_' ∈ name ∧ p.rules.getD id [] ≠ []) ∨
      ('_' ∉ name ∧ names name ∧ p.symbolIds.idxOf name = id)
  rules : ∀ name ∈ done, name ∈ p.symbolIds ∧ p.rules.getD (p.symbolIds.idxOf name) [] ≠ []
  length_le : p.rules.length ≤ p.symbolIds.length

/-- What was made up, and the rules of the names `done`, is still there. -/
structure Keeps (done : List (List Char)) (p q : ParserState) : Prop where
  names : p.symbolIds <+: q.symbolIds
  rules : ∀ id name, p.symbolIds[id]? = some name → '_' ∈ name ∨ name ∈ done →
    q.rules.getD id [] = p.rules.getD id []

lemma Keeps.trans {done' : List (List Char)} (h : Keeps done p p') (h' : Keeps done' p' q)
    (hsub : done ⊆ done') : Keeps done p q where
  names := h.names.trans h'.names
  rules id name hname hkept := by
    obtain ⟨hlt, -⟩ := List.getElem?_eq_some_iff.1 hname
    have hname' : p'.symbolIds[id]? = some name := by
      rw [getElem?_eq_of_initial h.names hlt, hname]
    rw [h'.rules id name hname' (hkept.imp_right fun hmem => hsub hmem),
      h.rules id name hname hkept]

end ParserState

/-! ## One rule -/

lemma parseSpace_newline (rest : List Char) :
    parseSpace false ('\n' :: rest) = '\n' :: rest := rfl

lemma closes_newline (rest : List Char) : Closes false ('\n' :: rest) := by
  refine ⟨headAll_cons rfl, ?_⟩
  rw [parseSpace_newline]
  rintro c ⟨⟩
  exact .inr rfl

lemma formatRule_append (name text rest : List Char) : formatRule (name, text) ++ rest =
    name ++ (' ' :: ':' :: ':' :: '=' :: ' ' :: (text ++ ('\n' :: rest))) := by
  simp [formatRule]

lemma parseSpace_defines (text : List Char) :
    parseSpace false (':' :: ':' :: '=' :: text) = ':' :: ':' :: '=' :: text :=
  parseSpace_of_head (headAll_cons rfl) false

section ParseRule

variable {name text rest : List Char} (hne : name ≠ []) (hname : ∀ c ∈ name, isWordChar c = true)
  {p : ParserState}
include hne hname

lemma parseRule_format {p' : ParserState}
    (h : parseAlternates name (2 * (' ' :: (text ++ ('\n' :: rest))).length + 2)
      (p.getSymbolId name).1 false (parseSpace true (text ++ ('\n' :: rest)))
      (p.getSymbolId name).2 = .ok ('\n' :: rest, p')) :
    parseRule (formatRule (name, text) ++ rest) p = .ok (parseSpace true rest, p') := by
  rw [formatRule_append, parseRule, parseName_append hne hname (headAll_cons rfl)]
  simp only [Except.bind, parseSpace_space, parseSpace_defines, h]

lemma parseRule_error {e : String}
    (h : parseAlternates name (2 * (' ' :: (text ++ ('\n' :: rest))).length + 2)
      (p.getSymbolId name).1 false (parseSpace true (text ++ ('\n' :: rest)))
      (p.getSymbolId name).2 = .error e) :
    parseRule (formatRule (name, text) ++ rest) p = .error e := by
  rw [formatRule_append, parseRule, parseName_append hne hname (headAll_cons rfl)]
  simp only [Except.bind, parseSpace_space, parseSpace_defines, h]

end ParseRule

section OneRule

variable {names : List Char → Prop} {done : List (List Char)} {p : ParserState}
  {name text : List Char} {F : Meaning → Language ℕ}

lemma hasRead_parseRule (hp : p.HasRead names done) (hne : name ≠ [])
    (hname : ∀ c ∈ name, isWordChar c = true) (hmem : names name) (hnew : name ∉ done)
    (htext : ScansAlts names false text F) (rest : List Char) :
    ∃ p', parseRule (formatRule (name, text) ++ rest) p = .ok (parseSpace true rest, p') ∧
      p'.HasRead names (name :: done) ∧ Keeps done p p' ∧
      ∀ q, Keeps (name :: done) p' q → q.langOf name = F q.langOf := by
  have hunder := underscore_not_mem hname
  obtain ⟨hgrows₁, hmem₁, hid⟩ := grows_getSymbolId (p := p) hunder hmem
  set id := (p.getSymbolId name).1
  set p₁ := (p.getSymbolId name).2
  obtain ⟨rule, p₂, hparse, hgrows₂, hrule, hlang⟩ := htext name id p₁ ('\n' :: rest)
    (2 * (' ' :: (text ++ ('\n' :: rest))).length + 2) (closes_newline rest) (by
      rw [List.length_cons]
      omega)
  have hgrows := hgrows₁.trans hgrows₂
  have hid₂ : p₂.symbolIds.idxOf name = id := by
    rw [idxOf_eq_of_initial hgrows₂.names hmem₁, hid]
  have hmem₂ : name ∈ p₂.symbolIds := hgrows₂.names.subset hmem₁
  have hat : p₂.symbolIds[id]? = some name := by
    rw [← hid₂]
    exact List.getElem?_idxOf hmem₂
  -- another symbol keeps its rule
  have hother : ∀ j name', p₂.symbolIds[j]? = some name' → name' ≠ name →
      (p₂.addRule id rule).rules.getD j [] = p₂.rules.getD j [] := by
    intro j name' hj hname'
    rw [getD_addRule, if_neg]
    rintro rfl
    rw [hat] at hj
    exact hname' (Option.some.inj hj).symm
  have hown : (p₂.addRule id rule).rules.getD id [] = rule := by
    rw [getD_addRule, if_pos rfl]
  have hunder' : ∀ name', '_' ∈ name' → name' ≠ name := by
    rintro name' h rfl
    exact hunder h
  refine ⟨p₂.addRule id rule, ?_, ⟨?_, ?_, ?_⟩, ⟨hgrows.names, ?_⟩, ?_⟩
  · exact parseRule_format hne hname hparse
  · -- the symbols of the new state
    intro j name' hj
    rw [symbolIds_addRule] at hj ⊢
    rcases lt_or_ge j p.symbolIds.length with hlt | hge
    · have hj' : p.symbolIds[j]? = some name' := by
        rw [← getElem?_eq_of_initial hgrows.names hlt, hj]
      rcases hp.symbols j name' hj' with ⟨h, hr⟩ | ⟨h, href, hidx⟩
      · refine .inl ⟨h, ?_⟩
        rwa [hother j name' hj (hunder' name' h), hgrows.rules j hlt]
      · refine .inr ⟨h, href, ?_⟩
        rw [idxOf_eq_of_initial hgrows.names (List.mem_of_getElem? hj'), hidx]
    · rcases hgrows.fresh j name' hge hj with ⟨h, hr⟩ | h
      · refine .inl ⟨h, ?_⟩
        rwa [hother j name' hj (hunder' name' h)]
      · exact .inr h
  · -- the names that have their rules
    intro name' hname'
    rw [symbolIds_addRule]
    rcases List.mem_cons.1 hname' with rfl | hdone
    · rw [hid₂, hown]
      exact ⟨hmem₂, hrule⟩
    · obtain ⟨hin, hr⟩ := hp.rules name' hdone
      have hne' : name' ≠ name := by
        rintro rfl
        exact hnew hdone
      have hidx := idxOf_eq_of_initial hgrows.names hin
      have hlt := List.idxOf_lt_length_iff.2 hin
      refine ⟨hgrows.names.subset hin, ?_⟩
      rw [hother _ name' (List.getElem?_idxOf (hgrows.names.subset hin)) hne', hidx,
        hgrows.rules _ hlt]
      exact hr
  · have hle := hgrows.length_le hp.length_le
    obtain ⟨hlt, -⟩ := List.getElem?_eq_some_iff.1 hat
    rw [symbolIds_addRule, addRule]
    simp only [List.length_set, List.length_append, List.length_replicate]
    omega
  · -- what was there before
    intro j name' hj hkept
    obtain ⟨hlt, -⟩ := List.getElem?_eq_some_iff.1 hj
    have hj' : p₂.symbolIds[j]? = some name' := by
      rw [getElem?_eq_of_initial hgrows.names hlt, hj]
    have hne' : name' ≠ name := by
      rcases hkept with h | h
      · exact hunder' name' h
      · rintro rfl
        exact hnew h
    rw [hother j name' hj' hne', hgrows.rules j hlt]
  · -- the language of the rule
    intro q hq
    have hqid : q.symbolIds.idxOf name = id := by
      rw [idxOf_eq_of_initial hq.names hmem₂, symbolIds_addRule, hid₂]
    have hqrule : q.rules.getD id [] = rule := by
      rw [hq.rules id name hat (.inr List.mem_cons_self), hown]
    have hlater : p₁.Later p₂ q := by
      refine ⟨hq.names, fun j name' _ hj h => ?_⟩
      rw [hq.rules j name' hj (.inl h), hother j name' hj (hunder' name' h)]
    have hlt : id < q.rules.length := lt_length_of_getD (by rwa [hqrule])
    rw [langOf, hqid, ruleLang_eq hlt, hqrule]
    exact hlang q hlater q.langOf q.means_langOf

lemma hasRead_parseRule_all (hp : p.HasRead names done) (hne : name ≠ [])
    (hname : ∀ c ∈ name, isWordChar c = true) (hmem : names name) (hnew : name ∉ done)
    (htext : ∃ F, ScansAlts names false text F) (rest : List Char) :
    ∃ p', parseRule (formatRule (name, text) ++ rest) p = .ok (parseSpace true rest, p') ∧
      p'.HasRead names (name :: done) ∧ Keeps done p p' ∧
      ∀ F, ScansAlts names false text F → ∀ q, Keeps (name :: done) p' q →
        q.langOf name = F q.langOf := by
  obtain ⟨F₀, h₀⟩ := htext
  obtain ⟨p', hparse, hp', hkeeps, -⟩ := hasRead_parseRule hp hne hname hmem hnew h₀ rest
  refine ⟨p', hparse, hp', hkeeps, fun F hF q hq => ?_⟩
  obtain ⟨p'', hparse', -, -, hlang⟩ := hasRead_parseRule hp hne hname hmem hnew hF rest
  have heq := Except.ok.inj (hparse.symm.trans hparse')
  obtain rfl := (Prod.mk.inj heq).2
  exact hlang q hq

end OneRule

/-! ## All rules -/

section AllRules

variable {names : List Char → Prop}

lemma parseSpace_formatGrammar {entries : List (List Char × List Char)}
    (hwords : ∀ e ∈ entries, e.1 ≠ [] ∧ ∀ c ∈ e.1, isWordChar c = true) :
    parseSpace true (formatGrammar entries) = formatGrammar entries := by
  cases entries with
  | nil => rfl
  | cons e entries =>
    obtain ⟨hne, hname⟩ := hwords e List.mem_cons_self
    rw [formatGrammar, List.flatMap_cons, formatRule, List.append_assoc]
    exact (noSpace_name hne hname).append _ true

lemma hasRead_parseRules {entries : List (List Char × List Char)} {done : List (List Char)}
    {p : ParserState} (hp : p.HasRead names done)
    (hnodup : (entries.map Prod.fst).Nodup) (hdone : ∀ e ∈ entries, e.1 ∉ done)
    (hwords : ∀ e ∈ entries, e.1 ≠ [] ∧ ∀ c ∈ e.1, isWordChar c = true)
    (hnames : ∀ e ∈ entries, names e.1)
    (hread : ∀ e ∈ entries, ∃ F, ScansAlts names false e.2 F) {fuel : ℕ}
    (hfuel : (formatGrammar entries).length < fuel) :
    ∃ q, parseRules fuel (formatGrammar entries) p = .ok q ∧
      q.HasRead names ((entries.map Prod.fst).reverse ++ done) ∧ Keeps done p q ∧
      ∀ e ∈ entries, ∀ F, ScansAlts names false e.2 F →
        ∀ q', Keeps ((entries.map Prod.fst).reverse ++ done) q q' →
          q'.langOf e.1 = F q'.langOf := by
  induction entries generalizing done p fuel with
  | nil =>
    obtain ⟨fuel, rfl⟩ : ∃ n, fuel = n + 1 := ⟨fuel - 1, by omega⟩
    exact ⟨p, rfl, hp, ⟨List.prefix_rfl, fun _ _ _ _ => rfl⟩, fun e he => nomatch he⟩
  | cons e entries ih =>
    obtain ⟨name, text⟩ := e
    obtain ⟨fuel, rfl⟩ : ∃ n, fuel = n + 1 := ⟨fuel - 1, by omega⟩
    obtain ⟨hne, hname⟩ := hwords _ List.mem_cons_self
    rw [List.map_cons, List.nodup_cons] at hnodup
    have htail : ∀ e ∈ entries, e ∈ (name, text) :: entries := fun e he =>
      List.mem_cons_of_mem _ he
    obtain ⟨p', hparse, hp', hkeeps, hlang⟩ := hasRead_parseRule_all hp hne hname
      (hnames _ List.mem_cons_self) (hdone _ List.mem_cons_self) (hread _ List.mem_cons_self)
      (formatGrammar entries)
    have hlength : (formatGrammar entries).length < fuel := by
      simp only [formatGrammar, List.flatMap_cons, formatRule, List.length_append,
        List.length_cons] at hfuel ⊢
      omega
    obtain ⟨q, hparse', hq, hkeeps', hlang'⟩ := ih hp' hnodup.2 (fun e he h => by
        rcases List.mem_cons.1 h with h | h
        · exact hnodup.1 (List.mem_map.2 ⟨e, he, h⟩)
        · exact hdone e (htail e he) h)
      (fun e he => hwords e (htail e he)) (fun e he => hnames e (htail e he))
      (fun e he => hread e (htail e he)) hlength
    have hlist : ((((name, text) :: entries).map Prod.fst).reverse ++ done) =
        (entries.map Prod.fst).reverse ++ (name :: done) := by simp
    rw [hlist]
    refine ⟨q, ?_, hq, hkeeps.trans hkeeps' (List.subset_cons_self name done), ?_⟩
    · obtain ⟨c, cs, hcs⟩ := List.exists_cons_of_ne_nil hne
      rw [parseSpace_formatGrammar fun e he => hwords e (htail e he)] at hparse
      have hstep : ∀ text p, text ≠ [] → parseRules (fuel + 1) text p =
          (parseRule text p).bind fun r => parseRules fuel r.1 r.2 := by
        intro text p htext
        cases text with
        | nil => exact absurd rfl htext
        | cons => rfl
      have hline : formatGrammar ((name, text) :: entries) =
          formatRule (name, text) ++ formatGrammar entries := List.flatMap_cons
      have hne' : formatRule (name, text) ++ formatGrammar entries ≠ [] := by
        rw [formatRule, hcs]
        exact List.cons_ne_nil _ _
      rw [hline, hstep _ _ hne', hparse]
      exact hparse'
    · intro e he F hF q' hq'
      rcases List.mem_cons.1 he with rfl | he
      · exact hlang F hF q' (hkeeps'.trans hq' (List.subset_append_right _ _))
      · exact hlang' e he F hF q' hq'

/-- A grammar of rules that can be read: the languages of the names solve the equation of every
rule. -/
theorem parseGrammar_readable {entries : List (List Char × List Char)}
    (hnodup : (entries.map Prod.fst).Nodup)
    (hwords : ∀ e ∈ entries, e.1 ≠ [] ∧ ∀ c ∈ e.1, isWordChar c = true)
    (hread : ∀ e ∈ entries, ∃ F, ScansAlts (· ∈ entries.map Prod.fst) false e.2 F) :
    ∃ q, parseGrammar (formatGrammar entries) = some q ∧
      ∀ e ∈ entries, ∀ F, ScansAlts (· ∈ entries.map Prod.fst) false e.2 F →
        q.langOf e.1 = F q.langOf := by
  have hstart : HasRead (· ∈ entries.map Prod.fst) [] ⟨[], []⟩ :=
    ⟨fun _ _ h => (nomatch h), fun _ h => (nomatch h), le_rfl⟩
  obtain ⟨q, hparse, hq, -, hlang⟩ := hasRead_parseRules hstart hnodup (fun _ _ h => nomatch h)
    hwords (fun e he => List.mem_map_of_mem he) hread (Nat.lt_succ_self _)
  rw [List.append_nil] at hq hlang
  -- every rule that a symbol can refer to is there
  have hrule : ∀ id < q.symbolIds.length, q.rules.getD id [] ≠ [] := by
    intro id hid
    have hname : q.symbolIds[id]? = some q.symbolIds[id] := List.getElem?_eq_getElem hid
    rcases hq.symbols id _ hname with ⟨-, hr⟩ | ⟨-, hin, hidx⟩
    · exact hr
    · have := (hq.rules _ (List.mem_reverse.2 hin)).2
      rwa [hidx] at this
  have hempty : q.rules.any (·.isEmpty) = false := by
    refine List.any_eq_false.2 fun rule hmem => ?_
    obtain ⟨id, hid, rfl⟩ := List.getElem_of_mem hmem
    have := hrule id (hid.trans_le hq.length_le)
    rw [List.getD_eq_getElem?_getD, List.getElem?_eq_getElem hid] at this
    simpa using this
  have hundefined : q.rules.any (·.any q.undefinedRef) = false := by
    refine List.any_eq_false.2 fun rule _ => ?_
    rw [List.any_eq_true]
    rintro ⟨e, -, he⟩
    revert he
    rw [undefinedRef]
    by_cases hid : e.value < q.symbolIds.length
    · have hfull : (q.rules.getD e.value []).isEmpty = false := by
        simpa only [List.isEmpty_eq_false_iff] using hrule _ hid
      rw [hfull, Bool.and_false, Bool.false_and]
      exact Bool.false_ne_true
    · rw [decide_eq_false hid, Bool.and_false]
      exact Bool.false_ne_true
  refine ⟨q, ?_, fun e he F hF => hlang e he F hF q ⟨List.prefix_rfl, fun _ _ _ _ => rfl⟩⟩
  rw [parseGrammar, parseSpace_formatGrammar hwords, hparse]
  simp only [hempty, hundefined, Bool.or_self, Bool.false_eq_true, if_false]

theorem parseGrammar_format {entries : List (List Char × List Char)}
    {meaning : List Char → Meaning → Language ℕ} (hnodup : (entries.map Prod.fst).Nodup)
    (hwords : ∀ e ∈ entries, e.1 ≠ [] ∧ ∀ c ∈ e.1, isWordChar c = true)
    (hread : ∀ e ∈ entries,
      ScansAlts (· ∈ entries.map Prod.fst) false e.2 (meaning e.1)) :
    ∃ q, parseGrammar (formatGrammar entries) = some q ∧
      ∀ e ∈ entries, q.langOf e.1 = meaning e.1 q.langOf := by
  obtain ⟨q, hq, hlang⟩ := parseGrammar_readable hnodup hwords fun e he => ⟨_, hread e he⟩
  exact ⟨q, hq, fun e he => hlang e he _ (hread e he)⟩

end AllRules

end IFairy.LlamaGrammar
