import IFairy.Grammar.Detect
import IFairy.Grammar.Language

/-!
# What the check for left recursion rules out

The check takes a rule to be possibly empty only when one of its own alternates is empty.  A rule
that is empty by way of another rule hides the left recursion behind it: in
`s ::= b s "x" | "y"; b ::= c; c ::= "a" |` the rule `s` derives `s "x"`, and the check does not
see it (`not_detects_hidden`).  `detects_iff` says for which grammars the check keeps its promise:
those in which left recursion, if there is any, shows already through the rules with an empty
alternate.
-/

namespace IFairy.LlamaGrammar

open ContextFreeGrammar

/-- Initialising the grammar and accepting any code points returns. -/
def ParsedGrammar.RunsReturn (G : ParsedGrammar) : Prop :=
  ∀ cs, ∃ fuel sts out, init G.rules fuel G.startRuleIndex = .ok (some sts) ∧
    acceptAll G.rules fuel sts cs = .ok out

lemma runsReturn_iff {G : ParsedGrammar} (h : leftRecursionDetected G.rules = .ok false) :
    G.RunsReturn ↔ ¬ G.LeftRecursionReached := by
  constructor
  · intro hruns
    refine not_leftRecursionReached fun cs => ?_
    obtain ⟨fuel, sts, out, hinit, hrun⟩ := hruns cs
    exact ⟨fuel, sts, out, (init_eq_ok_some.1 hinit).2, hrun⟩
  · intro hG cs
    exact (language_of_run G cs).2 h hG

lemma leftRecursionDetected_eq_false {G : ParsedGrammar} :
    leftRecursionDetected G.rules = .ok false ↔ ¬ ∃ r, G.cfg.DirectlyLeftRecursive r := by
  obtain ⟨detected, h, hiff⟩ := leftRecursionDetected_eq G
  rw [h, ← hiff]
  cases detected <;> simp

lemma leftRecursionDetected_eq_true {G : ParsedGrammar} :
    leftRecursionDetected G.rules = .ok true ↔ ∃ r, G.cfg.DirectlyLeftRecursive r := by
  obtain ⟨detected, h, hiff⟩ := leftRecursionDetected_eq G
  rw [h, ← hiff]
  cases detected <;> simp

/-- The check rejects every left recursive grammar exactly when left recursion, if there is any,
shows through rules with an empty alternate of their own.  A grammar that passes the check is run
without end on no string exactly when this holds of the left recursive rules that come to the top
of a stack. -/
theorem detects_iff (G : ParsedGrammar) :
    (((∃ r, G.cfg.LeftRecursive r) → leftRecursionDetected G.rules = .ok true) ↔
      ((∃ r, G.cfg.LeftRecursive r) → ∃ r, G.cfg.DirectlyLeftRecursive r)) ∧
    ((leftRecursionDetected G.rules = .ok false → G.RunsReturn) ↔
      (G.LeftRecursionReached → ∃ r, G.cfg.DirectlyLeftRecursive r)) := by
  constructor
  · rw [leftRecursionDetected_eq_true]
  · constructor
    · intro h hreached
      by_contra hdirect
      have hpassed := leftRecursionDetected_eq_false.2 hdirect
      exact (runsReturn_iff hpassed).1 (h hpassed) hreached
    · intro h hpassed
      refine (runsReturn_iff hpassed).2 fun hreached => ?_
      exact leftRecursionDetected_eq_false.1 hpassed (h hreached)

/-- `root ::= "z" s`, `s ::= b s "x" | "y"`, `b ::= c`, `c ::= "a" |`. -/
def hidden : ParsedGrammar where
  rules := [[⟨.char, 122⟩, ⟨.ruleRef, 1⟩, ⟨.endRule, 0⟩],
    [⟨.ruleRef, 2⟩, ⟨.ruleRef, 1⟩, ⟨.char, 120⟩, ⟨.alt, 0⟩, ⟨.char, 121⟩, ⟨.endRule, 0⟩],
    [⟨.ruleRef, 3⟩, ⟨.endRule, 0⟩],
    [⟨.char, 97⟩, ⟨.alt, 0⟩, ⟨.endRule, 0⟩]]
  startRuleIndex := 0
  wellFormed := by decide
  start_lt := by decide

lemma leftRecursive_hidden : hidden.cfg.LeftRecursive (1 : ℕ) := by
  have hb : hidden.cfg.Nullable (2 : ℕ) := by
    have hc : hidden.cfg.DirectlyNullable (3 : ℕ) := by
      rw [DirectlyNullable]
      decide
    have hstep : hidden.cfg.Produces [.nonterminal (2 : ℕ)] [.nonterminal (3 : ℕ)] :=
      produces_nonterminal_iff.2 ⟨⟨(2 : ℕ), [.nonterminal (3 : ℕ)]⟩, by decide, rfl, rfl⟩
    exact hstep.trans_derives hc.nullable
  refine transGen_of_leftEdges (P := hidden.cfg.Nullable) (fun _ h => h) (.single ?_)
  exact ⟨⟨(1 : ℕ), [.nonterminal (2 : ℕ), .nonterminal (1 : ℕ),
    .terminal ⟨false, [.span 120 120]⟩]⟩, by decide, rfl, [(2 : ℕ)], _, rfl, by simpa using hb⟩

/-- The check lets this left recursive grammar pass, and accepting `z` never returns. -/
theorem not_detects_hidden :
    (∃ r, hidden.cfg.LeftRecursive r) ∧
      init hidden.rules 2 hidden.startRuleIndex = .ok (some [[⟨0, 0⟩]]) ∧
      ∀ fuel out, acceptAll hidden.rules fuel [[⟨0, 0⟩]] [122] ≠ .ok out := by
  refine ⟨⟨(1 : ℕ), leftRecursive_hidden⟩, by rfl, fun fuel out h => ?_⟩
  have hinit : initialStacks hidden.rules (fuel + 2) hidden.startRuleIndex = .ok [[⟨0, 0⟩]] :=
    initialStacks_mono (G := hidden) (Nat.le_add_left 2 fuel) (by rfl)
  refine not_derivesFront_of_run leftRecursive_hidden hinit
    (acceptAll_mono (Nat.le_add_right fuel 2) h) ?_
  have hstep : hidden.cfg.Produces [.nonterminal (0 : ℕ)]
      [.terminal ⟨false, [.span 122 122]⟩, .nonterminal (1 : ℕ)] :=
    produces_nonterminal_iff.2 ⟨⟨(0 : ℕ), _⟩, by decide, rfl, rfl⟩
  exact ⟨[⟨false, [.span 122 122]⟩], _, hstep.single, .cons (by decide) .nil, [], rfl⟩

end IFairy.LlamaGrammar
