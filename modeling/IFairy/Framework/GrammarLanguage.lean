import IFairy.Framework.ContextFree
import Mathlib.Order.CompletePartialOrder

/-!
# Languages of sentential forms

The strings that a sentential form derives, as a language (`lang`).  The language of an append is
the product, a terminal is the class of its characters, and a nonterminal is the union of its
outputs.  The languages of the nonterminals are the least solution of these equations
(`lang_le_yields`), which gives the rule for repetition: a nonterminal with the outputs `u r` and
nothing derives the repetitions of `u` (`lang_repetition`).
-/

namespace ContextFreeGrammar

open scoped Computability

variable {T C : Type*} {g : ContextFreeGrammar T} {sat : T → C → Prop}
  {u v w : List (Symbol T g.NT)} {s : List C}

/-- The strings that a sentential form derives. -/
def lang (g : ContextFreeGrammar T) (sat : T → C → Prop) (w : List (Symbol T g.NT)) : Language C :=
  {s | g.DerivesString sat w s}

lemma mem_lang : s ∈ g.lang sat w ↔ g.DerivesString sat w s := Iff.rfl

/-- The characters with a property, as strings. -/
def chars (p : C → Prop) : Language C := {s | ∃ c, p c ∧ s = [c]}

lemma mem_chars {p : C → Prop} : s ∈ chars p ↔ ∃ c, p c ∧ s = [c] := Iff.rfl

/-! ## The equations -/

lemma lang_append : g.lang sat (u ++ v) = g.lang sat u * g.lang sat v := by
  ext s
  rw [Language.mem_mul, mem_lang, derivesString_append_iff]
  constructor
  · rintro ⟨s₁, s₂, rfl, h₁, h₂⟩
    exact ⟨s₁, h₁, s₂, h₂, rfl⟩
  · rintro ⟨s₁, h₁, s₂, h₂, rfl⟩
    exact ⟨s₁, s₂, rfl, h₁, h₂⟩

lemma lang_nil : g.lang sat [] = 1 := by
  ext s
  rw [Language.mem_one, mem_lang]
  constructor
  · intro h
    cases s with
    | nil => rfl
    | cons c s => exact absurd h isResidual_derivesString.done
  · rintro rfl
    exact derivesString_nil

lemma lang_terminal {k : T} : g.lang sat [.terminal k] = chars (sat k) := by
  ext s
  rw [mem_lang, mem_chars]
  cases s with
  | nil => exact iff_of_false not_derivesString_terminal_nil (by rintro ⟨c, -, h⟩; cases h)
  | cons c s =>
    have hnil := Set.ext_iff.mp (show g.lang sat [] = 1 from lang_nil) s
    rw [isResidual_derivesString.read]
    constructor
    · rintro ⟨hsat, h⟩
      obtain rfl : s = [] := hnil.mp h
      exact ⟨c, hsat, rfl⟩
    · rintro ⟨d, hsat, h⟩
      obtain ⟨rfl, rfl⟩ := List.cons.inj h
      exact ⟨hsat, hnil.mpr rfl⟩

lemma mem_lang_nonterminal {r : g.NT} :
    s ∈ g.lang sat [.nonterminal r] ↔
      ∃ rule ∈ g.rules, rule.input = r ∧ s ∈ g.lang sat rule.output := by
  by_cases hr : ∃ rule ∈ g.rules, rule.input = r
  · have hresidual : IsResidual g sat (g.DerivesString sat) := isResidual_derivesString
    have h := hresidual.expand (v := []) (s := s) hr
    simp only [List.append_nil] at h
    exact h
  · refine iff_of_false (fun h => ?_) (fun ⟨rule, hrule, hin, _⟩ => hr ⟨rule, hrule, hin⟩)
    obtain ⟨ks, hks, -⟩ := derivesString_iff.1 h
    obtain ⟨v', hv', -⟩ | ⟨rule, hrule, hin, -⟩ := hks.nonterminal_cons
    · cases ks <;> simp at hv'
    · exact hr ⟨rule, hrule, hin⟩

/-! ## The least solution -/

/-- The strings of a form when every nonterminal `r` stands for the strings of `P r`. -/
def Yields (sat : T → C → Prop) (P : g.NT → Language C) : List (Symbol T g.NT) → Language C
  | [] => 1
  | .terminal k :: v => chars (sat k) * Yields sat P v
  | .nonterminal r :: v => P r * Yields sat P v

variable {P : g.NT → Language C}

lemma yields_append : Yields sat P (u ++ v) = Yields sat P u * Yields sat P v := by
  induction u with
  | nil => exact (one_mul _).symm
  | cons x u ih => cases x <;> rw [List.cons_append, Yields, Yields, ih, mul_assoc]

lemma yields_terminals {ks : List T} (h : List.Forall₂ sat ks s) :
    s ∈ Yields sat P (ks.map .terminal) := by
  induction h with
  | nil => exact Language.nil_mem_one
  | cons hsat _ ih => exact Language.mem_mul.2 ⟨_, ⟨_, hsat, rfl⟩, _, ih, rfl⟩

theorem lang_le_yields (hP : ∀ rule ∈ g.rules, Yields sat P rule.output ≤ P rule.input) :
    g.lang sat w ≤ Yields sat P w := by
  intro s h
  obtain ⟨ks, hks, hsat⟩ := derivesString_iff.1 h
  induction hks using Relation.ReflTransGen.head_induction_on with
  | refl => exact yields_terminals hsat
  | head hstep hrest ih =>
    obtain ⟨rule, hrule, hrw⟩ := hstep
    obtain ⟨p, q, rfl, rfl⟩ := hrw.exists_parts
    have hyield := ih (derivesString_iff.2 ⟨ks, hrest, hsat⟩)
    rw [yields_append, yields_append] at hyield ⊢
    have hinput : Yields sat P rule.output ≤ Yields sat P [.nonterminal rule.input] := by
      rw [Yields, Yields, mul_one]
      exact hP rule hrule
    have hle : Yields sat P p * Yields sat P rule.output * Yields sat P q ≤
        Yields sat P p * Yields sat P [.nonterminal rule.input] * Yields sat P q :=
      mul_le_mul' (mul_le_mul' le_rfl hinput) le_rfl
    exact hle hyield

lemma yields_lang : Yields sat (fun r => g.lang sat [.nonterminal r]) w = g.lang sat w := by
  induction w with
  | nil => exact lang_nil.symm
  | cons x w ih =>
    have hcons : g.lang sat (x :: w) = g.lang sat [x] * g.lang sat w := lang_append (u := [x])
    rw [hcons]
    cases x with
    | terminal k => rw [Yields, ih, lang_terminal]
    | nonterminal r => rw [Yields, ih]

lemma yields_mono {Q : g.NT → Language C} (h : ∀ r, P r ≤ Q r) :
    Yields sat P w ≤ Yields sat Q w := by
  induction w with
  | nil => exact le_rfl
  | cons x w ih =>
    cases x with
    | terminal k =>
      rw [Yields, Yields]
      exact mul_le_mul' le_rfl ih
    | nonterminal r =>
      rw [Yields, Yields]
      exact mul_le_mul' (h r) ih

theorem lang_of_two {r : g.NT}
    (hr : ∀ o, (∃ rule ∈ g.rules, rule.input = r ∧ rule.output = o) ↔ o = v ∨ o = w) :
    g.lang sat [.nonterminal r] = g.lang sat v + g.lang sat w := by
  ext s
  rw [Language.mem_add, mem_lang_nonterminal]
  constructor
  · rintro ⟨rule, hrule, hin, hs⟩
    obtain h | h := (hr _).1 ⟨rule, hrule, hin, rfl⟩
    · exact .inl (h ▸ hs)
    · exact .inr (h ▸ hs)
  · rintro (hs | hs)
    · obtain ⟨rule, hrule, hin, hout⟩ := (hr _).2 (.inl rfl)
      exact ⟨rule, hrule, hin, hout ▸ hs⟩
    · obtain ⟨rule, hrule, hin, hout⟩ := (hr _).2 (.inr rfl)
      exact ⟨rule, hrule, hin, hout ▸ hs⟩

/-- A nonterminal with the outputs `u r` and nothing derives the repetitions of `u`. -/
theorem lang_repetition {r : g.NT}
    (hr : ∀ w, (∃ rule ∈ g.rules, rule.input = r ∧ rule.output = w) ↔
      w = u ++ [.nonterminal r] ∨ w = []) :
    g.lang sat [.nonterminal r] = (g.lang sat u)∗ := by
  have hmem : ∀ s, s ∈ g.lang sat [.nonterminal r] ↔
      s ∈ g.lang sat u * g.lang sat [.nonterminal r] ∨ s ∈ (1 : Language C) := by
    intro s
    have htwo : g.lang sat [.nonterminal r] = _ := lang_of_two hr
    rw [lang_append, lang_nil] at htwo
    rw [← Language.mem_add, ← htwo]
  have hstar : (g.lang sat u)∗ ≤ g.lang sat [.nonterminal r] := by
    rw [Language.kstar_eq_iSup_pow]
    refine iSup_le fun n => ?_
    induction n with
    | zero =>
      rw [pow_zero]
      exact fun s hs => (hmem s).2 (.inr hs)
    | succ n ih =>
      have hle : g.lang sat u * g.lang sat u ^ n ≤
          g.lang sat u * g.lang sat [.nonterminal r] := mul_le_mul' le_rfl ih
      rw [pow_succ']
      exact fun s hs => (hmem s).2 (.inl (hle hs))
  refine le_antisymm ?_ hstar
  -- the repetitions are closed under the rules
  classical
  let P : g.NT → Language C := fun r' =>
    if r' = r then (g.lang sat u)∗ else g.lang sat [.nonterminal r']
  have hPle : ∀ r', P r' ≤ g.lang sat [.nonterminal r'] := by
    intro r'
    by_cases h : r' = r
    · rw [show P r' = (g.lang sat u)∗ from if_pos h, h]
      exact hstar
    · rw [show P r' = g.lang sat [.nonterminal r'] from if_neg h]
  have hyields : ∀ w, Yields sat P w ≤ g.lang sat w := fun w =>
    (yields_mono hPle).trans yields_lang.le
  have hPr : P r = (g.lang sat u)∗ := if_pos rfl
  have hclosed : ∀ rule ∈ g.rules, Yields sat P rule.output ≤ P rule.input := by
    intro rule hrule
    by_cases h : rule.input = r
    · rw [h, hPr]
      obtain hout | hout := (hr _).1 ⟨rule, hrule, h, rfl⟩
      · rw [hout, yields_append]
        have hsingle : Yields sat P [.nonterminal r] = (g.lang sat u)∗ := by
          rw [Yields, Yields, mul_one, hPr]
        rw [hsingle]
        exact (mul_le_mul' (hyields u) le_rfl).trans mul_kstar_le_kstar
      · rw [hout, Yields]
        exact one_le_kstar
    · rw [show P rule.input = g.lang sat [.nonterminal rule.input] from if_neg h]
      exact fun s hs => mem_lang_nonterminal.2 ⟨rule, hrule, rfl, hyields _ hs⟩
  have hle := lang_le_yields (w := [.nonterminal r]) hclosed
  rwa [Yields, Yields, mul_one, hPr] at hle

/-- A nonterminal with the outputs `u` and nothing derives `u` or nothing. -/
theorem lang_option {r : g.NT}
    (hr : ∀ w, (∃ rule ∈ g.rules, rule.input = r ∧ rule.output = w) ↔ w = u ∨ w = []) :
    g.lang sat [.nonterminal r] = g.lang sat u + 1 := by
  rw [lang_of_two hr, lang_nil]

end ContextFreeGrammar
