import IFairy.Grammar.Advance

/-!
# The stacks decide the language

The stacks after the code points of a string are empty exactly when no sentential form of the start
rule begins with the string, and they contain the empty stack exactly when the start rule derives
it (`language_of_run`).  A sentential form that begins with a string need not be completed: a rule
that derives no string at all, such as `root ::= "x" root`, keeps the stacks alive without any
string behind them (`not_stacks_iff_derivable_unproductive`).  In a productive grammar the
beginnings of sentential forms are the beginnings of derivable strings.

Runs return unless a left recursive rule comes to the top of a stack (`exists_run`).
-/

namespace IFairy.LlamaGrammar

open ContextFreeGrammar

variable {G : ParsedGrammar} {fuel fuel' : ℕ} {sts out : List Stack} {cs : List ℕ}

/-! ## More depth -/

lemma initialStacks_mono {root : ℕ} (hle : fuel ≤ fuel')
    (h : initialStacks G.rules fuel root = .ok sts) :
    initialStacks G.rules fuel' root = .ok sts :=
  foldlM_mono (fun _ _ _ _ hb => advanceStack_mono hle hb) h

lemma acceptOne_mono {chr : ℕ} {new : List Stack} {stack : Stack} (hle : fuel ≤ fuel')
    (h : acceptOne G.rules fuel chr new stack = .ok out) :
    acceptOne G.rules fuel' chr new stack = .ok out := by
  cases stack with
  | nil => exact h
  | cons pos below =>
    rw [acceptOne, bind_eq_ok] at h ⊢
    obtain ⟨found, hfound, h⟩ := h
    refine ⟨found, hfound, ?_⟩
    split_ifs at h ⊢
    · exact advanceStack_mono hle h
    · exact h

lemma accept_mono {chr : ℕ} (hle : fuel ≤ fuel') (h : accept G.rules fuel sts chr = .ok out) :
    accept G.rules fuel' sts chr = .ok out :=
  foldlM_mono (fun _ _ _ _ hb => acceptOne_mono hle hb) h

lemma acceptAll_mono (hle : fuel ≤ fuel') (h : acceptAll G.rules fuel sts cs = .ok out) :
    acceptAll G.rules fuel' sts cs = .ok out :=
  foldlM_mono (fun _ _ _ _ hb => accept_mono hle hb) h

lemma acceptAll_concat_eq_ok {c : ℕ} : acceptAll G.rules fuel sts (cs ++ [c]) = .ok out ↔
    ∃ mid, acceptAll G.rules fuel sts cs = .ok mid ∧ accept G.rules fuel mid c = .ok out := by
  rw [acceptAll, List.foldlM_append, bind_eq_ok]
  refine exists_congr fun mid => and_congr_right fun _ => ?_
  rw [foldlM_cons_eq_ok]
  simp only [foldlM_nil_eq_ok, exists_eq_right]

/-! ## Runs return -/

/-- A left recursive rule can come to the top of a stack. -/
def ParsedGrammar.LeftRecursionReached (G : ParsedGrammar) : Prop :=
  ∃ r cs, G.cfg.LeftRecursive r ∧
    G.cfg.DerivesFront CharClass.Has r [.nonterminal G.startRuleIndex] cs

lemma exists_fuel_of_front {stack : Stack} (hstack : Valid G.rules stack)
    (h : ∀ r, G.cfg.LeftRecursive r →
      ¬ G.cfg.DerivesFront CharClass.Has r (formOf G.rules stack) []) :
    ∃ fuel, ∀ new, ∃ out, advanceStack G.rules fuel stack new = .ok out :=
  exists_fuel_advanceStack hstack
    (acc_expands fun r x hx hr => h r hr (derivesThen_nil.2 ⟨_, hx, x, rfl⟩))

lemma exists_initialStacks (hG : ¬ G.LeftRecursionReached) :
    ∃ fuel sts, initialStacks G.rules fuel G.startRuleIndex = .ok sts := by
  have halts : ∀ alt ∈ alternates G.rules G.startRuleIndex, ∃ fuel, ∀ new, ∃ out,
      advanceStack G.rules fuel (pushUnlessEnd G.rules alt []) new = .ok out := by
    intro alt halt
    refine exists_fuel_of_front (valid_initial halt) fun r hr hfront => hG ⟨r, [], hr, ?_⟩
    refine ((isResidual_derivesFront hr).expand (exists_rule G.start_lt)).2 ?_
    refine (exists_output_iff G.start_lt (P := fun w => DerivesFront _ _ r (w ++ []) [])).2
      ⟨alt, halt, ?_⟩
    rwa [formOf_pushUnlessEnd] at hfront
  obtain ⟨fuel, hfuel⟩ := exists_bound_forall_mem (fun hmn h new => by
    obtain ⟨out, hout⟩ := h new
    exact ⟨out, advanceStack_mono hmn hout⟩) halts
  exact ⟨fuel, exists_foldlM hfuel []⟩

lemma exists_accept {c : ℕ} (hsts : ∀ x ∈ sts, Settled G.rules x)
    (hfront : ∀ r, G.cfg.LeftRecursive r → ∀ x ∈ sts,
      ¬ G.cfg.DerivesFront CharClass.Has r (formOf G.rules x) [c]) :
    ∃ fuel out, accept G.rules fuel sts c = .ok out := by
  have hone : ∀ x ∈ sts, ∃ fuel, ∀ new, ∃ out, acceptOne G.rules fuel c new x = .ok out := by
    intro x hx
    cases x with
    | nil => exact ⟨0, fun new => ⟨new, rfl⟩⟩
    | cons pos below =>
      have hpos : IsClass (elemAt G.rules pos) := (hsts _ hx).top pos rfl
      obtain ⟨-, hbelow⟩ := valid_cons.1 (hsts _ hx).valid
      by_cases hhas : (classOf (suffix G.rules pos)).Has c
      · obtain ⟨fuel, hfuel⟩ := exists_fuel_of_front
          (valid_pushUnlessEnd (ParsedGrammar.not_insideClass_add_classLength hpos) hbelow)
          fun r hr h => by
            -- the rule would come to the top after one more character
            refine hfront r hr _ hx ?_
            rw [formOf_pushUnlessEnd] at h
            rw [formOf_cons, syms_of_isClass hpos]
            exact (isResidual_derivesFront hr).read.2 ⟨hhas, h⟩
        refine ⟨fuel, fun new => ?_⟩
        obtain ⟨out, hout⟩ := hfuel new
        exact ⟨out, by rw [acceptOne, matchChar_eq hpos]; simpa [bind_eq_ok, hhas] using hout⟩
      · exact ⟨0, fun new => ⟨new, by rw [acceptOne, matchChar_eq hpos]; simp [bind_eq_ok, hhas]⟩⟩
  obtain ⟨fuel, hfuel⟩ := exists_bound_forall_mem (fun hmn h new => by
    obtain ⟨out, hout⟩ := h new
    exact ⟨out, acceptOne_mono hmn hout⟩) hone
  exact ⟨fuel, exists_foldlM hfuel []⟩

/-- When no left recursive rule comes to the top of a stack, every string is accepted or refused. -/
theorem exists_run (hG : ¬ G.LeftRecursionReached) (cs : List ℕ) :
    ∃ fuel sts out, initialStacks G.rules fuel G.startRuleIndex = .ok sts ∧
      acceptAll G.rules fuel sts cs = .ok out := by
  induction cs using List.reverseRecOn with
  | nil =>
    obtain ⟨fuel, sts, hinit⟩ := exists_initialStacks hG
    exact ⟨fuel, sts, sts, hinit, rfl⟩
  | append_singleton cs c ih =>
    obtain ⟨fuel, sts, out, hinit, h⟩ := ih
    obtain ⟨fuel', out', hout'⟩ := exists_accept (c := c)
      (settled_acceptAll (settled_initialStacks hinit) h) fun r hr x hx hfront =>
        hG ⟨r, cs ++ [c], hr, (run_residual (isResidual_derivesFront hr) hinit h).1 ⟨x, hx, hfront⟩⟩
    refine ⟨max fuel fuel', sts, out', initialStacks_mono (le_max_left _ _) hinit, ?_⟩
    exact acceptAll_concat_eq_ok.2
      ⟨out, acceptAll_mono (le_max_left _ _) h, accept_mono (le_max_right _ _) hout'⟩

lemma exists_acceptAll (hG : ∀ r, ¬ G.cfg.LeftRecursive r)
    (hsts : ∀ x ∈ sts, Settled G.rules x) (cs : List ℕ) :
    ∃ fuel out, acceptAll G.rules fuel sts cs = .ok out := by
  induction cs generalizing sts with
  | nil => exact ⟨0, sts, rfl⟩
  | cons c cs ih =>
    obtain ⟨fuel, mid, hmid⟩ := exists_accept (c := c) hsts fun r hr _ _ => absurd hr (hG r)
    obtain ⟨fuel', out, hout⟩ := ih (settled_accept hsts hmid)
    exact ⟨max fuel fuel', out, foldlM_cons_eq_ok.2
      ⟨mid, accept_mono (le_max_left _ _) hmid, acceptAll_mono (le_max_right _ _) hout⟩⟩

lemma not_derivesFront_of_run {r : ℕ} (hr : G.cfg.LeftRecursive r)
    (hinit : initialStacks G.rules fuel G.startRuleIndex = .ok sts)
    (h : acceptAll G.rules fuel sts cs = .ok out) :
    ¬ G.cfg.DerivesFront CharClass.Has r [.nonterminal G.startRuleIndex] cs := by
  intro hfront
  have hres := run_residual (s := []) (isResidual_derivesFront hr) hinit h
  rw [List.append_nil] at hres
  -- the rule would stand on top of a settled stack
  obtain ⟨x, hx, hform⟩ := hres.2 hfront
  obtain ⟨-, hderives, y, rfl⟩ := derivesThen_nil.1 hform
  have hsettled := settled_acceptAll (settled_initialStacks hinit) h x hx
  cases x with
  | nil => cases derives_nil_iff.1 hderives
  | cons pos below =>
    rw [formOf_cons, syms_of_isClass (hsettled.top pos rfl), List.cons_append,
      derives_terminal_cons_iff] at hderives
    obtain ⟨w, hw, -⟩ := hderives
    simp at hw

/-- A left recursive rule that can come to the top of a stack keeps some run from returning. -/
theorem not_leftRecursionReached (h : ∀ cs, ∃ fuel sts out,
    initialStacks G.rules fuel G.startRuleIndex = .ok sts ∧
      acceptAll G.rules fuel sts cs = .ok out) : ¬ G.LeftRecursionReached := by
  rintro ⟨r, cs, hr, hfront⟩
  obtain ⟨fuel, sts, out, hinit, hrun⟩ := h cs
  exact not_derivesFront_of_run hr hinit hrun hfront

/-! ## What the stacks say about the string -/

lemma derivesString_formOf_nil {stack : Stack} (h : Settled G.rules stack) :
    G.cfg.DerivesString CharClass.Has (formOf G.rules stack) [] ↔ stack = [] := by
  cases stack with
  | nil => exact iff_of_true derivesString_nil rfl
  | cons pos below =>
    rw [formOf_cons, syms_of_isClass (h.top pos rfl), List.cons_append]
    simp only [reduceCtorEq, iff_false]
    exact not_derivesString_terminal_nil

lemma exists_derivesString (hG : G.cfg.Productive CharClass.Has) :
    ∃ t, G.cfg.DerivesString CharClass.Has [.nonterminal G.startRuleIndex] t := by
  obtain ⟨rule, hrule, hin⟩ := exists_rule G.start_lt
  obtain ⟨t, ht⟩ := hG rule hrule
  refine ⟨t, (isResidual_derivesString.expand (exists_rule G.start_lt)).2 ⟨rule, hrule, hin, ?_⟩⟩
  rwa [List.append_nil]

lemma init_eq_ok_some : init G.rules fuel G.startRuleIndex = .ok (some sts) ↔
    leftRecursionDetected G.rules = .ok false ∧
      initialStacks G.rules fuel G.startRuleIndex = .ok sts := by
  rw [init, bind_eq_ok]
  constructor
  · rintro ⟨detected, hdetected, h⟩
    split_ifs at h with hd
    · cases h
    · obtain ⟨sts', hsts', h⟩ := bind_eq_ok.1 h
      obtain rfl := Option.some.inj (Except.ok.inj h)
      exact ⟨by simpa [hd] using hdetected, hsts'⟩
  · rintro ⟨hdetected, h⟩
    exact ⟨false, hdetected, by simp [bind_eq_ok, h]⟩

/-- The stacks are not empty exactly when a sentential form of the start rule begins with the
string. -/
lemma ne_nil_iff_derivesPrefix (hinit : initialStacks G.rules fuel G.startRuleIndex = .ok sts)
    (h : acceptAll G.rules fuel sts cs = .ok out) :
    out ≠ [] ↔ G.cfg.DerivesPrefix CharClass.Has [.nonterminal G.startRuleIndex] cs := by
  have hres := run_residual (s := []) isResidual_derivesPrefix hinit h
  rw [List.append_nil] at hres
  rw [← hres]
  constructor
  · intro hne
    obtain ⟨x, hx⟩ := List.exists_mem_of_ne_nil out hne
    exact ⟨x, hx, derivesPrefix_nil_right⟩
  · rintro ⟨x, hx, -⟩
    exact List.ne_nil_of_mem hx

lemma nil_mem_iff_derivesString (hinit : initialStacks G.rules fuel G.startRuleIndex = .ok sts)
    (h : acceptAll G.rules fuel sts cs = .ok out) :
    [] ∈ out ↔ G.cfg.DerivesString CharClass.Has [.nonterminal G.startRuleIndex] cs := by
  have hres := run_residual (s := []) isResidual_derivesString hinit h
  rw [List.append_nil] at hres
  rw [← hres]
  have hsettled := settled_acceptAll (settled_initialStacks hinit) h
  constructor
  · intro hmem
    exact ⟨[], hmem, (derivesString_formOf_nil (settled_nil _)).2 rfl⟩
  · rintro ⟨x, hx, hstr⟩
    exact (derivesString_formOf_nil (hsettled x hx)).1 hstr ▸ hx

/-- For every accepted grammar and every string: the stacks after the string are not empty exactly
when the start rule derives a form that begins with it, and contain the empty stack exactly when the
start rule derives it.  In a productive grammar the first means that the string is a beginning of a
derivable one.  The run returns for every string when no left recursive rule can come to the top
of a stack. -/
theorem language_of_run (G : ParsedGrammar) (cs : List ℕ) :
    (∀ fuel sts out, init G.rules fuel G.startRuleIndex = .ok (some sts) →
      acceptAll G.rules fuel sts cs = .ok out →
        (out ≠ [] ↔
          G.cfg.DerivesPrefix CharClass.Has [.nonterminal G.startRuleIndex] cs) ∧
        ([] ∈ out ↔ G.cfg.DerivesString CharClass.Has [.nonterminal G.startRuleIndex] cs) ∧
        (G.cfg.Productive CharClass.Has → (out ≠ [] ↔ ∃ t,
          G.cfg.DerivesString CharClass.Has [.nonterminal G.startRuleIndex] (cs ++ t)))) ∧
    (leftRecursionDetected G.rules = .ok false → ¬ G.LeftRecursionReached →
      ∃ fuel sts out, init G.rules fuel G.startRuleIndex = .ok (some sts) ∧
        acceptAll G.rules fuel sts cs = .ok out) := by
  constructor
  · intro fuel sts out hinit h
    obtain ⟨-, hinit⟩ := init_eq_ok_some.1 hinit
    have hpre := ne_nil_iff_derivesPrefix hinit h
    refine ⟨hpre, nil_mem_iff_derivesString hinit h, fun hG => ?_⟩
    rw [hpre]
    exact hG.derivesPrefix_iff (exists_derivesString hG)
  · intro hdetected hG
    obtain ⟨fuel, sts, out, hinit, h⟩ := exists_run hG cs
    exact ⟨fuel, sts, out, init_eq_ok_some.2 ⟨hdetected, hinit⟩, h⟩

/-- `root ::= "a" root | "b"`. -/
def manyThenOne : ParsedGrammar where
  rules := [[⟨.char, 97⟩, ⟨.ruleRef, 0⟩, ⟨.alt, 0⟩, ⟨.char, 98⟩, ⟨.endRule, 0⟩]]
  startRuleIndex := 0
  wellFormed := by decide
  start_lt := by decide

/-- After `a` the string can be continued and is not complete. -/
theorem language_of_run_manyThenOne :
    manyThenOne.cfg.DerivesPrefix CharClass.Has [.nonterminal (0 : ℕ)] [97] ∧
      ¬ manyThenOne.cfg.DerivesString CharClass.Has [.nonterminal (0 : ℕ)] [97] := by
  obtain ⟨hpre, hstring, -⟩ := (language_of_run manyThenOne [97]).1 3
    [[⟨0, 0⟩], [⟨0, 3⟩]] [[⟨0, 0⟩], [⟨0, 3⟩]] (by rfl) (by rfl)
  exact ⟨hpre.1 (by simp), fun h => absurd (hstring.2 h) (by decide)⟩

/-- `root ::= "x" root`. -/
def unproductive : ParsedGrammar where
  rules := [[⟨.char, 120⟩, ⟨.ruleRef, 0⟩, ⟨.endRule, 0⟩]]
  startRuleIndex := 0
  wellFormed := by decide
  start_lt := by decide

lemma unproductive_derives_nothing (s : List ℕ) :
    ¬ unproductive.cfg.DerivesString CharClass.Has [.nonterminal (0 : ℕ)] s := by
  have hout : ∀ rule ∈ unproductive.cfg.rules,
      rule.output = [.terminal ⟨false, [.span 120 120]⟩, .nonterminal (0 : ℕ)] := by
    decide
  have hres : IsResidual unproductive.cfg CharClass.Has _ := isResidual_derivesString
  have hstep : ∀ s, unproductive.cfg.DerivesString CharClass.Has [.nonterminal (0 : ℕ)] s →
      unproductive.cfg.DerivesString CharClass.Has
        [.terminal ⟨false, [.span 120 120]⟩, .nonterminal (0 : ℕ)] s := by
    intro s h
    obtain ⟨rule, hrule, -, h⟩ :=
      (hres.expand (r := (0 : ℕ)) (exists_rule (G := unproductive) (by decide))).1 h
    rwa [hout rule hrule] at h
  induction s with
  | nil => exact fun h => not_derivesString_terminal_nil (hstep [] h)
  | cons c s ih => exact fun h => ih (hres.read.1 (hstep (c :: s) h)).2

/-- After `x` the stacks are not empty, and no derivable string begins with `x`. -/
theorem not_stacks_iff_derivable_unproductive :
    ∃ sts out, init unproductive.rules 2 unproductive.startRuleIndex = .ok (some sts) ∧
      acceptAll unproductive.rules 2 sts [120] = .ok out ∧
      ¬ (out ≠ [] ↔ ∃ t, unproductive.cfg.DerivesString CharClass.Has
        [.nonterminal unproductive.startRuleIndex] ([120] ++ t)) := by
  refine ⟨[[⟨0, 0⟩]], [[⟨0, 0⟩]], by rfl, by rfl, fun h => ?_⟩
  obtain ⟨t, ht⟩ := h.1 (by simp)
  exact unproductive_derives_nothing _ ht

end IFairy.LlamaGrammar
