import IFairy.Framework.FallibleLoops
import IFairy.Grammar.Forms

/-!
# Runs of the stacks

`advanceStack` replaces the references on top of a stack until all stacks it adds are `Settled`:
empty, or with a character class on top.  It adds a stack with a property `Q` exactly if `Q` holds
of the stack it starts from, as long as `Q` can be followed through the replacements
(`exists_advanceStack`); and it returns when the replacements of the leading nonterminal in the
form of the stack come to an end (`exists_fuel_advanceStack`).

A residual property of sentential forms and strings can be followed through all the steps of a
run.  So the stacks after the code points of a string answer every such question about the string
and the start rule (`run_residual`).
-/

namespace IFairy.LlamaGrammar

open ContextFreeGrammar

/-- The stack that `advanceStack` goes on with for an alternate of the rule on top. -/
def expandTop (rules : Rules) (pos : Pos) (below : Stack) (alt : Pos) : Stack :=
  pushUnlessEnd rules alt (pushUnlessEnd rules (pos.add 1) below)

/-- The stack is empty or has a character class on top, and all its positions are symbols. -/
structure Settled (rules : Rules) (stack : Stack) : Prop where
  valid : Valid rules stack
  top : ∀ pos ∈ stack.head?, IsClass (elemAt rules pos)

lemma settled_nil (rules : Rules) : Settled rules [] := ⟨valid_nil rules, by simp⟩

lemma mem_addStack {stack x : Stack} {new : List Stack} :
    x ∈ addStack stack new ↔ x ∈ new ∨ x = stack := by
  rw [addStack]
  split_ifs with h
  · constructor
    · exact .inl
    · rintro (hx | rfl)
      · exact hx
      · exact h
  · simp

/-! ## The steps of `advanceStack` -/

lemma advanceStack_nil {rules : Rules} {fuel : ℕ} {new : List Stack} :
    advanceStack rules (fuel + 1) [] new = .ok (addStack [] new) := rfl

lemma advanceStack_class {rules : Rules} {fuel : ℕ} {pos : Pos} {below : Stack} {new : List Stack}
    (h : IsClass (elemAt rules pos)) :
    advanceStack rules (fuel + 1) (pos :: below) new = .ok (addStack (pos :: below) new) := by
  rw [advanceStack]
  rcases h with h | h | h <;> rw [h]

lemma advanceStack_ruleRef {rules : Rules} {fuel : ℕ} {pos : Pos} {below : Stack}
    {new : List Stack} (h : (elemAt rules pos).type = .ruleRef) :
    advanceStack rules (fuel + 1) (pos :: below) new =
      (alternates rules (elemAt rules pos).value).foldlM
        (fun new alt => advanceStack rules fuel (expandTop rules pos below alt) new) new := by
  rw [advanceStack, h]
  rfl

variable {G : ParsedGrammar} {fuel : ℕ} {stack : Stack} {new out : List Stack}

lemma settled_cons {pos : Pos} {below : Stack} (h : IsClass (elemAt G.rules pos))
    (hbelow : Valid G.rules below) : Settled G.rules (pos :: below) :=
  ⟨valid_cons.2 ⟨.inr h, hbelow⟩, by simpa using h⟩

lemma valid_expandTop {pos : Pos} {below : Stack} {alt : Pos}
    (hpos : (elemAt G.rules pos).type = .ruleRef) (hbelow : Valid G.rules below)
    (halt : alt ∈ alternates G.rules (elemAt G.rules pos).value) :
    Valid G.rules (expandTop G.rules pos below alt) :=
  valid_pushUnlessEnd (ParsedGrammar.not_insideClass_alternate halt)
    (valid_pushUnlessEnd (ParsedGrammar.not_insideClass_add_one hpos) hbelow)

lemma settled_advanceStack (hnew : ∀ x ∈ new, Settled G.rules x) (hstack : Valid G.rules stack)
    (h : advanceStack G.rules fuel stack new = .ok out) : ∀ x ∈ out, Settled G.rules x := by
  induction fuel generalizing stack new out with
  | zero => cases h
  | succ fuel ih =>
    cases stack with
    | nil =>
      obtain rfl := Except.ok.inj h
      intro x hx
      rcases mem_addStack.1 hx with hx | rfl
      · exact hnew x hx
      · exact settled_nil G.rules
    | cons pos below =>
      obtain ⟨hpos, hbelow⟩ := valid_cons.1 hstack
      rcases hpos with hpos | hpos
      · rw [advanceStack_ruleRef hpos] at h
        refine foldlM_invariant (I := fun new => ∀ x ∈ new, Settled G.rules x) ?_ hnew h
        intro alt halt b b' hb hb'
        exact ih hb (valid_expandTop hpos hbelow halt) hb'
      · rw [advanceStack_class hpos] at h
        obtain rfl := Except.ok.inj h
        intro x hx
        rcases mem_addStack.1 hx with hx | rfl
        · exact hnew x hx
        · exact settled_cons hpos hbelow

/-- A property that can be followed through the replacements holds of an added stack exactly if it
holds of the stack that is advanced. -/
lemma exists_advanceStack {Q : Stack → Prop}
    (hQ : ∀ pos below, (elemAt G.rules pos).type = .ruleRef → Valid G.rules below →
      (Q (pos :: below) ↔ ∃ alt ∈ alternates G.rules (elemAt G.rules pos).value,
        Q (expandTop G.rules pos below alt)))
    (hstack : Valid G.rules stack) (h : advanceStack G.rules fuel stack new = .ok out) :
    (∃ x ∈ out, Q x) ↔ (∃ x ∈ new, Q x) ∨ Q stack := by
  induction fuel generalizing stack new out with
  | zero => cases h
  | succ fuel ih =>
    have hadd : ∀ st, (∃ x ∈ addStack st new, Q x) ↔ (∃ x ∈ new, Q x) ∨ Q st := by
      intro st
      simp only [mem_addStack, or_and_right, exists_or, exists_eq_left]
    cases stack with
    | nil =>
      obtain rfl := Except.ok.inj h
      exact hadd []
    | cons pos below =>
      obtain ⟨hpos, hbelow⟩ := valid_cons.1 hstack
      rcases hpos with hpos | hpos
      · rw [advanceStack_ruleRef hpos] at h
        rw [hQ pos below hpos hbelow]
        refine exists_mem_foldlM (fun alt halt acc out h => ?_) h
        exact ih (valid_expandTop hpos hbelow halt) h
      · rw [advanceStack_class hpos] at h
        obtain rfl := Except.ok.inj h
        exact hadd (pos :: below)

lemma advanceStack_mono {fuel' : ℕ} (hle : fuel ≤ fuel')
    (h : advanceStack G.rules fuel stack new = .ok out) :
    advanceStack G.rules fuel' stack new = .ok out := by
  induction fuel generalizing fuel' stack new out with
  | zero => cases h
  | succ fuel ih =>
    obtain ⟨fuel', rfl⟩ : ∃ k, fuel' = k + 1 := ⟨fuel' - 1, by omega⟩
    cases stack with
    | nil => exact h
    | cons pos below =>
      rw [advanceStack] at h ⊢
      cases hpos : (elemAt G.rules pos).type with
      | ruleRef =>
        simp only [hpos] at h ⊢
        exact foldlM_mono (fun alt _ b b' hb => ih (by omega) hb) h
      | _ => simpa only [hpos] using h

/-! ## Forms of stacks -/

/-- The context free grammar of a parsed grammar. -/
abbrev ParsedGrammar.cfg (G : ParsedGrammar) : ContextFreeGrammar CharClass :=
  LlamaGrammar.cfg G.rules G.startRuleIndex

lemma formOf_ruleRef {rules : Rules} {pos : Pos} {below : Stack}
    (h : (elemAt rules pos).type = .ruleRef) :
    formOf rules (pos :: below) = .nonterminal (elemAt rules pos).value ::
      (syms (suffix rules (pos.add 1)) ++ formOf rules below) := by
  rw [formOf_cons, syms_of_ruleRef h]
  rfl

lemma formOf_expandTop (rules : Rules) (pos : Pos) (below : Stack) (alt : Pos) :
    formOf rules (expandTop rules pos below alt) =
      syms (suffix rules alt) ++ (syms (suffix rules (pos.add 1)) ++ formOf rules below) := by
  rw [expandTop, formOf_pushUnlessEnd, formOf_pushUnlessEnd]

lemma exists_output_iff {r : ℕ} (hr : r < G.rules.length) {P : List (Symbol CharClass ℕ) → Prop} :
    (∃ rule ∈ G.cfg.rules, rule.input = r ∧ P rule.output) ↔
      ∃ alt ∈ alternates G.rules r, P (syms (suffix G.rules alt)) := by
  constructor
  · rintro ⟨rule, hrule, rfl, hP⟩
    obtain ⟨-, alt, halt, hout⟩ := mem_cfg_rules.1 hrule
    exact ⟨alt, halt, hout ▸ hP⟩
  · rintro ⟨alt, halt, hP⟩
    exact ⟨⟨r, _⟩, mem_cfg_rules.2 ⟨hr, alt, halt, rfl⟩, rfl, hP⟩

lemma exists_rule {r : ℕ} (hr : r < G.rules.length) : ∃ rule ∈ G.cfg.rules, rule.input = r := by
  obtain ⟨alt, halt⟩ := List.exists_mem_of_ne_nil _ (alternates_ne_nil G.rules r)
  obtain ⟨rule, hrule, hin, -⟩ := (exists_output_iff hr (P := fun _ => True)).2 ⟨alt, halt, trivial⟩
  exact ⟨rule, hrule, hin⟩

/-- A valid stack is advanced within some depth when the replacements in its form come to an
end. -/
lemma exists_fuel_advanceStack (hstack : Valid G.rules stack)
    (h : Acc (flip G.cfg.Expands) (formOf G.rules stack)) :
    ∃ fuel, ∀ new, ∃ out, advanceStack G.rules fuel stack new = .ok out := by
  generalize hw : formOf G.rules stack = w at h
  induction h generalizing stack with
  | intro w _ ih =>
    subst hw
    cases stack with
    | nil => exact ⟨1, fun new => ⟨_, advanceStack_nil⟩⟩
    | cons pos below =>
      obtain ⟨hpos, hbelow⟩ := valid_cons.1 hstack
      rcases hpos with hpos | hpos
      · have halts : ∀ alt ∈ alternates G.rules (elemAt G.rules pos).value, ∃ fuel, ∀ new, ∃ out,
            advanceStack G.rules fuel (expandTop G.rules pos below alt) new = .ok out := by
          intro alt halt
          refine ih _ ?_ (valid_expandTop hpos hbelow halt) rfl
          refine ⟨⟨_, syms (suffix G.rules alt)⟩,
            mem_cfg_rules.2 ⟨ParsedGrammar.ref_lt hpos, alt, halt, rfl⟩, _, formOf_ruleRef hpos, ?_⟩
          exact formOf_expandTop G.rules pos below alt
        obtain ⟨fuel, hfuel⟩ := exists_bound_forall_mem (fun hmn h new => by
          obtain ⟨out, hout⟩ := h new
          exact ⟨out, advanceStack_mono hmn hout⟩) halts
        refine ⟨fuel + 1, fun new => ?_⟩
        rw [advanceStack_ruleRef hpos]
        exact exists_foldlM hfuel new
      · exact ⟨1, fun new => ⟨_, advanceStack_class hpos⟩⟩

/-! ## Residual properties of the stacks -/

variable {Q : List (Symbol CharClass ℕ) → List ℕ → Prop} {s : List ℕ}

/-- `advanceStack` adds a stack with a residual property exactly if the stack it advances has
it. -/
lemma advanceStack_residual (hQ : IsResidual G.cfg CharClass.Has Q) (hstack : Valid G.rules stack)
    (h : advanceStack G.rules fuel stack new = .ok out) :
    (∃ x ∈ out, Q (formOf G.rules x) s) ↔
      (∃ x ∈ new, Q (formOf G.rules x) s) ∨ Q (formOf G.rules stack) s := by
  refine exists_advanceStack (Q := fun x => Q (formOf G.rules x) s) ?_ hstack h
  intro pos below hpos hbelow
  have hlt := ParsedGrammar.ref_lt hpos
  rw [formOf_ruleRef hpos, hQ.expand (exists_rule hlt)]
  rw [exists_output_iff hlt (P := fun w => Q (w ++ _) s)]
  simp only [formOf_expandTop]

/-- One round of `accept` adds a stack with a residual property exactly if the stack has the
property with the character in front. -/
lemma acceptOne_residual (hQ : IsResidual G.cfg CharClass.Has Q) {chr : ℕ}
    (hstack : Settled G.rules stack) (h : acceptOne G.rules fuel chr new stack = .ok out) :
    (∃ x ∈ out, Q (formOf G.rules x) s) ↔
      (∃ x ∈ new, Q (formOf G.rules x) s) ∨ Q (formOf G.rules stack) (chr :: s) := by
  cases stack with
  | nil =>
    obtain rfl := Except.ok.inj h
    simp [hQ.done]
  | cons pos below =>
    have hpos : IsClass (elemAt G.rules pos) := hstack.top pos rfl
    obtain ⟨-, hbelow⟩ := valid_cons.1 hstack.valid
    rw [formOf_cons, syms_of_isClass hpos, List.cons_append, hQ.read]
    rw [acceptOne, matchChar_eq hpos] at h
    by_cases hhas : (classOf (suffix G.rules pos)).Has chr
    · rw [bind_eq_ok] at h
      simp only [Except.ok.injEq, exists_eq_left', hhas, decide_true, if_true] at h
      rw [advanceStack_residual hQ
        (valid_pushUnlessEnd (ParsedGrammar.not_insideClass_add_classLength hpos) hbelow) h,
        formOf_pushUnlessEnd]
      simp only [hhas, true_and]
    · rw [bind_eq_ok] at h
      simp only [Except.ok.injEq, exists_eq_left', hhas, decide_false, Bool.false_eq_true,
        if_false] at h
      subst h
      simp [hhas]

lemma settled_acceptOne {chr : ℕ} (hnew : ∀ x ∈ new, Settled G.rules x)
    (hstack : Settled G.rules stack) (h : acceptOne G.rules fuel chr new stack = .ok out) :
    ∀ x ∈ out, Settled G.rules x := by
  cases stack with
  | nil => exact Except.ok.inj h ▸ hnew
  | cons pos below =>
    have hpos : IsClass (elemAt G.rules pos) := hstack.top pos rfl
    obtain ⟨-, hbelow⟩ := valid_cons.1 hstack.valid
    rw [acceptOne, matchChar_eq hpos, bind_eq_ok] at h
    simp only [Except.ok.injEq, exists_eq_left'] at h
    split_ifs at h
    · exact settled_advanceStack hnew
        (valid_pushUnlessEnd (ParsedGrammar.not_insideClass_add_classLength hpos) hbelow) h
    · exact Except.ok.inj h ▸ hnew

variable {sts : List Stack}

lemma settled_accept {chr : ℕ} (hsts : ∀ x ∈ sts, Settled G.rules x)
    (h : accept G.rules fuel sts chr = .ok out) : ∀ x ∈ out, Settled G.rules x :=
  foldlM_invariant (I := fun new => ∀ x ∈ new, Settled G.rules x)
    (fun x hx _ _ hb hb' => settled_acceptOne hb (hsts x hx) hb') (by simp) h

lemma accept_residual (hQ : IsResidual G.cfg CharClass.Has Q) {chr : ℕ}
    (hsts : ∀ x ∈ sts, Settled G.rules x) (h : accept G.rules fuel sts chr = .ok out) :
    (∃ x ∈ out, Q (formOf G.rules x) s) ↔ ∃ x ∈ sts, Q (formOf G.rules x) (chr :: s) := by
  rw [exists_mem_foldlM (fun x hx acc out h => acceptOne_residual hQ (hsts x hx) h) h]
  simp

lemma acceptAll_residual (hQ : IsResidual G.cfg CharClass.Has Q) {cs : List ℕ}
    (hsts : ∀ x ∈ sts, Settled G.rules x) (h : acceptAll G.rules fuel sts cs = .ok out) :
    (∃ x ∈ out, Q (formOf G.rules x) s) ↔ ∃ x ∈ sts, Q (formOf G.rules x) (cs ++ s) := by
  induction cs generalizing sts with
  | nil => exact foldlM_nil_eq_ok.1 h ▸ Iff.rfl
  | cons c cs ih =>
    obtain ⟨mid, hmid, hrest⟩ := foldlM_cons_eq_ok.1 h
    rw [ih (settled_accept hsts hmid) hrest, accept_residual hQ hsts hmid]
    rfl

lemma settled_acceptAll {cs : List ℕ} (hsts : ∀ x ∈ sts, Settled G.rules x)
    (h : acceptAll G.rules fuel sts cs = .ok out) : ∀ x ∈ out, Settled G.rules x :=
  foldlM_invariant (I := fun sts => ∀ x ∈ sts, Settled G.rules x)
    (fun _ _ _ _ hb hb' => settled_accept hb hb') hsts h

/-! ## The initial stacks -/

lemma valid_initial {alt : Pos} (halt : alt ∈ alternates G.rules G.startRuleIndex) :
    Valid G.rules (pushUnlessEnd G.rules alt []) :=
  valid_pushUnlessEnd (ParsedGrammar.not_insideClass_alternate halt) (valid_nil G.rules)

lemma settled_initialStacks (h : initialStacks G.rules fuel G.startRuleIndex = .ok sts) :
    ∀ x ∈ sts, Settled G.rules x :=
  foldlM_invariant (I := fun sts => ∀ x ∈ sts, Settled G.rules x)
    (fun _ halt _ _ hb hb' => settled_advanceStack hb (valid_initial halt) hb') (by simp) h

lemma initialStacks_residual (hQ : IsResidual G.cfg CharClass.Has Q)
    (h : initialStacks G.rules fuel G.startRuleIndex = .ok sts) :
    (∃ x ∈ sts, Q (formOf G.rules x) s) ↔ Q [.nonterminal G.startRuleIndex] s := by
  rw [exists_mem_foldlM (fun alt halt acc out h =>
    advanceStack_residual hQ (valid_initial halt) h) h]
  rw [hQ.expand (exists_rule G.start_lt)]
  rw [exists_output_iff G.start_lt (P := fun w => Q (w ++ []) s)]
  simp

/-- The stacks after the code points of a string have a residual property exactly if the start
rule has it with the string in front. -/
theorem run_residual (hQ : IsResidual G.cfg CharClass.Has Q) {cs : List ℕ}
    (hinit : initialStacks G.rules fuel G.startRuleIndex = .ok sts)
    (h : acceptAll G.rules fuel sts cs = .ok out) :
    (∃ x ∈ out, Q (formOf G.rules x) s) ↔ Q [.nonterminal G.startRuleIndex] (cs ++ s) := by
  rw [acceptAll_residual hQ (settled_initialStacks hinit) h, initialStacks_residual hQ hinit]

end IFairy.LlamaGrammar
