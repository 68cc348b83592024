import IFairy.Framework.ContextFree

/-!
# Left recursion

A recogniser that replaces leading nonterminals does not return when some nonterminal derives a
form that begins with itself (`LeftRecursive`).  Conversely the replacements come to an end in
front of every sentential form that cannot bring a left recursive nonterminal to its front
(`acc_expands`): a nonterminal `r` leads to the nonterminals that stand in one of its outputs
behind nullable ones only (`LeftEdge`), this relation has no cycle there, and a nonterminal that
is replaced below the first place of the form is below nullable ones.

A check of a grammar may know fewer nonterminals to be nullable than there are.  `LeftEdge`
therefore takes the set of nonterminals that may be skipped as a parameter, and the cycles through
nonterminals that have an empty output of their own (`DirectlyLeftRecursive`) are the simplest
ones to find.
-/

section Acyclic

variable {α : Type*} {E : α → α → Prop}

lemma not_transGen_of_acc {a : α} (h : Acc (flip E) a) : ¬ Relation.TransGen E a a := by
  induction h with
  | intro a _ ih =>
    intro hcycle
    obtain ⟨b, hab, hba⟩ := Relation.TransGen.head'_iff.1 hcycle
    exact ih b hab (Relation.TransGen.tail' hba hab)

lemma acc_of_acyclic {F : Finset α} (hF : ∀ a b, E a b → a ∈ F) {a : α}
    (ha : ∀ b, Relation.ReflTransGen E a b → ¬ Relation.TransGen E b b) : Acc (flip E) a := by
  classical
  -- the number of points of `F` ahead of `a` decreases along every step
  induction hn : (F.filter (Relation.TransGen E a)).card using Nat.strong_induction_on
    generalizing a with
  | _ n ih =>
    subst hn
    refine Acc.intro a fun b hab => ?_
    have hab : E a b := hab
    by_cases hb : b ∈ F
    · refine ih _ ?_ (fun c hbc => ha c (hbc.head hab)) rfl
      refine Finset.card_lt_card (Finset.ssubset_iff_subset_ne.2 ⟨?_, fun heq => ?_⟩)
      · exact Finset.monotone_filter_right F fun c _ hbc => hbc.head hab
      · have hmem : b ∈ F.filter (Relation.TransGen E b) :=
          heq ▸ Finset.mem_filter.2 ⟨hb, .single hab⟩
        exact ha b (.single hab) (Finset.mem_filter.1 hmem).2
    · exact Acc.intro b fun c hbc => absurd (hF b c hbc) hb

end Acyclic

namespace ContextFreeGrammar

variable {T C : Type*} {g : ContextFreeGrammar T} {u v w : List (Symbol T g.NT)} {r q : g.NT}

/-! ## Left recursive nonterminals -/

/-- The nonterminal derives a form that begins with itself, by one step or more. -/
def LeftRecursive (g : ContextFreeGrammar T) (r : g.NT) : Prop :=
  ∃ x, Relation.TransGen g.Produces [.nonterminal r] (.nonterminal r :: x)

/-- The nonterminal derives the empty form. -/
def Nullable (g : ContextFreeGrammar T) (r : g.NT) : Prop :=
  g.Derives [.nonterminal r] []

/-- One of the outputs of the nonterminal is empty. -/
def DirectlyNullable (g : ContextFreeGrammar T) (r : g.NT) : Prop :=
  ⟨r, []⟩ ∈ g.rules

/-- `q` stands in the form `w` behind nonterminals with the property `P` only. -/
def LeadsTo (P : g.NT → Prop) (w : List (Symbol T g.NT)) (q : g.NT) : Prop :=
  ∃ (u : List g.NT) (v : List (Symbol T g.NT)),
    w = u.map .nonterminal ++ .nonterminal q :: v ∧ ∀ p ∈ u, P p

/-- `q` stands in an output of `r` behind nonterminals with the property `P` only. -/
def LeftEdge (g : ContextFreeGrammar T) (P : g.NT → Prop) (r q : g.NT) : Prop :=
  ∃ rule ∈ g.rules, rule.input = r ∧ LeadsTo P rule.output q

/-- The nonterminal leads to itself through nonterminals that have an empty output of their own. -/
def DirectlyLeftRecursive (g : ContextFreeGrammar T) (r : g.NT) : Prop :=
  Relation.TransGen (g.LeftEdge g.DirectlyNullable) r r

@[simp] lemma not_leadsTo_nil {P : g.NT → Prop} : ¬ LeadsTo (T := T) P [] q := by
  rintro ⟨us, v, h, -⟩
  simp at h

@[simp] lemma not_leadsTo_terminal {P : g.NT → Prop} {k : T} :
    ¬ LeadsTo P (.terminal k :: w) q := by
  rintro ⟨us, v, h, -⟩
  cases us <;> simp at h

lemma leadsTo_nonterminal_iff {P : g.NT → Prop} :
    LeadsTo P (.nonterminal r :: w) q ↔ q = r ∨ P r ∧ LeadsTo P w q := by
  constructor
  · rintro ⟨us, v, h, hus⟩
    cases us with
    | nil =>
      simp only [List.map_nil, List.nil_append, List.cons.injEq, Symbol.nonterminal.injEq] at h
      exact .inl h.1.symm
    | cons p us =>
      simp only [List.map_cons, List.cons_append, List.cons.injEq, Symbol.nonterminal.injEq] at h
      obtain ⟨rfl, rfl⟩ := h
      obtain ⟨hr, hus⟩ := List.forall_mem_cons.1 hus
      exact .inr ⟨hr, us, v, rfl, hus⟩
  · rintro (rfl | ⟨hr, us, v, rfl, hus⟩)
    · exact ⟨[], w, rfl, by simp⟩
    · exact ⟨r :: us, v, rfl, List.forall_mem_cons.2 ⟨hr, hus⟩⟩

lemma DirectlyNullable.nullable (h : g.DirectlyNullable r) : g.Nullable r :=
  (produces_nonterminal_iff.2 ⟨_, h, rfl, rfl⟩).single

lemma derives_nil_of_nullable {us : List g.NT} (h : ∀ p ∈ us, g.Nullable p) :
    g.Derives (us.map .nonterminal) [] := by
  induction us with
  | nil => exact .refl []
  | cons p us ih =>
    obtain ⟨hp, hus⟩ := List.forall_mem_cons.1 h
    exact Derives.append (u := [Symbol.nonterminal p]) hp (ih hus)

lemma LeftEdge.transGen {P : g.NT → Prop} (hP : ∀ p, P p → g.Nullable p) (h : g.LeftEdge P r q) :
    ∃ x, Relation.TransGen g.Produces [.nonterminal r] (.nonterminal q :: x) := by
  obtain ⟨rule, hrule, rfl, us, v, hout, hus⟩ := h
  have hstep : g.Produces [.nonterminal rule.input] rule.output :=
    produces_nonterminal_iff.2 ⟨rule, hrule, rfl, rfl⟩
  refine ⟨v, .head' hstep ?_⟩
  rw [hout]
  exact (derives_nil_of_nullable fun p hp => hP p (hus p hp)).append_right _

lemma transGen_of_leftEdges {P : g.NT → Prop} (hP : ∀ p, P p → g.Nullable p)
    (h : Relation.TransGen (g.LeftEdge P) r q) :
    ∃ x, Relation.TransGen g.Produces [.nonterminal r] (.nonterminal q :: x) := by
  induction h with
  | single h => exact h.transGen hP
  | tail _ h ih =>
    obtain ⟨x, hx⟩ := ih
    obtain ⟨y, hy⟩ := h.transGen hP
    exact ⟨y ++ x, hx.trans (hy.lift (· ++ x) fun _ _ hp => hp.append_right x)⟩

lemma derives_of_leftEdges {P : g.NT → Prop} (hP : ∀ p, P p → g.Nullable p)
    (h : Relation.ReflTransGen (g.LeftEdge P) r q) :
    ∃ x, g.Derives [.nonterminal r] (.nonterminal q :: x) := by
  obtain rfl | h := Relation.reflTransGen_iff_eq_or_transGen.1 h
  · exact ⟨[], .refl _⟩
  · obtain ⟨x, hx⟩ := transGen_of_leftEdges hP h
    exact ⟨x, hx.to_reflTransGen⟩

/-! ## Replacing the leading nonterminal -/

/-- `w` becomes `w'` when its leading nonterminal is replaced by one of its outputs. -/
def Expands (g : ContextFreeGrammar T) (w w' : List (Symbol T g.NT)) : Prop :=
  ∃ rule ∈ g.rules, ∃ v, w = .nonterminal rule.input :: v ∧ w' = rule.output ++ v

lemma acc_expands_nil : Acc (flip g.Expands) [] := by
  refine Acc.intro _ fun w hw => ?_
  obtain ⟨rule, -, v, hv, -⟩ := hw
  cases hv

lemma acc_expands_terminal {k : T} : Acc (flip g.Expands) (.terminal k :: v) := by
  refine Acc.intro _ fun w hw => ?_
  obtain ⟨rule, -, x, hx, -⟩ := hw
  cases hx

/-- The replacements above a form `v` come to an end, and those in `v` are only reached through
nullable nonterminals. -/
lemma acc_expands_nonterminal (hr : Acc (flip (g.LeftEdge g.Nullable)) r)
    (hv : g.Nullable r → Acc (flip g.Expands) v) : Acc (flip g.Expands) (.nonterminal r :: v) := by
  induction hr generalizing v with
  | intro r _ ih =>
    refine Acc.intro _ fun w hw => ?_
    obtain ⟨rule, hrule, v', hcons, rfl⟩ := hw
    obtain ⟨hr, rfl⟩ := List.cons.inj hcons
    obtain rfl := Symbol.nonterminal.inj hr
    -- what is left of the output stands behind nullable nonterminals
    suffices h : ∀ (y : List (Symbol T g.NT)) (us : List g.NT), (∀ p ∈ us, g.Nullable p) →
        rule.output = us.map .nonterminal ++ y → Acc (flip g.Expands) (y ++ v) from
      h rule.output [] (by simp) rfl
    intro y
    induction y with
    | nil =>
      intro us hus hout
      refine hv ?_
      rw [List.append_nil] at hout
      have hstep := produces_nonterminal_iff.2 ⟨rule, hrule, rfl, rfl⟩
      exact hstep.trans_derives (hout ▸ derives_nil_of_nullable hus)
    | cons a y ihy =>
      intro us hus hout
      cases a with
      | terminal k => exact acc_expands_terminal
      | nonterminal q =>
        refine ih q ⟨rule, hrule, rfl, us, y, hout, hus⟩ fun hq => ihy (us ++ [q]) ?_ ?_
        · intro p hp
          rcases List.mem_append.1 hp with hp | hp
          · exact hus p hp
          · exact List.mem_singleton.1 hp ▸ hq
        · rw [hout, List.map_append, List.append_assoc]
          rfl

/-- In front of a form that brings no left recursive nonterminal to its front, the replacements
come to an end. -/
theorem acc_expands (hw : ∀ q x, g.Derives w (.nonterminal q :: x) → ¬ g.LeftRecursive q) :
    Acc (flip g.Expands) w := by
  classical
  induction w with
  | nil => exact acc_expands_nil
  | cons a v ih =>
    cases a with
    | terminal k => exact acc_expands_terminal
    | nonterminal r =>
      have hedges : Acc (flip (g.LeftEdge g.Nullable)) r := by
        refine acc_of_acyclic (F := g.rules.image ContextFreeRule.input) ?_ fun q hrq hcycle => ?_
        · rintro a b ⟨rule, hrule, rfl, -⟩
          exact Finset.mem_image_of_mem _ hrule
        · obtain ⟨x, hx⟩ := derives_of_leftEdges (fun _ hp => hp) hrq
          exact hw q _ (hx.append_right v) (transGen_of_leftEdges (fun _ hp => hp) hcycle)
      refine acc_expands_nonterminal hedges fun hr => ih fun q x hx => hw q x ?_
      exact (Derives.append_right hr v).trans hx

/-! ## Left recursion in front of a recogniser -/

variable {sat : T → C → Prop}

theorem isResidual_derivesFront (hr : g.LeftRecursive r) :
    IsResidual g sat (g.DerivesFront sat r) := by
  refine isResidual_derivesThen fun q v _ hfront => ?_
  obtain ⟨y, hy⟩ := hfront
  obtain ⟨hq, rfl⟩ := List.cons.inj hy
  obtain rfl := Symbol.nonterminal.inj hq
  obtain ⟨x, hx⟩ := hr
  obtain ⟨z, hz, hzx⟩ := Relation.TransGen.head'_iff.1 hx
  obtain ⟨rule, hrule, hin, rfl⟩ := produces_nonterminal_iff.1 hz
  exact ⟨rule, hrule, hin, _, Derives.append_right hzx v, _, rfl⟩

end ContextFreeGrammar
