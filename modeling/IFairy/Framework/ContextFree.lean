import Mathlib.Computability.ContextFreeGrammar

/-!
# Sentential forms read from the left

A recogniser that works from the left never sees a derivation, only the sentential form in front
of it: it replaces a leading nonterminal by one of its outputs and checks a leading terminal
against the next character.  The terminals are classes of characters, and `sat k c` says that the
class `k` has the character `c`.  `DerivesString` and `DerivesPrefix` say which strings, and which
beginnings of strings, a sentential form derives.  Both are residual properties
(`IsResidual`): they can be followed through the replacements and the checks alone, and that is
all a recogniser has to know about them.
-/

namespace ContextFreeGrammar

variable {T C : Type*} {g : ContextFreeGrammar T} {u v w : List (Symbol T g.NT)}

/-! ## Derivations split at an append -/

lemma Produces.append_cases {x : List (Symbol T g.NT)} (h : g.Produces (u ++ v) x) :
    (∃ u', x = u' ++ v ∧ g.Produces u u') ∨ ∃ v', x = u ++ v' ∧ g.Produces v v' := by
  obtain ⟨rule, hrule, hrw⟩ := h
  obtain ⟨p, q, hpq, rfl⟩ := hrw.exists_parts
  rw [List.append_assoc, List.append_eq_append_iff] at hpq
  obtain ⟨d, rfl, hd⟩ | ⟨d, rfl, hd⟩ := hpq
  · -- the replaced nonterminal is in the second part
    refine .inr ⟨d ++ rule.output ++ q, by simp, rule, hrule, ?_⟩
    rw [hd, ← List.append_assoc]
    exact rule.rewrites_of_exists_parts d q
  · cases d with
    | nil =>
      refine .inr ⟨rule.output ++ q, by simp, rule, hrule, ?_⟩
      rw [List.nil_append] at hd
      rw [← hd]
      exact rule.rewrites_of_exists_parts [] q
    | cons a d =>
      obtain ⟨rfl, rfl⟩ := List.cons.inj hd
      refine .inl ⟨p ++ rule.output ++ d, by simp, rule, hrule, ?_⟩
      simpa using rule.rewrites_of_exists_parts p d

lemma Derives.exists_append {x : List (Symbol T g.NT)} (h : g.Derives (u ++ v) x) :
    ∃ y z, x = y ++ z ∧ g.Derives u y ∧ g.Derives v z := by
  induction h with
  | refl => exact ⟨u, v, rfl, .refl u, .refl v⟩
  | tail _ hstep ih =>
    obtain ⟨y, z, rfl, hy, hz⟩ := ih
    obtain ⟨y', rfl, hy'⟩ | ⟨z', rfl, hz'⟩ := hstep.append_cases
    · exact ⟨y', z, rfl, hy.tail hy', hz⟩
    · exact ⟨y, z', rfl, hy, hz.tail hz'⟩

lemma Derives.append {u' v' : List (Symbol T g.NT)} (hu : g.Derives u u') (hv : g.Derives v v') :
    g.Derives (u ++ v) (u' ++ v') :=
  (hu.append_right v).trans (hv.append_left u')

lemma Produces.not_nil : ¬ g.Produces [] v := by
  rintro ⟨rule, -, hrw⟩
  simpa using hrw.nonterminal_input_mem

lemma Produces.not_terminal {k : T} : ¬ g.Produces [.terminal k] v := by
  rintro ⟨rule, -, hrw⟩
  simpa using hrw.nonterminal_input_mem

@[simp] lemma derives_nil_iff : g.Derives [] v ↔ v = [] := by
  constructor
  · intro h
    obtain rfl | ⟨w, hw, -⟩ := h.eq_or_head
    · rfl
    · exact absurd hw Produces.not_nil
  · rintro rfl
    exact .refl []

lemma derives_terminal_cons_iff {k : T} :
    g.Derives (.terminal k :: v) w ↔ ∃ w', w = .terminal k :: w' ∧ g.Derives v w' := by
  constructor
  · intro h
    obtain ⟨y, z, rfl, hy, hz⟩ := Derives.exists_append (u := [Symbol.terminal k]) h
    obtain rfl | ⟨x, hx, -⟩ := hy.eq_or_head
    · exact ⟨z, rfl, hz⟩
    · exact absurd hx Produces.not_terminal
  · rintro ⟨w', rfl, h⟩
    exact h.append_left [Symbol.terminal k]

lemma produces_nonterminal_iff {r : g.NT} :
    g.Produces [.nonterminal r] v ↔ ∃ rule ∈ g.rules, rule.input = r ∧ rule.output = v := by
  constructor
  · rintro ⟨rule, hrule, hrw⟩
    obtain ⟨p, q, hpq, rfl⟩ := hrw.exists_parts
    have hp : p = [] := by
      cases p with
      | nil => rfl
      | cons a p => simp at hpq
    subst hp
    simp only [List.nil_append, List.singleton_append, List.cons.injEq, Symbol.nonterminal.injEq]
      at hpq
    obtain ⟨rfl, rfl⟩ := hpq
    exact ⟨rule, hrule, rfl, by simp⟩
  · rintro ⟨rule, hrule, rfl, rfl⟩
    exact ⟨rule, hrule, .input_output⟩

lemma produces_head {rule : ContextFreeRule T g.NT} (hrule : rule ∈ g.rules)
    (v : List (Symbol T g.NT)) :
    g.Produces (.nonterminal rule.input :: v) (rule.output ++ v) :=
  Produces.append_right (v := [Symbol.nonterminal rule.input])
    (produces_nonterminal_iff.2 ⟨rule, hrule, rfl, rfl⟩) v

lemma Derives.nonterminal_cons {r : g.NT} (h : g.Derives (.nonterminal r :: v) w) :
    (∃ v', w = .nonterminal r :: v' ∧ g.Derives v v') ∨
      ∃ rule ∈ g.rules, rule.input = r ∧ g.Derives (rule.output ++ v) w := by
  obtain ⟨y, z, rfl, hy, hz⟩ := Derives.exists_append (u := [Symbol.nonterminal r]) h
  obtain rfl | ⟨x, hx, hxy⟩ := hy.eq_or_head
  · exact .inl ⟨z, rfl, hz⟩
  · obtain ⟨rule, hrule, rfl, rfl⟩ := produces_nonterminal_iff.1 hx
    exact .inr ⟨rule, hrule, rfl, hxy.append hz⟩

/-! ## Strings of characters -/

/-- The sentential form derives classes the characters of `s` belong to, followed by a form with
the property `E`. -/
def DerivesThen (g : ContextFreeGrammar T) (sat : T → C → Prop)
    (E : List (Symbol T g.NT) → Prop) (w : List (Symbol T g.NT)) (s : List C) : Prop :=
  ∃ ks x, g.Derives w (ks.map .terminal ++ x) ∧ List.Forall₂ sat ks s ∧ E x

/-- The sentential form derives a string of classes that the characters of `s` belong to. -/
def DerivesString (g : ContextFreeGrammar T) (sat : T → C → Prop) : List (Symbol T g.NT) →
    List C → Prop :=
  g.DerivesThen sat fun x => x = []

/-- The sentential form derives a form that begins with classes the characters of `s` belong to. -/
def DerivesPrefix (g : ContextFreeGrammar T) (sat : T → C → Prop) : List (Symbol T g.NT) →
    List C → Prop :=
  g.DerivesThen sat fun _ => True

/-- After the characters of `s`, the sentential form can bring the nonterminal `r` to the front. -/
def DerivesFront (g : ContextFreeGrammar T) (sat : T → C → Prop) (r : g.NT) :
    List (Symbol T g.NT) → List C → Prop :=
  g.DerivesThen sat fun x => ∃ y, x = .nonterminal r :: y

/-- A property of the sentential form in front of a recogniser and of the characters to come that
can be followed from the left. -/
structure IsResidual (g : ContextFreeGrammar T) (sat : T → C → Prop)
    (Q : List (Symbol T g.NT) → List C → Prop) : Prop where
  expand : ∀ {r v s}, (∃ rule ∈ g.rules, rule.input = r) →
    (Q (.nonterminal r :: v) s ↔ ∃ rule ∈ g.rules, rule.input = r ∧ Q (rule.output ++ v) s)
  read : ∀ {k v c s}, Q (.terminal k :: v) (c :: s) ↔ sat k c ∧ Q v s
  done : ∀ {c s}, ¬ Q [] (c :: s)

variable {sat : T → C → Prop} {s : List C}

/-- What a form derives can be followed from the left if the property at the end does not depend
on a leading nonterminal being left alone. -/
theorem isResidual_derivesThen {E : List (Symbol T g.NT) → Prop}
    (hE : ∀ r v, (∃ rule ∈ g.rules, rule.input = r) → E (.nonterminal r :: v) →
      ∃ rule ∈ g.rules, rule.input = r ∧ ∃ x, g.Derives (rule.output ++ v) x ∧ E x) :
    IsResidual g sat (g.DerivesThen sat E) where
  expand := by
    intro r v s hr
    constructor
    · rintro ⟨ks, x, h, hks, hx⟩
      obtain ⟨v', hv', hv⟩ | ⟨rule, hrule, hin, h'⟩ := h.nonterminal_cons
      · cases ks with
        | cons k ks => simp at hv'
        | nil =>
          -- nothing was read yet, and the nonterminal is still in front
          rw [List.map_nil, List.nil_append] at hv'
          obtain ⟨rule, hrule, hin, y, hy, hEy⟩ := hE r v' hr (hv' ▸ hx)
          exact ⟨rule, hrule, hin, [], y, (hv.append_left _).trans hy, hks, hEy⟩
      · exact ⟨rule, hrule, hin, ks, x, h', hks, hx⟩
    · rintro ⟨rule, hrule, rfl, ks, x, h, hks, hx⟩
      exact ⟨ks, x, (produces_head hrule v).trans_derives h, hks, hx⟩
  read := by
    intro k v c s
    constructor
    · rintro ⟨ks, x, h, hks, hx⟩
      obtain ⟨w', hw', hv⟩ := derives_terminal_cons_iff.1 h
      cases hks with
      | cons hsat hks =>
        simp only [List.map_cons, List.cons_append, List.cons.injEq, Symbol.terminal.injEq] at hw'
        obtain ⟨rfl, rfl⟩ := hw'
        exact ⟨hsat, _, x, hv, hks, hx⟩
    · rintro ⟨hsat, ks, x, h, hks, hx⟩
      exact ⟨k :: ks, x, h.append_left [Symbol.terminal k], .cons hsat hks, hx⟩
  done := by
    rintro c s ⟨ks, x, h, hks, -⟩
    rw [derives_nil_iff, List.append_eq_nil_iff, List.map_eq_nil_iff] at h
    obtain ⟨rfl, -⟩ := h
    cases hks

theorem isResidual_derivesString : IsResidual g sat (g.DerivesString sat) :=
  isResidual_derivesThen fun _ _ _ h => by simp at h

theorem isResidual_derivesPrefix : IsResidual g sat (g.DerivesPrefix sat) :=
  isResidual_derivesThen fun _ v ⟨rule, hrule, hin⟩ _ =>
    ⟨rule, hrule, hin, rule.output ++ v, .refl _, trivial⟩

lemma derivesString_iff : g.DerivesString sat w s ↔
    ∃ ks, g.Derives w (ks.map .terminal) ∧ List.Forall₂ sat ks s := by
  constructor
  · rintro ⟨ks, x, h, hks, rfl⟩
    rw [List.append_nil] at h
    exact ⟨ks, h, hks⟩
  · rintro ⟨ks, h, hks⟩
    exact ⟨ks, [], by rwa [List.append_nil], hks, rfl⟩

/-- A form that was read to the end has a property after no character exactly if it derives a form
that has it. -/
lemma derivesThen_nil {E : List (Symbol T g.NT) → Prop} :
    g.DerivesThen sat E w [] ↔ ∃ x, g.Derives w x ∧ E x := by
  constructor
  · rintro ⟨ks, x, h, hks, hx⟩
    obtain rfl := List.forall₂_nil_right_iff.1 hks
    exact ⟨x, h, hx⟩
  · rintro ⟨x, h, hx⟩
    exact ⟨[], x, h, .nil, hx⟩

lemma derivesString_nil : g.DerivesString sat [] [] :=
  derivesThen_nil.2 ⟨[], .refl [], rfl⟩

lemma not_derivesString_terminal_nil {k : T} : ¬ g.DerivesString sat (.terminal k :: v) [] := by
  intro hnil
  obtain ⟨x, h, rfl⟩ := derivesThen_nil.1 hnil
  obtain ⟨w', hw', -⟩ := derives_terminal_cons_iff.1 h
  cases hw'

@[simp] lemma derivesPrefix_nil_right : g.DerivesPrefix sat w [] :=
  derivesThen_nil.2 ⟨w, .refl w, trivial⟩

/-! ## Productive grammars -/

lemma derivesString_append_iff :
    g.DerivesString sat (u ++ v) s ↔
      ∃ s₁ s₂, s = s₁ ++ s₂ ∧ g.DerivesString sat u s₁ ∧ g.DerivesString sat v s₂ := by
  constructor
  · intro h
    obtain ⟨ks, h, hks⟩ := derivesString_iff.1 h
    obtain ⟨y, z, hyz, hy, hz⟩ := h.exists_append
    obtain ⟨ks₁, ks₂, rfl, rfl, rfl⟩ := List.map_eq_append_iff.1 hyz
    obtain ⟨s₁, s₂, h₁, h₂, rfl⟩ : ∃ s₁ s₂, List.Forall₂ sat ks₁ s₁ ∧ List.Forall₂ sat ks₂ s₂ ∧
        s = s₁ ++ s₂ := by
      refine ⟨s.take ks₁.length, s.drop ks₁.length, ?_, ?_, (List.take_append_drop _ s).symm⟩
      · simpa using List.forall₂_take ks₁.length hks
      · simpa using List.forall₂_drop ks₁.length hks
    exact ⟨s₁, s₂, rfl, derivesString_iff.2 ⟨ks₁, hy, h₁⟩, derivesString_iff.2 ⟨ks₂, hz, h₂⟩⟩
  · rintro ⟨s₁, s₂, rfl, hs₁, hs₂⟩
    obtain ⟨ks₁, hu, h₁⟩ := derivesString_iff.1 hs₁
    obtain ⟨ks₂, hv, h₂⟩ := derivesString_iff.1 hs₂
    refine derivesString_iff.2 ⟨ks₁ ++ ks₂, ?_, List.rel_append h₁ h₂⟩
    rw [List.map_append]
    exact hu.append hv

/-- Every output derives a string. -/
def Productive (g : ContextFreeGrammar T) (sat : T → C → Prop) : Prop :=
  ∀ rule ∈ g.rules, ∃ s, g.DerivesString sat rule.output s

lemma Productive.of_derives (hg : g.Productive sat) (hu : ∃ s, g.DerivesString sat u s)
    (h : g.Derives u v) : ∃ s, g.DerivesString sat v s := by
  induction h with
  | refl => exact hu
  | tail _ hstep ih =>
    obtain ⟨s, hs⟩ := ih
    obtain ⟨rule, hrule, hrw⟩ := hstep
    obtain ⟨p, q, rfl, rfl⟩ := hrw.exists_parts
    obtain ⟨s₁, s₂, -, h₁, hq⟩ := derivesString_append_iff.1 hs
    obtain ⟨s₃, -, -, hp, -⟩ := derivesString_append_iff.1 h₁
    obtain ⟨t, ht⟩ := hg rule hrule
    exact ⟨s₃ ++ t ++ s₂, derivesString_append_iff.2
      ⟨_, _, rfl, derivesString_append_iff.2 ⟨_, _, rfl, hp, ht⟩, hq⟩⟩

lemma Productive.derivesPrefix_iff (hg : g.Productive sat) (hw : ∃ t, g.DerivesString sat w t) :
    g.DerivesPrefix sat w s ↔ ∃ t, g.DerivesString sat w (s ++ t) := by
  constructor
  · rintro ⟨ks, x, h, hks, -⟩
    obtain ⟨t', ht'⟩ := hg.of_derives hw h
    obtain ⟨-, t, -, -, hxt⟩ := derivesString_append_iff.1 ht'
    obtain ⟨ks', hx, hks'⟩ := derivesString_iff.1 hxt
    refine ⟨t, derivesString_iff.2 ⟨ks ++ ks', ?_, List.rel_append hks hks'⟩⟩
    rw [List.map_append]
    exact h.trans (hx.append_left _)
  · rintro ⟨t, ht⟩
    obtain ⟨ks, h, hks⟩ := derivesString_iff.1 ht
    refine ⟨ks.take s.length, (ks.drop s.length).map .terminal, ?_, ?_, trivial⟩
    · rwa [← List.map_append, List.take_append_drop]
    · simpa using List.forall₂_take s.length hks

end ContextFreeGrammar
