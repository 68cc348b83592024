import IFairy.Json.NotStrings

/-!
# Which keys the rule derives

A string of the names' alphabet is in the language of a node when the node accepts it (`Accepts`).
-/

namespace IFairy.JsonSchema

open LlamaGrammar ContextFreeGrammar

variable {refs : List Char → Prop}

/-! ## Strings of the alphabet -/

/-- A printable ASCII character other than the quote and the backslash. -/
def KeyChar (c : Char) : Prop := 0x20 ≤ c.toNat ∧ c.toNat ≤ 0x7e ∧ c ≠ '"' ∧ c ≠ '\\'

instance (c : Char) : Decidable (KeyChar c) := inferInstanceAs (Decidable (_ ∧ _ ∧ _ ∧ _))

/-- Among the strings of key characters the language has those with the property `P`. -/
def Agrees (L : Language ℕ) (P : List Char → Prop) : Prop :=
  ∀ t, (∀ c ∈ t, KeyChar c) → (t.map Char.toNat ∈ L ↔ P t)

section Agrees

variable {L M : Language ℕ} {P Q : List Char → Prop}

lemma Agrees.congr (h : Agrees L P) (hPQ : ∀ t, (∀ c ∈ t, KeyChar c) → (P t ↔ Q t)) :
    Agrees L Q := fun t ht => (h t ht).trans (hPQ t ht)

lemma agrees_zero : Agrees 0 fun _ => False := fun _ _ => Iff.rfl

lemma agrees_one : Agrees 1 fun t => t = [] := fun t _ => by
  rw [Language.mem_one, List.map_eq_nil_iff]

lemma Agrees.add (hL : Agrees L P) (hM : Agrees M Q) : Agrees (L + M) fun t => P t ∨ Q t :=
  fun t ht => by rw [Language.mem_add, hL t ht, hM t ht]

lemma Agrees.mul (hL : Agrees L P) (hM : Agrees M Q) :
    Agrees (L * M) fun t => ∃ t₁ t₂, t = t₁ ++ t₂ ∧ P t₁ ∧ Q t₂ := by
  intro t ht
  rw [Language.mem_mul]
  constructor
  · rintro ⟨s₁, h₁, s₂, h₂, heq⟩
    obtain ⟨t₁, t₂, rfl, rfl, rfl⟩ := List.map_eq_append_iff.1 heq.symm
    exact ⟨t₁, t₂, rfl, (hL t₁ fun c hc => ht c (List.mem_append_left _ hc)).1 h₁,
      (hM t₂ fun c hc => ht c (List.mem_append_right _ hc)).1 h₂⟩
  · rintro ⟨t₁, t₂, rfl, h₁, h₂⟩
    exact ⟨_, (hL t₁ fun c hc => ht c (List.mem_append_left _ hc)).2 h₁, _,
      (hM t₂ fun c hc => ht c (List.mem_append_right _ hc)).2 h₂, (List.map_append).symm⟩

lemma agrees_chars {f : ℕ → Prop} : Agrees (chars f) fun t => ∃ c, t = [c] ∧ f c.toNat := by
  intro t _
  rw [mem_chars]
  constructor
  · rintro ⟨d, hd, heq⟩
    obtain ⟨c, rfl, rfl⟩ := List.map_eq_singleton_iff.1 heq
    exact ⟨c, rfl, hd⟩
  · rintro ⟨c, rfl, hc⟩
    exact ⟨_, hc, rfl⟩

lemma Agrees.chars_mul {f : ℕ → Prop} (hL : Agrees L P) :
    Agrees (chars f * L) fun t => ∃ c t', t = c :: t' ∧ f c.toNat ∧ P t' := by
  refine (agrees_chars.mul hL).congr fun t _ => ?_
  constructor
  · rintro ⟨_, t', rfl, ⟨c, rfl, hc⟩, ht'⟩
    exact ⟨c, t', rfl, hc, ht'⟩
  · rintro ⟨c, t', rfl, hc, ht'⟩
    exact ⟨[c], t', rfl, ⟨c, rfl, hc⟩, ht'⟩

lemma agrees_charLang_pow (k : ℕ) : Agrees (charLang ^ k) fun t => t.length = k := by
  have hone : Agrees charLang fun t => t.length = 1 := by
    intro t ht
    constructor
    · intro h
      rcases length_of_mem_charLang h with h | h
      · rwa [List.length_map] at h
      · obtain ⟨c, hc, heq⟩ := List.mem_map.1 h
        have hback := (ht c hc).2.2.2
        exact absurd (Char.toNat_inj.1 (heq.trans (show 92 = '\\'.toNat from rfl))) hback
    · intro h
      obtain ⟨c, rfl⟩ := List.length_eq_one_iff.1 h
      obtain ⟨hlow, hhigh, hquote, hback⟩ := ht c (List.mem_singleton_self c)
      refine singleton_mem_charLang (by omega) (fun h => ?_) (fun h => ?_) (by omega)
      · exact hquote (Char.toNat_inj.1 (h.trans (show 34 = '"'.toNat from rfl)))
      · exact hback (Char.toNat_inj.1 (h.trans (show 92 = '\\'.toNat from rfl)))
  induction k with
  | zero =>
    rw [pow_zero]
    exact agrees_one.congr fun t _ => List.length_eq_zero_iff.symm
  | succ k ih =>
    rw [pow_succ']
    refine (hone.mul ih).congr fun t _ => ?_
    constructor
    · rintro ⟨t₁, t₂, rfl, h₁, h₂⟩
      rw [List.length_append, h₁, h₂, Nat.add_comm]
    · intro h
      obtain ⟨c, t', rfl⟩ := List.exists_cons_of_length_eq_add_one h
      exact ⟨[c], t', rfl, rfl, Nat.succ.inj h⟩

lemma agrees_charLang_powers (K : Set ℕ) : Agrees (powers charLang K) fun t => t.length ∈ K := by
  intro t ht
  constructor
  · rintro ⟨k, hk, hs⟩
    rw [agrees_charLang_pow k t ht] at hs
    rwa [hs]
  · exact fun h => ⟨_, h, (agrees_charLang_pow _ t ht).2 rfl⟩

end Agrees

/-! ## The language of a node -/

/-- The name of the rule for one character. -/
def charName : List Char := "char".toList

lemma isWordChar_charName : ∀ c ∈ charName, isWordChar c = true := List.all_eq_true.1 rfl

lemma scans_charName (href : refs charName) : Scans refs true charName fun env => env charName :=
  scans_name (List.cons_ne_nil _ _) isWordChar_charName href

lemma noSpace_charName (text : List Char) : NoSpace (charName ++ text) :=
  noSpace_of_head (by decide) _

namespace TrieNode

/-- A class without a character, such as `[^]`, is no class. -/
inductive Accepts : TrieNode → List Char → Prop
  | child {e : Bool} {children : List (Char × TrieNode)} {c : Char} {n : TrieNode}
      {t : List Char} : (c, n) ∈ children → c ≠ '^' → n.Accepts t → Accepts (.node e children) (c :: t)
  | caret {e : Bool} {children : List (Char × TrieNode)} {n : TrieNode} {t : List Char} :
      ('^', n) ∈ children → n.Accepts t → Accepts (.node e children) t
  | other {e : Bool} {children : List (Char × TrieNode)} {c : Char} {t : List Char} :
      children ≠ [] → ¬ClassHas ('"' :: children.map Prod.fst) c.toNat →
      Accepts (.node e children) (c :: t)
  | behind {c : Char} {t : List Char} : Accepts (.node true []) (c :: t)
  | leaf : Accepts (.node false []) []

/-- A node below the character `c` accepts a string, after this character. -/
def AcceptsBehind (x : Char × TrieNode) (t : List Char) : Prop :=
  (x.1 ≠ '^' ∧ ∃ t', t = x.1 :: t' ∧ x.2.Accepts t') ∨ (x.1 = '^' ∧ x.2.Accepts t)

/-- A text that stands for the strings with the property `P`, wherever `char` is the rule of that
name. -/
def StandsFor (F : Meaning → Language ℕ) (P : List Char → Prop) : Prop :=
  ∀ env : Meaning, env charName = charLang → Agrees (F env) P

variable {p : Char → Prop} {n : TrieNode}

lemma accepts_behind {t : List Char} : Accepts (.node true []) t ↔ t ≠ [] := by
  constructor
  · rintro (⟨h, -, -⟩ | ⟨h, -⟩ | ⟨h, -⟩ | _) h'
    · cases h
    · cases h
    · exact absurd rfl h
    · cases h'
  · intro h
    obtain ⟨c, t, rfl⟩ := List.exists_cons_of_ne_nil h
    exact .behind

lemma scans_bracket {c : Char} (hc : KeyChar c) (hclose : c ≠ ']') :
    ∃ G : Language ℕ, Scans refs false ['[', c, ']'] (fun _ => G) ∧
      ∀ (L : Language ℕ) (P : List Char → Prop), Agrees L P → Agrees (G * L) fun t =>
        (c ≠ '^' ∧ ∃ t', t = c :: t' ∧ P t') ∨ (c = '^' ∧ P t) := by
  by_cases hcaret : c = '^'
  · subst hcaret
    refine ⟨1, scans_inverse_empty, fun L P hL => ?_⟩
    rw [one_mul]
    exact hL.congr fun t _ => by simp
  · have hscan : Scans refs true ['[', c, ']'] fun _ => chars (ClassHas [c]) :=
      scans_plainClass (List.cons_ne_nil c [])
        (fun d hd => by
          obtain rfl := List.mem_singleton.1 hd
          exact ⟨hclose, hc.2.2.2⟩)
        fun h => hcaret (Option.some.inj h)
    refine ⟨_, hscan.of_single, fun L P hL => hL.chars_mul.congr fun t _ => ?_⟩
    have hhas : ∀ d : Char, ClassHas [c] d.toNat ↔ d = c := by
      intro d
      simp only [ClassHas, classItems, List.mem_singleton, exists_eq_left, ItemHas, Option.getD_none]
      rw [← Char.toNat_inj]
      omega
    simp only [hhas, hcaret, ne_eq, not_false_eq_true, true_and, false_and, or_false]
    constructor
    · rintro ⟨d, t', rfl, rfl, h⟩
      exact ⟨t', rfl, h⟩
    · rintro ⟨t', rfl, h⟩
      exact ⟨c, t', rfl, rfl, h⟩

def childText (x : Char × TrieNode) : List Char :=
  '[' :: x.1 :: ']' ::
    (if !x.2.children.isEmpty then ' ' :: '(' :: (visit charName x.2 ++ [')'])
    else if x.2.isEndOfString then ' ' :: (charName ++ ['+'])
    else [])

/-- The alternate for the other characters. -/
def otherText (children : List (Char × TrieNode)) : List Char :=
  '[' :: '^' :: ('"' :: children.map Prod.fst ++ [']']) ++ ' ' :: (charName ++ ['*'])

lemma visitChildren_eq (children : List (Char × TrieNode)) :
    visitChildren charName children = children.map childText := by
  induction children with
  | nil => rfl
  | cons x children ih =>
    rw [visitChildren, ih]
    rfl

lemma visit_eq {e : Bool} {children : List (Char × TrieNode)} (hne : children ≠ []) :
    visit charName (.node e children) =
      joinAlts (children.map childText ++ [otherText children]) := by
  rw [visit, visitChildren_eq, rejects, if_neg (by simpa using hne)]
  rfl

def Readable (refs : List Char → Prop) (n : TrieNode) : Prop :=
  n.children ≠ [] → ∃ F, ScansAlts refs true (n.visit charName) F ∧ StandsFor F n.Accepts

lemma scans_childText (href : refs charName) {c : Char} (hc : KeyChar c) (hclose : c ≠ ']')
    (hn : Readable refs n) (hhas : ∃ s, n.Has s) :
    ∃ F, Scans refs false (childText (c, n)) F ∧ StandsFor F (AcceptsBehind (c, n)) := by
  obtain ⟨G, hbracket, hG⟩ : ∃ G : Language ℕ,
      Scans refs false ['[', c, ']'] (fun _ => G) ∧ _ := scans_bracket hc hclose
  obtain ⟨e, children⟩ := n
  cases children with
  | nil =>
    obtain ⟨s, hs⟩ := hhas
    have hend : e = true := by
      cases s with
      | nil => exact hs
      | cons d s => exact absurd hs.choose_spec.1 List.not_mem_nil
    subst hend
    have hplus := (scans_charName href).repeat readsOperator_plus trivial
    have hall := hbracket.append hplus (noSpace_charName _) (List.cons_ne_nil ' ' [])
      fun _ => mem_blank
    refine ⟨_, hall, fun env henv => hG _ _ ?_⟩
    rw [henv]
    refine (agrees_charLang_powers _).congr fun t _ => ?_
    rw [accepts_behind]
    exact List.length_pos_iff
  | cons x children =>
    obtain ⟨F, hscan, hF⟩ := hn (List.cons_ne_nil x children)
    have hall := hbracket.append hscan.group (noSpace_of_head (by decide) _)
      (List.cons_ne_nil ' ' []) fun _ => mem_blank
    exact ⟨_, hall, fun env henv => hG _ _ (hF env henv)⟩

lemma scans_childTexts (href : refs charName) {children : List (Char × TrieNode)}
    (h : ∀ x ∈ children, KeyChar x.1 ∧ x.1 ≠ ']' ∧ Readable refs x.2 ∧ ∃ s, x.2.Has s) :
    ∃ alts : List (List Char × (Meaning → Language ℕ)),
      alts.map Prod.fst = children.map childText ∧
      (∀ a ∈ alts, NoSpace a.1 ∧ Scans refs false a.1 a.2) ∧
      StandsFor (fun env => (alts.map fun a => a.2 env).sum)
        fun t => ∃ x ∈ children, AcceptsBehind x t := by
  induction children with
  | nil =>
    refine ⟨[], rfl, fun a ha => absurd ha List.not_mem_nil, fun env _ => ?_⟩
    exact agrees_zero.congr fun t _ => by simp
  | cons x children ih =>
    obtain ⟨alts, htexts, hscans, hsum⟩ := ih fun y hy => h y (List.mem_cons_of_mem x hy)
    obtain ⟨c, n⟩ := x
    obtain ⟨hc, hclose, hn, hhas⟩ := h _ List.mem_cons_self
    obtain ⟨F, hF, hstands⟩ := scans_childText href hc hclose hn hhas
    refine ⟨(childText (c, n), F) :: alts, ?_, ?_, fun env henv => ?_⟩
    · rw [List.map_cons, htexts, List.map_cons]
    · intro a ha
      rcases List.mem_cons.1 ha with rfl | ha
      · exact ⟨noSpace_of_head (by decide) _, hF⟩
      · exact hscans a ha
    · simp only [List.map_cons, List.sum_cons]
      exact ((hstands env henv).add (hsum env henv)).congr fun t _ => by
        simp only [List.mem_cons, exists_eq_or_imp]

lemma scans_otherText (href : refs charName) {children : List (Char × TrieNode)}
    (h : ∀ x ∈ children, KeyChar x.1 ∧ x.1 ≠ ']') :
    ∃ F, Scans refs false (otherText children) F ∧
      StandsFor F fun t => ∃ c t', t = c :: t' ∧
        ¬ClassHas ('"' :: children.map Prod.fst) c.toNat := by
  have hclass : Scans refs true _ _ := scans_plainInverse (List.cons_ne_nil '"' _) fun c hc => by
    rcases List.mem_cons.1 hc with rfl | hc
    · decide
    · obtain ⟨x, hx, rfl⟩ := List.mem_map.1 hc
      exact ⟨(h x hx).2, (h x hx).1.2.2.2⟩
  have hstar := (scans_charName href).repeat readsOperator_star trivial
  have hall := hclass.append hstar (noSpace_charName _) (List.cons_ne_nil ' ' []) fun _ => mem_blank
  refine ⟨_, by simpa [otherText] using hall, fun env henv => ?_⟩
  rw [henv]
  refine (agrees_charLang_powers _).chars_mul.congr fun t _ => ?_
  constructor
  · rintro ⟨c, t', rfl, hc, -⟩
    exact ⟨c, t', rfl, hc⟩
  · rintro ⟨c, t', rfl, hc⟩
    exact ⟨c, t', rfl, hc, trivial⟩

lemma WellFormed.readable (href : refs charName) (hp : ∀ c, p c → KeyChar c ∧ c ≠ ']')
    (h : WellFormed p n) : Readable refs n := by
  induction h with
  | @node e children hsorted hkeys hhas hchildren ih =>
    intro (hne : children ≠ [])
    obtain ⟨alts, htexts, hscans, hsum⟩ := scans_childTexts href fun x hx =>
      ⟨(hp x.1 (hkeys x hx)).1, (hp x.1 (hkeys x hx)).2, ih x hx, hhas x hx⟩
    obtain ⟨F, hF, hother⟩ := scans_otherText href fun x hx => hp x.1 (hkeys x hx)
    have hall : ∀ a ∈ alts ++ [(otherText children, F)], NoSpace a.1 ∧ Scans refs false a.1 a.2 := fun a ha => by
      rcases List.mem_append.1 ha with ha | ha
      · exact hscans a ha
      · obtain rfl := List.mem_singleton.1 ha
        exact ⟨noSpace_of_head (by decide) _, hF⟩
    have hjoin := scansAlts_join true (by simp) hall
    refine ⟨fun env => ((alts ++ [(otherText children, F)]).map fun a => a.2 env).sum, ?_, fun env henv => ?_⟩
    · rw [List.map_append, htexts] at hjoin
      rw [visit_eq hne]
      exact hjoin
    · simp only [List.map_append, List.sum_append, List.map_singleton, List.sum_singleton]
      refine ((hsum env henv).add (hother env henv)).congr fun t _ => ?_
      constructor
      · rintro (⟨⟨c, n⟩, hx, ⟨hc, t', rfl, ht'⟩ | ⟨rfl, ht'⟩⟩ | ⟨c, t', rfl, hc⟩)
        · exact .child hx hc ht'
        · exact .caret hx ht'
        · exact .other hne hc
      · rintro (⟨hx, hc, ht'⟩ | ⟨hx, ht'⟩ | ⟨-, hc⟩ | _)
        · exact .inl ⟨_, hx, .inl ⟨hc, _, rfl, ht'⟩⟩
        · exact .inl ⟨_, hx, .inr ⟨rfl, ht'⟩⟩
        · exact .inr ⟨_, _, rfl, hc⟩
        · exact absurd rfl hne
        · exact absurd rfl hne

end TrieNode

end IFairy.JsonSchema
