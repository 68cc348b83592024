import IFairy.Json.Pattern

/-!
# What a pattern matches

Regular expressions as they are written (`Pattern.render`) and what they match (`Pattern.lang`):
letters and digits, escaped metacharacters, the dot, classes, groups, alternatives and quantifiers.
The languages of a grammar are over numbers; one of them spells a language over characters if both
have the same strings of characters (`Spells`).
-/

namespace IFairy.JsonSchema

open LlamaGrammar ContextFreeGrammar

/-! ## Strings of characters -/

/-- The strings of a language, so often that `k ∈ K`. -/
def repeated (P : Language Char) (K : Set ℕ) : Language Char := {t | ∃ k ∈ K, t ∈ P ^ k}

/-- One character with the property `f`. -/
def oneChar (f : Char → Prop) : Language Char := {t | ∃ c, t = [c] ∧ f c}

/-- Among the strings of characters the language has those of `P`. -/
def Spells (L : Language ℕ) (P : Language Char) : Prop := ∀ t, t.map Char.toNat ∈ L ↔ t ∈ P

section Spells

variable {L M : Language ℕ} {P Q : Language Char}

lemma spells_zero : Spells 0 0 := fun _ => Iff.rfl

lemma map_toNat_injective : Function.Injective (List.map Char.toNat) :=
  List.map_injective_iff.2 fun _ _ h => Char.toNat_inj.1 h

lemma spells_singleton (v : List Char) : Spells {v.map Char.toNat} {v} := fun _ =>
  map_toNat_injective.eq_iff

lemma spells_one : Spells 1 1 := spells_singleton []

lemma spells_chars {f : ℕ → Prop} : Spells (chars f) (oneChar fun c => f c.toNat) := by
  intro t
  rw [mem_chars]
  constructor
  · rintro ⟨d, hd, heq⟩
    obtain ⟨c, rfl, rfl⟩ := List.map_eq_singleton_iff.1 heq
    exact ⟨c, rfl, hd⟩
  · rintro ⟨c, rfl, hc⟩
    exact ⟨_, hc, rfl⟩

lemma Spells.add (hL : Spells L P) (hM : Spells M Q) : Spells (L + M) (P + Q) := fun t => by
  rw [Language.mem_add, hL t, hM t, Language.mem_add]

lemma Spells.mul (hL : Spells L P) (hM : Spells M Q) : Spells (L * M) (P * Q) := by
  intro t
  rw [Language.mem_mul, Language.mem_mul]
  constructor
  · rintro ⟨s₁, h₁, s₂, h₂, heq⟩
    obtain ⟨t₁, t₂, rfl, rfl, rfl⟩ := List.map_eq_append_iff.1 heq.symm
    exact ⟨t₁, (hL t₁).1 h₁, t₂, (hM t₂).1 h₂, rfl⟩
  · rintro ⟨t₁, h₁, t₂, h₂, rfl⟩
    exact ⟨_, (hL t₁).2 h₁, _, (hM t₂).2 h₂, List.map_append.symm⟩

lemma Spells.pow (hL : Spells L P) (k : ℕ) : Spells (L ^ k) (P ^ k) := by
  induction k with
  | zero =>
    rw [pow_zero, pow_zero]
    exact spells_one
  | succ k ih =>
    rw [pow_succ, pow_succ]
    exact ih.mul hL

lemma Spells.powers (hL : Spells L P) (K : Set ℕ) : Spells (powers L K) (repeated P K) := by
  intro t
  constructor
  · rintro ⟨k, hk, h⟩
    exact ⟨k, hk, (hL.pow k t).1 h⟩
  · rintro ⟨k, hk, h⟩
    exact ⟨k, hk, (hL.pow k t).2 h⟩

end Spells

/-! ## Patterns -/

/-- A letter or a digit. -/
abbrev Alnum := {c : Char // c.isAlphanum = true}

/-- A character with a meaning of its own in patterns. -/
abbrev Metachar :=
  {c : Char // c ∈ ['^', '$', '\\', '.', '*', '+', '?', '(', ')', '[', ']', '\x7b', '\x7d', '|']}

/-- A character or a range of a class. -/
inductive ClassItem where
  | char (c : Alnum)
  | range (low high : Alnum) (h : low.1.toNat ≤ high.1.toNat)

/-- What a pattern is made of, less the groups. -/
inductive Leaf where
  | char (c : Alnum)
  | escape (c : Metachar)
  | dot
  | cls (item : ClassItem) (items : List ClassItem)

/-- `m` is not above `n`. -/
def Ordered : RepeatOp → Prop
  | .between m n => m ≤ n
  | _ => True

/-- A quantifier. -/
abbrev Quantifier := {op : RepeatOp // Ordered op}

/-- What follows, from left to right. -/
inductive Pattern where
  | nil
  | bar (rest : Pattern)
  | leaf (a : Leaf) (q : Option Quantifier) (rest : Pattern)
  | group (body : Pattern) (q : Option Quantifier) (rest : Pattern)

/-! ### As they are written -/

namespace ClassItem

def render : ClassItem → List Char
  | char c => [c.1]
  | range low high _ => [low.1, '-', high.1]

def Has : ClassItem → Char → Prop
  | char c, d => d = c.1
  | range low high _, d => low.1.toNat ≤ d.toNat ∧ d.toNat ≤ high.1.toNat

/-- The item, as the parser of grammars has it. -/
def toItem : ClassItem → ℕ × Option ℕ
  | char c => (c.1.toNat, none)
  | range low high _ => (low.1.toNat, some high.1.toNat)

end ClassItem

def quantifierText : RepeatOp → List Char
  | .star => ['*']
  | .plus => ['+']
  | .opt => ['?']
  | .exactly m => '\x7b' :: (numeral m ++ ['\x7d'])
  | .atLeast m => '\x7b' :: (numeral m ++ [',', '\x7d'])
  | .between m n => '\x7b' :: (numeral m ++ ',' :: (numeral n ++ ['\x7d']))

/-- The text of a quantifier, if there is one. -/
def quantified : Option Quantifier → List Char
  | none => []
  | some q => quantifierText q.1

def Leaf.render : Leaf → List Char
  | char c => [c.1]
  | escape c => ['\\', c.1]
  | dot => ['.']
  | cls item items => '[' :: (item.render ++ items.flatMap ClassItem.render ++ [']'])

def Pattern.render : Pattern → List Char
  | nil => []
  | bar rest => '|' :: rest.render
  | leaf a q rest => a.render ++ (quantified q ++ rest.render)
  | group body q rest => '(' :: (body.render ++ ')' :: (quantified q ++ rest.render))

/-! ### What they match -/

/-- What a leaf matches; the dot excludes line breaks unless `dotall`. -/
def Leaf.lang (dotall : Bool) : Leaf → Language Char
  | char c => {[c.1]}
  | escape c => {[c.1]}
  | dot => oneChar fun c => dotall = true ∨ (c ≠ '\n' ∧ c ≠ '\r')
  | cls item items => oneChar fun c => ∃ i ∈ item :: items, i.Has c

/-- What is matched with a quantifier. -/
def quantify (P : Language Char) : Option Quantifier → Language Char
  | none => P
  | some q => repeated P q.1.counts

/-- What the first alternative matches, and what the others match. -/
noncomputable def Pattern.sides (dotall : Bool) : Pattern → Language Char × Language Char
  | nil => (1, 0)
  | bar rest => (1, (rest.sides dotall).1 + (rest.sides dotall).2)
  | leaf a q rest => (quantify (a.lang dotall) q * (rest.sides dotall).1, (rest.sides dotall).2)
  | group body q rest =>
    (quantify ((body.sides dotall).1 + (body.sides dotall).2) q * (rest.sides dotall).1,
      (rest.sides dotall).2)

/-- What a pattern matches. -/
noncomputable def Pattern.lang (dotall : Bool) (p : Pattern) : Language Char :=
  (p.sides dotall).1 + (p.sides dotall).2

/-! ## Classes in a grammar -/

lemma Alnum.ne (c : Alnum) {d : Char} (hd : d.isAlphanum = false) : c.1 ≠ d := by
  rintro rfl
  exact absurd c.2 (Bool.eq_false_iff.1 hd)

lemma classItems_render (items : List ClassItem) :
    classItems (items.flatMap ClassItem.render) = items.map ClassItem.toItem := by
  induction items with
  | nil => rfl
  | cons item items ih =>
    rw [List.flatMap_cons, List.map_cons, ← ih]
    cases item with
    | range low high h =>
      show classItems (low.1 :: '-' :: high.1 :: items.flatMap ClassItem.render) = _
      rw [classItems, if_pos rfl]
      rfl
    | char c =>
      show classItems (c.1 :: items.flatMap ClassItem.render) = _
      -- the next character is a letter or a digit
      have hdash : ∀ d e rest, items.flatMap ClassItem.render = d :: e :: rest → d ≠ '-' := by
        intro d e rest heq
        cases items with
        | nil => cases heq
        | cons item items =>
          rw [List.flatMap_cons] at heq
          cases item with
          | char b =>
            obtain rfl := (List.cons.inj heq).1
            exact b.ne rfl
          | range low high h =>
            obtain rfl := (List.cons.inj heq).1
            exact low.ne rfl
      generalize items.flatMap ClassItem.render = body at hdash
      rcases body with _ | ⟨d, _ | ⟨e, rest⟩⟩
      · rfl
      · rfl
      · rw [classItems, if_neg (hdash d e rest rfl)]
        rfl

lemma itemHas_toItem (item : ClassItem) (c : Char) : ItemHas item.toItem c.toNat ↔ item.Has c := by
  cases item with
  | char d =>
    rw [ClassItem.Has, ← Char.toNat_inj]
    show d.1.toNat ≤ c.toNat ∧ c.toNat ≤ d.1.toNat ↔ _
    omega
  | range low high h => exact Iff.rfl

lemma mem_render {item : ClassItem} {c : Char} (h : c ∈ item.render) :
    c = '-' ∨ c.isAlphanum = true := by
  cases item with
  | char d =>
    obtain rfl := List.mem_singleton.1 h
    exact .inr d.2
  | range low high hle =>
    simp only [ClassItem.render, List.mem_cons, List.not_mem_nil, or_false] at h
    rcases h with rfl | rfl | rfl
    · exact .inr low.2
    · exact .inl rfl
    · exact .inr high.2

lemma scans_cls {refs : List Char → Prop} (item : ClassItem) (items : List ClassItem) :
    ∃ L : Language ℕ, Scans refs true (Leaf.cls item items).render (fun _ => L) ∧
      ∀ dotall, Spells L ((Leaf.cls item items).lang dotall) := by
  have hbody : item.render ++ items.flatMap ClassItem.render =
      (item :: items).flatMap ClassItem.render := List.flatMap_cons.symm
  have hchars : ∀ c ∈ (item :: items).flatMap ClassItem.render, c = '-' ∨ c.isAlphanum = true := by
    intro c hc
    obtain ⟨i, -, hi⟩ := List.mem_flatMap.1 hc
    exact mem_render hi
  have hhead : ∃ c : Alnum, ((item :: items).flatMap ClassItem.render).head? = some c.1 := by
    cases item with
    | char c => exact ⟨c, rfl⟩
    | range low high h => exact ⟨low, rfl⟩
  obtain ⟨c, hc⟩ := hhead
  refine ⟨chars (ClassHas ((item :: items).flatMap ClassItem.render)), ?_, fun dotall t => ?_⟩
  · rw [Leaf.render, hbody]
    refine scans_plainClass (fun hnil => ?_) (fun d hd => ?_) fun h => ?_
    · rw [hnil] at hc
      cases hc
    · rcases hchars d hd with rfl | hd
      · decide
      · exact ⟨Alnum.ne ⟨d, hd⟩ rfl, Alnum.ne ⟨d, hd⟩ rfl⟩
    · rw [hc] at h
      exact c.ne rfl (Option.some.inj h)
  · rw [spells_chars t]
    refine exists_congr fun d => and_congr_right fun _ => ?_
    simp only [ClassHas, classItems_render, List.mem_map, exists_exists_and_eq_and, itemHas_toItem]

end IFairy.JsonSchema
