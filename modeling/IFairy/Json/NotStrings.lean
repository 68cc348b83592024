import IFairy.Json.Primitives
import Mathlib.Data.Char

/-!
# The rule for the other keys of an object

`_not_strings` makes the rule for the key of an additional property: a string that is none of the
named properties.  The names go into a trie, and the rule follows the trie: in each node it has an
alternate for each next character of a name, and one for all other characters.
-/

namespace IFairy.JsonSchema

open LlamaGrammar

/-- `TrieNode`; the children are in the order of their characters, as a `std::map` keeps them. -/
inductive TrieNode where
  | node (isEndOfString : Bool) (children : List (Char × TrieNode))

namespace TrieNode

/-- `is_end_of_string`. -/
def isEndOfString : TrieNode → Bool
  | .node isEndOfString _ => isEndOfString

/-- `children`. -/
def children : TrieNode → List (Char × TrieNode)
  | .node _ children => children

def empty : TrieNode := .node false []

/-- The children after a change of `children[c]`, which makes a new node if there is none. -/
def updateChild (c : Char) (f : TrieNode → TrieNode) :
    List (Char × TrieNode) → List (Char × TrieNode)
  | [] => [(c, f empty)]
  | (d, n) :: children =>
    if c = d then (d, f n) :: children
    else if c < d then (c, f empty) :: (d, n) :: children
    else (d, n) :: updateChild c f children

/-- `insert`. -/
def insert : List Char → TrieNode → TrieNode
  | [], .node _ children => .node true children
  | c :: string, .node isEndOfString children =>
    .node isEndOfString (updateChild c (insert string) children)

def ofStrings (strings : List (List Char)) : TrieNode :=
  strings.foldl (fun trie string => trie.insert string) empty

/-- The alternate for the characters that no name has here. -/
def rejects (charRule : List Char) (children : List (Char × TrieNode)) : List (List Char) :=
  if children.isEmpty then []
  else ['[' :: '^' :: ('"' :: children.map Prod.fst ++ [']']) ++ ' ' :: (charRule ++ ['*'])]

mutual

/-- `visit`: the alternates of a node. -/
def visit (charRule : List Char) : TrieNode → List Char
  | .node _ children => joinAlts (visitChildren charRule children ++ rejects charRule children)

/-- The alternates for the children. -/
def visitChildren (charRule : List Char) : List (Char × TrieNode) → List (List Char)
  | [] => []
  | (c, n) :: rest =>
    ('[' :: c :: ']' ::
      (if !n.children.isEmpty then ' ' :: '(' :: (visit charRule n ++ [')'])
      else if n.isEndOfString then ' ' :: (charRule ++ ['+'])
      else [])) :: visitChildren charRule rest

end

end TrieNode

/-- `_not_strings`, with the name of the rule for one character. -/
def notStrings (charRule : List Char) (strings : List (List Char)) : List Char :=
  let trie := TrieNode.ofStrings strings
  "[\"] ( ".toList ++ trie.visit charRule ++ " )".toList ++
    (if trie.isEndOfString then [] else ['?']) ++ " [\"] space".toList

example : notStrings "char".toList ["a".toList] =
    "[\"] ( [a] char+ | [^\"a] char* )? [\"] space".toList := by
  rfl

/-! ## What the trie has -/

namespace TrieNode

def Has : TrieNode → List Char → Prop
  | trie, [] => trie.isEndOfString = true
  | trie, c :: string => ∃ n, (c, n) ∈ trie.children ∧ n.Has string

/-- The keys are in order and have the property `p`, and below every child there is a string. -/
inductive WellFormed (p : Char → Prop) : TrieNode → Prop
  | node {isEndOfString : Bool} {children : List (Char × TrieNode)} :
      (children.map Prod.fst).Pairwise (· < ·) → (∀ x ∈ children, p x.1) →
      (∀ x ∈ children, ∃ string, x.2.Has string) → (∀ x ∈ children, WellFormed p x.2) →
      WellFormed p (.node isEndOfString children)

variable {p : Char → Prop} {c d : Char} {n trie : TrieNode} {children : List (Char × TrieNode)}
  {f : TrieNode → TrieNode} {string : List Char}

/-- The child of a character, or a new node. -/
def childOf (c : Char) (children : List (Char × TrieNode)) : TrieNode :=
  (children.lookup c).getD empty

/-- What `updateChild` changes. -/
lemma mem_updateChild (hsorted : (children.map Prod.fst).Pairwise (· < ·)) :
    (d, n) ∈ updateChild c f children ↔
      (d = c ∧ n = f (childOf c children)) ∨ (d ≠ c ∧ (d, n) ∈ children) := by
  induction children with
  | nil =>
    rw [updateChild, List.mem_singleton, Prod.mk.injEq, childOf]
    simp
  | cons x children ih =>
    obtain ⟨e, m⟩ := x
    rw [List.map_cons, List.pairwise_cons] at hsorted
    have hlater : ∀ k, (e, k) ∉ children := fun k hk =>
      lt_irrefl e (hsorted.1 e (List.mem_map_of_mem hk))
    rw [updateChild]
    split_ifs with hc hlt
    · subst hc
      have hchild : childOf c ((c, m) :: children) = m := by simp [childOf]
      rw [List.mem_cons, Prod.mk.injEq, hchild, List.mem_cons, Prod.mk.injEq]
      by_cases hd : d = c
      · subst hd
        simp [hlater n]
      · simp [hd]
    · have hnone : ((e, m) :: children).lookup c = none := by
        rw [List.lookup_eq_none_iff]
        intro x hx
        rcases List.mem_cons.1 hx with rfl | hx
        · simpa using hc
        · have := hlt.trans (hsorted.1 x.1 (List.mem_map_of_mem hx))
          simpa using this.ne
      rw [List.mem_cons, Prod.mk.injEq, childOf, hnone, Option.getD_none]
      by_cases hd : d = c
      · subst hd
        have hnot : (d, n) ∉ (e, m) :: children := by
          intro h
          rcases List.mem_cons.1 h with h | h
          · exact hc (Prod.mk.inj h).1
          · exact lt_irrefl d (hlt.trans (hsorted.1 d (List.mem_map_of_mem h)))
        simp [hnot]
      · simp [hd]
    · have hchild : childOf c ((e, m) :: children) = childOf c children := by
        rw [childOf, List.lookup_cons, beq_false_of_ne hc]
        rfl
      rw [List.mem_cons, ih hsorted.2, hchild, List.mem_cons, Prod.mk.injEq]
      by_cases hd : d = c
      · subst hd
        simp [hc]
      · simp [hd]

lemma sorted_updateChild (hsorted : (children.map Prod.fst).Pairwise (· < ·)) :
    ((updateChild c f children).map Prod.fst).Pairwise (· < ·) := by
  induction children with
  | nil => simp [updateChild]
  | cons x children ih =>
    obtain ⟨e, m⟩ := x
    rw [updateChild]
    split_ifs with hc hlt
    · exact hsorted
    · rw [List.map_cons, List.pairwise_cons]
      refine ⟨fun y hy => ?_, hsorted⟩
      rcases List.mem_cons.1 hy with rfl | hy
      · exact hlt
      · exact hlt.trans ((List.pairwise_cons.1 hsorted).1 y hy)
    · rw [List.map_cons, List.pairwise_cons] at hsorted ⊢
      refine ⟨fun y hy => ?_, ih hsorted.2⟩
      obtain ⟨⟨y, k⟩, hk, rfl⟩ := List.mem_map.1 hy
      rcases (mem_updateChild hsorted.2).1 hk with ⟨rfl, -⟩ | ⟨-, hk⟩
      · exact lt_of_le_of_ne (not_lt.1 hlt) (Ne.symm hc)
      · exact hsorted.1 y (List.mem_map_of_mem hk)

lemma wellFormed_empty : WellFormed p empty :=
  .node List.Pairwise.nil (by simp) (by simp) (by simp)

lemma WellFormed.sorted (h : WellFormed p trie) : (trie.children.map Prod.fst).Pairwise (· < ·) := by
  cases h with
  | node hsorted => exact hsorted

lemma lookup_mem (h : children.lookup c = some n) : (c, n) ∈ children := by
  induction children with
  | nil => cases h
  | cons x children ih =>
    obtain ⟨e, m⟩ := x
    rw [List.lookup_cons] at h
    by_cases hc : c = e
    · rw [hc, beq_self_eq_true] at h
      obtain rfl := Option.some.inj h
      exact hc ▸ List.mem_cons_self
    · rw [beq_false_of_ne hc] at h
      exact List.mem_cons_of_mem _ (ih h)

lemma childOf_cases (c : Char) (children : List (Char × TrieNode)) :
    (c, childOf c children) ∈ children ∨
      ((∀ m, (c, m) ∉ children) ∧ childOf c children = empty) := by
  rw [childOf]
  cases h : children.lookup c with
  | some n => exact .inl (lookup_mem h)
  | none =>
    refine .inr ⟨fun m hm => ?_, rfl⟩
    have := List.lookup_eq_none_iff.1 h _ hm
    simp at this

lemma not_has_empty : ¬empty.Has string := by
  cases string with
  | nil => exact fun h => Bool.noConfusion h
  | cons c string => exact fun ⟨n, hn, _⟩ => absurd hn List.not_mem_nil

lemma child_unique (hsorted : (children.map Prod.fst).Pairwise (· < ·)) {m : TrieNode}
    (hn : (c, n) ∈ children) (hm : (c, m) ∈ children) : n = m := by
  induction children with
  | nil => cases hn
  | cons x children ih =>
    rw [List.map_cons, List.pairwise_cons] at hsorted
    have hlater : ∀ k, x = (c, k) → ∀ l, (c, l) ∉ children := by
      rintro k rfl l hl
      exact lt_irrefl c (hsorted.1 c (List.mem_map_of_mem hl))
    rcases List.mem_cons.1 hn with hx | hn
    · rcases List.mem_cons.1 hm with hx' | hm
      · exact (Prod.mk.inj (hx.trans hx'.symm)).2
      · exact absurd hm (hlater n hx.symm m)
    · rcases List.mem_cons.1 hm with hx' | hm
      · exact absurd hn (hlater m hx'.symm n)
      · exact ih hsorted.2 hn hm

lemma WellFormed.childOf (h : WellFormed p trie) (c : Char) :
    WellFormed p (childOf c trie.children) := by
  cases h with
  | @node _ children _ _ _ hchildren =>
    rcases childOf_cases c children with hmem | ⟨-, hempty⟩
    · exact hchildren _ hmem
    · show WellFormed p (TrieNode.childOf c children)
      rw [hempty]
      exact wellFormed_empty

lemma has_cons (h : WellFormed p trie) :
    trie.Has (c :: string) ↔ (TrieNode.childOf c trie.children).Has string := by
  rw [Has]
  rcases childOf_cases c trie.children with hmem | ⟨hnone, hempty⟩
  · constructor
    · rintro ⟨n, hn, hs⟩
      rwa [child_unique h.sorted hmem hn]
    · exact fun hs => ⟨_, hmem, hs⟩
  · rw [hempty]
    exact iff_of_false (fun ⟨n, hn, _⟩ => hnone n hn) not_has_empty

/-- `insert` adds the string. -/
lemma has_insert (h : WellFormed p trie) {other : List Char} :
    (trie.insert string).Has other ↔ other = string ∨ trie.Has other := by
  induction string generalizing trie other with
  | nil =>
    obtain ⟨e, children⟩ := trie
    cases other with
    | nil => exact iff_of_true rfl (.inl rfl)
    | cons d other =>
      rw [or_iff_right (List.cons_ne_nil d other)]
      exact Iff.rfl
  | cons c string ih =>
    obtain ⟨e, children⟩ := trie
    cases other with
    | nil =>
      rw [or_iff_right (List.cons_ne_nil c string).symm]
      exact Iff.rfl
    | cons d other =>
      have hmem : ∀ n, (d, n) ∈ (insert (c :: string) (.node e children)).children ↔ _ := fun n =>
        mem_updateChild h.sorted
      rw [Has]
      simp only [hmem]
      by_cases hd : d = c
      · subst hd
        have hchild : (insert string (childOf d children)).Has other ↔ _ := ih (h.childOf d)
        simp only [ne_eq, not_true_eq_false, false_and, or_false, true_and, exists_eq_left,
          List.cons.injEq]
        rw [has_cons h]
        exact hchild
      · simp only [hd, false_and, ne_eq, not_false_eq_true, true_and, false_or, List.cons.injEq]
        exact Iff.rfl

lemma wellFormed_insert (h : WellFormed p trie) (hstring : ∀ c ∈ string, p c) :
    WellFormed p (trie.insert string) := by
  induction string generalizing trie with
  | nil =>
    cases h with
    | node hsorted hkeys hhas hchildren => exact .node hsorted hkeys hhas hchildren
  | cons c string ih =>
    have hchild := ih (h.childOf c) fun d hd => hstring d (List.mem_cons_of_mem c hd)
    cases h with
    | @node e children hsorted hkeys hhas hchildren =>
      have hwf : WellFormed p (.node e children) := .node hsorted hkeys hhas hchildren
      refine .node (sorted_updateChild hsorted) ?_ ?_ ?_
      · rintro ⟨d, n⟩ hn
        rcases (mem_updateChild hsorted).1 hn with ⟨rfl, -⟩ | ⟨-, hn⟩
        · exact hstring d List.mem_cons_self
        · exact hkeys _ hn
      · rintro ⟨d, n⟩ hn
        rcases (mem_updateChild hsorted).1 hn with ⟨-, rfl⟩ | ⟨-, hn⟩
        · exact ⟨string, (has_insert (hwf.childOf c)).2 (.inl rfl)⟩
        · exact hhas _ hn
      · rintro ⟨d, n⟩ hn
        rcases (mem_updateChild hsorted).1 hn with ⟨-, rfl⟩ | ⟨-, hn⟩
        · exact hchild
        · exact hchildren _ hn

lemma WellFormed.of_mem (h : WellFormed p n) (ht : n.Has string) : ∀ c ∈ string, p c := by
  induction h generalizing string with
  | @node e children hsorted hkeys hstrings hchildren ih =>
    cases string with
    | nil => exact fun c hc => absurd hc List.not_mem_nil
    | cons c string =>
      obtain ⟨m, hm, ht⟩ := ht
      exact List.forall_mem_cons.2 ⟨hkeys _ hm, ih _ hm ht⟩

lemma ofStrings_spec {strings : List (List Char)} (h : ∀ s ∈ strings, ∀ c ∈ s, p c) :
    WellFormed p (ofStrings strings) ∧ ∀ s, (ofStrings strings).Has s ↔ s ∈ strings := by
  have hloop : ∀ (strings : List (List Char)) (trie : TrieNode), WellFormed p trie →
      (∀ s ∈ strings, ∀ c ∈ s, p c) →
      WellFormed p (strings.foldl (fun trie string => trie.insert string) trie) ∧
        ∀ s, (strings.foldl (fun trie string => trie.insert string) trie).Has s ↔
          s ∈ strings ∨ trie.Has s := by
    intro strings
    induction strings with
    | nil => exact fun trie htrie _ => ⟨htrie, fun s => by simp⟩
    | cons s strings ih =>
      intro trie htrie hs
      obtain ⟨hwf, hhas⟩ := ih (trie.insert s)
        (wellFormed_insert htrie (hs s List.mem_cons_self))
        fun s' hs' => hs s' (List.mem_cons_of_mem s hs')
      refine ⟨hwf, fun s' => ?_⟩
      rw [List.foldl_cons, hhas, has_insert htrie, List.mem_cons, or_left_comm, or_assoc]
  obtain ⟨hwf, hhas⟩ := hloop strings empty wellFormed_empty h
  refine ⟨hwf, fun s => ?_⟩
  rw [ofStrings, hhas, or_iff_left not_has_empty]

end TrieNode

end IFairy.JsonSchema
