import IFairy.Json.NotStringsClasses

/-!
# Tries that are followed rightly

A trie is `Sound` when no key is `^`, the classes of its nodes exclude the keys only, and every
inner node but the root ends a string.  A sound trie accepts exactly the strings that it does not
have, but for the empty one; no other trie does (`sound_iff`).
-/

namespace IFairy.JsonSchema.TrieNode

open LlamaGrammar

/-- Nothing goes wrong in the node, nor below it. -/
inductive Sound : TrieNode → Prop
  | node {e : Bool} {children : List (Char × TrieNode)} : (∀ x ∈ children, x.1 ≠ '^') →
      DashKeys (children.map Prod.fst) →
      (∀ x ∈ children, x.2.Has []) → (∀ x ∈ children, Sound x.2) → Sound (.node e children)

variable {e : Bool} {children : List (Char × TrieNode)} {n : TrieNode} {c : Char} {t : List Char}

/-! ## One character -/

lemma accepts_cons (hsorted : (children.map Prod.fst).Pairwise (· < ·)) (hn : (c, n) ∈ children)
    (hc : c ≠ '^') (hcaret : ∀ x ∈ children, x.1 ≠ '^') :
    Accepts (.node e children) (c :: t) ↔ n.Accepts t := by
  constructor
  · rintro (⟨hm, -, h⟩ | ⟨hm, -⟩ | ⟨-, h⟩ | _)
    · rwa [child_unique hsorted hn hm]
    · exact absurd rfl (hcaret _ hm)
    · exact absurd (classHas_key hsorted (List.mem_map_of_mem hn)) h
    · cases hn
  · exact .child hn hc

/-- Behind an edge for `^` the strings are as long as in front of it. -/
lemma accepts_caret (hsorted : (children.map Prod.fst).Pairwise (· < ·)) (hn : ('^', n) ∈ children) :
    Accepts (.node e children) ('^' :: t) ↔ n.Accepts ('^' :: t) := by
  constructor
  · rintro (⟨-, h, -⟩ | ⟨hm, h⟩ | ⟨-, h⟩ | _)
    · exact absurd rfl h
    · rwa [child_unique hsorted hn hm]
    · exact absurd (classHas_key hsorted (List.mem_map_of_mem hn)) h
    · cases hn
  · exact .caret hn

lemma accepts_other (hne : children ≠ []) (hc : ∀ n, (c, n) ∉ children)
    (hcaret : ∀ n, ('^', n) ∉ children) :
    Accepts (.node e children) (c :: t) ↔
      ¬ClassHas ('"' :: children.map Prod.fst) c.toNat := by
  constructor
  · rintro (⟨hm, -, -⟩ | ⟨hm, -⟩ | ⟨-, h⟩ | _)
    · exact absurd hm (hc _)
    · exact absurd hm (hcaret _)
    · exact h
    · exact absurd rfl hne
  · exact .other hne

lemma not_accepts_nil (hne : children ≠ []) (hcaret : ∀ n, ('^', n) ∉ children) :
    ¬Accepts (.node e children) [] := by
  rintro (_ | ⟨hm, -⟩ | _ | _ | _)
  · exact hcaret _ hm
  · exact hne rfl

lemma has_node : (TrieNode.node e children).Has (c :: t) ↔ ∃ n, (c, n) ∈ children ∧ n.Has t :=
  Iff.rfl

/-! ## Sound tries -/

lemma Sound.accepts_iff (hs : Sound n) (h : WellFormed KeyChar n) (hhas : ∃ s, n.Has s)
    (ht : ∀ c ∈ t, KeyChar c) : n.Accepts t ↔ t ≠ [] ∧ ¬n.Has t := by
  induction h generalizing t with
  | @node e children hsorted hkeys hstrings hchildren ih =>
    obtain ⟨hcaret, hdash, hends, hsound⟩ := hs
    cases t with
    | nil =>
      refine iff_of_false (fun hacc => ?_) fun h => h.1 rfl
      by_cases hne : children = []
      · subst hne
        obtain ⟨s, hs⟩ := hhas
        cases s with
        | nil =>
          have he : e = true := hs
          subst he
          exact absurd rfl (accepts_behind.1 hacc)
        | cons d s => exact absurd hs.choose_spec.1 List.not_mem_nil
      · exact not_accepts_nil hne (fun m hm => hcaret _ hm rfl) hacc
    | cons c t =>
      have ht' : ∀ d ∈ t, KeyChar d := fun d hd => ht d (List.mem_cons_of_mem c hd)
      rw [and_iff_right (List.cons_ne_nil c t)]
      by_cases hc : ∃ m, (c, m) ∈ children
      · obtain ⟨m, hm⟩ := hc
        have hend := hends _ hm
        rw [accepts_cons hsorted hm (hcaret _ hm) hcaret,
          ih _ hm (hsound _ hm) (hstrings _ hm) ht', has_node]
        constructor
        · rintro ⟨-, h⟩ ⟨m', hm', h'⟩
          exact h (child_unique hsorted hm hm' ▸ h')
        · intro h
          refine ⟨?_, fun h' => h ⟨m, hm, h'⟩⟩
          rintro rfl
          exact h ⟨m, hm, hend⟩
      · have hnot : ¬(TrieNode.node e children).Has (c :: t) := fun ⟨m, hm, _⟩ => hc ⟨m, hm⟩
        refine iff_of_true ?_ hnot
        by_cases hne : children = []
        · subst hne
          obtain ⟨s, hs⟩ := hhas
          cases s with
          | nil =>
            have he : e = true := hs
            subst he
            exact .behind
          | cons d s => exact absurd hs.choose_spec.1 List.not_mem_nil
        · refine .other hne fun hclass => hc ?_
          have hmem := (classHas_keys_iff hsorted).2 hdash c
            (ht c List.mem_cons_self) hclass
          obtain ⟨⟨d, m⟩, hm, rfl⟩ := List.mem_map.1 hmem
          exact ⟨m, hm⟩

/-! ## Keys `^` -/

/-- However many `^` come first, the strings of the node and the accepted ones meet somewhere. -/
lemma exists_caret_string (h : WellFormed KeyChar n) (hhas : ∃ s, n.Has s) :
    ∃ w, (∀ c ∈ w, KeyChar c) ∧
      ∀ k, n.Accepts (List.replicate (k + 1) '^' ++ w) ↔ n.Has w := by
  induction h with
  | @node e children hsorted hkeys hstrings hchildren ih =>
    by_cases hne : children = []
    · subst hne
      obtain ⟨s, hs⟩ := hhas
      have he : e = true := by
        cases s with
        | nil => exact hs
        | cons d s => exact absurd hs.choose_spec.1 List.not_mem_nil
      subst he
      exact ⟨[], fun c hc => absurd hc List.not_mem_nil, fun k => iff_of_true .behind rfl⟩
    by_cases hcaret : ∃ m, ('^', m) ∈ children
    · obtain ⟨m, hm⟩ := hcaret
      obtain ⟨w, hw, hmeet⟩ := ih _ hm (hstrings _ hm)
      refine ⟨'^' :: w, List.forall_mem_cons.2 ⟨by decide, hw⟩, fun k => ?_⟩
      have hshift : List.replicate (k + 1) '^' ++ '^' :: w = List.replicate (k + 1 + 1) '^' ++ w := by
        rw [List.replicate_succ' (n := k + 1), List.append_assoc, List.singleton_append]
      rw [hshift, List.replicate_succ, List.cons_append, accepts_caret hsorted hm,
        ← List.cons_append, ← List.replicate_succ, hmeet, has_node]
      constructor
      · exact fun h => ⟨m, hm, h⟩
      · rintro ⟨m', hm', h⟩
        exact child_unique hsorted hm' hm ▸ h
    · have hcaret' : ∀ m, ('^', m) ∉ children := fun m hm => hcaret ⟨m, hm⟩
      have hall : ∀ w k, Accepts (.node e children) (List.replicate (k + 1) '^' ++ w) ↔
          ¬ClassHas ('"' :: children.map Prod.fst) '^'.toNat := fun w k => by
        rw [List.replicate_succ, List.cons_append, accepts_other hne hcaret' hcaret']
      by_cases hclass : ClassHas ('"' :: children.map Prod.fst) '^'.toNat
      · refine ⟨['^'], List.forall_mem_singleton.2 (by decide), fun k => ?_⟩
        rw [hall]
        exact iff_of_false (not_not.2 hclass) fun ⟨m, hm, _⟩ => hcaret' m hm
      · obtain ⟨w, hw⟩ := hhas
        refine ⟨w, (WellFormed.node hsorted hkeys hstrings hchildren).of_mem hw, fun k => ?_⟩
        rw [hall]
        exact iff_of_true hclass hw

/-! ## Only sound tries -/

lemma sound_of_accepts (h : WellFormed KeyChar n)
    (hright : ∀ t, t ≠ [] → (∀ c ∈ t, KeyChar c) → (n.Accepts t ↔ ¬n.Has t)) : n.Sound := by
  induction h with
  | @node e children hsorted hkeys hstrings hchildren ih =>
    have hcaret : ∀ x ∈ children, x.1 ≠ '^' := by
      rintro ⟨c, m⟩ hm rfl
      obtain ⟨w, hw, hmeet⟩ := exists_caret_string (hchildren _ hm) (hstrings _ hm)
      have hcaret := hright ('^' :: w) (List.cons_ne_nil _ _) (List.forall_mem_cons.2 ⟨by decide, hw⟩)
      have hzero := hmeet 0
      rw [List.replicate_one, List.singleton_append] at hzero
      rw [accepts_caret hsorted hm, hzero, has_node] at hcaret
      have hiff : m.Has w ↔ ∃ m', ('^', m') ∈ children ∧ m'.Has w :=
        ⟨fun h => ⟨m, hm, h⟩, fun ⟨m', hm', h⟩ => child_unique hsorted hm' hm ▸ h⟩
      rw [← hiff] at hcaret
      exact iff_not_self hcaret
    have hchild : ∀ x ∈ children, ∀ t, (∀ c ∈ t, KeyChar c) → (x.2.Accepts t ↔ ¬x.2.Has t) := by
      rintro ⟨c, m⟩ hm t ht
      have hcons := hright (c :: t) (List.cons_ne_nil _ _) (List.forall_mem_cons.2 ⟨hkeys _ hm, ht⟩)
      rw [accepts_cons hsorted hm (hcaret _ hm) hcaret, has_node] at hcons
      rw [hcons]
      exact not_congr ⟨fun ⟨m', hm', h⟩ => child_unique hsorted hm' hm ▸ h, fun h => ⟨m, hm, h⟩⟩
    have hsound : ∀ x ∈ children, Sound x.2 := fun x hx =>
      ih x hx fun t _ ht => hchild x hx t ht
    refine .node hcaret ?_ ?_ hsound
    · refine (classHas_keys_iff hsorted).1 fun c hc hclass => ?_
      by_contra hnot
      have hnone : ∀ m, (c, m) ∉ children := fun m hm => hnot (List.mem_map_of_mem hm)
      have hone := hright [c] (List.cons_ne_nil _ _) (List.forall_mem_singleton.2 hc)
      by_cases hne : children = []
      · subst hne
        obtain ⟨i, hi, hc'⟩ := hclass
        obtain rfl := List.mem_singleton.1 hi
        rw [itemHas_single] at hc'
        exact hc.2.2.1 (Char.toNat_inj.1 hc')
      · rw [accepts_other hne hnone fun m hm => hcaret _ hm rfl] at hone
        exact hone.2 (fun ⟨m, hm, _⟩ => hnone m hm) hclass
    · rintro ⟨c, m⟩ hm
      by_contra hend
      have hnil := (hchild _ hm [] fun c hc => absurd hc List.not_mem_nil).2 hend
      obtain ⟨e', children'⟩ := m
      by_cases hne : children' = []
      · subst hne
        obtain ⟨s, hs⟩ := hstrings _ hm
        cases s with
        | nil => exact hend hs
        | cons d s => exact absurd hs.choose_spec.1 List.not_mem_nil
      · cases hsound _ hm with
        | node hcaret' => exact not_accepts_nil hne (fun m' hm' => hcaret' _ hm' rfl) hnil

/-! ## Soundness and the strings -/

/-- What soundness says about the strings: none has a `^`, those that a string begins with are
there, too, and behind each beginning a `-` is the last character that comes, or `,` and `.` come,
too. -/
structure SoundStrings (L : List Char → Prop) : Prop where
  caret : ∀ t, L t → '^' ∉ t
  closed : ∀ u v, u ≠ [] → L (u ++ v) → L u
  dash : ∀ u t, L (u ++ '-' :: t) → (∀ c t, L (u ++ c :: t) → c ≤ '-') ∨
    ((∃ t, L (u ++ ',' :: t)) ∧ ∃ t, L (u ++ '.' :: t))

lemma mem_keys (hstrings : ∀ x ∈ children, ∃ s, x.2.Has s) :
    c ∈ children.map Prod.fst ↔ ∃ t, (TrieNode.node e children).Has (c :: t) := by
  constructor
  · intro hc
    obtain ⟨⟨d, m⟩, hm, rfl⟩ := List.mem_map.1 hc
    obtain ⟨s, hs⟩ := hstrings _ hm
    exact ⟨s, m, hm, hs⟩
  · rintro ⟨t, m, hm, -⟩
    exact List.mem_map_of_mem hm

lemma dashKeys_iff (hstrings : ∀ x ∈ children, ∃ s, x.2.Has s) :
    DashKeys (children.map Prod.fst) ↔
      ∀ t, (TrieNode.node e children).Has ('-' :: t) →
        (∀ c t, (TrieNode.node e children).Has (c :: t) → c ≤ '-') ∨
          ((∃ t, (TrieNode.node e children).Has (',' :: t)) ∧
            ∃ t, (TrieNode.node e children).Has ('.' :: t)) := by
  have hmem : ∀ c, c ∈ children.map Prod.fst ↔ ∃ t, (TrieNode.node e children).Has (c :: t) :=
    fun c => mem_keys hstrings
  simp only [DashKeys, hmem]
  constructor
  · intro h t ht
    exact (h ⟨t, ht⟩).imp_left fun hall c t' ht' => hall c ⟨t', ht'⟩
  · rintro h ⟨t, ht⟩
    exact (h t ht).imp_left fun hall c ⟨t', ht'⟩ => hall c t' ht'

lemma sound_iff {p : Char → Prop} (h : WellFormed p n) : n.Sound ↔ SoundStrings n.Has := by
  induction h with
  | @node e children hsorted hkeys hstrings hchildren ih =>
    have hbelow : ∀ {c m}, (c, m) ∈ children → ∀ t,
        (TrieNode.node e children).Has (c :: t) ↔ m.Has t := fun hm t =>
      ⟨fun ⟨m', hm', h⟩ => child_unique hsorted hm' hm ▸ h, fun h => ⟨_, hm, h⟩⟩
    constructor
    · rintro ⟨hcaret, hdash, hends, hsound⟩
      have hstr : ∀ x ∈ children, SoundStrings x.2.Has := fun x hx => (ih x hx).1 (hsound x hx)
      refine ⟨fun t ht => ?_, fun u v hu huv => ?_, fun u t ht => ?_⟩
      · cases t with
        | nil => exact List.not_mem_nil
        | cons c t =>
          obtain ⟨m, hm, ht⟩ := ht
          rw [List.mem_cons, not_or]
          exact ⟨Ne.symm (hcaret _ hm), (hstr _ hm).caret t ht⟩
      · obtain ⟨c, u, rfl⟩ := List.exists_cons_of_ne_nil hu
        obtain ⟨m, hm, huv⟩ := huv
        cases u with
        | nil => exact ⟨m, hm, hends _ hm⟩
        | cons d u => exact ⟨m, hm, (hstr _ hm).closed _ v (List.cons_ne_nil d u) huv⟩
      · cases u with
        | nil => exact (dashKeys_iff hstrings).1 hdash t ht
        | cons d u =>
          obtain ⟨m, hm, ht⟩ := ht
          simp only [List.cons_append, hbelow hm]
          exact (hstr _ hm).dash u t ht
    · intro hs
      refine .node ?_ ?_ ?_ ?_
      · rintro ⟨c, m⟩ hm rfl
        obtain ⟨s, hs'⟩ := hstrings _ hm
        exact hs.caret ('^' :: s) ⟨m, hm, hs'⟩ List.mem_cons_self
      · exact (dashKeys_iff hstrings).2 fun t ht => hs.dash [] t ht
      · rintro ⟨c, m⟩ hm
        obtain ⟨s, hs'⟩ := hstrings _ hm
        exact (hbelow hm []).1 (hs.closed [c] s (List.cons_ne_nil c []) ⟨m, hm, hs'⟩)
      · rintro ⟨c, m⟩ hm
        refine (ih _ hm).2 ⟨fun t ht => ?_, fun u v hu huv => ?_, fun u t ht => ?_⟩
        · exact fun hmem => hs.caret (c :: t) ⟨m, hm, ht⟩ (List.mem_cons_of_mem c hmem)
        · exact (hbelow hm u).1 (hs.closed (c :: u) v (List.cons_ne_nil c u) ⟨m, hm, huv⟩)
        · have hdash := hs.dash (c :: u) t ⟨m, hm, ht⟩
          simpa only [List.cons_append, hbelow hm] using hdash

end IFairy.JsonSchema.TrieNode
