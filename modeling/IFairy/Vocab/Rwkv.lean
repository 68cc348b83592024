import IFairy.Framework.PrefixTree

/-!
# The RWKV tokenizer

`llm_tokenizer_rwkv_session::tokenize` of `llama-vocab.cpp` as a machine (`RwkvState.step`): at a
position of the text it walks the trie of the tokens as far as the text goes, remembers the end of
the last token on the way, and continues there.

Where the walk leaves the root but passes no token, the remembered end is still `0`, and the loop
starts over.  Where a token continues behind the end of the text with a zero byte, the walk goes on
behind the terminator.  Elsewhere the loop ends with the greedy segmentation (`tokenizesGreedily_iff`).
-/

namespace IFairy

/-! ## The tokenizer -/

/-- `naive_trie`. -/
abbrev NaiveTrie := PrefixTree UInt8 ℕ

/-- The `token_matcher` of `llm_tokenizer_rwkv`, for the unescaped tokens in the order of their ids. -/
def rwkvTokenMatcher (tokens : List (List UInt8)) : NaiveTrie := PrefixTree.ofList tokens.zipIdx

/-- `std::string::operator[]`: the terminator can be read, what is behind it cannot. -/
def charAt (text : List UInt8) (i : ℕ) : Option UInt8 := (text ++ [0])[i]?

/-- A `uint32_t`. -/
def wrap32 (n : ℕ) : ℕ := n % 4294967296

/-- Where `tokenize` stands: at the head of its loop, in a walk, behind it, or past a read outside
the text. -/
inductive RwkvState where
  | scan (position : ℕ) (output : List ℤ)
  | walk (node : NaiveTrie) (position tokenId tokenLength : ℕ) (output : List ℤ)
  | done (output : List ℤ)
  | undefined

/-- One round of one of the loops of `llm_tokenizer_rwkv_session::tokenize`. -/
def RwkvState.step (tokenMatcher : NaiveTrie) (tokenUnk : ℤ) (text : List UInt8) :
    RwkvState → RwkvState
  | .scan position output =>
    match text[position]? with
    | none => .done output
    | some c =>
      match tokenMatcher.traverse c with
      | none => .scan (wrap32 (position + 1)) (output ++ [tokenUnk])
      | some node => .walk node position 0 0 output
  | .walk node position tokenId tokenLength output =>
    let tokenId := node.value.getD tokenId
    let tokenLength := if node.value.isSome then wrap32 (position + 1) else tokenLength
    let position := wrap32 (position + 1)
    match charAt text position with
    | none => .undefined
    | some c =>
      match node.traverse c with
      | some node => .walk node position tokenId tokenLength output
      | none => .scan tokenLength (output ++ [(tokenId : ℤ)])
  | s => s

/-! ## The greedy segmentation -/

section Greedy

variable (tokens : List (List UInt8)) (tokenUnk : ℤ)

/-- The token that has this text, the last one if there are several. -/
def IsTokenId (t : List UInt8) (id : ℕ) : Prop :=
  tokens[id]? = some t ∧ ∀ j, id < j → tokens[j]? ≠ some t

/-- The first piece of a text: the longest token that the text begins with, or one byte that is
unknown because no token matches. -/
inductive GreedyPiece (text : List UInt8) : List UInt8 → ℤ → Prop where
  | token {t : List UInt8} {id : ℕ} (hne : t ≠ []) (hid : IsTokenId tokens t id) (hpre : t <+: text)
    (hlongest : ∀ u ∈ tokens, u <+: text → u.length ≤ t.length) : GreedyPiece text t id
  | unknown {b : UInt8} (hpre : [b] <+: text) (hnone : ∀ u ∈ tokens, u <+: text → u = []) :
    GreedyPiece text [b] tokenUnk

/-- The greedy segmentation of a text. -/
inductive GreedyTokens : List UInt8 → List ℤ → Prop where
  | nil : GreedyTokens [] []
  | piece {t rest : List UInt8} {id : ℤ} {output : List ℤ}
    (hpiece : GreedyPiece tokens tokenUnk (t ++ rest) t id) (hrest : GreedyTokens rest output) :
    GreedyTokens (t ++ rest) (id :: output)

/-- What is left of a text where a piece of its greedy segmentation ends. -/
inductive GreedyCut (text : List UInt8) : List UInt8 → Prop where
  | start : GreedyCut text text
  | next {t rest : List UInt8} {id : ℤ} (hcut : GreedyCut text (t ++ rest))
    (hpiece : GreedyPiece tokens tokenUnk (t ++ rest) t id) : GreedyCut text rest

/-- Where a token has the next byte for its first, some token matches; and no token has all of
what is left in front of a zero byte. -/
structure Passable (rest : List UInt8) : Prop where
  complete : ∀ b, [b] <+: rest → ∀ u ∈ tokens, [b] <+: u → ∃ t ∈ tokens, t ≠ [] ∧ t <+: rest
  ends : rest ≠ [] → ∀ u ∈ tokens, ¬rest ++ [0] <+: u

/-- The loop ends, with the greedy segmentation. -/
def TokenizesGreedily (text : List UInt8) : Prop :=
  ∃ n output, (RwkvState.step (rwkvTokenMatcher tokens) tokenUnk text)^[n] (.scan 0 []) =
    .done output ∧ GreedyTokens tokens tokenUnk text output

end Greedy

variable {tokens : List (List UInt8)} {tokenUnk : ℤ}

/-! ## The trie -/

lemma find_rwkvTokenMatcher (t : List UInt8) (id : ℕ) :
    (rwkvTokenMatcher tokens).find t = some id ↔ IsTokenId tokens t id := by
  rw [rwkvTokenMatcher, PrefixTree.find_ofList, IsTokenId]
  induction tokens using List.reverseRecOn with
  | nil => simp
  | append_singleton tokens u ih =>
    rw [List.zipIdx_append, List.reverse_append, List.zipIdx_singleton, List.reverse_singleton,
      List.singleton_append, List.find?_cons, Nat.zero_add]
    by_cases hu : u = t
    · rw [decide_eq_true hu, Option.map_some, Option.some_inj]
      constructor
      · rintro rfl
        refine ⟨by rw [List.getElem?_concat_length, hu], fun j hj => ?_⟩
        rw [List.getElem?_eq_none (by rw [List.length_append, List.length_singleton]; exact hj)]
        exact (Option.some_ne_none _).symm
      · rintro ⟨hid, hlast⟩
        have hle : id < tokens.length + 1 := by
          simpa using (List.getElem?_eq_some_iff.1 hid).1
        by_contra hne
        exact hlast tokens.length (by change ¬tokens.length = id at hne; omega)
          (by rw [List.getElem?_concat_length, hu])
    · rw [decide_eq_false hu]
      refine ih.trans (and_congr ?_ (forall_congr' fun j => imp_congr_right fun _ => not_congr ?_))
      all_goals
        rw [List.getElem?_append]
        split
        · rfl
        · rename_i hge
          rw [List.getElem?_eq_none (Nat.le_of_not_lt hge)]
          refine iff_of_false (Option.some_ne_none _).symm fun h => hu ?_
          have hmem := List.mem_of_getElem? h
          exact (List.mem_singleton.1 hmem).symm

lemma isSome_find_rwkvTokenMatcher (t : List UInt8) :
    ((rwkvTokenMatcher tokens).find t).isSome ↔ t ∈ tokens := by
  rw [rwkvTokenMatcher, PrefixTree.isSome_find_ofList]
  constructor
  · rintro ⟨e, he, rfl⟩
    exact List.fst_mem_of_mem_zipIdx he
  · intro ht
    obtain ⟨i, hi⟩ := List.getElem?_of_mem ht
    exact ⟨(t, i), List.mem_zipIdx_iff_getElem?.2 hi, rfl⟩

lemma isSome_walk_rwkvTokenMatcher (t : List UInt8) :
    ((rwkvTokenMatcher tokens).walk t).isSome ↔ t = [] ∨ ∃ u ∈ tokens, t <+: u := by
  rw [rwkvTokenMatcher, PrefixTree.isSome_walk_ofList]
  refine or_congr_right ⟨?_, ?_⟩
  · rintro ⟨e, he, hpre⟩
    exact ⟨e.1, List.fst_mem_of_mem_zipIdx he, hpre⟩
  · rintro ⟨u, hu, hpre⟩
    obtain ⟨i, hi⟩ := List.getElem?_of_mem hu
    exact ⟨(u, i), List.mem_zipIdx_iff_getElem?.2 hi, hpre⟩

/-! ## One walk -/

/-- What a walk that began at `start` remembers of the first `n` bytes of `rest`. -/
inductive Remembers (tokens : List (List UInt8)) (start : ℕ) (rest : List UInt8) (n : ℕ) :
    ℕ → ℕ → Prop where
  | nothing (hnone : ∀ u ∈ tokens, u <+: rest → u.length ≤ n → u = []) :
    Remembers tokens start rest n 0 0
  | token {t : List UInt8} {id : ℕ} (hne : t ≠ []) (hid : IsTokenId tokens t id) (hpre : t <+: rest)
    (hlen : t.length ≤ n)
    (hlongest : ∀ u ∈ tokens, u <+: rest → u.length ≤ n → u.length ≤ t.length) :
    Remembers tokens start rest n id (start + t.length)

section Walk

variable {pre rest : List UInt8} {j tokenId tokenLength : ℕ} {node : NaiveTrie}

lemma Remembers.next (h : Remembers tokens pre.length rest j tokenId tokenLength)
    (hj : j < rest.length) (hnode : (rwkvTokenMatcher tokens).walk (rest.take (j + 1)) = some node) :
    Remembers tokens pre.length rest (j + 1) (node.value.getD tokenId)
      (if node.value.isSome then pre.length + j + 1 else tokenLength) := by
  have hfind : (rwkvTokenMatcher tokens).find (rest.take (j + 1)) = node.value := by
    rw [PrefixTree.find, hnode]
    rfl
  have htake : (rest.take (j + 1)).length = j + 1 := List.length_take_of_le hj
  have heq : ∀ u, u <+: rest → u.length = j + 1 → u = rest.take (j + 1) := by
    intro u hpre hlen
    rw [List.prefix_iff_eq_take.1 hpre, hlen]
  cases hvalue : node.value with
  | none =>
    -- the new byte completes no token
    have hnot : rest.take (j + 1) ∉ tokens := by
      rw [← isSome_find_rwkvTokenMatcher, hfind, hvalue]
      exact Bool.false_ne_true
    have hlt : ∀ u ∈ tokens, u <+: rest → u.length ≤ j + 1 → u.length ≤ j := by
      intro u hu hpre hlen
      refine Nat.lt_succ_iff.1 (lt_of_le_of_ne hlen fun hj1 => hnot ?_)
      rwa [← heq u hpre hj1]
    cases h with
    | nothing hnone => exact .nothing fun u hu hpre hlen => hnone u hu hpre (hlt u hu hpre hlen)
    | token hne hid hpre hlen hlongest =>
      exact .token hne hid hpre (hlen.trans (Nat.le_succ j)) fun u hu hpre hlen =>
        hlongest u hu hpre (hlt u hu hpre hlen)
  | some id =>
    have hid := (find_rwkvTokenMatcher _ id).1 (hfind.trans hvalue)
    have htoken : Remembers tokens pre.length rest (j + 1) id _ :=
      .token (List.ne_nil_of_length_pos (by omega)) hid (List.take_prefix _ _) htake.le
        fun u _ _ hlen => hlen.trans htake.ge
    rwa [htake] at htoken

lemma Remembers.all (h : Remembers tokens pre.length rest j tokenId tokenLength)
    (hstop : ∀ u ∈ tokens, u <+: rest → u.length ≤ j) :
    Remembers tokens pre.length rest rest.length tokenId tokenLength := by
  cases h with
  | nothing hnone => exact .nothing fun u hu hpre _ => hnone u hu hpre (hstop u hu hpre)
  | token hne hid hpre hlen hlongest =>
    exact .token hne hid hpre hpre.length_le fun u hu hpre _ => hlongest u hu hpre (hstop u hu hpre)

lemma charAt_append (i : ℕ) : charAt (pre ++ rest) (pre.length + i) = (rest ++ [0])[i]? := by
  rw [charAt, List.append_assoc, List.getElem?_append_right (Nat.le_add_right _ _),
    Nat.add_sub_cancel_left]

variable (tokenUnk)

lemma walk_spec (hbound : (pre ++ rest).length < 2147483648) (hj : j < rest.length)
    (hnode : (rwkvTokenMatcher tokens).walk (rest.take (j + 1)) = some node)
    (h : Remembers tokens pre.length rest j tokenId tokenLength) (output : List ℤ) :
    ∃ n, ((∃ u ∈ tokens, rest ++ [0] <+: u) ∧
        (RwkvState.step (rwkvTokenMatcher tokens) tokenUnk (pre ++ rest))^[n]
          (.walk node (pre.length + j) tokenId tokenLength output) = .undefined) ∨
      ((∀ u ∈ tokens, ¬rest ++ [0] <+: u) ∧ ∃ id len, Remembers tokens pre.length rest rest.length id len ∧
        (RwkvState.step (rwkvTokenMatcher tokens) tokenUnk (pre ++ rest))^[n]
          (.walk node (pre.length + j) tokenId tokenLength output) =
            .scan len (output ++ [(id : ℤ)])) := by
  induction hd : rest.length - j generalizing j node tokenId tokenLength with
  | zero => omega
  | succ d ih =>
    rw [List.length_append] at hbound
    have hwrap : wrap32 (pre.length + j + 1) = pre.length + (j + 1) := Nat.mod_eq_of_lt (by omega)
    have hnext := h.next hj hnode
    -- the next byte, or the terminator
    obtain ⟨c, hc⟩ : ∃ c, (rest ++ [0])[j + 1]? = some c :=
      ⟨_, List.getElem?_eq_getElem (by rw [List.length_append]; exact Nat.succ_lt_succ hj)⟩
    have htake : (rest ++ [0]).take (j + 2) = rest.take (j + 1) ++ [c] := by
      rw [List.take_add_one, hc, List.take_append_of_le_length hj]
      rfl
    have hwalk : (rwkvTokenMatcher tokens).walk ((rest ++ [0]).take (j + 2)) = node.traverse c := by
      rw [htake, PrefixTree.walk_concat, hnode]
      rfl
    have hstep : ∀ n, (RwkvState.step (rwkvTokenMatcher tokens) tokenUnk (pre ++ rest))^[n + 1]
        (.walk node (pre.length + j) tokenId tokenLength output) =
        (RwkvState.step (rwkvTokenMatcher tokens) tokenUnk (pre ++ rest))^[n]
          (match node.traverse c with
          | some node' => .walk node' (pre.length + (j + 1)) (node.value.getD tokenId)
              (if node.value.isSome then pre.length + (j + 1) else tokenLength) output
          | none => .scan (if node.value.isSome then pre.length + (j + 1) else tokenLength)
              (output ++ [((node.value.getD tokenId : ℕ) : ℤ)])) := by
      intro n
      rw [Function.iterate_succ_apply, RwkvState.step, hwrap, charAt_append, hc]
    cases hchild : node.traverse c with
    | none =>
      -- no token goes on
      have hnot : ∀ u ∈ tokens, ¬(rest ++ [0]).take (j + 2) <+: u := by
        intro u hu hpre
        have := (isSome_walk_rwkvTokenMatcher _).2 (.inr ⟨u, hu, hpre⟩)
        rw [hwalk, hchild] at this
        cases this
      have hshort : ∀ u ∈ tokens, u <+: rest → u.length ≤ j + 1 := by
        intro u hu hpre
        by_contra hlong
        refine hnot u hu (List.prefix_of_prefix_length_le (List.take_prefix _ _)
          (hpre.trans (List.prefix_append _ _)) ?_)
        exact (List.length_take_le _ _).trans (by omega)
      refine ⟨1, .inr ⟨fun u hu hpre => hnot u hu ((List.take_prefix _ _).trans hpre), _, _,
        hnext.all hshort, ?_⟩⟩
      rw [hstep, hchild]
      rfl
    | some node' =>
      by_cases hlast : j + 1 < rest.length
      · rw [List.take_append_of_le_length hlast, hchild] at hwalk
        obtain ⟨n, hn⟩ := ih hlast hwalk hnext (by omega)
        refine ⟨n + 1, ?_⟩
        rw [hstep, hchild]
        exact hn
      · -- the walk goes on behind the terminator
        have hj1 : j + 1 = rest.length := by omega
        rw [List.take_of_length_le (by rw [List.length_append, List.length_singleton]; omega),
          hchild] at hwalk
        have hsome : ((rwkvTokenMatcher tokens).walk (rest ++ [0])).isSome := by
          rw [hwalk]
          rfl
        have htoken := ((isSome_walk_rwkvTokenMatcher _).1 hsome).resolve_left
          (List.append_ne_nil_of_right_ne_nil _ (List.cons_ne_nil _ _))
        refine ⟨2, .inl ⟨htoken, ?_⟩⟩
        have hwrap' : wrap32 (pre.length + (j + 1) + 1) = pre.length + (j + 2) :=
          Nat.mod_eq_of_lt (by omega)
        have hend : (rest ++ [0])[j + 2]? = none :=
          List.getElem?_eq_none (by rw [List.length_append, List.length_singleton]; omega)
        rw [hstep, hchild, Function.iterate_one, RwkvState.step, hwrap', charAt_append, hend]

lemma scan_walk (hbound : (pre ++ rest).length < 2147483648) {b : UInt8} (hb : [b] <+: rest)
    (hstart : ∃ u ∈ tokens, [b] <+: u) (output : List ℤ) :
    ∃ n, 0 < n ∧ (((∃ u ∈ tokens, rest ++ [0] <+: u) ∧
        (RwkvState.step (rwkvTokenMatcher tokens) tokenUnk (pre ++ rest))^[n]
          (.scan pre.length output) = .undefined) ∨
      ((∀ u ∈ tokens, ¬rest ++ [0] <+: u) ∧ ∃ id len, Remembers tokens pre.length rest rest.length id len ∧
        (RwkvState.step (rwkvTokenMatcher tokens) tokenUnk (pre ++ rest))^[n]
          (.scan pre.length output) = .scan len (output ++ [(id : ℤ)]))) := by
  obtain ⟨others, rfl⟩ := hb
  obtain ⟨node, hnode⟩ := Option.isSome_iff_exists.1
    ((isSome_walk_rwkvTokenMatcher _).2 (.inr hstart))
  have hchild : (rwkvTokenMatcher tokens).traverse b = some node := by
    rw [PrefixTree.walk_cons] at hnode
    simpa using hnode
  have hfirst : Remembers tokens pre.length ([b] ++ others) 0 0 0 :=
    .nothing fun u _ _ hlen => List.eq_nil_of_length_eq_zero (Nat.le_zero.1 hlen)
  obtain ⟨n, hn⟩ := walk_spec tokenUnk hbound (Nat.succ_pos _) hnode hfirst output
  refine ⟨n + 1, Nat.succ_pos n, ?_⟩
  have hget : (pre ++ ([b] ++ others))[pre.length]? = some b := by
    rw [List.getElem?_append_right (le_refl _), Nat.sub_self]
    rfl
  rw [Function.iterate_succ_apply, RwkvState.step, hget]
  simp only [hchild]
  exact hn

end Walk

/-! ## Pieces -/

section Pieces

variable {text pre rest t t' : List UInt8} {id id' : ℤ}

lemma GreedyPiece.isPrefix (h : GreedyPiece tokens tokenUnk text t id) : t <+: text := by
  cases h with
  | token hne hid hpre hlongest => exact hpre
  | unknown hpre hnone => exact hpre

lemma GreedyPiece.ne_nil (h : GreedyPiece tokens tokenUnk text t id) : t ≠ [] := by
  cases h with
  | token hne hid hpre hlongest => exact hne
  | unknown hpre hnone => exact List.cons_ne_nil _ _

lemma GreedyPiece.unique (h : GreedyPiece tokens tokenUnk text t id)
    (h' : GreedyPiece tokens tokenUnk text t' id') : t = t' := by
  have hlen : t.length = t'.length := by
    cases h with
    | token hne hid hpre hlongest =>
      have hmem := List.mem_of_getElem? hid.1
      cases h' with
      | token hne' hid' hpre' hlongest' =>
        exact le_antisymm (hlongest' t hmem hpre) (hlongest t' (List.mem_of_getElem? hid'.1) hpre')
      | unknown hpre' hnone' => exact absurd (hnone' t hmem hpre) hne
    | unknown hpre hnone =>
      cases h' with
      | token hne' hid' hpre' hlongest' =>
        exact absurd (hnone t' (List.mem_of_getElem? hid'.1) hpre') hne'
      | unknown hpre' hnone' => rfl
  exact (List.prefix_of_prefix_length_le h.isPrefix h'.isPrefix hlen.le).eq_of_length hlen

variable (tokenUnk)

lemma scan_passable (hbound : (pre ++ rest).length < 2147483648) (hne : rest ≠ [])
    (h : Passable tokens rest) (output : List ℤ) :
    ∃ n t id, GreedyPiece tokens tokenUnk rest t id ∧
      (RwkvState.step (rwkvTokenMatcher tokens) tokenUnk (pre ++ rest))^[n]
        (.scan pre.length output) = .scan (pre.length + t.length) (output ++ [id]) := by
  obtain ⟨b, others, rfl⟩ := List.exists_cons_of_ne_nil hne
  have hb : [b] <+: b :: others := List.prefix_append [b] others
  by_cases hstart : ∃ u ∈ tokens, [b] <+: u
  · obtain ⟨u, hu, hub⟩ := hstart
    obtain ⟨n, -, hn⟩ := scan_walk tokenUnk hbound hb ⟨u, hu, hub⟩ output
    rcases hn with ⟨⟨v, hv, hpre⟩, -⟩ | ⟨-, tokenId, len, hremembers, hn⟩
    · exact absurd hpre (h.ends hne v hv)
    · cases hremembers with
      | nothing hnone =>
        obtain ⟨t, ht, htne, hpre⟩ := h.complete b hb u hu hub
        exact absurd (hnone t ht hpre hpre.length_le) htne
      | token htne hid hpre hlen hlongest =>
        exact ⟨n, _, _, .token htne hid hpre fun u hu hpre => hlongest u hu hpre hpre.length_le, hn⟩
  · -- no token begins with the byte
    have hnone : ∀ u ∈ tokens, u <+: b :: others → u = [] := by
      rintro (_ | ⟨c, u⟩) hu hpre
      · rfl
      · refine absurd ⟨_, hu, ?_⟩ hstart
        rw [(List.cons_prefix_cons.1 hpre).1]
        exact List.prefix_append [b] u
    have hchild : (rwkvTokenMatcher tokens).traverse b = none := by
      have hwalk : ¬((rwkvTokenMatcher tokens).walk [b]).isSome :=
        (isSome_walk_rwkvTokenMatcher _).not.2 (not_or.2 ⟨List.cons_ne_nil _ _, hstart⟩)
      rw [PrefixTree.walk_cons] at hwalk
      simpa using hwalk
    have hget : (pre ++ b :: others)[pre.length]? = some b := by
      rw [List.getElem?_append_right (le_refl _), Nat.sub_self]
      rfl
    have hwrap : wrap32 (pre.length + 1) = pre.length + 1 := by
      rw [List.length_append, List.length_cons] at hbound
      exact Nat.mod_eq_of_lt (by omega)
    refine ⟨1, [b], tokenUnk, .unknown hb hnone, ?_⟩
    rw [Function.iterate_one, RwkvState.step, hget]
    simp only [hchild, hwrap, List.length_singleton]

lemma scan_not_passable (hbound : (pre ++ rest).length < 2147483648) (h : ¬Passable tokens rest)
    (output : List ℤ) :
    ∃ n, 0 < n ∧ ((RwkvState.step (rwkvTokenMatcher tokens) tokenUnk (pre ++ rest))^[n]
        (.scan pre.length output) = .undefined ∨
      ∃ output', (RwkvState.step (rwkvTokenMatcher tokens) tokenUnk (pre ++ rest))^[n]
        (.scan pre.length output) = .scan 0 output') := by
  by_cases hends : rest ≠ [] → ∀ u ∈ tokens, ¬rest ++ [0] <+: u
  · have hdead : ∃ b, [b] <+: rest ∧ ∃ u ∈ tokens, [b] <+: u ∧
        ∀ t ∈ tokens, t ≠ [] → ¬t <+: rest := by
      by_contra hnot
      push Not at hnot
      exact h ⟨hnot, hends⟩
    obtain ⟨b, hb, u, hu, hub, hnone⟩ := hdead
    have hne : rest ≠ [] := List.ne_nil_of_length_pos hb.length_le
    obtain ⟨n, hpos, hn⟩ := scan_walk tokenUnk hbound hb ⟨u, hu, hub⟩ output
    rcases hn with ⟨⟨v, hv, hpre⟩, -⟩ | ⟨-, tokenId, len, hremembers, hn⟩
    · exact absurd hpre (hends hne v hv)
    · refine ⟨n, hpos, .inr ⟨output ++ [(tokenId : ℤ)], hn.trans ?_⟩⟩
      cases hremembers with
      | nothing hnone => rfl
      | token htne hid hpre hlen hlongest =>
        exact absurd hpre (hnone _ (List.mem_of_getElem? hid.1) htne)
  · push Not at hends
    obtain ⟨hne, u, hu, hpre⟩ := hends
    obtain ⟨b, others, rfl⟩ := List.exists_cons_of_ne_nil hne
    have hub : [b] <+: u := (List.prefix_append [b] (others ++ [0])).trans hpre
    obtain ⟨n, hpos, hn⟩ := scan_walk tokenUnk hbound (List.prefix_append [b] others)
      ⟨u, hu, hub⟩ output
    rcases hn with ⟨-, hn⟩ | ⟨hnot, -⟩
    · exact ⟨n, hpos, .inl hn⟩
    · exact absurd hpre (hnot u hu)

end Pieces

/-! ## The loop -/

section Loop

lemma exists_run (pre rest output) (hbound : (pre ++ rest).length < 2147483648)
    (h : ∀ r, GreedyCut tokens tokenUnk rest r → Passable tokens r) :
    ∃ n output', (RwkvState.step (rwkvTokenMatcher tokens) tokenUnk (pre ++ rest))^[n]
        (.scan pre.length output) = .done (output ++ output') ∧
      GreedyTokens tokens tokenUnk rest output' := by
  induction hlen : rest.length using Nat.strong_induction_on generalizing pre rest output with
  | _ k ih =>
    subst hlen
    by_cases hne : rest = []
    · subst hne
      refine ⟨1, [], ?_, .nil⟩
      rw [Function.iterate_one, RwkvState.step, List.append_nil, List.getElem?_length,
        List.append_nil]
    · obtain ⟨n, t, id, hpiece, hn⟩ := scan_passable tokenUnk hbound hne (h rest .start) output
      obtain ⟨rest', rfl⟩ := hpiece.isPrefix
      have htne := List.length_pos_of_ne_nil hpiece.ne_nil
      have hcuts : ∀ r, GreedyCut tokens tokenUnk rest' r → GreedyCut tokens tokenUnk (t ++ rest') r := by
        intro r hr
        induction hr with
        | start => exact .next .start hpiece
        | next _ hpiece' ih' => exact .next ih' hpiece'
      rw [← List.append_assoc] at hbound hn ⊢
      obtain ⟨m, output', hm, hgreedy⟩ := ih rest'.length
        (by rw [List.length_append]; omega) (pre ++ t) rest' (output ++ [id]) hbound
        (fun r hr => h r (hcuts r hr)) rfl
      refine ⟨m + n, id :: output', ?_, .piece hpiece hgreedy⟩
      rw [Function.iterate_add_apply, hn, ← List.length_append, hm, List.append_assoc]
      rfl

variable {text rest : List UInt8}

lemma GreedyCut.suffix (h : GreedyCut tokens tokenUnk text rest) : ∃ pre, text = pre ++ rest := by
  induction h with
  | start => exact ⟨[], rfl⟩
  | @next t rest id hcut hpiece ih =>
    obtain ⟨pre, hpre⟩ := ih
    exact ⟨pre ++ t, by rw [List.append_assoc, ← hpre]⟩

lemma GreedyCut.arrives (hbound : text.length < 2147483648) (h : GreedyCut tokens tokenUnk text rest)
    (hpass : ∀ r, GreedyCut tokens tokenUnk text r → rest.length < r.length → Passable tokens r)
    (output : List ℤ) : ∃ n pre output', text = pre ++ rest ∧
      (RwkvState.step (rwkvTokenMatcher tokens) tokenUnk text)^[n] (.scan 0 output) =
        .scan pre.length output' := by
  induction h with
  | start => exact ⟨0, [], output, rfl, rfl⟩
  | @next t rest id hcut hpiece ih =>
    have htne := List.length_pos_of_ne_nil hpiece.ne_nil
    have hlt : rest.length < (t ++ rest).length := by
      rw [List.length_append]
      omega
    obtain ⟨n, pre, output', rfl, hn⟩ := ih fun r hr hr' => hpass r hr (hlt.trans hr')
    obtain ⟨m, t', id', hpiece', hm⟩ := scan_passable tokenUnk hbound
      (List.append_ne_nil_of_left_ne_nil hpiece.ne_nil _) (hpass _ hcut hlt) output'
    refine ⟨m + n, pre ++ t, output' ++ [id'], (List.append_assoc _ _ _).symm, ?_⟩
    rw [Function.iterate_add_apply, hn, hm, hpiece.unique hpiece', List.length_append]

lemma not_done_of_restarts
    (h : ∀ output, ∃ n, 0 < n ∧
      ((RwkvState.step (rwkvTokenMatcher tokens) tokenUnk text)^[n] (.scan 0 output) = .undefined ∨
        ∃ output', (RwkvState.step (rwkvTokenMatcher tokens) tokenUnk text)^[n] (.scan 0 output) =
          .scan 0 output')) (k : ℕ) (output result : List ℤ) :
    (RwkvState.step (rwkvTokenMatcher tokens) tokenUnk text)^[k] (.scan 0 output) ≠ .done result := by
  induction k using Nat.strong_induction_on generalizing output with
  | _ k ih =>
    intro hdone
    obtain ⟨n, hpos, hn⟩ := h output
    have hstay : ∀ m, (RwkvState.step (rwkvTokenMatcher tokens) tokenUnk text)^[m] (.done result) =
        .done result := fun m => Function.iterate_fixed rfl m
    have hlost : ∀ m, (RwkvState.step (rwkvTokenMatcher tokens) tokenUnk text)^[m] .undefined =
        .undefined := fun m => Function.iterate_fixed rfl m
    rcases Nat.le_total k n with hle | hle
    · -- the loop would have ended before
      obtain ⟨m, rfl⟩ := Nat.exists_eq_add_of_le' hle
      rw [Function.iterate_add_apply, hdone, hstay] at hn
      rcases hn with hn | ⟨_, hn⟩ <;> cases hn
    · obtain ⟨m, rfl⟩ := Nat.exists_eq_add_of_le' hle
      rw [Function.iterate_add_apply] at hdone
      rcases hn with hn | ⟨output', hn⟩
      · rw [hn, hlost] at hdone
        cases hdone
      · rw [hn] at hdone
        exact ih m (by omega) output' hdone

lemma not_done_of_cut (hbound : text.length < 2147483648)
    (hcut : ∃ rest, GreedyCut tokens tokenUnk text rest ∧ ¬Passable tokens rest) (n : ℕ)
    (result : List ℤ) :
    (RwkvState.step (rwkvTokenMatcher tokens) tokenUnk text)^[n] (.scan 0 []) ≠ .done result := by
  -- the first such cut has the longest rest
  obtain ⟨rest, hrest, hnot, hfirst⟩ : ∃ rest, GreedyCut tokens tokenUnk text rest ∧
      ¬Passable tokens rest ∧ ∀ r, GreedyCut tokens tokenUnk text r → rest.length < r.length →
        Passable tokens r := by
    by_contra hall
    push Not at hall
    have hlonger : ∀ k, ∃ r, GreedyCut tokens tokenUnk text r ∧ ¬Passable tokens r ∧
        k ≤ r.length := by
      intro k
      induction k with
      | zero =>
        obtain ⟨rest, hrest, hnot⟩ := hcut
        exact ⟨rest, hrest, hnot, Nat.zero_le _⟩
      | succ k ih =>
        obtain ⟨r, hr, hnot, hk⟩ := ih
        obtain ⟨r', hr', hlt, hnot'⟩ := hall r hr hnot
        exact ⟨r', hr', hnot', hk.trans_lt hlt⟩
    obtain ⟨r, hr, -, hlen⟩ := hlonger (text.length + 1)
    obtain ⟨pre, rfl⟩ := hr.suffix
    rw [List.length_append] at hlen
    omega
  refine not_done_of_restarts (fun output => ?_) n [] result
  obtain ⟨m, pre, output', rfl, hm⟩ := hrest.arrives hbound hfirst output
  obtain ⟨k, hpos, hk⟩ := scan_not_passable tokenUnk hbound hnot output'
  refine ⟨k + m, by omega, ?_⟩
  rw [Function.iterate_add_apply, hm]
  exact hk

end Loop

/-- The loop ends with the greedy segmentation exactly when every cut of the segmentation is
passable. -/
theorem tokenizesGreedily_iff (tokens : List (List UInt8)) (tokenUnk : ℤ) (text : List UInt8)
    (hbound : text.length < 2147483648) :
    TokenizesGreedily tokens tokenUnk text ↔
      ∀ rest, GreedyCut tokens tokenUnk text rest → Passable tokens rest := by
  constructor
  · rintro ⟨n, result, hdone, -⟩ rest hrest
    by_contra hnot
    exact not_done_of_cut hbound ⟨rest, hrest, hnot⟩ n result hdone
  · intro h
    obtain ⟨n, output, hn, hgreedy⟩ := exists_run [] text [] hbound h
    exact ⟨n, output, hn, hgreedy⟩

theorem tokenizesGreedily_iff_ab : TokenizesGreedily [[97], [97, 98]] 0 [97, 98, 97] ↔
    ∀ rest, GreedyCut [[97], [97, 98]] 0 [97, 98, 97] rest → Passable [[97], [97, 98]] rest :=
  tokenizesGreedily_iff _ _ _ (by decide)

/-- The text `ac` is not tokenized if `ab` is the only token. -/
theorem not_tokenizesGreedily_ac : ¬TokenizesGreedily [[97, 98]] 0 [97, 99] := by
  rintro ⟨n, result, hdone, -⟩
  refine not_done_of_cut (by decide) ⟨_, .start, fun hpass => ?_⟩ n result hdone
  obtain ⟨t, ht, -, hpre⟩ := hpass.complete 97 (by decide) [97, 98] (List.mem_singleton.2 rfl)
    (by decide)
  rw [List.mem_singleton.1 ht] at hpre
  exact absurd hpre (by decide)

end IFairy
