import IFairy.Vocab.Ugm
import Mathlib.Algebra.Order.BigOperators.Group.List
import Mathlib.Tactic.Linarith

/-!
# Segmentations by the UGM tokenizer

The edges that the forward pass relaxes are those of the pieces of segmentations (`mem_textEdges`),
so the paths of `BestPaths` are segmentations, and the backtrack follows a best one.
-/

namespace IFairy

open BestPaths

namespace UgmVocab

variable (vocab : UgmVocab)

/-! ## The matcher -/

lemma find_tokenMatcher (q : List UInt8) (id : ℕ) :
    vocab.tokenMatcher.find q = some id ↔
      ∃ t, vocab.tokens[id]? = some t ∧ t.matched = true ∧ t.text = q := by
  have hnodup : (((vocab.tokens.zipIdx.filter (·.1.matched)).map fun e => (e.1.text, e.2)).map
      Prod.fst).Nodup := by
    rw [List.map_map]
    have hsub : List.Sublist ((vocab.tokens.zipIdx.filter (·.1.matched)).map (·.1.text))
        (vocab.tokens.zipIdx.map (·.1.text)) := List.filter_sublist.map _
    refine hsub.nodup ?_
    have hfun : (fun e : UgmToken × ℕ => e.1.text) = UgmToken.text ∘ Prod.fst := rfl
    rw [hfun, ← List.map_map, List.zipIdx_map_fst]
    exact vocab.nodup
  rw [tokenMatcher, PrefixTree.find_ofList_of_nodup hnodup]
  simp only [List.mem_map, List.mem_filter, Prod.mk.injEq, Prod.exists,
    List.mem_zipIdx_iff_getElem?]
  constructor
  · rintro ⟨t, i, ⟨hi, hmatched⟩, rfl, rfl⟩
    exact ⟨t, hi, hmatched, rfl⟩
  · rintro ⟨t, ht, hmatched, rfl⟩
    exact ⟨t, id, ⟨ht, hmatched⟩, rfl, rfl⟩

lemma find_tokenMatcher_eq_none (q : List UInt8) :
    vocab.tokenMatcher.find q = none ↔
      ∀ t ∈ vocab.tokens, t.matched = true → t.text ≠ q := by
  rw [Option.eq_none_iff_forall_ne_some]
  constructor
  · rintro h t ht hmatched rfl
    obtain ⟨i, hi⟩ := List.getElem?_of_mem ht
    exact h i ((vocab.find_tokenMatcher _ i).2 ⟨t, hi, hmatched, rfl⟩)
  · intro h i hi
    obtain ⟨t, ht, hmatched, htext⟩ := (vocab.find_tokenMatcher q i).1 hi
    exact h t (List.mem_of_getElem? ht) hmatched htext

/-! ## The forward pass relaxes edges -/

/-- The edges of the tokens that are found from a node on. -/
def tokenEdges (inputOffset : ℕ) : PrefixTree UInt8 ℕ → ℕ → List UInt8 → List (Edge ℤ ℚ)
  | node, prefixOffset, rest =>
    (node.value.map fun id : ℕ =>
      Edge.mk inputOffset prefixOffset (id : ℤ) (vocab.tokenScore id)).toList ++
      match rest with
      | [] => []
      | c :: rest =>
        match node.traverse c with
        | some node => tokenEdges inputOffset node (prefixOffset + 1) rest
        | none => []

lemma matchTokens_eq (inputOffset n : ℕ) (node : PrefixTree UInt8 ℕ) (prefixOffset : ℕ)
    (rest : List UInt8) (results : TokenizationResults) (found : Bool) :
    vocab.matchTokens inputOffset n node prefixOffset rest (results, found) =
      (relaxAll results (vocab.tokenEdges inputOffset node prefixOffset rest),
        found || (vocab.tokenEdges inputOffset node prefixOffset rest).any
          (·.target - inputOffset = n)) := by
  induction rest generalizing node prefixOffset results found with
  | nil =>
    cases hvalue : node.value with
    | none => simp [matchTokens, tokenEdges, hvalue, relaxAll]
    | some id =>
      simp only [matchTokens, tokenEdges, hvalue, Option.map_some, Option.toList_some,
        List.append_nil, List.any_cons, List.any_nil, Bool.or_false]
      rfl
  | cons c rest ih =>
    cases hvalue : node.value with
    | none =>
      simp only [matchTokens, tokenEdges, hvalue, Option.map_none, Option.toList_none,
        List.nil_append]
      cases node.traverse c with
      | none => simp [relaxAll]
      | some node' => exact ih node' _ results found
    | some id =>
      simp only [matchTokens, tokenEdges, hvalue, Option.map_some, Option.toList_some]
      cases node.traverse c with
      | none =>
        simp only [List.append_nil, List.any_cons, List.any_nil, Bool.or_false]
        rfl
      | some node' =>
        simp only [List.cons_append, List.nil_append, List.any_cons]
        rw [ih, Bool.or_assoc]
        rfl

lemma mem_tokenEdges {inputOffset prefixOffset : ℕ} {node : PrefixTree UInt8 ℕ}
    {rest : List UInt8} {e : Edge ℤ ℚ} :
    e ∈ vocab.tokenEdges inputOffset node prefixOffset rest ↔
      ∃ k ≤ rest.length, ∃ id, node.find (rest.take k) = some id ∧
        e = ⟨inputOffset, prefixOffset + k, id, vocab.tokenScore id⟩ := by
  induction rest generalizing node prefixOffset with
  | nil =>
    rw [tokenEdges, List.append_nil, Option.mem_toList, Option.map_eq_some_iff]
    constructor
    · rintro ⟨id, hid, rfl⟩
      exact ⟨0, le_refl _, id, hid, rfl⟩
    · rintro ⟨k, hk, id, hid, rfl⟩
      obtain rfl := Nat.le_zero.1 hk
      exact ⟨id, hid, rfl⟩
  | cons c rest ih =>
    rw [tokenEdges, List.mem_append, Option.mem_toList, Option.map_eq_some_iff]
    constructor
    · rintro (⟨id, hid, rfl⟩ | he)
      · exact ⟨0, Nat.zero_le _, id, hid, rfl⟩
      · cases hchild : node.traverse c with
        | none =>
          rw [hchild] at he
          cases he
        | some node' =>
          rw [hchild] at he
          obtain ⟨k, hk, id, hid, rfl⟩ := ih.1 he
          refine ⟨k + 1, Nat.succ_le_succ hk, id, ?_, by rw [Nat.add_assoc, Nat.add_comm 1]⟩
          rw [PrefixTree.find, List.take_succ_cons, PrefixTree.walk_cons, hchild]
          exact hid
    · rintro ⟨_ | k, hk, id, hid, rfl⟩
      · exact .inl ⟨id, hid, rfl⟩
      · rw [PrefixTree.find, List.take_succ_cons, PrefixTree.walk_cons] at hid
        cases hchild : node.traverse c with
        | none =>
          rw [hchild] at hid
          cases hid
        | some node' =>
          rw [hchild] at hid
          exact .inr (ih.2 ⟨k, Nat.le_of_succ_le_succ hk, id, hid,
            by rw [Nat.add_assoc, Nat.add_comm 1]⟩)

/-- The edges at a code point of `n` bytes. -/
def codePointEdges (inputOffset n : ℕ) : List UInt8 → List (Edge ℤ ℚ)
  | [] => []
  | c :: rest =>
    let tokens :=
      match vocab.tokenMatcher.traverse c with
      | some node => vocab.tokenEdges inputOffset node (inputOffset + 1) rest
      | none => []
    tokens ++ if tokens.any (·.target - inputOffset = n) then []
      else [⟨inputOffset, inputOffset + n, vocab.tokenUnk, vocab.unknownTokenScore⟩]

/-- The edges of a text from `inputOffset` on. -/
def textEdges : ℕ → List Char → List (Edge ℤ ℚ)
  | _, [] => []
  | inputOffset, c :: cpts =>
    let n := (String.utf8EncodeChar c).length
    vocab.codePointEdges inputOffset n (encodeUtf8 (c :: cpts)) ++ textEdges (inputOffset + n) cpts

lemma forwardPass_eq (cpts : List Char) (fuel inputOffset : ℕ)
    (hfuel : (encodeUtf8 cpts).length ≤ fuel) (results : TokenizationResults) :
    vocab.forwardPass fuel inputOffset (encodeUtf8 cpts) results =
      relaxAll results (vocab.textEdges inputOffset cpts) := by
  induction cpts generalizing fuel inputOffset results with
  | nil =>
    cases fuel <;> rfl
  | cons c cpts ih =>
    obtain ⟨b, bs, hchar, hlen⟩ := unicodeLenUtf8_encode c
    have htext : encodeUtf8 (c :: cpts) = b :: (bs ++ encodeUtf8 cpts) := by
      rw [encodeUtf8_cons, hchar]
      rfl
    have hn : min (unicodeLenUtf8 b) ((bs ++ encodeUtf8 cpts).length + 1) =
        (String.utf8EncodeChar c).length := by
      rw [hlen, hchar, List.length_append, List.length_cons]
      omega
    have hdrop : (b :: (bs ++ encodeUtf8 cpts)).drop (String.utf8EncodeChar c).length =
        encodeUtf8 cpts := by
      rw [← htext, encodeUtf8_cons, List.drop_left]
    obtain _ | fuel := fuel
    · rw [htext] at hfuel
      exact absurd hfuel (Nat.not_succ_le_zero _)
    have hfuel' : (encodeUtf8 cpts).length ≤ fuel := by
      rw [htext, List.length_cons, List.length_append] at hfuel
      omega
    rw [htext, forwardPass, hn, hdrop, textEdges, relaxAll_append, htext]
    simp only
    rw [ih fuel _ hfuel']
    congr 1
    rw [codePointEdges]
    cases vocab.tokenMatcher.traverse b with
    | none => rfl
    | some node =>
      simp only [matchTokens_eq, Bool.false_or]
      cases (vocab.tokenEdges inputOffset node (inputOffset + 1)
        (bs ++ encodeUtf8 cpts)).any (·.target - inputOffset = (String.utf8EncodeChar c).length) with
      | true =>
        simp
      | false =>
        simp only [Bool.not_false, if_true, Bool.false_eq_true, if_false, relaxAll_append]
        rfl

/-! ## Edges are pieces -/

/-- The tokens of the vocabulary that go into the matcher, and the code points that are none. -/
abbrev IsUgmPiece (p : UgmPiece) : Prop := vocab.IsPiece UgmToken.matched p

def pieceEdge (inputOffset : ℕ) (p : UgmPiece) : Edge ℤ ℚ :=
  ⟨inputOffset, inputOffset + (vocab.pieceText p).length, vocab.pieceId p, vocab.pieceScore p⟩

variable {vocab}

lemma isPiece_token_iff {usable : UgmToken → Bool} {id : ℕ} :
    vocab.IsPiece usable (.token id) ↔ ∃ t, vocab.tokens[id]? = some t ∧ usable t = true := by
  simp only [IsPiece, Option.mem_def]

lemma pieceText_token {id : ℕ} {t : UgmToken} (ht : vocab.tokens[id]? = some t) :
    vocab.pieceText (.token id) = t.text := by
  rw [pieceText, ht]
  rfl

lemma mem_codePointEdges {inputOffset : ℕ} {c : Char} {rest : List UInt8} {e : Edge ℤ ℚ} :
    e ∈ vocab.codePointEdges inputOffset (String.utf8EncodeChar c).length
        (String.utf8EncodeChar c ++ rest) ↔
      (∃ id, vocab.IsUgmPiece (.token id) ∧
        vocab.pieceText (.token id) <+: String.utf8EncodeChar c ++ rest ∧
        e = vocab.pieceEdge inputOffset (.token id)) ∨
      vocab.IsUgmPiece (.unknown c) ∧ e = vocab.pieceEdge inputOffset (.unknown c) := by
  obtain ⟨b, bs, hchar, -⟩ := unicodeLenUtf8_encode c
  set n := (String.utf8EncodeChar c).length with hn
  have hnpos : 0 < n := by
    rw [hn, hchar]
    exact Nat.succ_pos _
  have hnlen : n ≤ (bs ++ rest).length + 1 := by
    rw [hn, hchar, List.length_append, List.length_cons]
    omega
  have htake : (b :: (bs ++ rest)).take n = String.utf8EncodeChar c := by
    rw [← List.cons_append, ← hchar, hn, List.take_left]
  -- the edges of the tokens
  set tokens := match vocab.tokenMatcher.traverse b with
    | some node => vocab.tokenEdges inputOffset node (inputOffset + 1) (bs ++ rest)
    | none => [] with htokens
  have hmem : ∀ e, e ∈ tokens ↔ ∃ k, 0 < k ∧ k ≤ (bs ++ rest).length + 1 ∧ ∃ id : ℕ,
      vocab.tokenMatcher.find ((b :: (bs ++ rest)).take k) = some id ∧
      e = ⟨inputOffset, inputOffset + k, id, vocab.tokenScore id⟩ := by
    intro e
    cases hchild : vocab.tokenMatcher.traverse b with
    | none =>
      simp only [htokens, hchild]
      refine iff_of_false List.not_mem_nil ?_
      rintro ⟨_ | k, hk, -, id, hid, -⟩
      · exact absurd hk (lt_irrefl 0)
      · rw [PrefixTree.find, List.take_succ_cons, PrefixTree.walk_cons, hchild] at hid
        cases hid
    | some node =>
      simp only [htokens, hchild, mem_tokenEdges]
      constructor
      · rintro ⟨k, hk, id, hid, rfl⟩
        refine ⟨k + 1, Nat.succ_pos k, Nat.succ_le_succ hk, id, ?_,
          by rw [Nat.add_assoc, Nat.add_comm 1]⟩
        rw [PrefixTree.find, List.take_succ_cons, PrefixTree.walk_cons, hchild]
        exact hid
      · rintro ⟨_ | k, hk, hle, id, hid, rfl⟩
        · exact absurd hk (lt_irrefl 0)
        · rw [PrefixTree.find, List.take_succ_cons, PrefixTree.walk_cons, hchild] at hid
          exact ⟨k, Nat.le_of_succ_le_succ hle, id, hid, by rw [Nat.add_assoc, Nat.add_comm 1]⟩
  have htoken : ∀ e, e ∈ tokens ↔ ∃ id, vocab.IsUgmPiece (.token id) ∧
      vocab.pieceText (.token id) <+: b :: (bs ++ rest) ∧
      e = vocab.pieceEdge inputOffset (.token id) := by
    intro e
    rw [hmem e]
    constructor
    · rintro ⟨k, hk, hle, id, hid, rfl⟩
      obtain ⟨t, ht, hmatched, htext⟩ := (vocab.find_tokenMatcher _ id).1 hid
      have hpiece := pieceText_token ht
      refine ⟨id, isPiece_token_iff.2 ⟨t, ht, hmatched⟩, ?_, ?_⟩
      · rw [hpiece, htext]
        exact List.take_prefix _ _
      · rw [pieceEdge, hpiece, htext, List.length_take_of_le hle]
        rfl
    · rintro ⟨id, hpiece, hpre, rfl⟩
      obtain ⟨t, ht, hmatched⟩ := isPiece_token_iff.1 hpiece
      have htext := pieceText_token ht
      rw [htext] at hpre
      refine ⟨t.text.length, List.length_pos_of_ne_nil (vocab.ne_nil t (List.mem_of_getElem? ht)),
        hpre.length_le, id, ?_, ?_⟩
      · rw [← List.prefix_iff_eq_take.1 hpre]
        exact (vocab.find_tokenMatcher _ id).2 ⟨t, ht, hmatched, rfl⟩
      · rw [pieceEdge, htext]
        rfl
  -- the edge of the unknown token
  have hany : tokens.any (·.target - inputOffset = n) = true ↔ ¬vocab.IsUgmPiece (.unknown c) := by
    have hpiece : vocab.IsUgmPiece (.unknown c) ↔
        vocab.tokenMatcher.find (String.utf8EncodeChar c) = none :=
      (vocab.find_tokenMatcher_eq_none _).symm
    rw [hpiece, ← Ne, Option.ne_none_iff_exists', List.any_eq_true]
    constructor
    · rintro ⟨e, he, heq⟩
      obtain ⟨k, -, -, id, hid, rfl⟩ := (hmem e).1 he
      have hk : k = n := by simpa using heq
      exact ⟨id, by rw [← htake, ← hk, hid]⟩
    · rintro ⟨id, hid⟩
      rw [← htake] at hid
      exact ⟨_, (hmem _).2 ⟨n, hnpos, hnlen, id, hid, rfl⟩, by simp⟩
  have hedges : vocab.codePointEdges inputOffset n (b :: (bs ++ rest)) =
      tokens ++ if tokens.any (·.target - inputOffset = n) then []
        else [⟨inputOffset, inputOffset + n, vocab.tokenUnk, vocab.unknownTokenScore⟩] := rfl
  rw [hchar, List.cons_append, hedges, List.mem_append, htoken e]
  refine or_congr_right ?_
  by_cases hunknown : vocab.IsUgmPiece (.unknown c)
  · rw [if_neg (hany.not.2 (not_not.2 hunknown)), List.mem_singleton]
    exact (and_iff_right hunknown).symm
  · rw [if_pos (hany.2 hunknown)]
    exact iff_of_false List.not_mem_nil fun h => hunknown h.1

lemma mem_textEdges (hvalid : ∀ t ∈ vocab.tokens, ValidUtf8 t.text) {inputOffset : ℕ}
    {cpts : List Char} {e : Edge ℤ ℚ} :
    e ∈ vocab.textEdges inputOffset cpts ↔
      ∃ before piece after p, cpts = before ++ (piece ++ after) ∧ piece ≠ [] ∧
        vocab.IsUgmPiece p ∧ vocab.pieceText p = encodeUtf8 piece ∧
        e = vocab.pieceEdge (inputOffset + (encodeUtf8 before).length) p := by
  induction cpts generalizing inputOffset with
  | nil =>
    refine iff_of_false List.not_mem_nil ?_
    rintro ⟨before, piece, after, p, hcpts, hne, -⟩
    exact hne (List.append_eq_nil_iff.1 (List.append_eq_nil_iff.1 hcpts.symm).2).1
  | cons c cpts ih =>
    rw [textEdges, List.mem_append, ih, encodeUtf8_cons, mem_codePointEdges]
    constructor
    · rintro ((⟨id, hpiece, hpre, rfl⟩ | ⟨hpiece, rfl⟩) | h)
      · obtain ⟨t, ht, hmatched⟩ := isPiece_token_iff.1 hpiece
        have hmem := List.mem_of_getElem? ht
        obtain ⟨piece, hpieceText⟩ := hvalid t hmem
        have htext := (pieceText_token ht).trans hpieceText.symm
        obtain ⟨rest, hrest⟩ := hpre
        rw [htext, ← encodeUtf8_cons] at hrest
        obtain ⟨after, hcpts, -⟩ := encodeUtf8_split hrest
        refine ⟨[], piece, after, .token id, hcpts, ?_, hpiece, htext, rfl⟩
        rintro rfl
        exact vocab.ne_nil t hmem hpieceText.symm
      · exact ⟨[], [c], cpts, .unknown c, rfl, List.cons_ne_nil _ _, hpiece,
          (List.append_nil _).symm, rfl⟩
      · obtain ⟨before, piece, after, p, rfl, hne, hpiece, htext, rfl⟩ := h
        refine ⟨c :: before, piece, after, p, rfl, hne, hpiece, htext, ?_⟩
        rw [encodeUtf8_cons, List.length_append, Nat.add_assoc]
    · rintro ⟨_ | ⟨d, before⟩, piece, after, p, hcpts, hne, hpiece, htext, rfl⟩
      · left
        obtain ⟨d, piece, rfl⟩ := List.exists_cons_of_ne_nil hne
        rw [List.nil_append, List.cons_append] at hcpts
        obtain ⟨rfl, rfl⟩ := List.cons.inj hcpts
        cases p with
        | token id =>
          refine .inl ⟨id, hpiece, ?_, rfl⟩
          rw [htext, encodeUtf8_cons, encodeUtf8_append, ← List.append_assoc]
          exact List.prefix_append _ _
        | unknown d =>
          have hsame : encodeUtf8 [d] ++ [] = encodeUtf8 (c :: piece) := by
            rw [← htext, List.append_nil]
            exact List.append_nil _
          obtain ⟨others, hothers, -⟩ := encodeUtf8_split hsame
          obtain ⟨rfl, -⟩ := List.cons.inj hothers
          exact .inr ⟨hpiece, rfl⟩
      · obtain ⟨rfl, rfl⟩ := List.cons.inj hcpts
        refine .inr ⟨before, piece, after, p, rfl, hne, hpiece, htext, ?_⟩
        rw [encodeUtf8_cons, List.length_append, Nat.add_assoc]

/-! ## Paths are segmentations -/

/-- The segmentations by what goes into the matcher. -/
abbrev IsUgmSegmentation (vocab : UgmVocab) (text : List UInt8) (pieces : List UgmPiece) : Prop :=
  vocab.IsSegmentation UgmToken.matched text pieces

@[simp] lemma totalScore_nil : vocab.totalScore [] = 0 := rfl

@[simp] lemma totalScore_concat (pieces : List UgmPiece) (p : UgmPiece) :
    vocab.totalScore (pieces ++ [p]) = vocab.totalScore pieces + vocab.pieceScore p := by
  simp [totalScore]

lemma eq_of_length_encode {before before' after after' : List Char}
    (h : before ++ after = before' ++ after')
    (hlen : (encodeUtf8 before).length = (encodeUtf8 before').length) : before = before' := by
  have hbytes := congrArg encodeUtf8 h
  rw [encodeUtf8_append, encodeUtf8_append] at hbytes
  obtain ⟨heq, -⟩ := List.append_inj hbytes hlen
  obtain ⟨others, rfl, hothers⟩ := encodeUtf8_split ((List.append_nil (encodeUtf8 before)).trans heq)
  cases others with
  | nil => exact (List.append_nil _).symm
  | cons c others =>
    rw [encodeUtf8_cons] at hothers
    exact absurd (List.append_eq_nil_iff.1 hothers.symm).1 String.utf8EncodeChar_ne_nil

lemma exists_segmentation_of_path (hvalid : ∀ t ∈ vocab.tokens, ValidUtf8 t.text) {cpts : List Char}
    {path : List (Edge ℤ ℚ)} {v : ℕ} (h : Path (vocab.textEdges 0 cpts) 0 path v) :
    ∃ pieces before after, cpts = before ++ after ∧ v = (encodeUtf8 before).length ∧
      vocab.IsUgmSegmentation (encodeUtf8 before) pieces ∧
      path.map Edge.label = pieces.map vocab.pieceId ∧ weight path = vocab.totalScore pieces := by
  induction h with
  | nil => exact ⟨[], [], cpts, rfl, rfl, ⟨fun p hp => absurd hp List.not_mem_nil, rfl⟩, rfl, rfl⟩
  | @concat path e hpath he ih =>
    obtain ⟨pieces, before, after, hcpts, hsource, hseg, hlabels, hweight⟩ := ih
    obtain ⟨before', piece, after', p, hcpts', hne, hpiece, htext, rfl⟩ := (mem_textEdges hvalid).1 he
    obtain rfl : before = before' := by
      refine eq_of_length_encode (hcpts.symm.trans hcpts') ?_
      rw [← hsource]
      exact Nat.zero_add _
    refine ⟨pieces ++ [p], before ++ piece, after', by rw [hcpts', List.append_assoc], ?_, ⟨?_, ?_⟩,
      ?_, ?_⟩
    · rw [encodeUtf8_append, List.length_append, ← htext]
      exact congrArg (· + _) (Nat.zero_add _)
    · intro q hq
      rcases List.mem_append.1 hq with hq | hq
      · exact hseg.isPiece q hq
      · rw [List.mem_singleton.1 hq]
        exact hpiece
    · rw [List.flatMap_append, hseg.text_eq, encodeUtf8_append, ← htext]
      exact congrArg (_ ++ ·) (List.append_nil _)
    · rw [List.map_append, List.map_append, hlabels]
      rfl
    · rw [weight_concat, totalScore_concat, hweight]
      rfl

lemma validUtf8_pieces (hvalid : ∀ t ∈ vocab.tokens, ValidUtf8 t.text) {pieces : List UgmPiece}
    (h : ∀ p ∈ pieces, vocab.IsUgmPiece p) : ValidUtf8 (pieces.flatMap vocab.pieceText) := by
  induction pieces with
  | nil => exact ⟨[], rfl⟩
  | cons p pieces ih =>
    obtain ⟨hp, hpieces⟩ := List.forall_mem_cons.1 h
    obtain ⟨cpts, hcpts⟩ := ih hpieces
    obtain ⟨piece, hpiece⟩ : ValidUtf8 (vocab.pieceText p) := by
      cases p with
      | token id =>
        obtain ⟨t, ht, -⟩ := isPiece_token_iff.1 hp
        rw [pieceText_token ht]
        exact hvalid t (List.mem_of_getElem? ht)
      | unknown c => exact ⟨[c], List.append_nil _⟩
    exact ⟨piece ++ cpts, by rw [encodeUtf8_append, hpiece, hcpts, List.flatMap_cons]⟩

lemma pieceText_ne_nil {usable : UgmToken → Bool} {p : UgmPiece} (h : vocab.IsPiece usable p) :
    vocab.pieceText p ≠ [] := by
  cases p with
  | token id =>
    obtain ⟨t, ht, -⟩ := isPiece_token_iff.1 h
    rw [pieceText_token ht]
    exact vocab.ne_nil t (List.mem_of_getElem? ht)
  | unknown c => exact String.utf8EncodeChar_ne_nil

lemma exists_path_of_segmentation (hvalid : ∀ t ∈ vocab.tokens, ValidUtf8 t.text)
    {before : List Char} (after : List Char) {pieces : List UgmPiece}
    (h : vocab.IsUgmSegmentation (encodeUtf8 before) pieces) :
    ∃ path, Path (vocab.textEdges 0 (before ++ after)) 0 path (encodeUtf8 before).length ∧
      weight path = vocab.totalScore pieces := by
  induction pieces using List.reverseRecOn generalizing before after with
  | nil =>
    obtain rfl : before = [] := by
      refine eq_of_length_encode ((List.append_nil before).trans (List.nil_append before).symm) ?_
      rw [← h.text_eq]
      rfl
    exact ⟨[], .nil, rfl⟩
  | append_singleton pieces p ih =>
    have hpieces : ∀ q ∈ pieces, vocab.IsUgmPiece q := fun q hq =>
      h.isPiece q (List.mem_append_left _ hq)
    have hp : vocab.IsUgmPiece p := h.isPiece p (List.mem_append_right _ (List.mem_singleton.2 rfl))
    obtain ⟨first, hfirst⟩ := validUtf8_pieces hvalid hpieces
    have htext : encodeUtf8 first ++ vocab.pieceText p = encodeUtf8 before := by
      rw [hfirst, ← h.text_eq, List.flatMap_append]
      exact congrArg (_ ++ ·) (List.append_nil _).symm
    obtain ⟨piece, rfl, hpiece⟩ := encodeUtf8_split htext
    have hne : piece ≠ [] := by
      rintro rfl
      exact pieceText_ne_nil hp hpiece
    obtain ⟨path, hpath, hweight⟩ := @ih first (piece ++ after) ⟨hpieces, hfirst.symm⟩
    rw [← List.append_assoc] at hpath
    have he : vocab.pieceEdge (encodeUtf8 first).length p ∈
        vocab.textEdges 0 (first ++ piece ++ after) :=
      (mem_textEdges hvalid).2 ⟨first, piece, after, p, List.append_assoc _ _ _, hne, hp, hpiece,
        by rw [Nat.zero_add]⟩
    have hlen : (encodeUtf8 (first ++ piece)).length =
        (vocab.pieceEdge (encodeUtf8 first).length p).target := by
      rw [encodeUtf8_append, List.length_append, ← hpiece]
      rfl
    refine ⟨path ++ [vocab.pieceEdge (encodeUtf8 first).length p], ?_, ?_⟩
    · rw [hlen]
      exact .concat hpath he
    · rw [weight_concat, hweight, totalScore_concat]
      rfl

lemma exists_segmentation (vocab : UgmVocab) (cpts : List Char) :
    ∃ pieces, vocab.IsUgmSegmentation (encodeUtf8 cpts) pieces := by
  induction cpts with
  | nil => exact ⟨[], fun p hp => absurd hp List.not_mem_nil, rfl⟩
  | cons c cpts ih =>
    obtain ⟨pieces, hpieces⟩ := ih
    obtain ⟨p, hp, htext⟩ : ∃ p, vocab.IsUgmPiece p ∧ vocab.pieceText p = String.utf8EncodeChar c := by
      by_cases h : vocab.IsUgmPiece (.unknown c)
      · exact ⟨.unknown c, h, rfl⟩
      · have hsome : vocab.tokenMatcher.find (String.utf8EncodeChar c) ≠ none :=
          fun hnone => h ((vocab.find_tokenMatcher_eq_none _).1 hnone)
        obtain ⟨id, hid⟩ := Option.ne_none_iff_exists'.1 hsome
        obtain ⟨t, ht, hmatched, htext⟩ := (vocab.find_tokenMatcher _ id).1 hid
        exact ⟨.token id, isPiece_token_iff.2 ⟨t, ht, hmatched⟩, (pieceText_token ht).trans htext⟩
    refine ⟨p :: pieces, List.forall_mem_cons.2 ⟨hp, hpieces.isPiece⟩, ?_⟩
    rw [List.flatMap_cons, hpieces.text_eq, htext, encodeUtf8_cons]

/-! ## The order of the edges -/

/-- The scores of the tokens are finite. -/
def FiniteScores (vocab : UgmVocab) : Prop := ∀ t ∈ vocab.tokens, |t.score| ≤ fltMax

lemma neg_fltMax_le_minScore (h : vocab.FiniteScores) : -fltMax ≤ vocab.minScore := by
  have hle : ∀ (scores : List ℚ) (m : ℚ), -fltMax ≤ m → (∀ x ∈ scores, -fltMax ≤ x) →
      -fltMax ≤ scores.foldl min m := by
    intro scores
    induction scores with
    | nil => exact fun m hm _ => hm
    | cons x scores ih =>
      intro m hm hscores
      obtain ⟨hx, hscores⟩ := List.forall_mem_cons.1 hscores
      exact ih _ (le_min hm hx) hscores
  refine hle _ _ (neg_le_self (by norm_num [fltMax])) fun x hx => ?_
  obtain ⟨t, ht, rfl⟩ := List.mem_map.1 hx
  exact neg_le_of_abs_le (h t (List.mem_of_mem_filter ht))

lemma neg_le_pieceScore (h : vocab.FiniteScores) (p : UgmPiece) :
    -(fltMax + 10) ≤ vocab.pieceScore p := by
  cases p with
  | unknown c =>
    have := neg_fltMax_le_minScore h
    change _ ≤ vocab.minScore - 10
    linarith
  | token id =>
    have hmax : (0 : ℚ) ≤ fltMax := by norm_num [fltMax]
    change _ ≤ (vocab.tokens[id]?.map UgmToken.tokenScore).getD 0
    cases ht : vocab.tokens[id]? with
    | none =>
      change _ ≤ (0 : ℚ)
      linarith
    | some t =>
      have hscore := neg_le_of_abs_le (h t (List.mem_of_getElem? ht))
      change _ ≤ if t.userDefined then 0 else t.score
      split_ifs <;> linarith

/-- A segmentation of a text that fits into memory has a score above the one of the entries that
nothing has been written to. -/
lemma neg_dblMax_lt_totalScore (hscores : vocab.FiniteScores) {text : List UInt8}
    {pieces : List UgmPiece} (h : vocab.IsUgmSegmentation text pieces)
    (hlen : text.length < 18446744073709551616) : -dblMax < vocab.totalScore pieces := by
  have hcount : pieces.length ≤ text.length := by
    rw [← h.text_eq, List.length_flatMap,
      ← List.length_map fun p => (vocab.pieceText p).length]
    refine List.length_le_sum_of_one_le _ fun n hn => ?_
    obtain ⟨p, hp, rfl⟩ := List.mem_map.1 hn
    exact List.length_pos_of_ne_nil (pieceText_ne_nil (h.isPiece p hp))
  have hsum : (pieces.length : ℚ) * -(fltMax + 10) ≤ vocab.totalScore pieces := by
    have := List.card_nsmul_le_sum (pieces.map vocab.pieceScore) (-(fltMax + 10)) fun x hx => by
      obtain ⟨p, -, rfl⟩ := List.mem_map.1 hx
      exact neg_le_pieceScore hscores p
    rwa [List.length_map, nsmul_eq_mul] at this
  have hlt : (pieces.length : ℚ) < 18446744073709551616 := by exact_mod_cast hcount.trans_lt hlen
  have hmax : (0 : ℚ) < fltMax + 10 := by norm_num [fltMax]
  have hbig : 18446744073709551616 * (fltMax + 10) < dblMax := by
    have hpow : (2 : ℚ) ^ 200 ≤ 2 ^ 971 := pow_le_pow_right₀ one_le_two (by omega)
    have hsmall : 18446744073709551616 * (fltMax + 10) < (2 ^ 53 - 1) * 2 ^ 200 := by
      norm_num [fltMax]
    exact hsmall.trans_le (mul_le_mul_of_nonneg_left hpow (by norm_num))
  have hmul := mul_lt_mul_of_pos_right hlt hmax
  linarith

lemma textEdges_sources (hvalid : ∀ t ∈ vocab.tokens, ValidUtf8 t.text) (inputOffset : ℕ)
    (cpts : List Char) : (vocab.textEdges inputOffset cpts).Pairwise (·.source ≤ ·.source) := by
  induction cpts generalizing inputOffset with
  | nil => exact .nil
  | cons c cpts ih =>
    have hfirst : ∀ e ∈ vocab.codePointEdges inputOffset (String.utf8EncodeChar c).length
        (encodeUtf8 (c :: cpts)), e.source = inputOffset := by
      intro e he
      rw [encodeUtf8_cons, mem_codePointEdges] at he
      rcases he with ⟨id, -, -, rfl⟩ | ⟨-, rfl⟩ <;> rfl
    rw [textEdges, List.pairwise_append]
    refine ⟨List.pairwise_of_forall_mem_list fun e he e' he' => ?_, ih _, fun e he e' he' => ?_⟩
    · rw [hfirst e he, hfirst e' he']
    · obtain ⟨before, piece, after, p, -, -, -, -, rfl⟩ := (mem_textEdges hvalid).1 he'
      rw [hfirst e he]
      change inputOffset ≤ inputOffset + _ + _
      omega

lemma ordered_textEdges (hvalid : ∀ t ∈ vocab.tokens, ValidUtf8 t.text)
    (hscores : vocab.FiniteScores) {cpts : List Char}
    (hlen : (encodeUtf8 cpts).length < 18446744073709551616) :
    Ordered (-dblMax) (vocab.textEdges 0 cpts) where
  sources := textEdges_sources hvalid 0 cpts
  upwards e he := by
    obtain ⟨before, piece, after, p, -, -, hp, -, rfl⟩ := (mem_textEdges hvalid).1 he
    exact Nat.lt_add_of_pos_right (List.length_pos_of_ne_nil (pieceText_ne_nil hp))
  reached e he := by
    obtain ⟨before, piece, after, p, rfl, -, -, -, rfl⟩ := (mem_textEdges hvalid).1 he
    obtain ⟨pieces, hpieces⟩ := exists_segmentation vocab before
    obtain ⟨path, hpath, -⟩ := exists_path_of_segmentation hvalid (piece ++ after) hpieces
    refine ⟨path, ?_⟩
    change Path _ 0 path (0 + _)
    rwa [Nat.zero_add]
  above path v hpath := by
    obtain ⟨pieces, before, after, rfl, -, hseg, -, hweight⟩ := exists_segmentation_of_path hvalid hpath
    rw [hweight]
    refine neg_dblMax_lt_totalScore hscores hseg (lt_of_le_of_lt ?_ hlen)
    rw [encodeUtf8_append, List.length_append]
    exact Nat.le_add_right _ _

/-! ## The backtrack -/

/-- The ids that the backtrack pushes, from the last one on. -/
def pushed (tokenUnk : ℤ) : Bool → List ℤ → List ℤ
  | _, [] => []
  | isPrevUnknown, id :: ids =>
    (if !(isPrevUnknown && decide (id = tokenUnk)) then [id] else []) ++
      pushed tokenUnk (decide (id = tokenUnk)) ids

lemma pushed_concat (tokenUnk : ℤ) (isPrevUnknown : Bool) (ids : List ℤ) (id : ℤ) :
    pushed tokenUnk isPrevUnknown (ids ++ [id]) = pushed tokenUnk isPrevUnknown ids ++
      if !((ids.getLast?.map fun x => decide (x = tokenUnk)).getD isPrevUnknown &&
        decide (id = tokenUnk)) then [id] else [] := by
  induction ids generalizing isPrevUnknown with
  | nil => simp [pushed]
  | cons a ids ih =>
    rw [List.cons_append, pushed, pushed, ih, List.append_assoc]
    cases ids with
    | nil => rfl
    | cons b ids =>
      have hlast := List.getLast?_eq_some_getLast (List.cons_ne_nil b ids)
      rw [List.getLast?_cons_cons, hlast]
      rfl

lemma reverse_pushed (tokenUnk : ℤ) (ids : List ℤ) :
    (pushed tokenUnk false ids.reverse).reverse = mergeRuns tokenUnk ids := by
  induction ids with
  | nil => rfl
  | cons a ids ih =>
    rw [List.reverse_cons, pushed_concat, List.reverse_append, ih]
    cases ids with
    | nil => simp [mergeRuns]
    | cons b ids =>
      rw [List.getLast?_reverse, List.head?_cons, mergeRuns]
      by_cases hb : b = tokenUnk <;> by_cases ha : a = tokenUnk <;> simp [hb, ha]

lemma backtrack_traced (vocab : UgmVocab) {results : TokenizationResults} {edges : List (Edge ℤ ℚ)}
    (hup : ∀ e ∈ edges, e.source < e.target) {path : List (Edge ℤ ℚ)} {v n : ℕ}
    (h : Traced results edges path v) (hv : 0 < v) (hvn : v ≤ n) (fuel : ℕ) (hfuel : v ≤ fuel)
    (isPrevUnknown : Bool) (output : List ℤ) :
    vocab.backtrack n fuel (Function.update results n (results v)) isPrevUnknown output =
      some (output ++ pushed vocab.tokenUnk isPrevUnknown (path.map Edge.label).reverse).reverse := by
  induction h generalizing fuel isPrevUnknown output with
  | nil => exact absurd hv (lt_irrefl 0)
  | @concat path e hpath he hlabel hsource ih =>
    obtain _ | fuel := fuel
    · omega
    have hlt := hup e he
    have hlabels : ((path ++ [e]).map Edge.label).reverse = e.label :: (path.map Edge.label).reverse := by
      rw [List.map_append, List.reverse_append]
      rfl
    rw [hlabels, pushed, backtrack]
    simp only [Function.update_self, hlabel, hsource]
    by_cases hzero : e.source = 0
    · -- nothing is in front of the edge
      have hnil : path = [] := by
        rw [hzero] at hpath
        cases hp : path with
        | nil => rfl
        | cons a l =>
          rw [hp] at hpath
          have hpos : ∀ {q u}, Traced results edges q u → q ≠ [] → 0 < u := by
            intro q u hq hne
            cases hq with
            | nil => exact absurd rfl hne
            | concat hq' he' _ _ => exact Nat.zero_lt_of_lt (hup _ he')
          exact absurd (hpos hpath (List.cons_ne_nil _ _)) (lt_irrefl 0)
      rw [if_pos hzero, hnil]
      cases isPrevUnknown <;> by_cases hunk : e.label = vocab.tokenUnk <;>
        simp [pushed, hunk]
    · rw [if_neg hzero, Function.update_of_ne (by omega), Function.update_idem,
        ih (Nat.pos_of_ne_zero hzero) (by omega) fuel (by omega)]
      cases isPrevUnknown <;> by_cases hunk : e.label = vocab.tokenUnk <;> simp [hunk]

end UgmVocab

/-! ## The result -/

/-- The tokenizer returns a best segmentation into normal, user defined and unused tokens and
unknown code points, with the runs of the id of the unknown token merged. -/
theorem ugm_isBest (vocab : UgmVocab) (normalized : List UInt8) (hne : normalized ≠ [])
    (hvalid : ValidUtf8 normalized) (htokens : ∀ t ∈ vocab.tokens, ValidUtf8 t.text)
    (hscores : vocab.FiniteScores) (hlen : normalized.length < 18446744073709551616) :
    ∃ pieces, vocab.IsBest UgmToken.matched normalized pieces ∧
      vocab.tokenize normalized =
        some (mergeRuns vocab.tokenUnk (pieces.map vocab.pieceId)) := by
  obtain ⟨cpts, rfl⟩ := hvalid
  have hordered := UgmVocab.ordered_textEdges htokens hscores hlen
  have hpos : 0 < (encodeUtf8 cpts).length := List.length_pos_of_ne_nil hne
  -- the entry of the end belongs to a path
  obtain ⟨first, hfirst⟩ := UgmVocab.exists_segmentation vocab cpts
  obtain ⟨path, hpath, -⟩ := UgmVocab.exists_path_of_segmentation htokens [] hfirst
  rw [List.append_nil] at hpath
  have hzero : (initialResults vocab.tokenUnk 0).score = 0 := by
    rw [initialResults, Function.update_self]
  obtain ⟨best, hbest, htraced, hweight⟩ := exists_traced hordered hzero
    (fun v hv => by rw [initialResults, Function.update_of_ne hv]) hpath
  obtain ⟨pieces, before, after, hcpts, hend, hseg, hlabels, htotal⟩ :=
    UgmVocab.exists_segmentation_of_path htokens hbest
  obtain rfl : before = cpts :=
    UgmVocab.eq_of_length_encode (hcpts.symm.trans (List.append_nil cpts).symm) hend.symm
  refine ⟨pieces, ⟨hseg, fun pieces' hseg' => ?_⟩, ?_⟩
  · obtain ⟨path', hpath', hweight'⟩ :=
      UgmVocab.exists_path_of_segmentation htokens [] hseg'
    rw [List.append_nil] at hpath'
    rw [← hweight', ← htotal, hweight]
    exact weight_le_score hordered hzero.ge hpath'
  · rw [UgmVocab.tokenize, if_neg hpos.ne', UgmVocab.forwardPass_eq vocab before _ 0 (le_refl _)]
    have hback := UgmVocab.backtrack_traced vocab hordered.upwards htraced hpos (le_refl _) _
      (le_refl _) false []
    rw [Function.update_eq_self] at hback
    rw [hback, hlabels, List.nil_append, UgmVocab.reverse_pushed]

/-! ## All tokens, and unknown code points only -/

namespace UgmVocab

/-- The ids of a segmentation, with the runs of unknown code points merged. -/
def mergeUnknown (vocab : UgmVocab) : List UgmPiece → List ℤ
  | .unknown _ :: .unknown c :: pieces => mergeUnknown vocab (.unknown c :: pieces)
  | p :: pieces => vocab.pieceId p :: mergeUnknown vocab pieces
  | [] => []

lemma mergeUnknown_token (vocab : UgmVocab) (id : ℕ) (pieces : List UgmPiece) :
    vocab.mergeUnknown (.token id :: pieces) = (id : ℤ) :: vocab.mergeUnknown pieces := by
  cases pieces <;> rfl

/-- The tokenizer returns a best segmentation into any tokens of the vocabulary. -/
def BestOfAllTokens (vocab : UgmVocab) (normalized : List UInt8) : Prop :=
  ∃ pieces, vocab.IsBest (fun _ => true) normalized pieces ∧
    vocab.tokenize normalized = some (vocab.mergeUnknown pieces)

/-- An unknown token and a control token `a`. -/
def withControl : UgmVocab where
  tokens := [⟨[60], 0, false, false, false⟩, ⟨[97], 0, false, false, false⟩]
  tokenUnk := 0
  ne_nil := by decide
  nodup := by decide

/-- An unknown token `u` that is a normal token. -/
def withNormalUnk : UgmVocab where
  tokens := [⟨[117], -1, true, false, false⟩]
  tokenUnk := 0
  ne_nil := by decide
  nodup := by decide

variable {vocab : UgmVocab}

lemma isToken_of_byte {b : UInt8} (hlen : unicodeLenUtf8 b = 1)
    (hb : ∃ t ∈ vocab.tokens, t.text = [b]) {p : UgmPiece} (hp : vocab.IsPiece (fun _ => true) p)
    {bytes : List UInt8} (htext : vocab.pieceText p = b :: bytes) :
    ∃ id t, p = .token id ∧ vocab.tokens[id]? = some t ∧ t.text = b :: bytes := by
  cases p with
  | token id =>
    obtain ⟨t, ht, -⟩ := isPiece_token_iff.1 hp
    exact ⟨id, t, rfl, ht, (pieceText_token ht).symm.trans htext⟩
  | unknown c =>
    obtain ⟨b', rest, hchar, hfirst⟩ := unicodeLenUtf8_encode c
    obtain ⟨rfl, -⟩ := List.cons.inj (hchar.symm.trans htext)
    obtain ⟨t, ht, htb⟩ := hb
    rw [hlen, hchar] at hfirst
    have hnil : rest = [] := List.eq_nil_of_length_eq_zero (Nat.succ.inj hfirst.symm)
    exact absurd (htb.trans (by rw [hchar, hnil])) (hp t ht rfl)

lemma IsSegmentation.first_of_byte {b : UInt8} (hlen : unicodeLenUtf8 b = 1)
    (hb : ∃ t ∈ vocab.tokens, t.text = [b]) {bytes : List UInt8} {pieces : List UgmPiece}
    (h : vocab.IsSegmentation (fun _ => true) (b :: bytes) pieces) :
    ∃ id t rest, pieces = .token id :: rest ∧ vocab.tokens[id]? = some t ∧
      t.text ++ rest.flatMap vocab.pieceText = b :: bytes ∧
      vocab.IsSegmentation (fun _ => true) (rest.flatMap vocab.pieceText) rest := by
  cases pieces with
  | nil => exact absurd h.text_eq (List.cons_ne_nil _ _).symm
  | cons p rest =>
    obtain ⟨hp, hrest⟩ := List.forall_mem_cons.1 h.isPiece
    obtain ⟨c, others, hc⟩ := List.exists_cons_of_ne_nil (pieceText_ne_nil hp)
    have htext := h.text_eq
    rw [List.flatMap_cons] at htext
    obtain ⟨rfl, -⟩ : c = b ∧ _ := by
      rw [hc] at htext
      exact List.cons.inj htext
    obtain ⟨id, t, rfl, ht, -⟩ := isToken_of_byte hlen hb hp hc
    rw [pieceText_token ht] at htext
    exact ⟨id, t, rest, rfl, ht, htext, hrest, rfl⟩

end UgmVocab

theorem ugm_isBest_withNormalUnk : ∃ pieces,
    UgmVocab.withNormalUnk.IsBest UgmToken.matched [117, 117] pieces ∧
      UgmVocab.withNormalUnk.tokenize [117, 117] =
        some (mergeRuns 0 (pieces.map UgmVocab.withNormalUnk.pieceId)) :=
  ugm_isBest _ _ (List.cons_ne_nil _ _) ⟨['u', 'u'], rfl⟩
    (List.forall_mem_singleton.2 ⟨['u'], rfl⟩)
    (List.forall_mem_singleton.2 (by norm_num [fltMax])) (by norm_num)

/-- A control token is not found in a text, and two tokens next to each other are merged if they
are the unknown token. -/
theorem not_bestOfAllTokens :
    ¬UgmVocab.withControl.BestOfAllTokens [97] ∧
      ¬UgmVocab.withNormalUnk.BestOfAllTokens [117, 117] := by
  constructor
  · rintro ⟨pieces, ⟨hseg, -⟩, htokenize⟩
    have hcode : UgmVocab.withControl.tokenize [97] = some [0] := by decide +kernel
    obtain ⟨id, t, rest, rfl, ht, htext, -⟩ :=
      hseg.first_of_byte rfl ⟨_, List.mem_cons_of_mem _ (List.mem_singleton.2 rfl), rfl⟩
    rw [hcode, UgmVocab.mergeUnknown_token] at htokenize
    -- the code returns the unknown token, whose text is another one
    have hid := (List.cons.inj (Option.some.inj htokenize)).1
    change (0 : ℤ) = id at hid
    obtain rfl : id = 0 := by exact_mod_cast hid.symm
    obtain rfl := Option.some.inj ht
    cases htext
  · rintro ⟨pieces, ⟨hseg, -⟩, htokenize⟩
    have hcode : UgmVocab.withNormalUnk.tokenize [117, 117] = some [0] := by decide +kernel
    obtain ⟨id, t, rest, rfl, ht, htext, hrest⟩ :=
      hseg.first_of_byte rfl ⟨_, List.mem_singleton.2 rfl, rfl⟩
    rw [hcode, UgmVocab.mergeUnknown_token] at htokenize
    -- no second piece is left
    have hnil : UgmVocab.withNormalUnk.mergeUnknown rest = [] :=
      (List.cons.inj (Option.some.inj htokenize)).2.symm
    obtain rfl : t = ⟨[117], -1, true, false, false⟩ :=
      List.mem_singleton.1 (List.mem_of_getElem? ht)
    have hrestText : rest.flatMap UgmVocab.withNormalUnk.pieceText = [117] :=
      (List.cons.inj htext).2
    rw [hrestText] at hrest
    obtain ⟨id', t', rest', rfl, -⟩ := hrest.first_of_byte rfl ⟨_, List.mem_singleton.2 rfl, rfl⟩
    cases hnil

end IFairy
