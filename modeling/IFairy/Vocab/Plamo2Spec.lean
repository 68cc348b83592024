import IFairy.Vocab.Plamo2Table

/-!
# PLaMo-2 finds a best segmentation

The suffix id at a position is that of the longest known suffix that the text goes on with
(`scan_spec`), so its rows are those of all tokens that begin there.  Therefore the path is one with
the least cost (`solved_scan`), and its tokens spell the text.

It needs every byte to have a token with an id other than zero, which stands for a byte that is not
set, and scores that are an `int32_t` after scaling; otherwise there is no tokenizer
(`tokenizesRight_iff`).
-/

namespace IFairy.Vocab.Plamo2

open Segmentations

variable {vocab : Vocabulary}

/-! ## The table seen from the suffixes -/

def ids (vocab : Vocabulary) : List Char → Option ℕ := (numbering (maps vocab)).suffixToId

lemma exists_ids {s : List Char} (hs : Known vocab s) : ∃ id, ids vocab s = some id :=
  (numbered_numbering vocab).ids.exists_id ((mem_suffixes_iff vocab s).2 hs)

lemma known_of_ids {s : List Char} {id : ℕ} (h : ids vocab s = some id) : Known vocab s :=
  (mem_suffixes_iff vocab s).1 ((numbered_numbering vocab).ids.mem h)

lemma codes_eq {s : List Char} {k : ℕ} (hk : ids vocab s = some k) (c : Char) :
    (tokenizer vocab).toSuffixId (c, k) = ids vocab (c :: s) := by
  refine Option.ext fun id => ((numbered_numbering vocab).codes c k id).trans ⟨?_, fun h => ?_⟩
  · rintro ⟨s', hs', h⟩
    obtain rfl := (numbered_numbering vocab).ids.inj hs' hk
    exact h
  · exact ⟨s, hk, h⟩

lemma ids_nil : ids vocab [] = some 0 := by
  have hmem : [] ∈ suffixes (maps vocab) := (mem_suffixes_iff vocab []).2 (Or.inl rfl)
  rcases hsuffixes : suffixes (maps vocab) with - | ⟨s, after⟩
  · rw [hsuffixes] at hmem
    cases hmem
  · rcases s with - | ⟨c, s⟩
    · exact ((numbered_numbering vocab).ids [] 0).2 ⟨[], after, hsuffixes, rfl⟩
    · exact absurd (tail_before vocab ((List.nil_append _).trans hsuffixes.symm).symm) List.not_mem_nil

lemma ids_cons_pos {c : Char} {s : List Char} {id : ℕ} (h : ids vocab (c :: s) = some id) :
    0 < id := by
  refine Nat.pos_of_ne_zero fun hzero => ?_
  rw [hzero] at h
  exact List.cons_ne_nil c s ((numbered_numbering vocab).ids.inj h ids_nil)

lemma mem_pieces_iff {s p : List Char} :
    p ∈ pieces (maps vocab) s ↔ p ≠ [] ∧ p <+: s ∧ Known vocab p := by
  rw [pieces, List.mem_filter, lookup_isSome_iff, List.mem_map]
  constructor
  · rintro ⟨⟨n, -, rfl⟩, hne, hknown⟩
    exact ⟨hne, List.take_prefix _ _, hknown⟩
  · rintro ⟨hne, hpre, hknown⟩
    have hpos := List.length_pos_iff.2 hne
    have hle := hpre.length_le
    refine ⟨⟨p.length - 1, ?_, ?_⟩, hne, hknown⟩
    · rw [List.mem_reverse, List.mem_range]
      omega
    · rw [Nat.sub_add_cancel hpos]
      exact (List.prefix_iff_eq_take.1 hpre).symm

lemma pieces_sorted (m : Maps) (s : List Char) :
    (pieces m s ++ [[]]).Pairwise fun p q : List Char => q.length < p.length := by
  have hpieces : (pieces m s).Pairwise fun p q : List Char => q.length < p.length := by
    refine List.Pairwise.sublist List.filter_sublist (List.pairwise_map.2 ?_)
    refine List.Pairwise.imp_of_mem (fun {a b} ha hb hab => ?_)
      (List.pairwise_reverse.2 List.pairwise_lt_range)
    rw [List.mem_reverse, List.mem_range] at ha hb
    rw [List.length_take, List.length_take]
    omega
  refine List.pairwise_append.2 ⟨hpieces, List.pairwise_singleton _ _, fun p hp q hq => ?_⟩
  rw [List.mem_singleton.1 hq]
  rw [pieces, List.mem_filter, List.mem_map] at hp
  obtain ⟨⟨n, hn, rfl⟩, -⟩ := hp
  rw [List.mem_reverse, List.mem_range] at hn
  rw [List.length_take, List.length_nil]
  omega

lemma rowOf_cases {p : List Char} : (rowOf (maps vocab) (ids vocab) p).score = invalidScore ∨
    ∃ (i : ℕ) (t : Token), vocab.tokens[i]? = some t ∧ t.byte = false ∧ t.text = p ∧
      rowOf (maps vocab) (ids vocab) p =
        ⟨p.length, i, scaledScore t.score, ((ids vocab) p).getD 0⟩ := by
  rcases hlookup : (maps vocab).suffixToScore.lookup p with - | score
  · exact Or.inl (by rw [rowOf, hlookup]; rfl)
  · rcases lookup_cases vocab hlookup with rfl | ⟨t, ht, hnormal, htext, rfl⟩
    · exact Or.inl (by rw [rowOf, hlookup]; rfl)
    · obtain ⟨i, hi⟩ := List.mem_iff_getElem?.1 ht
      have hid := (collected_maps vocab).tokenToId (t, i) (List.mk_mem_zipIdx_iff_getElem?.2 hi)
      dsimp only at hid
      rw [htext] at hid
      refine Or.inr ⟨i, t, hi, hnormal, htext, ?_⟩
      rw [rowOf, hlookup, hid]
      rfl

lemma rowOf_score_ne (p : List Char) :
    (rowOf (maps vocab) (ids vocab) p).score ≠ unknownScore := by
  rcases @rowOf_cases vocab p with h | ⟨i, t, hi, -, -, h⟩
  · rw [h]
    decide
  · rw [h]
    have ht := List.mem_of_getElem? hi
    exact (lt_scaledScore (vocab.isFloat_score t ht) (vocab.lt_score t ht)).ne'

lemma rowOf_token {i : ℕ} {t : Token} (hi : vocab.tokens[i]? = some t) (hnormal : t.byte = false) :
    rowOf (maps vocab) (ids vocab) t.text =
      ⟨t.text.length, i, scaledScore t.score, ((ids vocab) t.text).getD 0⟩ := by
  have hmem : (t, i) ∈ vocab.tokens.zipIdx := List.mk_mem_zipIdx_iff_getElem?.2 hi
  rw [rowOf, (collected_maps vocab).score_of_token _ hmem hnormal,
    (collected_maps vocab).tokenToId _ hmem]
  rfl

/-! ## The next suffix -/

lemma findSuffix_rows (c : Char) {l : List (List Char)} (hl : ∀ p ∈ l, Known vocab p)
    (more : List Row) (suffixId : ℕ) :
    (tokenizer vocab).findSuffix c
        (l.map (rowOf (maps vocab) (ids vocab)) ++ (sentinel :: more)) suffixId =
      (((l ++ [[]]).find? fun p => (ids vocab (c :: p)).isSome).bind
        fun p => ids vocab (c :: p)).getD 0 := by
  induction l generalizing suffixId with
  | nil =>
    have hpiece : sentinel.pieceId = 0 := rfl
    have hscore : sentinel.score = unknownScore := rfl
    have hempty : ids vocab [] = some 0 := ids_nil
    rw [List.map_nil, List.nil_append, List.nil_append, Tokenizer.findSuffix,
      if_pos (Or.inr hscore), hpiece, codes_eq hempty c, List.find?_cons]
    rcases hid : ids vocab [c] with - | id
    · rfl
    · exact (congrArg (fun o => Option.getD o 0) hid).symm
  | cons p l ih =>
    obtain ⟨hp, hl⟩ := List.forall_mem_cons.1 hl
    obtain ⟨k, hk⟩ := exists_ids hp
    have hpiece : (rowOf (maps vocab) (ids vocab) p).pieceId = k := by
      rw [rowOf, hk]
      rfl
    rw [List.map_cons, List.cons_append, List.cons_append, Tokenizer.findSuffix, hpiece,
      codes_eq hk c, List.find?_cons]
    rcases hid : ids vocab (c :: p) with - | id
    · rw [if_neg (by rw [Option.getD_none]; exact not_or.2 ⟨lt_irrefl 0, rowOf_score_ne p⟩),
        ih hl]
      rfl
    · rw [if_pos (Or.inl (show 0 < (some id).getD 0 from ids_cons_pos hid)), Option.isSome_some]
      exact (congrArg (fun o => Option.getD o 0) hid).symm

lemma longestIn_findSuffix {c : Char} {rest s : List Char} (hs : LongestIn (Known vocab) rest s)
    {id : ℕ} (hid : ids vocab s = some id) (suffixId : ℕ) :
    ∃ s', LongestIn (Known vocab) (c :: rest) s' ∧ ids vocab s' =
      some ((tokenizer vocab).findSuffix c ((tokenizer vocab).table.drop id) suffixId) := by
  obtain ⟨id', more, hid', htable⟩ := exists_drop_table hs.mem
  obtain rfl := Option.some.inj (hid.symm.trans hid')
  have hpieces : ∀ p ∈ pieces (maps vocab) s, Known vocab p := fun p hp => (mem_pieces_iff.1 hp).2.2
  have hpre : ∀ p ∈ pieces (maps vocab) s ++ [[]], p <+: s := by
    intro p hp
    rcases List.mem_append.1 hp with hp | hp
    · exact (mem_pieces_iff.1 hp).2.1
    · rw [List.mem_singleton.1 hp]
      exact List.nil_prefix
  have hall : ∀ q, q <+: s → Known vocab (c :: q) → q ∈ pieces (maps vocab) s ++ [[]] := by
    intro q hq hknown
    by_cases hne : q = []
    · rw [hne]
      exact List.mem_append_right _ (List.mem_singleton_self _)
    · exact List.mem_append_left _ (mem_pieces_iff.2 ⟨hne, hq, known_tail c q hknown⟩)
  rw [htable, rowsOf, List.append_assoc, List.singleton_append]
  rw [show (numbering (maps vocab)).suffixToId = ids vocab from rfl, findSuffix_rows c hpieces]
  rcases hfind : (pieces (maps vocab) s ++ [[]]).find? (fun p => (ids vocab (c :: p)).isSome)
    with - | p
  · rw [hfind]
    refine ⟨[], hs.restart known_tail (Or.inl rfl) fun q hq hknown => ?_, ids_nil⟩
    obtain ⟨id, hid⟩ := exists_ids hknown
    exact List.find?_eq_none.1 hfind q (hall q hq hknown) (by rw [hid]; rfl)
  · rw [hfind]
    obtain ⟨hsome, before, after, hsplit, hbefore⟩ := List.find?_eq_some_iff_append.1 hfind
    obtain ⟨id, hid⟩ := Option.isSome_iff_exists.1 hsome
    have hmem : p ∈ pieces (maps vocab) s ++ [[]] := by
      rw [hsplit]
      exact List.mem_append_right _ List.mem_cons_self
    refine ⟨c :: p, hs.cons known_tail (known_of_ids hid) (hpre p hmem) fun q hq hknown => ?_, ?_⟩
    · -- the pieces in front of it are longer, but cannot follow the code point
      have hqmem := hall q hq hknown
      have hsorted := pieces_sorted (maps vocab) s
      rw [hsplit] at hqmem hsorted
      refine List.prefix_of_prefix_length_le hq (hpre p hmem) ?_
      rcases List.mem_append.1 hqmem with hqmem | hqmem
      · obtain ⟨id', hid'⟩ := exists_ids hknown
        have hnone := hbefore q hqmem
        rw [hid'] at hnone
        cases hnone
      · rcases List.mem_cons.1 hqmem with rfl | hqmem
        · exact le_rfl
        · exact ((List.pairwise_cons.1 (List.pairwise_append.1 hsorted).2.1).1 q hqmem).le
    · rw [Option.bind_some, hid]
      rfl

/-! ## Segmentations -/

/-- A piece of a segmentation: a token, or a code point that falls back to its bytes. -/
inductive Piece where
  | token (id : ℕ) (t : Token)
  | unknown (c : Char)

namespace Piece

def text : Piece → List Char
  | token _ t => t.text
  | unknown c => [c]

/-- The cost of a piece: the scaled score of the token, negated, or the unknown cost. -/
def cost : Piece → ℤ
  | token _ t => -scaledScore t.score
  | unknown _ => -unknownScore

/-- The token of a piece is a normal token of the vocabulary. -/
def Valid (vocab : Vocabulary) : Piece → Prop
  | token id t => vocab.tokens[id]? = some t ∧ t.byte = false
  | unknown _ => True

/-- `PATH_TOKEN_ID` of a piece. -/
def tokenId : Piece → ℤ
  | token id _ => id
  | unknown _ => -1

lemma text_ne_nil {p : Piece} (h : p.Valid vocab) : p.text ≠ [] := by
  cases p with
  | token id t => exact vocab.text_ne_nil t (List.mem_of_getElem? h.1)
  | unknown c => exact List.cons_ne_nil c []

end Piece

/-! ## One position -/

/-- The entry that a row leads to. -/
def stepEntry (behind : List PathEntry) (row : Row) : PathEntry :=
  ⟨(behind.getD (row.pieceLength - 1) unsetEntry).score - row.score, row.pieceLength, row.tokenId⟩

lemma better_cases (e e' : PathEntry) :
    (if e'.score < e.score then e' else e).score ≤ e.score ∧
      (if e'.score < e.score then e' else e).score ≤ e'.score ∧
      ((if e'.score < e.score then e' else e) = e ∨ (if e'.score < e.score then e' else e) = e') := by
  split_ifs with hlt
  · exact ⟨hlt.le, le_rfl, Or.inr rfl⟩
  · exact ⟨le_rfl, not_lt.1 hlt, Or.inl rfl⟩

lemma updatePath_spec (behind : List PathEntry) {rows : List Row}
    (hrows : ∀ row ∈ rows, row.score ≠ unknownScore) (more : List Row) (e : PathEntry) :
    ∃ out, Tokenizer.updatePath behind (rows ++ sentinel :: more) e = out ∧ out.score ≤ e.score ∧
      (∀ row ∈ rows ++ [sentinel], invalidScore < row.score →
        out.score ≤ (stepEntry behind row).score) ∧
      (out = e ∨ ∃ row ∈ rows ++ [sentinel], invalidScore < row.score ∧
        out = stepEntry behind row) := by
  induction rows generalizing e with
  | nil =>
    have hvalid : invalidScore < sentinel.score := by decide
    have hlast : sentinel.score = unknownScore := rfl
    obtain ⟨hle, hle', hcases⟩ := better_cases e (stepEntry behind sentinel)
    refine ⟨_, ?_, hle, fun row hrow _ => ?_, ?_⟩
    · rw [List.nil_append, Tokenizer.updatePath, if_pos hvalid, if_pos hlast]
      rfl
    · rw [List.nil_append, List.mem_singleton] at hrow
      rwa [hrow]
    · exact hcases.imp_right fun h => ⟨sentinel, List.mem_singleton_self _, hvalid, h⟩
  | cons row rows ih =>
    obtain ⟨hrow, hrows⟩ := List.forall_mem_cons.1 hrows
    rw [List.cons_append, Tokenizer.updatePath, if_neg hrow]
    by_cases hvalid : invalidScore < row.score
    · rw [if_pos hvalid]
      obtain ⟨hle, hle', hcases⟩ := better_cases e (stepEntry behind row)
      obtain ⟨out, hout, hscore, hall, hfrom⟩ := ih hrows
        (if (stepEntry behind row).score < e.score then stepEntry behind row else e)
      refine ⟨out, hout, hscore.trans hle, List.forall_mem_cons.2 ⟨fun _ => hscore.trans hle', hall⟩, ?_⟩
      rcases hfrom with hfrom | ⟨row', hrow', hvalid', hfrom⟩
      · rw [hfrom]
        exact hcases.imp_right fun h => ⟨row, List.mem_cons_self, hvalid, h⟩
      · exact Or.inr ⟨row', List.mem_cons_of_mem _ hrow', hvalid', hfrom⟩
    · rw [if_neg hvalid]
      obtain ⟨out, hout, hscore, hall, hfrom⟩ := ih hrows e
      refine ⟨out, hout, hscore, List.forall_mem_cons.2 ⟨fun h => absurd h hvalid, hall⟩, ?_⟩
      rcases hfrom with hfrom | ⟨row', hrow', hvalid', hfrom⟩
      · exact Or.inl hfrom
      · exact Or.inr ⟨row', List.mem_cons_of_mem _ hrow', hvalid', hfrom⟩

/-! ## The scan -/

/-- The entry of the first position. -/
def headEntry (vocab : Vocabulary) (u : List Char) : PathEntry :=
  ((tokenizer vocab).scan u).path.headD unsetEntry

lemma drop_path (a b : List Char) : ((tokenizer vocab).scan (a ++ b)).path.drop a.length =
    ((tokenizer vocab).scan b).path := by
  induction a with
  | nil => rfl
  | cons c a ih => exact ih

lemma path_ne_nil (u : List Char) : ((tokenizer vocab).scan u).path ≠ [] := by
  cases u with
  | nil => exact List.cons_ne_nil _ _
  | cons c u => exact List.cons_ne_nil _ _

lemma path_getD (a b : List Char) :
    ((tokenizer vocab).scan (a ++ b)).path.getD a.length unsetEntry = headEntry vocab b := by
  have hdrop := @drop_path vocab a b
  rw [headEntry, ← hdrop, List.getD_eq_getElem?_getD, List.headD_eq_head?_getD, List.head?_drop]

lemma scan_spec (u : List Char) : ∃ s, LongestIn (Known vocab) u s ∧
    ids vocab s = some ((tokenizer vocab).scan u).suffixId := by
  induction u with
  | nil =>
    refine ⟨[], ⟨Or.inl rfl, List.nil_prefix, fun t _ ht => ?_⟩, ids_nil⟩
    exact ht
  | cons c rest ih =>
    obtain ⟨s, hs, hid⟩ := ih
    exact longestIn_findSuffix hs hid _

lemma headEntry_spec (c : Char) (rest : List Char) :
    (∀ p : Piece, p.Valid vocab → ∀ rest', c :: rest = p.text ++ rest' →
      (headEntry vocab (c :: rest)).score ≤ p.cost + (headEntry vocab rest').score) ∧
    (headEntry vocab (c :: rest) = unsetEntry ∨ ∃ p : Piece, p.Valid vocab ∧ ∃ rest',
      c :: rest = p.text ++ rest' ∧ headEntry vocab (c :: rest) =
        ⟨p.cost + (headEntry vocab rest').score, p.text.length, p.tokenId⟩) := by
  obtain ⟨s, hs, hid⟩ := @scan_spec vocab (c :: rest)
  obtain ⟨id, more, hid', htable⟩ := exists_drop_table hs.mem
  obtain rfl := Option.some.inj (hid.symm.trans hid')
  obtain ⟨out, hout, -, hle, hfrom⟩ := @updatePath_spec ((tokenizer vocab).scan rest).path
    ((pieces (maps vocab) s).map (rowOf (maps vocab) (ids vocab)))
    (fun row hrow => by
      obtain ⟨p, -, rfl⟩ := List.mem_map.1 hrow
      exact rowOf_score_ne p) more unsetEntry
  have hhead : headEntry vocab (c :: rest) = out := by
    rw [← hout]
    refine (congrArg (fun rows => Tokenizer.updatePath ((tokenizer vocab).scan rest).path rows
      unsetEntry) htable).trans ?_
    rw [rowsOf, List.append_assoc]
    rfl
  -- the entry behind a piece, as the rows read it
  have hbehind : ∀ (q rest' : List Char), q ≠ [] → c :: rest = q ++ rest' →
      ((tokenizer vocab).scan rest).path.getD (q.length - 1) unsetEntry = headEntry vocab rest' := by
    rintro (- | ⟨d, q⟩) rest' hne heq
    · exact absurd rfl hne
    · obtain ⟨-, rfl⟩ := List.cons.inj heq
      exact path_getD q rest'
  rw [hhead]
  refine ⟨fun p hp rest' heq => ?_, hfrom.imp_right ?_⟩
  · have hread := hbehind p.text rest' (Piece.text_ne_nil hp) heq
    cases p with
    | token i t =>
      have hne := vocab.text_ne_nil t (List.mem_of_getElem? hp.1)
      have hknown : Known vocab t.text :=
        Or.inr ⟨t, List.mem_of_getElem? hp.1, hp.2, List.suffix_refl _⟩
      have hpre : t.text <+: s := hs.longest _ hknown ⟨rest', heq.symm⟩
      have hmem := List.mem_map_of_mem (f := rowOf (maps vocab) (ids vocab))
        (mem_pieces_iff.2 ⟨hne, hpre, hknown⟩)
      have hscore := hle _ (List.mem_append_left _ hmem)
      have hlow := lt_scaledScore (vocab.isFloat_score t (List.mem_of_getElem? hp.1))
        (vocab.lt_score t (List.mem_of_getElem? hp.1))
      rw [rowOf_token hp.1 hp.2] at hscore
      have hbound := hscore (show invalidScore < scaledScore t.score by
        rw [invalidScore]; rw [unknownScore] at hlow; omega)
      dsimp only [stepEntry] at hbound
      rw [show ((tokenizer vocab).scan rest).path.getD (t.text.length - 1) unsetEntry =
        headEntry vocab rest' from hread] at hbound
      exact hbound.trans_eq (neg_add_eq_sub _ _).symm
    | unknown d =>
      have hscore := hle sentinel (List.mem_append_right _ (List.mem_singleton_self _)) (by decide)
      refine hscore.trans_eq ?_
      rw [stepEntry, ← hread]
      dsimp only [Piece.cost, sentinel, Piece.text]
      exact (neg_add_eq_sub _ _).symm
  · rintro ⟨row, hrow, hvalid, rfl⟩
    rcases List.mem_append.1 hrow with hrow | hrow
    · obtain ⟨q, hq, rfl⟩ := List.mem_map.1 hrow
      obtain ⟨hne, hpre, -⟩ := mem_pieces_iff.1 hq
      obtain ⟨rest', heq⟩ := hpre.trans hs.isPrefix
      rcases @rowOf_cases vocab q with h | ⟨i, t, hi, hnormal, rfl, h⟩
      · rw [h] at hvalid
        exact absurd hvalid (lt_irrefl _)
      · refine ⟨.token i t, ⟨hi, hnormal⟩, rest', heq.symm, ?_⟩
        rw [h, stepEntry]
        dsimp only
        rw [hbehind t.text rest' hne heq.symm]
        dsimp only [Piece.cost, Piece.text, Piece.tokenId]
        rw [neg_add_eq_sub]
    · rw [List.mem_singleton.1 hrow]
      refine ⟨.unknown c, trivial, rest, rfl, ?_⟩
      rw [stepEntry]
      dsimp only [Piece.cost, Piece.text, Piece.tokenId, sentinel]
      rw [← hbehind [c] rest (List.cons_ne_nil _ _) rfl, neg_add_eq_sub]
      rfl

lemma score_le_length (u : List Char) : (headEntry vocab u).score ≤ -unknownScore * u.length := by
  induction u with
  | nil => exact le_rfl
  | cons c rest ih =>
    have hbound := (@headEntry_spec vocab c rest).1 (.unknown c) trivial rest rfl
    rw [Piece.cost] at hbound
    rw [List.length_cons, Nat.cast_succ, mul_add, mul_one]
    omega

/-! ## The best segmentation -/

/-- The piece that an entry tells. -/
def pieceOf (vocab : Vocabulary) (u : List Char) : Piece :=
  let e := headEntry vocab u
  if 0 ≤ e.tokenId then
    (vocab.tokens[e.tokenId.toNat]?).elim (.unknown (u.headD ' ')) (.token e.tokenId.toNat)
  else .unknown (u.headD ' ')

lemma pieceOf_eq {u rest : List Char} {p : Piece} (hp : p.Valid vocab) (hu : u = p.text ++ rest)
    (hid : (headEntry vocab u).tokenId = p.tokenId) : pieceOf vocab u = p := by
  rw [pieceOf, hid]
  cases p with
  | token id t =>
    rw [Piece.tokenId, if_pos (Int.natCast_nonneg id), Int.toNat_natCast, hp.1]
    rfl
  | unknown c =>
    rw [Piece.tokenId, if_neg (by decide), hu]
    rfl

lemma exists_piece {c : Char} {rest : List Char} (hlength : (c :: rest).length < 2 ^ 31) :
    (pieceOf vocab (c :: rest)).Valid vocab ∧ ∃ rest', c :: rest = (pieceOf vocab (c :: rest)).text ++ rest' ∧
      headEntry vocab (c :: rest) =
        ⟨(pieceOf vocab (c :: rest)).cost + (headEntry vocab rest').score,
          (pieceOf vocab (c :: rest)).text.length, (pieceOf vocab (c :: rest)).tokenId⟩ := by
  rcases (@headEntry_spec vocab c rest).2 with hunset | ⟨p, hp, rest', hrest, hhead⟩
  · have hbound := @score_le_length vocab (c :: rest)
    rw [hunset, unsetEntry, unknownScore] at hbound
    dsimp only at hbound
    omega
  · have hpiece : pieceOf vocab (c :: rest) = p := pieceOf_eq hp hrest (by rw [hhead])
    rw [hpiece]
    exact ⟨hp, rest', hrest, hhead⟩

lemma solved_scan {text : List Char} (hlength : text.length < 2 ^ 31) :
    Solved Piece.text (Piece.Valid vocab) Piece.cost (fun u => (headEntry vocab u).score)
      (pieceOf vocab) text where
  nil := rfl
  ne_nil _ hp := Piece.text_ne_nil hp
  exists_choice u hu hne := by
    obtain ⟨c, rest, rfl⟩ := List.exists_cons_of_ne_nil hne
    obtain ⟨hvalid, rest', hrest, hhead⟩ := @exists_piece vocab _ _
      (hu.length_le.trans_lt hlength)
    exact ⟨hvalid, rest', hrest, congrArg PathEntry.score hhead⟩
  le p rest hp _ := by
    obtain ⟨c, u, hu⟩ := List.exists_cons_of_ne_nil
      (List.append_ne_nil_of_left_ne_nil (Piece.text_ne_nil hp) rest)
    rw [hu]
    exact (headEntry_spec c u).1 p hp rest hu.symm

/-! ## Decoding -/

lemma decodePath_skip (t : Tokenizer) (skip : ℕ) (l : List (Char × PathEntry)) :
    t.decodePath skip l = t.decodePath 0 (l.drop skip) := by
  induction skip generalizing l with
  | zero => rfl
  | succ skip ih =>
    cases l with
    | nil => rfl
    | cons a l => exact ih l

def Piece.ids (vocab : Vocabulary) : Piece → List ℤ
  | token id _ => [(id : ℤ)]
  | unknown c => (tokenizer vocab).byteTokens c.toNat

lemma decodePath_followed {u : List Char} {segs : List Piece}
    (h : Followed Piece.text (pieceOf vocab) u segs) (hlength : u.length < 2 ^ 31) :
    (tokenizer vocab).decodePath 0 (u.zip ((tokenizer vocab).scan u).path) =
      some (segs.flatMap (Piece.ids vocab)) := by
  induction h with
  | nil => rfl
  | @cons word rest segs hne hword hrest ih =>
    obtain ⟨c, word, rfl⟩ := List.exists_cons_of_ne_nil hne
    obtain ⟨hvalid, rest', -, hhead⟩ := @exists_piece vocab _ _ hlength
    obtain ⟨p, hp⟩ : ∃ p, p = pieceOf vocab (c :: word) := ⟨_, rfl⟩
    rw [← hp] at hword hvalid hhead ⊢
    obtain ⟨q, hq⟩ : ∃ q, p.text = c :: q := by
      rcases htext : p.text with - | ⟨d, q⟩
      · exact absurd htext (Piece.text_ne_nil hvalid)
      · rw [htext] at hword
        exact ⟨q, by rw [(List.cons.inj hword).1]⟩
    have hword' : word = q ++ rest := by
      rw [hq] at hword
      exact (List.cons.inj hword).2
    obtain ⟨e, path, hpath⟩ := List.exists_cons_of_ne_nil (@path_ne_nil vocab (c :: word))
    have he : headEntry vocab (c :: word) = e := by rw [headEntry, hpath]; rfl
    have hdrop : path.drop q.length = ((tokenizer vocab).scan rest).path := by
      have hdrop := @drop_path vocab (c :: q) rest
      rw [List.cons_append, ← hword', hpath] at hdrop
      exact hdrop
    have hids : (if 0 ≤ e.tokenId then [e.tokenId] else (tokenizer vocab).byteTokens c.toNat) =
        p.ids vocab := by
      rw [← he, hhead]
      cases p with
      | token id t => exact if_pos (Int.natCast_nonneg id)
      | unknown d =>
        obtain rfl : d = c := (List.cons.inj hq).1
        exact if_neg (show ¬(0 : ℤ) ≤ -1 by decide)
    rw [hpath, List.zip_cons_cons, Tokenizer.decodePath, ← he, hhead]
    dsimp only
    rw [hq, List.length_cons, if_neg (Nat.succ_ne_zero _), Nat.add_sub_cancel, decodePath_skip,
      List.zip, List.drop_zipWith, hdrop, hword', List.drop_left]
    refine (congrArg (Option.map _) (ih (lt_of_le_of_lt ?_ hlength))).trans ?_
    · rw [hword', List.length_cons, List.length_append]
      omega
    · rw [Option.map_some, List.flatMap_cons, ← hids, ← he, hhead]

/-! ## Bytes -/

lemma shift_and (n k : ℕ) : (n >>> k) &&& 0x3F = n / 2 ^ k % 64 := by
  rw [Nat.shiftRight_eq_div_pow]
  exact Nat.and_two_pow_sub_one_eq_mod _ 6

lemma byte_eq {high low n : ℕ} (i : ℕ) (hhigh : 2 ^ i ∣ high) (hlow : low = n % 2 ^ i)
    (hbyte : high + 2 ^ i ≤ 256) : high ||| low = (UInt8.ofNat (n % 2 ^ i + high)).toNat := by
  have hlt : n % 2 ^ i < 2 ^ i := Nat.mod_lt _ (Nat.two_pow_pos i)
  obtain ⟨a, rfl⟩ := hhigh
  rw [hlow, ← Nat.two_pow_add_eq_or_of_lt hlt a,
    UInt8.toNat_ofNat_of_lt' (show n % 2 ^ i + 2 ^ i * a < 256 by omega), Nat.add_comm]

lemma continuation_eq (v k : ℕ) :
    0x80 ||| ((v >>> k) &&& 0x3F) = (UInt8.ofNat (v / 2 ^ k % 64 + 0x80)).toNat :=
  byte_eq 6 ⟨2, rfl⟩ (shift_and v k) (by norm_num)

lemma byteTokens_eq (t : Tokenizer) (c : Char) :
    t.byteTokens c.toNat = (String.utf8EncodeChar c).map fun b => t.bytes b.toNat := by
  have hvalid : c.toNat < 0x110000 := by
    have := c.valid
    simp only [UInt32.isValidChar, Nat.isValidChar] at this
    exact this.elim (fun h => lt_trans h (by norm_num)) And.right
  rw [Tokenizer.byteTokens]
  fun_cases String.utf8EncodeChar c with
  | case1 v h =>
    have hv : c.toNat = v := rfl
    rw [hv, if_neg (by omega), if_neg (by omega), if_neg (by omega)]
    change [t.bytes (v % 256 ||| ((v >>> 0) &&& 0x3F))] = [t.bytes (UInt8.ofNat v).toNat]
    have hself : v % 256 ||| ((v >>> 0) &&& 0x3F) = v := by
      rw [Nat.mod_eq_of_lt (by omega), Nat.shiftRight_zero]
      refine Nat.eq_of_testBit_eq fun i => ?_
      rw [Nat.testBit_or, Nat.testBit_and]
      rcases v.testBit i with - | -
      · rfl
      · rfl
    rw [hself, UInt8.toNat_ofNat_of_lt' (show v < 256 by omega)]
  | case2 v h1 h2 =>
    have hv : c.toNat = v := rfl
    rw [hv, if_pos (by omega), if_neg (by omega), if_neg (by omega)]
    have hlead : 0xC0 ||| ((v >>> 6) &&& 0x3F) = (UInt8.ofNat (v / 64 % 32 + 0xC0)).toNat :=
      byte_eq 5 ⟨6, rfl⟩ (by rw [shift_and]; omega) (by norm_num)
    change [t.bytes (0xC0 ||| ((v >>> 6) &&& 0x3F)), t.bytes (0x80 ||| ((v >>> 0) &&& 0x3F))] = _
    rw [hlead, continuation_eq, pow_zero, Nat.div_one]
    rfl
  | case3 v h1 h2 h3 =>
    have hv : c.toNat = v := rfl
    rw [hv, if_pos (by omega), if_pos (by omega), if_neg (by omega)]
    have hlead : 0xE0 ||| ((v >>> 12) &&& 0x3F) = (UInt8.ofNat (v / 4096 % 16 + 0xE0)).toNat :=
      byte_eq 4 ⟨14, rfl⟩ (by rw [shift_and]; omega) (by norm_num)
    change [t.bytes (0xE0 ||| ((v >>> 12) &&& 0x3F)), t.bytes (0x80 ||| ((v >>> 6) &&& 0x3F)),
      t.bytes (0x80 ||| ((v >>> 0) &&& 0x3F))] = _
    rw [hlead, continuation_eq, continuation_eq, pow_zero, Nat.div_one]
    rfl
  | case4 v h1 h2 h3 =>
    have hv : c.toNat = v := rfl
    rw [hv, if_pos (by omega), if_pos (by omega), if_pos (by omega)]
    have hlead : 0xF0 ||| ((v >>> 18) &&& 0x3F) = (UInt8.ofNat (v / 262144 % 8 + 0xF0)).toNat :=
      byte_eq 3 ⟨30, rfl⟩ (by rw [shift_and]; omega) (by norm_num)
    change [t.bytes (0xF0 ||| ((v >>> 18) &&& 0x3F)), t.bytes (0x80 ||| ((v >>> 12) &&& 0x3F)),
      t.bytes (0x80 ||| ((v >>> 6) &&& 0x3F)), t.bytes (0x80 ||| ((v >>> 0) &&& 0x3F))] = _
    rw [hlead, continuation_eq, continuation_eq, continuation_eq, pow_zero, Nat.div_one]
    rfl

/-! ## The result -/

def tokenBytes (vocab : Vocabulary) (id : ℤ) : List UInt8 :=
  (vocab.tokens[id.toNat]?).elim [] fun t =>
    if t.byte then [UInt8.ofNat ((byteVal t.text).getD 0)] else encodeUtf8 t.text

def IsByteToken (vocab : Vocabulary) (id : ℤ) (b : UInt8) : Prop :=
  ∃ (n : ℕ) (t : Token), id = n ∧ vocab.tokens[n]? = some t ∧ t.byte = true ∧
    byteVal t.text = some b.toNat

/-- The tokens of a piece: the token itself, or tokens of the bytes of the code point. -/
def Emits (vocab : Vocabulary) : Piece → List ℤ → Prop
  | .token id _, ids => ids = [(id : ℤ)]
  | .unknown c, ids => List.Forall₂ (IsByteToken vocab) ids (String.utf8EncodeChar c)

/-- The tokens are those of a segmentation of the text with the least cost. -/
def IsBest (vocab : Vocabulary) (text : List Char) (out : List ℤ) : Prop :=
  ∃ segs : List Piece, Segments Piece.text (Piece.Valid vocab) segs text ∧
    (∃ parts, List.Forall₂ (Emits vocab) segs parts ∧ out = parts.flatten) ∧
    ∀ segs', Segments Piece.text (Piece.Valid vocab) segs' text →
      cost Piece.cost segs ≤ cost Piece.cost segs'

/-- A tokenizer can be built, and for every text (whose size is an `int32_t`) it gives the tokens
of a best segmentation, whose bytes make up the text. -/
def TokenizesRight (vocab : Vocabulary) : Prop :=
  ∃ t, build vocab = .ok t ∧ ∀ text : List Char, (encodeUtf8 text).length < 2 ^ 31 →
    ∃ out, t.encode text = some out ∧ IsBest vocab (Tokenizer.withoutBom text) out ∧
      out.flatMap (tokenBytes vocab) = encodeUtf8 (Tokenizer.withoutBom text)

lemma isByteToken_bytes (h : ∀ b < 256, (maps vocab).bytes b ≠ 0) (b : UInt8) :
    IsByteToken vocab ((tokenizer vocab).bytes b.toNat) b := by
  obtain ⟨e, he, hbyte, hval, hid⟩ := (collected_maps vocab).token_of_byte b.toNat (h _ b.toNat_lt)
  exact ⟨e.2, e.1, hid, List.mem_zipIdx_iff_getElem?.1 he, hbyte, hval⟩

lemma tokenBytes_of_isByteToken {id : ℤ} {b : UInt8} (h : IsByteToken vocab id b) :
    tokenBytes vocab id = [b] := by
  obtain ⟨n, t, rfl, ht, hbyte, hval⟩ := h
  rw [tokenBytes, Int.toNat_natCast, ht, Option.elim_some, if_pos hbyte, hval, Option.getD_some,
    UInt8.ofNat_toNat]

lemma emits_ids (h : ∀ b < 256, (maps vocab).bytes b ≠ 0) (p : Piece) :
    Emits vocab p (p.ids vocab) := by
  cases p with
  | token id t => rfl
  | unknown c =>
    rw [Emits, Piece.ids, byteTokens_eq, List.forall₂_map_left_iff, List.forall₂_same]
    exact fun b _ => isByteToken_bytes h b

lemma flatMap_tokenBytes (h : ∀ b < 256, (maps vocab).bytes b ≠ 0) {p : Piece}
    (hp : p.Valid vocab) : (p.ids vocab).flatMap (tokenBytes vocab) = encodeUtf8 p.text := by
  cases p with
  | token id t =>
    rw [Piece.ids, List.flatMap_singleton, tokenBytes, Int.toNat_natCast, hp.1, Option.elim_some,
      if_neg (by rw [hp.2]; exact Bool.false_ne_true)]
    rfl
  | unknown c =>
    rw [Piece.ids, byteTokens_eq, List.flatMap_map]
    refine (List.flatMap_congr fun b _ => tokenBytes_of_isByteToken (isByteToken_bytes h b)).trans ?_
    rw [List.flatMap_singleton', Piece.text, encodeUtf8_cons, encodeUtf8_nil, List.append_nil]

lemma length_le_encodeUtf8 (text : List Char) : text.length ≤ (encodeUtf8 text).length := by
  induction text with
  | nil => exact le_rfl
  | cons c text ih =>
    obtain ⟨b, rest, hb, -⟩ := unicodeLenUtf8_encode c
    rw [encodeUtf8_cons, hb, List.length_append, List.length_cons, List.length_cons]
    omega

lemma length_withoutBom (text : List Char) : (Tokenizer.withoutBom text).length ≤ text.length := by
  rw [Tokenizer.withoutBom]
  split_ifs
  · rw [List.length_tail]
    exact Nat.sub_le _ _
  · exact le_rfl

/-- The tokenizer finds a best segmentation of every text when it can be built, which needs every
byte to have a token with an id other than zero and the scaled scores to fit. -/
theorem tokenizesRight_iff (vocab : Vocabulary) :
    TokenizesRight vocab ↔ BytesSettable vocab ∧ ScoresFit vocab := by
  constructor
  · rintro ⟨t, ht, -⟩
    exact (of_build_eq_ok ht).imp_left bytes_ne_zero_iff.1
  · rintro ⟨hbytes, hfit⟩
    have hset := bytes_ne_zero_iff.2 hbytes
    refine ⟨tokenizer vocab, build_eq_ok hset hfit, fun text htext => ?_⟩
    have hlength : (Tokenizer.withoutBom text).length < 2 ^ 31 :=
      ((length_withoutBom text).trans (length_le_encodeUtf8 text)).trans_lt htext
    have hsolved := @solved_scan vocab _ hlength
    obtain ⟨segs, hfollowed, hsegs, hcost⟩ := exists_followed hsolved
    refine ⟨_, decodePath_followed hfollowed hlength, ⟨segs, hsegs, ?_, fun segs' hsegs' => ?_⟩, ?_⟩
    · refine ⟨segs.map (Piece.ids vocab), ?_, List.flatMap_def⟩
      rw [List.forall₂_map_right_iff, List.forall₂_same]
      exact fun p _ => emits_ids hset p
    · exact hcost.trans_le (best_le_cost hsolved hsegs')
    · rw [List.flatMap_assoc, ← hsegs.flatMap_text, encodeUtf8, List.flatMap_assoc]
      exact List.flatMap_congr fun p hp => flatMap_tokenBytes hset (hsegs.valid p hp)

/-! ## A vocabulary that begins with its bytes -/

def digitChar (n : ℕ) : Char := if n < 10 then Char.ofNat (48 + n) else Char.ofNat (55 + n)

def byteToken (b : ℕ) : Token :=
  ⟨['<', '0', 'x', digitChar (b / 16), digitChar (b % 16), '>'], true, 0⟩

lemma byteVal_byteToken {b : ℕ} (hb : b < 256) : byteVal (byteToken b).text = some b := by
  have hall : ((List.range 256).all fun b => decide (byteVal (byteToken b).text = some b)) = true := by
    decide +kernel
  exact of_decide_eq_true (List.all_eq_true.1 hall b (List.mem_range.2 hb))

lemma mem_byteTokens {t : Token} (ht : t ∈ (List.range 256).map byteToken) :
    ∃ b < 256, t = byteToken b := by
  obtain ⟨b, hb, rfl⟩ := List.mem_map.1 ht
  exact ⟨b, List.mem_range.1 hb, rfl⟩

lemma nodup_byteTokens : (((List.range 256).map byteToken).map Token.text).Nodup := by
  rw [List.map_map]
  refine List.Nodup.map_on (fun a ha b hb heq => ?_) List.nodup_range
  have heq : byteVal (byteToken a).text = byteVal (byteToken b).text := congrArg byteVal heq
  rw [byteVal_byteToken (List.mem_range.1 ha), byteVal_byteToken (List.mem_range.1 hb)] at heq
  exact Option.some.inj heq

/-- The 256 byte tokens, of which `<0x00>` has the id zero. -/
def bytesFirst : Vocabulary where
  tokens := (List.range 256).map byteToken
  text_ne_nil t ht := by
    obtain ⟨b, -, rfl⟩ := mem_byteTokens ht
    exact List.cons_ne_nil _ _
  nodup := nodup_byteTokens
  byteVal_isSome t ht _ := by
    obtain ⟨b, hb, rfl⟩ := mem_byteTokens ht
    rw [byteVal_byteToken hb]
    rfl
  exists_byte b hb :=
    ⟨byteToken b, List.mem_map_of_mem (List.mem_range.2 hb), rfl, byteVal_byteToken hb⟩
  isFloat_score t ht := by
    obtain ⟨b, -, rfl⟩ := mem_byteTokens ht
    exact ⟨0, 0, by norm_num, by norm_num, by norm_num [byteToken]⟩
  lt_score t ht := by
    obtain ⟨b, -, rfl⟩ := mem_byteTokens ht
    norm_num [byteToken]

/-- The byte whose token has the id zero is taken for one that is not set. -/
theorem not_tokenizesRight_bytesFirst : ¬TokenizesRight bytesFirst := by
  rintro ⟨t, ht, -⟩
  obtain ⟨t', ht', -, hval⟩ := bytes_ne_zero_iff.1 (of_build_eq_ok ht).1 0 (by norm_num)
  have htail : bytesFirst.tokens.tail = (List.range' 1 255).map byteToken := by
    rw [bytesFirst, ← List.map_tail, List.range_eq_range', List.tail_range']
  rw [htail] at ht'
  obtain ⟨b, hb, rfl⟩ := List.mem_map.1 ht'
  rw [List.mem_range'_1] at hb
  rw [byteVal_byteToken (by omega)] at hval
  have hzero := Option.some.inj hval
  omega

end IFairy.Vocab.Plamo2
