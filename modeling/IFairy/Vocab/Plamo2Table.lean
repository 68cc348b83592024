import IFairy.Framework.KeyedMaps
import IFairy.Framework.Segmentations
import IFairy.Vocab.Plamo2

/-!
# The table of suffixes

What `build` makes of a vocabulary: the known suffixes and their scores (`collected_maps`), their
numbers (`numbered_numbering`), and for every known suffix its rows at its number (`drop_table`).
-/

namespace IFairy.Vocab.Plamo2

/-! ## The maps -/

lemma lookup_addAbsent {texts : List (List Char)} (m : AList fun _ : List Char => Option ℚ)
    (s : List Char) :
    (texts.foldl (fun m text => if (m.lookup text).isNone then m.insert text none else m) m).lookup
        s = (m.lookup s).or (if s ∈ texts then some none else none) := by
  induction texts generalizing m with
  | nil => rw [List.foldl_nil, if_neg List.not_mem_nil, Option.or_none]
  | cons text texts ih =>
    rw [List.foldl_cons, ih]
    by_cases hs : s = text
    · subst hs
      rw [if_pos List.mem_cons_self]
      rcases hm : m.lookup s with - | score
      · rw [Option.isNone_none, if_pos rfl, AList.lookup_insert]
        rfl
      · rw [Option.isNone_some, if_neg Bool.false_ne_true, hm]
        rfl
    · have hlookup : (if (m.lookup text).isNone then m.insert text none else m).lookup s =
          m.lookup s := by
        split_ifs
        · exact AList.lookup_insert_ne hs
        · rfl
      rw [hlookup]
      exact congrArg _ (if_congr (by rw [List.mem_cons, or_iff_right hs]) rfl rfl)

lemma mem_drops_iff {text s : List Char} :
    s ∈ (List.range' 1 (text.length - 1)).map text.drop ↔ s ≠ [] ∧ s ≠ text ∧ s <:+ text := by
  rw [List.mem_map]
  constructor
  · rintro ⟨i, hi, rfl⟩
    rw [List.mem_range'_1] at hi
    have hlength : (text.drop i).length = text.length - i := List.length_drop
    refine ⟨fun h => ?_, fun h => ?_, List.drop_suffix _ _⟩
    · rw [h, List.length_nil] at hlength
      omega
    · rw [h] at hlength
      omega
  · rintro ⟨hne, htext, front, rfl⟩
    have hs := List.length_pos_iff.2 hne
    have hfront : 0 < front.length := List.length_pos_iff.2 fun h => htext (by rw [h]; rfl)
    refine ⟨front.length, ?_, List.drop_left⟩
    rw [List.mem_range'_1, List.length_append]
    omega

lemma lookup_addSuffixes (text s : List Char) (m : AList fun _ : List Char => Option ℚ) :
    (addSuffixes text m).lookup s =
      (m.lookup s).or (if s ≠ [] ∧ s ≠ text ∧ s <:+ text then some none else none) := by
  have hfold : addSuffixes text m = ((List.range' 1 (text.length - 1)).map text.drop).foldl
      (fun m text => if (m.lookup text).isNone then m.insert text none else m) m := by
    rw [addSuffixes, List.foldl_map]
  rw [hfold, lookup_addAbsent]
  exact congrArg _ (if_congr mem_drops_iff rfl rfl)

/-- What the maps tell about the tokens that were added. -/
structure Collected (entries : List (Token × ℕ)) (m : Maps) : Prop where
  known_iff : ∀ s, (m.suffixToScore.lookup s).isSome ↔
    s ≠ [] ∧ ∃ e ∈ entries, e.1.byte = false ∧ s <:+ e.1.text
  score_of_token : ∀ e ∈ entries, e.1.byte = false →
    m.suffixToScore.lookup e.1.text = some (some e.1.score)
  token_of_score : ∀ s score, m.suffixToScore.lookup s = some (some score) →
    ∃ e ∈ entries, e.1.byte = false ∧ e.1.text = s ∧ e.1.score = score
  tokenToId : ∀ e ∈ entries, m.tokenToId e.1.text = some (e.2 : ℤ)
  token_of_byte : ∀ b, m.bytes b ≠ 0 →
    ∃ e ∈ entries, e.1.byte = true ∧ byteVal e.1.text = some b ∧ m.bytes b = e.2
  byte_ne_zero : ∀ e ∈ entries, e.1.byte = true → e.2 ≠ 0 →
    ∀ b, byteVal e.1.text = some b → m.bytes b ≠ 0

/-- The entries of a vocabulary: no text is empty, no two are the same, and the ids increase. -/
structure Entries (entries : List (Token × ℕ)) : Prop where
  text_ne_nil : ∀ e ∈ entries, e.1.text ≠ []
  nodup : (entries.map fun e => e.1.text).Nodup
  sorted : (entries.map Prod.snd).Pairwise (· < ·)

lemma entries_zipIdx (vocab : Vocabulary) : Entries vocab.tokens.zipIdx := by
  refine ⟨fun e he => ?_, ?_, ?_⟩
  · exact vocab.text_ne_nil _ (List.fst_mem_of_mem_zipIdx he)
  · have hmap : vocab.tokens.zipIdx.map (fun e => e.1.text) = vocab.tokens.map Token.text := by
      rw [show (fun e : Token × ℕ => e.1.text) = Token.text ∘ Prod.fst from rfl, ← List.map_map,
        List.zipIdx_map_fst]
    rw [hmap]
    exact vocab.nodup
  · rw [List.zipIdx_map_snd]
    exact List.pairwise_lt_range'

lemma collected_nil : Collected [] ⟨fun _ => 0, ∅, fun _ => none⟩ where
  known_iff s := by simp [AList.lookup_empty]
  score_of_token e he := absurd he List.not_mem_nil
  token_of_score s score h := by simp [AList.lookup_empty] at h
  tokenToId e he := absurd he List.not_mem_nil
  token_of_byte b h := absurd rfl h
  byte_ne_zero e he := absurd he List.not_mem_nil

lemma lookup_addNormal (text s : List Char) (score : ℚ)
    (m : AList fun _ : List Char => Option ℚ) :
    (addSuffixes text (m.insert text (some score))).lookup s =
      if s = text then some (some score)
      else (m.lookup s).or (if s ≠ [] ∧ s <:+ text then some none else none) := by
  rw [lookup_addSuffixes]
  by_cases htext : s = text
  · rw [if_pos htext, htext, AList.lookup_insert, Option.some_or]
  · rw [if_neg htext, AList.lookup_insert_ne htext]
    exact congrArg _ (if_congr (and_congr_right fun _ => and_iff_right htext) rfl rfl)

lemma addToken_normal (m : Maps) {e : Token × ℕ} (h : e.1.byte = false) :
    addToken m e = ⟨m.bytes,
      addSuffixes e.1.text (m.suffixToScore.insert e.1.text (some e.1.score)),
      Function.update m.tokenToId e.1.text (some (e.2 : ℤ))⟩ := by
  rw [addToken, h]
  rfl

lemma addToken_byte (m : Maps) {e : Token × ℕ} {b : ℕ} (h : e.1.byte = true)
    (hb : byteVal e.1.text = some b) :
    addToken m e = ⟨Function.update m.bytes b e.2, m.suffixToScore,
      Function.update m.tokenToId e.1.text (some (e.2 : ℤ))⟩ := by
  rw [addToken, h, hb]
  rfl

section Snoc

variable {entries : List (Token × ℕ)} {e : Token × ℕ} (h : Entries (entries ++ [e]))

include h

lemma Entries.fresh : ∀ e' ∈ entries, e'.1.text ≠ e.1.text := by
  have hnodup := h.nodup
  rw [List.map_append, List.nodup_append] at hnodup
  intro e' he'
  exact hnodup.2.2 _ (List.mem_map_of_mem he') _ (List.mem_singleton_self _)

lemma Entries.later : ∀ e' ∈ entries, e'.2 < e.2 := by
  have hsorted := h.sorted
  rw [List.map_append, List.pairwise_append] at hsorted
  intro e' he'
  exact hsorted.2.2 _ (List.mem_map_of_mem he') _ (List.mem_singleton_self _)

lemma Entries.init : Entries entries := by
  have hsublist := List.sublist_append_left entries [e]
  exact ⟨fun e' he' => h.text_ne_nil e' (hsublist.subset he'), h.nodup.sublist (hsublist.map _),
    h.sorted.sublist (hsublist.map _)⟩

variable {m : Maps} (hm : Collected entries m)

include hm

lemma Collected.update_tokenToId : ∀ e' ∈ entries ++ [e],
    Function.update m.tokenToId e.1.text (some (e.2 : ℤ)) e'.1.text = some (e'.2 : ℤ) := by
  intro e' he'
  rcases List.mem_append.1 he' with he' | he'
  · rw [Function.update_of_ne (h.fresh e' he')]
    exact hm.tokenToId e' he'
  · rw [List.mem_singleton.1 he']
    exact Function.update_self _ _ _

lemma Collected.snoc_normal (hbyte : e.1.byte = false) :
    Collected (entries ++ [e]) (addToken m e) := by
  have hlast : e ∈ entries ++ [e] := List.mem_append_right _ (List.mem_singleton_self _)
  have hmem : ∀ e', e' ∈ entries ++ [e] ↔ e' ∈ entries ∨ e' = e := fun e' => by
    rw [List.mem_append, List.mem_singleton]
  have hlookup := lookup_addNormal e.1.text
  rw [addToken_normal m hbyte]
  refine ⟨fun s => ?_, fun e' he' hnormal => ?_, fun s score hs => ?_, hm.update_tokenToId h,
    fun b hb => ?_, fun e' he' hbyte' => ?_⟩
  · rw [hlookup]
    constructor
    · intro hs
      split_ifs at hs with htext hparts
      · exact ⟨htext ▸ h.text_ne_nil e hlast, e, hlast, hbyte, htext ▸ List.suffix_refl _⟩
      · exact ⟨hparts.1, e, hlast, hbyte, hparts.2⟩
      · rw [Option.or_none] at hs
        obtain ⟨hne, e', he', hrest⟩ := (hm.known_iff s).1 hs
        exact ⟨hne, e', (hmem e').2 (Or.inl he'), hrest⟩
    · rintro ⟨hne, e', he', hnormal, hsuffix⟩
      split_ifs with htext hparts
      · rfl
      · rw [Option.isSome_or]
        exact Bool.or_true _
      · rcases (hmem e').1 he' with he' | rfl
        · rw [Option.or_none]
          exact (hm.known_iff s).2 ⟨hne, e', he', hnormal, hsuffix⟩
        · exact absurd ⟨hne, hsuffix⟩ hparts
  · rw [hlookup]
    rcases (hmem e').1 he' with he' | rfl
    · rw [if_neg (h.fresh e' he'), hm.score_of_token e' he' hnormal, Option.some_or]
    · rw [if_pos rfl]
  · rw [hlookup] at hs
    by_cases htext : s = e.1.text
    · rw [if_pos htext, Option.some.injEq, Option.some.injEq] at hs
      exact ⟨e, hlast, hbyte, htext.symm, hs⟩
    · rw [if_neg htext] at hs
      have hs : m.suffixToScore.lookup s = some (some score) := by
        rcases hscore : m.suffixToScore.lookup s with - | score'
        · rw [hscore, Option.none_or] at hs
          split_ifs at hs
          cases hs
        · rwa [hscore, Option.some_or] at hs
      obtain ⟨e', he', hrest⟩ := hm.token_of_score s score hs
      exact ⟨e', (hmem e').2 (Or.inl he'), hrest⟩
  · obtain ⟨e', he', hrest⟩ := hm.token_of_byte b hb
    exact ⟨e', (hmem e').2 (Or.inl he'), hrest⟩
  · rcases (hmem e').1 he' with he' | rfl
    · exact hm.byte_ne_zero e' he' hbyte'
    · rw [hbyte] at hbyte'
      cases hbyte'

lemma Collected.snoc_byte (hbyte : e.1.byte = true) {b : ℕ} (hb : byteVal e.1.text = some b) :
    Collected (entries ++ [e]) (addToken m e) := by
  have hlast : e ∈ entries ++ [e] := List.mem_append_right _ (List.mem_singleton_self _)
  have hold : ∀ e' ∈ entries, e' ∈ entries ++ [e] := fun e' he' => List.mem_append_left _ he'
  have hnormal : ∀ e' ∈ entries ++ [e], e'.1.byte = false → e' ∈ entries := by
    intro e' he' hnot
    rcases List.mem_append.1 he' with he' | he'
    · exact he'
    · rw [List.mem_singleton.1 he', hbyte] at hnot
      cases hnot
  rw [addToken_byte m hbyte hb]
  refine ⟨fun s => ?_, fun e' he' hnot => ?_, fun s score hs => ?_, hm.update_tokenToId h,
    fun b' hb' => ?_, fun e' he' hbyte' hne b' hb' => ?_⟩
  · refine (hm.known_iff s).trans (and_congr_right fun _ => ?_)
    constructor
    · rintro ⟨e', he', hrest⟩
      exact ⟨e', hold e' he', hrest⟩
    · rintro ⟨e', he', hnot, hsuffix⟩
      exact ⟨e', hnormal e' he' hnot, hnot, hsuffix⟩
  · exact hm.score_of_token e' (hnormal e' he' hnot) hnot
  · obtain ⟨e', he', hrest⟩ := hm.token_of_score s score hs
    exact ⟨e', hold e' he', hrest⟩
  · dsimp only at hb' ⊢
    by_cases heq : b' = b
    · subst heq
      exact ⟨e, hlast, hbyte, hb, Function.update_self _ _ _⟩
    · rw [Function.update_of_ne heq] at hb' ⊢
      obtain ⟨e', he', hrest⟩ := hm.token_of_byte b' hb'
      exact ⟨e', hold e' he', hrest⟩
  · dsimp only
    have hlater : e'.2 ≤ e.2 := by
      rcases List.mem_append.1 he' with he' | he'
      · exact (h.later e' he').le
      · rw [List.mem_singleton.1 he']
    by_cases heq : b' = b
    · rw [heq, Function.update_self]
      omega
    · rw [Function.update_of_ne heq]
      rcases List.mem_append.1 he' with he' | he'
      · exact hm.byte_ne_zero e' he' hbyte' hne b' hb'
      · rw [List.mem_singleton.1 he', hb, Option.some.injEq] at hb'
        exact absurd hb'.symm heq

end Snoc

lemma collected_maps (vocab : Vocabulary) : Collected vocab.tokens.zipIdx (maps vocab) := by
  have hvalid : ∀ e ∈ vocab.tokens.zipIdx, e.1.byte = true → (byteVal e.1.text).isSome :=
    fun e he => vocab.byteVal_isSome _ (List.fst_mem_of_mem_zipIdx he)
  have hentries := entries_zipIdx vocab
  rw [maps]
  generalize vocab.tokens.zipIdx = entries at hvalid hentries ⊢
  induction entries using List.reverseRecOn with
  | nil => exact collected_nil
  | append_singleton entries e ih =>
    have hm := ih (fun e' he' => hvalid e' (List.mem_append_left _ he')) hentries.init
    rw [List.foldl_append, List.foldl_cons, List.foldl_nil]
    rcases hbyte : e.1.byte with - | -
    · exact hm.snoc_normal hentries hbyte
    · obtain ⟨b, hb⟩ := Option.isSome_iff_exists.1
        (hvalid e (List.mem_append_right _ (List.mem_singleton_self _)) hbyte)
      exact hm.snoc_byte hentries hbyte hb

/-! ## The known suffixes -/

/-- A suffix of a normal token, or the empty one. -/
def Known (vocab : Vocabulary) (s : List Char) : Prop :=
  s = [] ∨ ∃ t ∈ vocab.tokens, t.byte = false ∧ s <:+ t.text

lemma known_tail {vocab : Vocabulary} (c : Char) (s : List Char) (h : Known vocab (c :: s)) :
    Known vocab s := by
  rcases h with h | ⟨t, ht, hnormal, hsuffix⟩
  · cases h
  · exact Or.inr ⟨t, ht, hnormal, (List.suffix_cons c s).trans hsuffix⟩

lemma exists_mem_zipIdx {vocab : Vocabulary} {p : Token → Prop} :
    (∃ e ∈ vocab.tokens.zipIdx, p e.1) ↔ ∃ t ∈ vocab.tokens, p t := by
  constructor
  · rintro ⟨e, he, hp⟩
    exact ⟨e.1, List.fst_mem_of_mem_zipIdx he, hp⟩
  · rintro ⟨t, ht, hp⟩
    obtain ⟨i, hi⟩ := List.mem_iff_getElem?.1 ht
    exact ⟨(t, i), List.mk_mem_zipIdx_iff_getElem?.2 hi, hp⟩

variable (vocab : Vocabulary)

lemma lookup_isSome_iff (s : List Char) :
    ((maps vocab).suffixToScore.lookup s).isSome ↔ s ≠ [] ∧ Known vocab s := by
  rw [(collected_maps vocab).known_iff, exists_mem_zipIdx (p := fun t => t.byte = false ∧ s <:+ t.text)]
  exact and_congr_right fun hne => (or_iff_right hne).symm

lemma mem_suffixes_iff (s : List Char) : s ∈ suffixes (maps vocab) ↔ Known vocab s := by
  rw [suffixes, List.mem_insertionSort, List.mem_append, List.mem_singleton, ← AList.mem_keys,
    ← AList.lookup_isSome, lookup_isSome_iff]
  constructor
  · rintro (⟨-, h⟩ | rfl)
    · exact h
    · exact Or.inl rfl
  · intro h
    by_cases hs : s = []
    · exact Or.inr hs
    · exact Or.inl ⟨hs, h⟩

lemma nodup_suffixes : (suffixes (maps vocab)).Nodup := by
  rw [suffixes, (List.perm_insertionSort _ _).nodup_iff, List.nodup_append]
  refine ⟨AList.keys_nodup _, List.nodup_singleton _, fun s hs s' hs' heq => ?_⟩
  rw [← AList.mem_keys, ← AList.lookup_isSome, lookup_isSome_iff] at hs
  exact hs.1 (heq.trans (List.mem_singleton.1 hs'))

lemma revBytes_cons (c : Char) (s : List Char) : ∃ bytes, bytes ≠ [] ∧
    revBytes (c :: s) = revBytes s ++ bytes := by
  refine ⟨((String.utf8EncodeChar c).map UInt8.toNat).reverse, ?_, ?_⟩
  · obtain ⟨b, rest, hb, -⟩ := unicodeLenUtf8_encode c
    rw [hb]
    simp
  · rw [revBytes, encodeUtf8_cons, List.map_append, List.reverse_append]
    rfl

instance : Std.Total fun a b : List Char => revBytes a ≤ revBytes b :=
  ⟨fun a b => le_total (revBytes a) (revBytes b)⟩

instance : IsTrans (List Char) fun a b => revBytes a ≤ revBytes b :=
  ⟨fun _ _ _ h h' => h.trans h'⟩

lemma tail_before {before after : List (List Char)} {c : Char} {s : List Char}
    (h : suffixes (maps vocab) = before ++ (c :: s) :: after) : s ∈ before := by
  have hmem : s ∈ suffixes (maps vocab) := by
    rw [mem_suffixes_iff]
    refine known_tail c s ((mem_suffixes_iff vocab _).1 ?_)
    rw [h]
    exact List.mem_append_right _ List.mem_cons_self
  have hsorted : (suffixes (maps vocab)).Pairwise fun a b => revBytes a ≤ revBytes b :=
    List.pairwise_insertionSort (fun a b => revBytes a ≤ revBytes b) _
  rw [h] at hmem hsorted
  rcases List.mem_append.1 hmem with hs | hs
  · exact hs
  rcases List.mem_cons.1 hs with hs | hs
  · exact absurd hs.symm (List.cons_ne_self c s)
  · have hle := (List.pairwise_cons.1 (List.pairwise_append.1 hsorted).2.1).1 s hs
    obtain ⟨bytes, hne, hbytes⟩ := revBytes_cons c s
    obtain ⟨b, rest, rfl⟩ := List.exists_cons_of_ne_nil hne
    have hlt := List.Lex.append_left (· < ·) (List.Lex.nil : List.Lex (· < ·) [] (b :: rest))
      (revBytes s)
    rw [List.append_nil, ← hbytes] at hlt
    exact absurd hle (not_le.2 hlt)

/-! ## The numbers -/

/-- The number of rows of a suffix. -/
def blockSize (m : Maps) (s : List Char) : ℕ := 1 + (pieces m s).length

/-- The number of rows of the first suffixes. -/
def blockStart (m : Maps) (before : List (List Char)) : ℕ := (before.map (blockSize m)).sum

lemma blockStart_append (m : Maps) (before before' : List (List Char)) :
    blockStart m (before ++ before') = blockStart m before + blockStart m before' := by
  rw [blockStart, List.map_append, List.sum_append]
  rfl

lemma blockStart_cons (m : Maps) (s : List Char) (before : List (List Char)) :
    blockStart m (s :: before) = blockSize m s + blockStart m before := by
  rw [blockStart, List.map_cons, List.sum_cons]
  rfl

lemma split_snoc {α : Type*} {done before after : List α} {s s' : α}
    (h : done ++ [s] = before ++ s' :: after) : (after = [] ∧ done = before ∧ s = s') ∨
      ∃ after', after = after' ++ [s] ∧ done = before ++ s' :: after' := by
  rcases after.eq_nil_or_concat with rfl | ⟨after', t, rfl⟩
  · obtain ⟨hdone, hs⟩ := List.append_inj' h rfl
    exact Or.inl ⟨rfl, hdone, (List.cons.inj hs).1⟩
  · rw [List.concat_eq_append, ← List.cons_append, ← List.append_assoc] at h
    obtain ⟨hdone, hs⟩ := List.append_inj' h rfl
    obtain rfl := (List.cons.inj hs).1
    exact Or.inr ⟨after', List.concat_eq_append, hdone⟩

/-- Every suffix is numbered with the first of its rows. -/
def NumbersOf (m : Maps) (done : List (List Char)) (ids : List Char → Option ℕ) : Prop :=
  ∀ s id, ids s = some id ↔ ∃ before after, done = before ++ s :: after ∧ id = blockStart m before

section NumbersOf

variable {m : Maps} {done : List (List Char)} {ids : List Char → Option ℕ}
  (h : NumbersOf m done ids)

include h

lemma NumbersOf.mem {s : List Char} {id : ℕ} (hs : ids s = some id) : s ∈ done := by
  obtain ⟨before, after, rfl, -⟩ := (h s id).1 hs
  exact List.mem_append_right _ List.mem_cons_self

lemma NumbersOf.exists_id {s : List Char} (hs : s ∈ done) : ∃ id, ids s = some id := by
  obtain ⟨before, after, hdone⟩ := List.append_of_mem hs
  exact ⟨_, (h s _).2 ⟨before, after, hdone, rfl⟩⟩

lemma NumbersOf.inj {s s' : List Char} {id : ℕ} (hs : ids s = some id) (hs' : ids s' = some id) :
    s = s' := by
  obtain ⟨before, after, hdone, hid⟩ := (h s id).1 hs
  obtain ⟨before', after', hdone', hid'⟩ := (h s' id).1 hs'
  have hfirst : ∀ (b x a a' : List (List Char)) (t u : List Char),
      t :: a = x ++ u :: a' → blockStart m (b ++ x) = blockStart m b → t = u := by
    intro b x a a' t u heq hstart
    rcases x with - | ⟨y, x⟩
    · exact (List.cons.inj heq).1
    · rw [blockStart_append, blockStart_cons, blockSize] at hstart
      omega
  rcases List.append_eq_append_iff.1 (hdone.symm.trans hdone') with ⟨x, rfl, hx⟩ | ⟨x, rfl, hx⟩
  · exact hfirst before x after after' s s' hx (hid'.symm.trans hid)
  · exact (hfirst before' x after' after s' s hx (hid.symm.trans hid')).symm

variable {s : List Char} (hfresh : s ∉ done)

include hfresh

lemma NumbersOf.snoc :
    NumbersOf m (done ++ [s]) (Function.update ids s (some (blockStart m done))) := by
  intro s' id
  by_cases hs' : s' = s
  · subst hs'
    rw [Function.update_self, Option.some.injEq]
    constructor
    · rintro rfl
      exact ⟨done, [], rfl, rfl⟩
    · rintro ⟨before, after, hdone, rfl⟩
      rcases split_snoc hdone with ⟨-, rfl, -⟩ | ⟨after', -, hold⟩
      · rfl
      · exact absurd (hold ▸ List.mem_append_right _ List.mem_cons_self) hfresh
  · rw [Function.update_of_ne hs', h s' id]
    constructor
    · rintro ⟨before, after, rfl, hid⟩
      exact ⟨before, after ++ [s], by rw [List.append_assoc, List.cons_append], hid⟩
    · rintro ⟨before, after, hdone, hid⟩
      rcases split_snoc hdone with ⟨-, -, heq⟩ | ⟨after', -, hold⟩
      · exact absurd heq.symm hs'
      · exact ⟨before, after', hold, hid⟩

end NumbersOf

lemma update_pair_iff {done : List (List Char)} {ids : List Char → Option ℕ} {s : List Char}
    (hfresh : s ∉ done) (hclosed : ∀ c r, c :: r ∈ done → r ∈ done) (v : Option ℕ) {c : Char}
    {r : List Char} (hcr : c :: r ∈ done) (k id : ℕ) :
    (Function.update ids s v r = some k ∧ Function.update ids s v (c :: r) = some id) ↔
      (ids r = some k ∧ ids (c :: r) = some id) := by
  have hne : ∀ s' ∈ done, s' ≠ s := by
    rintro s' hs' rfl
    exact hfresh hs'
  rw [Function.update_of_ne (hne _ hcr), Function.update_of_ne (hne _ (hclosed c r hcr))]

/-- A piece code leads from the number of what remains to the number of the suffix. -/
def CodesOf (ids : List Char → Option ℕ) (codes : Char × ℕ → Option ℕ) : Prop :=
  ∀ c k id, codes (c, k) = some id ↔ ∃ s, ids s = some k ∧ ids (c :: s) = some id

/-- What the numbering tells about the suffixes that were numbered. -/
structure Numbered (m : Maps) (done : List (List Char)) (n : Numbering) : Prop where
  numPieces : n.numPieces = blockStart m done
  ids : NumbersOf m done n.suffixToId
  codes : CodesOf n.suffixToId n.toSuffixId

section Numbered

variable {m : Maps} {done : List (List Char)} {n : Numbering} (h : Numbered m done n)
  (hclosed : ∀ c r, c :: r ∈ done → r ∈ done)

include h hclosed

lemma Numbered.snoc_nil (hfresh : [] ∉ done) : Numbered m (done ++ [[]]) (numberSuffix m n []) := by
  have hids := h.ids.snoc hfresh
  rw [← h.numPieces] at hids
  have hcodes : CodesOf (Function.update n.suffixToId [] (some n.numPieces)) n.toSuffixId := by
    intro c k id
    refine (h.codes c k id).trans (exists_congr fun r => ?_)
    by_cases hcr : c :: r ∈ done
    · exact (update_pair_iff hfresh hclosed _ hcr k id).symm
    · refine iff_of_false (fun hold => hcr (h.ids.mem hold.2)) fun hnew => ?_
      rcases List.mem_append.1 (hids.mem hnew.2) with hmem | hmem
      · exact hcr hmem
      · exact List.cons_ne_nil c r (List.mem_singleton.1 hmem)
  refine ⟨?_, hids, hcodes⟩
  rw [blockStart_append, ← h.numPieces]
  rfl

lemma Numbered.snoc_cons {c : Char} {r : List Char} (hfresh : c :: r ∉ done) (hr : r ∈ done) :
    Numbered m (done ++ [c :: r]) (numberSuffix m n (c :: r)) := by
  have hids := h.ids.snoc hfresh
  rw [← h.numPieces] at hids
  obtain ⟨k, hk⟩ := h.ids.exists_id hr
  have hk' : Function.update n.suffixToId (c :: r) (some n.numPieces) r = some k := by
    rw [Function.update_of_ne, hk]
    rintro heq
    exact hfresh (heq ▸ hr)
  have hself := Function.update_self (c :: r) (some n.numPieces) n.suffixToId
  have hcodes : CodesOf (Function.update n.suffixToId (c :: r) (some n.numPieces))
      (Function.update n.toSuffixId (c, k) (some n.numPieces)) := by
    intro c' k' id
    by_cases hcode : (c', k') = (c, k)
    · obtain ⟨rfl, rfl⟩ := Prod.mk.inj hcode
      rw [Function.update_self]
      constructor
      · intro hid
        exact ⟨r, hk', hself.trans hid⟩
      · rintro ⟨r', hr', hcr'⟩
        obtain rfl := hids.inj hr' hk'
        exact hself.symm.trans hcr'
    · rw [Function.update_of_ne hcode, h.codes c' k' id]
      refine exists_congr fun r' => ?_
      by_cases hcr : c' :: r' ∈ done
      · exact (update_pair_iff hfresh hclosed _ hcr k' id).symm
      · refine iff_of_false (fun hold => hcr (h.ids.mem hold.2)) fun hnew => ?_
        rcases List.mem_append.1 (hids.mem hnew.2) with hmem | hmem
        · exact hcr hmem
        · obtain ⟨rfl, rfl⟩ := List.cons.inj (List.mem_singleton.1 hmem)
          exact hcode (by rw [Option.some.inj (hnew.1.symm.trans hk')])
  have hnumber : numberSuffix m n (c :: r) =
      ⟨Function.update n.suffixToId (c :: r) (some n.numPieces),
        Function.update n.toSuffixId (c, k) (some n.numPieces),
        n.numPieces + blockSize m (c :: r)⟩ := by
    rw [numberSuffix, hk']
    rfl
  rw [hnumber]
  refine ⟨?_, hids, hcodes⟩
  rw [blockStart_append, ← h.numPieces]
  rfl

end Numbered

lemma numbered_numbering :
    Numbered (maps vocab) (suffixes (maps vocab)) (numbering (maps vocab)) := by
  have hempty : Numbered (maps vocab) [] ⟨fun _ => none, fun _ => none, 0⟩ := by
    refine ⟨rfl, fun s id => ?_, fun c k id => ?_⟩
    · refine iff_of_false (fun hid => by cases hid) ?_
      rintro ⟨before, after, hnil, -⟩
      exact absurd hnil.symm (List.append_ne_nil_of_right_ne_nil _ (List.cons_ne_nil _ _))
    · refine iff_of_false (fun hid => by cases hid) ?_
      rintro ⟨s, hs, -⟩
      cases hs
  suffices hfold : ∀ rest done n, suffixes (maps vocab) = done ++ rest →
      Numbered (maps vocab) done n → Numbered (maps vocab) (suffixes (maps vocab))
        (rest.foldl (numberSuffix (maps vocab)) n) from hfold _ [] _ rfl hempty
  intro rest
  induction rest with
  | nil =>
    intro done n hdone hn
    rw [List.append_nil] at hdone
    rwa [hdone]
  | cons s rest ih =>
    intro done n hdone hn
    have hclosed : ∀ c r, c :: r ∈ done → r ∈ done := by
      intro c r hcr
      obtain ⟨before, after, rfl⟩ := List.append_of_mem hcr
      rw [List.append_assoc, List.cons_append] at hdone
      exact List.mem_append_left _ (tail_before vocab hdone)
    have hfresh : s ∉ done := by
      have hnodup := nodup_suffixes vocab
      rw [hdone, List.nodup_append] at hnodup
      exact fun hs => hnodup.2.2 s hs s List.mem_cons_self rfl
    refine ih (done ++ [s]) _ (by rw [hdone, List.append_assoc, List.singleton_append]) ?_
    rcases s with - | ⟨c, r⟩
    · exact hn.snoc_nil hclosed hfresh
    · exact hn.snoc_cons hclosed hfresh (tail_before vocab hdone)

/-! ## The rows -/

lemma scaledScore_bound {q : ℚ} (hfloat : IsFloat 24 (-149) q) (hq : -1000 < q) :
    -1000 + 1 / 16384 ≤ q := by
  obtain ⟨n, e, hn, -, rfl⟩ := hfloat
  rcases le_or_gt (-14) e with he | he
  · -- a multiple of the unit
    obtain ⟨k, rfl⟩ : ∃ k : ℕ, e = k + -14 := ⟨(e + 14).toNat, by omega⟩
    have hunit : (n : ℚ) * 2 ^ ((k : ℤ) + -14) = (n * 2 ^ k : ℤ) * (1 / 16384) := by
      rw [zpow_add₀ (by norm_num : (2 : ℚ) ≠ 0), zpow_natCast]
      push_cast
      norm_num
      ring
    rw [hunit] at hq ⊢
    have hint : (-16384000 : ℤ) < n * 2 ^ k := by
      have hlt : (-16384000 : ℚ) < (n * 2 ^ k : ℤ) := by linarith
      exact_mod_cast hlt
    have hle : (-16383999 : ℚ) ≤ (n * 2 ^ k : ℤ) := by exact_mod_cast hint
    linarith
  · have hsmall : (2 : ℚ) ^ e ≤ 2 ^ (-15 : ℤ) := zpow_le_zpow_right₀ (by norm_num) (by omega)
    have hpos : (0 : ℚ) < 2 ^ e := zpow_pos (by norm_num) e
    have hn' : (-2 ^ 24 : ℚ) ≤ n := by exact_mod_cast (abs_lt.1 hn).1.le
    rw [show (2 : ℚ) ^ (-15 : ℤ) = 1 / 32768 by norm_num] at hsmall
    have hmul := mul_le_mul_of_nonneg_right hn' hpos.le
    generalize (2 : ℚ) ^ e = unit at hsmall hpos hmul ⊢
    linarith

lemma lt_scaledScore {q : ℚ} (hfloat : IsFloat 24 (-149) q) (hq : -1000 < q) :
    unknownScore < scaledScore q := by
  have hbound := scaledScore_bound hfloat hq
  rw [scaledScore, round, unknownScore]
  split_ifs with hneg
  · have hfloor : 0 ≤ ⌊q * 10000 + 1 / 2⌋ := Int.floor_nonneg.2 (by linarith)
    omega
  · have hfloor : ⌊-(q * 10000) + 1 / 2⌋ < 10000000 := Int.floor_lt.2 (by push_cast; linarith)
    omega

/-- Every normal token has a scaled score that is an `int32_t`. -/
def ScoresFit : Prop := ∀ t ∈ vocab.tokens, t.byte = false → scaledScore t.score < 2 ^ 31

lemma lookup_cases {s : List Char} {score : Option ℚ}
    (h : (maps vocab).suffixToScore.lookup s = some score) :
    score = none ∨ ∃ t ∈ vocab.tokens, t.byte = false ∧ t.text = s ∧ score = some t.score := by
  rcases score with - | q
  · exact Or.inl rfl
  · obtain ⟨e, he, hnormal, htext, hscore⟩ := (collected_maps vocab).token_of_score s q h
    exact Or.inr ⟨e.1, List.fst_mem_of_mem_zipIdx he, hnormal, htext, by rw [hscore]⟩

/-- The row of a piece whose score fits. -/
def rowOf (m : Maps) (ids : List Char → Option ℕ) (piece : List Char) : Row :=
  ⟨piece.length, (m.tokenToId piece).getD (-1),
    (((m.suffixToScore.lookup piece).getD none).map scaledScore).getD invalidScore,
    (ids piece).getD 0⟩

/-- The rows of a suffix, its pieces and the sentinel. -/
def rowsOf (m : Maps) (ids : List Char → Option ℕ) (s : List Char) : List Row :=
  (pieces m s).map (rowOf m ids) ++ [sentinel]

lemma length_rowsOf (m : Maps) (ids : List Char → Option ℕ) (s : List Char) :
    (rowsOf m ids s).length = blockSize m s := by
  rw [rowsOf, List.length_append, List.length_map, blockSize, List.length_singleton, Nat.add_comm]

variable {vocab}

lemma tableRow_eq (hfit : ScoresFit vocab) (ids : List Char → Option ℕ) (piece : List Char) :
    tableRow (maps vocab) ids piece = some (rowOf (maps vocab) ids piece) := by
  rw [tableRow, rowOf]
  rcases hlookup : (maps vocab).suffixToScore.lookup piece with - | score
  · rfl
  · rcases lookup_cases vocab hlookup with rfl | ⟨t, ht, hnormal, -, rfl⟩
    · rfl
    · have hlow := lt_scaledScore (vocab.isFloat_score t ht) (vocab.lt_score t ht)
      rw [unknownScore] at hlow
      rw [Option.getD_some, tableScore, Option.elim_some,
        if_pos ⟨by omega, hfit t ht hnormal⟩]
      rfl

lemma tableRows_eq (hfit : ScoresFit vocab) (ids : List Char → Option ℕ) (s : List Char) :
    tableRows (maps vocab) ids s = some (rowsOf (maps vocab) ids s) := by
  rw [tableRows, mapM_eq_some fun piece _ => tableRow_eq hfit ids piece]
  rfl

variable (vocab)

/-- The tokenizer that is built when nothing fails. -/
def tokenizer : Tokenizer :=
  ⟨(maps vocab).bytes, (numbering (maps vocab)).toSuffixId,
    (suffixes (maps vocab)).flatMap (rowsOf (maps vocab) (numbering (maps vocab)).suffixToId)⟩

variable {vocab}

lemma build_eq_ok (hbytes : ∀ b < 256, (maps vocab).bytes b ≠ 0) (hfit : ScoresFit vocab) :
    build vocab = .ok (tokenizer vocab) := by
  have hfind : ((List.range 256).find? fun i => decide ((maps vocab).bytes i = 0)) = none := by
    refine List.find?_eq_none.2 fun b hb => ?_
    rw [decide_eq_true_iff]
    exact hbytes b (List.mem_range.1 hb)
  rw [build, hfind, mapM_eq_some fun s _ => tableRows_eq hfit _ s]
  rfl

lemma exists_of_mapM {α β : Type*} {f : α → Option β} {l : List α} {out : List β}
    (h : l.mapM f = some out) : ∀ a ∈ l, ∃ b, f a = some b := by
  induction l generalizing out with
  | nil => exact fun a ha => absurd ha List.not_mem_nil
  | cons a l ih =>
    rw [List.mapM_cons] at h
    obtain ⟨b, hb, hrest⟩ := Option.bind_eq_some_iff.1 h
    obtain ⟨out', hout, -⟩ := Option.bind_eq_some_iff.1 hrest
    exact List.forall_mem_cons.2 ⟨⟨b, hb⟩, ih hout⟩

lemma self_mem_pieces {m : Maps} {s : List Char} (hne : s ≠ [])
    (hs : (m.suffixToScore.lookup s).isSome) : s ∈ pieces m s := by
  have hlength := List.length_pos_iff.2 hne
  rw [pieces, List.mem_filter, List.mem_map]
  refine ⟨⟨s.length - 1, ?_, ?_⟩, hs⟩
  · rw [List.mem_reverse, List.mem_range]
    omega
  · rw [Nat.sub_add_cancel hlength, List.take_length]

lemma of_build_eq_ok {t : Tokenizer} (h : build vocab = .ok t) :
    (∀ b < 256, (maps vocab).bytes b ≠ 0) ∧ ScoresFit vocab := by
  rw [build] at h
  rcases hfind : (List.range 256).find? (fun i => decide ((maps vocab).bytes i = 0)) with - | b
  · rw [hfind, Option.elim_none] at h
    refine ⟨fun b hb => ?_, fun t ht hnormal => ?_⟩
    · have hne := List.find?_eq_none.1 hfind b (List.mem_range.2 hb)
      rwa [decide_eq_true_iff] at hne
    · rcases hrows : (suffixes (maps vocab)).mapM
        (tableRows (maps vocab) (numbering (maps vocab)).suffixToId) with - | rows
      · rw [hrows] at h
        cases h
      · have hne := vocab.text_ne_nil t ht
        have hknown : Known vocab t.text := Or.inr ⟨t, ht, hnormal, List.suffix_refl _⟩
        have hlookup := (lookup_isSome_iff vocab t.text).2 ⟨hne, hknown⟩
        obtain ⟨rows', hrows'⟩ := exists_of_mapM hrows _ ((mem_suffixes_iff vocab _).2 hknown)
        obtain ⟨rows'', hrows'', -⟩ := Option.map_eq_some_iff.1 hrows'
        obtain ⟨row, hrow⟩ := exists_of_mapM hrows'' _ (self_mem_pieces hne hlookup)
        obtain ⟨i, hi⟩ := List.mem_iff_getElem?.1 ht
        have hscore := (collected_maps vocab).score_of_token (t, i)
          (List.mk_mem_zipIdx_iff_getElem?.2 hi) hnormal
        obtain ⟨score, hscore', -⟩ := Option.map_eq_some_iff.1 hrow
        rw [hscore, Option.getD_some, tableScore, Option.elim_some] at hscore'
        split_ifs at hscore' with hrange
        exact hrange.2
  · rw [hfind] at h
    cases h

/-- Every byte has a token other than the first one. -/
def BytesSettable (vocab : Vocabulary) : Prop :=
  ∀ b < 256, ∃ t ∈ vocab.tokens.tail, t.byte = true ∧ byteVal t.text = some b

lemma bytes_ne_zero_iff :
    (∀ b < 256, (maps vocab).bytes b ≠ 0) ↔ BytesSettable vocab := by
  refine forall₂_congr fun b _ => ⟨fun hb => ?_, ?_⟩
  · obtain ⟨e, he, hbyte, hval, hid⟩ := (collected_maps vocab).token_of_byte b hb
    have hne : e.2 ≠ 0 := fun hzero => hb (by rw [hid, hzero]; rfl)
    have hget := List.mem_zipIdx_iff_getElem?.1 he
    refine ⟨e.1, List.mem_iff_getElem?.2 ⟨e.2 - 1, ?_⟩, hbyte, hval⟩
    rw [List.getElem?_tail, Nat.sub_add_cancel (Nat.pos_of_ne_zero hne), hget]
  · rintro ⟨t, ht, hbyte, hval⟩
    obtain ⟨i, hi⟩ := List.mem_iff_getElem?.1 ht
    rw [List.getElem?_tail] at hi
    exact (collected_maps vocab).byte_ne_zero (t, i + 1) (List.mk_mem_zipIdx_iff_getElem?.2 hi)
      hbyte (Nat.succ_ne_zero i) b hval

/-! ## The tokenizer -/

lemma exists_drop_table {s : List Char} (hs : Known vocab s) :
    ∃ id rest, (numbering (maps vocab)).suffixToId s = some id ∧
      (tokenizer vocab).table.drop id =
        rowsOf (maps vocab) (numbering (maps vocab)).suffixToId s ++ rest := by
  have hids := (numbered_numbering vocab).ids
  obtain ⟨id, hid⟩ := hids.exists_id ((mem_suffixes_iff vocab s).2 hs)
  obtain ⟨before, after, hsplit, hstart⟩ := (hids s id).1 hid
  refine ⟨id, after.flatMap (rowsOf (maps vocab) (numbering (maps vocab)).suffixToId), hid, ?_⟩
  have hlength : (before.flatMap
      (rowsOf (maps vocab) (numbering (maps vocab)).suffixToId)).length = id := by
    rw [hstart, List.length_flatMap, blockStart]
    exact congrArg List.sum (List.map_congr_left fun s _ => length_rowsOf _ _ s)
  rw [tokenizer, hsplit, List.flatMap_append, List.drop_left' hlength, List.flatMap_cons]

end IFairy.Vocab.Plamo2
