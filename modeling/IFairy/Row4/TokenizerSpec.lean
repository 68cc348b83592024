import IFairy.Row4.TokenizerFiles

/-!
# The emitted token list

The files describe a `Vocabulary`, and they are accepted exactly when it is consistent with the
size (`loadTokenizerFiles_ok_iff`): ids in range, no id twice, no text twice.  The checks leave out
the generated names `[PAD<id>]`.  The token list is right exactly when no token of the files has
such a name for an id without a token (`emitsRightTokens_iff`).
-/

namespace IFairy

namespace TokenizerFiles

/-! ## Vocabularies -/

/-- The tokens that the files give: ids and texts, for an added token also the flag `special`. -/
structure Vocabulary where
  base : List (ℤ × Str)
  added : List (ℤ × Str × Bool)

namespace Vocabulary

def pairs (v : Vocabulary) : List (ℤ × Str) := v.base ++ v.added.map fun a => (a.1, a.2.1)

/-- The checks of the loader: ids in range, no id and no text twice. -/
structure Consistent (v : Vocabulary) (n : ℕ) : Prop where
  base_ne_nil : v.base ≠ []
  text_ne_nil : ∀ p ∈ v.pairs, p.2 ≠ []
  in_range : ∀ p ∈ v.pairs, 0 ≤ p.1 ∧ p.1 < n
  ids_nodup : (v.pairs.map Prod.fst).Nodup
  texts_nodup : (v.pairs.map Prod.snd).Nodup

end Vocabulary

/-- The files have the form the loader asks for and give this vocabulary. -/
def Describes (dir : ModelDir) (v : Vocabulary) : Prop :=
  ∃ tokenizer config vocab added, loadRoots dir = .ok (tokenizer, config) ∧
    modelVocab tokenizer = .ok vocab ∧ addedTokens tokenizer = .ok added ∧
    vocab.map baseItem = v.base.map some ∧ added.map addedItem = v.added.map some

lemma map_some_injective {β : Type*} {l l' : List β} (h : l.map some = l'.map some) : l = l' :=
  List.map_injective_iff.2 (Option.some_injective β) h

lemma Describes.unique {dir : ModelDir} {v v' : Vocabulary} (h : Describes dir v)
    (h' : Describes dir v') : v = v' := by
  obtain ⟨tokenizer, config, vocab, added, hroots, hvocab, hadded, hbase, hitems⟩ := h
  obtain ⟨tokenizer', config', vocab', added', hroots', hvocab', hadded', hbase', hitems'⟩ := h'
  rw [hroots] at hroots'
  cases hroots'
  rw [hvocab] at hvocab'
  cases hvocab'
  rw [hadded] at hadded'
  cases hadded'
  obtain ⟨base, items⟩ := v
  obtain ⟨base', items'⟩ := v'
  obtain rfl := map_some_injective (hbase.symm.trans hbase')
  obtain rfl := map_some_injective (hitems.symm.trans hitems')
  rfl

/-! ## Dictionaries -/

lemma map_fst_setItem (items : List (Str × PyValue)) (item : Str × PyValue) :
    (setItem items item).map Prod.fst =
      if item.1 ∈ items.map Prod.fst then items.map Prod.fst
      else items.map Prod.fst ++ [item.1] := by
  rw [setItem]
  split
  · rw [List.map_map]
    refine List.map_congr_left fun old _ => ?_
    rw [Function.comp_apply]
    split_ifs with h
    · exact h.symm
    · rfl
  · rw [List.map_append, List.map_singleton]

lemma nodup_itemsOf (members : List (Str × PyValue)) :
    ((itemsOf members).map Prod.fst).Nodup := by
  have hstep (items : List (Str × PyValue)) (hitems : (items.map Prod.fst).Nodup) :
      ((members.foldl setItem items).map Prod.fst).Nodup := by
    induction members generalizing items with
    | nil => exact hitems
    | cons item members ih =>
      refine ih _ ?_
      rw [map_fst_setItem]
      split_ifs with hmem
      · exact hitems
      · exact List.nodup_append.2 ⟨hitems, List.nodup_singleton _,
          fun a ha b hb hab => hmem (List.mem_singleton.1 hb ▸ hab ▸ ha)⟩
  exact hstep [] List.nodup_nil

/-- `for k, t in l: d[k] = t`. -/
def assign {β : Type} (l : List (ℤ × β)) (init : ℤ → Option β) : ℤ → Option β :=
  l.foldl (fun ids p => Function.update ids p.1 (some p.2)) init

lemma assign_eq_some_iff {β : Type} {l : List (ℤ × β)} (hl : (l.map Prod.fst).Nodup)
    (init : ℤ → Option β) (k : ℤ) (t : β) :
    assign l init k = some t ↔ (k, t) ∈ l ∨ k ∉ l.map Prod.fst ∧ init k = some t := by
  induction l generalizing init with
  | nil => simp [assign]
  | cons p l ih =>
    obtain ⟨k', t'⟩ := p
    rw [List.map_cons, List.nodup_cons] at hl
    rw [assign, List.foldl_cons, ← assign, ih hl.2, List.mem_cons, List.map_cons, List.mem_cons,
      Prod.mk.injEq]
    by_cases hk : k = k'
    · subst hk
      have hnot : (k, t) ∉ l := fun h => hl.1 (List.mem_map.2 ⟨_, h, rfl⟩)
      simp only [Function.update_self, Option.some_inj, hnot, hl.1, true_and, or_false, false_or,
        not_false_eq_true, not_true_eq_false, false_and, eq_comm]
    · simp only [Function.update_of_ne hk, hk, false_and, false_or]

/-! ## The loader -/

lemma checkBase_cons_ok_iff {n : ℤ} {token : Str} {value : PyValue} {items : List (Str × PyValue)}
    {ids out : Ids} :
    checkBase n ((token, value) :: items) ids = .ok out ↔
      ∃ id, value = .int id ∧ token ≠ [] ∧ (0 ≤ id ∧ id < n) ∧
        (ids id = none ∧ checkBase n items (Function.update ids id (some token)) = .ok out ∨
          ids id = some token ∧ checkBase n items ids = .ok out) := by
  cases value with
  | int id =>
    rw [checkBase]
    by_cases htoken : token = []
    · simp [htoken]
    by_cases hid : 0 ≤ id ∧ id < n
    · rw [if_neg htoken, if_neg (not_not.2 hid)]
      cases hprevious : ids id with
      | none => simp [htoken, hid, hprevious]
      | some previous =>
        by_cases heq : previous = token
        · simp [htoken, hid, hprevious, heq]
        · simp [htoken, hid, hprevious, heq]
    · rw [if_neg htoken, if_pos hid]
      simp only [PyValue.int.injEq, reduceCtorEq, false_iff, not_exists]
      rintro id' ⟨rfl, -, hid', -⟩
      exact hid hid'
  | _ =>
    simp only [checkBase, reduceCtorEq, false_and, exists_false, iff_false]
    split_ifs <;> simp

lemma baseItem_eq_some {item : Str × PyValue} {id : ℤ} {token : Str}
    (h : baseItem item = some (id, token)) : item.2 = .int id ∧ item.1 = token := by
  obtain ⟨token', value⟩ := item
  cases value with
  | int id' =>
    cases h
    exact ⟨rfl, rfl⟩
  | _ => cases h

lemma checkBase_ok_iff {n : ℤ} {items : List (Str × PyValue)} {ids out : Ids}
    (hitems : (items.map Prod.fst).Nodup)
    (hfresh : ∀ k t, ids k = some t → t ∉ items.map Prod.fst) :
    checkBase n items ids = .ok out ↔ ∃ base : List (ℤ × Str),
      items.map baseItem = base.map some ∧
      (∀ p ∈ base, p.2 ≠ [] ∧ (0 ≤ p.1 ∧ p.1 < n) ∧ ids p.1 = none) ∧ (base.map Prod.fst).Nodup ∧
      out = assign base ids := by
  induction items generalizing ids with
  | nil =>
    rw [checkBase, Except.ok.injEq, List.map_nil]
    constructor
    · rintro rfl
      exact ⟨[], rfl, fun p hp => (by cases hp), List.nodup_nil, rfl⟩
    · rintro ⟨base, hbase, -, -, rfl⟩
      rw [List.map_eq_nil_iff.1 hbase.symm]
      rfl
  | cons item items ih =>
    obtain ⟨token, value⟩ := item
    rw [List.map_cons, List.nodup_cons] at hitems
    rw [checkBase_cons_ok_iff]
    have hfresh' (id : ℤ) (k : ℤ) (t : Str) (ht : Function.update ids id (some token) k = some t) :
        t ∉ items.map Prod.fst := by
      by_cases hk : k = id
      · rw [hk, Function.update_self, Option.some_inj] at ht
        exact ht ▸ hitems.1
      · rw [Function.update_of_ne hk] at ht
        exact fun h => hfresh k t ht (List.mem_cons_of_mem _ h)
    constructor
    · rintro ⟨id, rfl, htoken, hid, ⟨hnone, hrest⟩ | ⟨hsome, -⟩⟩
      · obtain ⟨base, hbase, hall, hnodup, rfl⟩ := (ih hitems.2 (hfresh' id)).1 hrest
        have hne : ∀ p ∈ base, p.1 ≠ id := by
          rintro p hp rfl
          have hfree := (hall p hp).2.2
          rw [Function.update_self] at hfree
          cases hfree
        refine ⟨(id, token) :: base, ?_, ?_, ?_, rfl⟩
        · rw [List.map_cons, List.map_cons, hbase, baseItem]
        · refine List.forall_mem_cons.2 ⟨⟨htoken, hid, hnone⟩, fun p hp => ?_⟩
          obtain ⟨htext, hrange, hfree⟩ := hall p hp
          rw [Function.update_of_ne (hne p hp)] at hfree
          exact ⟨htext, hrange, hfree⟩
        · rw [List.map_cons, List.nodup_cons]
          refine ⟨fun hmem => ?_, hnodup⟩
          obtain ⟨p, hp, hpid⟩ := List.mem_map.1 hmem
          exact hne p hp hpid
      · exact absurd (List.mem_cons_self) (hfresh id token hsome)
    · rintro ⟨base, hbase, hall, hnodup, rfl⟩
      cases base with
      | nil => cases hbase
      | cons p base =>
        obtain ⟨id, text⟩ := p
        rw [List.map_cons, List.map_cons, List.cons.injEq] at hbase
        obtain ⟨hitem, hbase⟩ := hbase
        obtain ⟨rfl, rfl⟩ := baseItem_eq_some hitem
        rw [List.map_cons, List.nodup_cons] at hnodup
        obtain ⟨⟨htext, hrange, hfree⟩, hrest⟩ := List.forall_mem_cons.1 hall
        refine ⟨id, rfl, htext, hrange, .inl ⟨hfree, ?_⟩⟩
        refine (ih hitems.2 (hfresh' id)).2 ⟨base, hbase, fun p hp => ?_, hnodup.2, rfl⟩
        obtain ⟨htext, hrange, hfree⟩ := hrest p hp
        have hne : p.1 ≠ id := fun h => hnodup.1 (List.mem_map.2 ⟨p, hp, h⟩)
        exact ⟨htext, hrange, (Function.update_of_ne hne _ _).trans hfree⟩

/-! ### Added tokens -/

lemma checkAdded_cons_ok_iff {n : ℤ} {baseIds : Ids} {vocab : List (Str × PyValue)} {index : ℕ}
    {entry : PyValue} {entries : List PyValue} {addedIds : Ids} {contents : List Str}
    (hcontents : ∀ k t, addedIds k = some t → t ∈ contents) :
    checkAdded n baseIds vocab index (entry :: entries) addedIds contents = .ok () ↔
      ∃ id content special, addedItem entry = some (id, content, special) ∧ content ≠ [] ∧
        (0 ≤ id ∧ id < n) ∧ baseIds id = none ∧ addedIds id = none ∧ content ∉ contents ∧
        content ∉ vocab.map Prod.fst ∧
        checkAdded n baseIds vocab (index + 1) entries
          (Function.update addedIds id (some content)) (contents ++ [content]) = .ok () := by
  cases entry with
  | dict members =>
    rw [checkAdded, addedItem]
    cases intField (itemsOf members) "id".toList with
    | none => simp
    | some id =>
      by_cases hid : 0 ≤ id ∧ id < n
      · cases strField (itemsOf members) "content".toList with
        | none => simp [hid]
        | some content =>
          by_cases hcontent : content = []
          · simp [hid, hcontent]
          cases hbase : baseIds id with
          | some base => simp [hid, hcontent, hbase]
          | none =>
            cases hadded : addedIds id with
            | none =>
              by_cases hmem : content ∈ contents
              · simp [hid, hcontent, hbase, hadded, hmem]
              by_cases hvocab : content ∈ vocab.map Prod.fst
              · simp [hid, hcontent, hbase, hadded, hmem, hvocab, -List.mem_map]
              · simp [hid, hcontent, hbase, hadded, hmem, hvocab, -List.mem_map]
            | some previous =>
              by_cases heq : previous = content
              · have hmem : content ∈ contents := heq ▸ hcontents id previous hadded
                simp [hid, hcontent, hbase, hadded, hmem, heq]
              · simp [hid, hcontent, hbase, hadded, heq]
      · cases strField (itemsOf members) "content".toList with
        | none => simp [hid]
        | some content =>
          simp only [hid, not_false_eq_true, if_true, reduceCtorEq, Option.some.injEq, Prod.mk.injEq,
            false_iff, not_exists]
          rintro id' content' special ⟨⟨rfl, -, -⟩, -, hid', -⟩
          exact hid hid'
  | _ => simp [checkAdded, addedItem]

lemma checkAdded_ok_iff {n : ℤ} {baseIds : Ids} {vocab : List (Str × PyValue)} {index : ℕ}
    {entries : List PyValue} {addedIds : Ids} {contents : List Str}
    (hcontents : ∀ k t, addedIds k = some t → t ∈ contents) :
    checkAdded n baseIds vocab index entries addedIds contents = .ok () ↔
      ∃ added : List (ℤ × Str × Bool), entries.map addedItem = added.map some ∧
        (∀ a ∈ added, a.2.1 ≠ [] ∧ (0 ≤ a.1 ∧ a.1 < n) ∧ baseIds a.1 = none ∧
          addedIds a.1 = none ∧ a.2.1 ∉ contents ∧ a.2.1 ∉ vocab.map Prod.fst) ∧
        (added.map fun a => a.1).Nodup ∧ (added.map fun a => a.2.1).Nodup := by
  induction entries generalizing index addedIds contents with
  | nil =>
    exact iff_of_true rfl ⟨[], rfl, fun a ha => (by cases ha), List.nodup_nil, List.nodup_nil⟩
  | cons entry entries ih =>
    rw [checkAdded_cons_ok_iff hcontents]
    have hcontents' (id : ℤ) (content : Str) (k : ℤ) (t : Str)
        (ht : Function.update addedIds id (some content) k = some t) : t ∈ contents ++ [content] := by
      by_cases hk : k = id
      · rw [hk, Function.update_self, Option.some_inj] at ht
        exact ht ▸ List.mem_append_right _ (List.mem_singleton_self _)
      · rw [Function.update_of_ne hk] at ht
        exact List.mem_append_left _ (hcontents k t ht)
    constructor
    · rintro ⟨id, content, special, hitem, htext, hid, hbase, hfree, hnew, hvocab, hrest⟩
      obtain ⟨added, hadded, hall, hids, htexts⟩ := (ih (hcontents' id content)).1 hrest
      have hne : ∀ a ∈ added, a.1 ≠ id ∧ a.2.1 ≠ content := fun a ha => by
        obtain ⟨-, -, -, hfree', hnew', -⟩ := hall a ha
        refine ⟨fun h => ?_, fun h => hnew' ?_⟩
        · rw [h, Function.update_self] at hfree'
          cases hfree'
        · exact h ▸ List.mem_append_right _ (List.mem_singleton_self _)
      refine ⟨(id, content, special) :: added, ?_, ?_, ?_, ?_⟩
      · rw [List.map_cons, List.map_cons, hitem, hadded]
      · refine List.forall_mem_cons.2 ⟨⟨htext, hid, hbase, hfree, hnew, hvocab⟩, fun a ha => ?_⟩
        obtain ⟨htext', hid', hbase', hfree', hnew', hvocab'⟩ := hall a ha
        rw [Function.update_of_ne (hne a ha).1] at hfree'
        exact ⟨htext', hid', hbase', hfree', fun h => hnew' (List.mem_append_left _ h), hvocab'⟩
      · rw [List.map_cons, List.nodup_cons, List.mem_map]
        exact ⟨fun ⟨a, ha, h⟩ => (hne a ha).1 h, hids⟩
      · rw [List.map_cons, List.nodup_cons, List.mem_map]
        exact ⟨fun ⟨a, ha, h⟩ => (hne a ha).2 h, htexts⟩
    · rintro ⟨added, hadded, hall, hids, htexts⟩
      cases added with
      | nil => cases hadded
      | cons a added =>
        obtain ⟨id, content, special⟩ := a
        rw [List.map_cons, List.map_cons, List.cons.injEq] at hadded
        obtain ⟨hitem, hadded⟩ := hadded
        obtain ⟨⟨htext, hid, hbase, hfree, hnew, hvocab⟩, hrest⟩ := List.forall_mem_cons.1 hall
        rw [List.map_cons, List.nodup_cons, List.mem_map] at hids htexts
        refine ⟨id, content, special, hitem, htext, hid, hbase, hfree, hnew, hvocab, ?_⟩
        refine (ih (hcontents' id content)).2 ⟨added, hadded, fun a ha => ?_, hids.2, htexts.2⟩
        obtain ⟨htext', hid', hbase', hfree', hnew', hvocab'⟩ := hrest a ha
        have hne : a.1 ≠ id := fun h => hids.1 ⟨a, ha, h⟩
        have hne' : a.2.1 ≠ content := fun h => htexts.1 ⟨a, ha, h⟩
        refine ⟨htext', hid', hbase', (Function.update_of_ne hne _ _).trans hfree', fun h => ?_,
          hvocab'⟩
        rcases List.mem_append.1 h with h | h
        · exact hnew' h
        · exact hne' (List.mem_singleton.1 h)

/-! ### Both loops -/

lemma itemsOf_ne_nil {members : List (Str × PyValue)} (h : members ≠ []) : itemsOf members ≠ [] := by
  obtain rfl | ⟨rest, last, rfl⟩ := List.eq_nil_or_concat members
  · exact absurd rfl h
  · intro hnil
    have hkeys := map_fst_setItem (itemsOf rest) last
    rw [itemsOf, List.concat_eq_append, List.foldl_append, List.foldl_cons, List.foldl_nil,
      ← itemsOf] at hnil
    rw [hnil] at hkeys
    split_ifs at hkeys with hmem
    · rw [← hkeys] at hmem
      cases hmem
    · exact List.append_ne_nil_of_right_ne_nil _ (List.cons_ne_nil _ _) hkeys.symm

lemma modelVocab_ok {tokenizer vocab : List (Str × PyValue)}
    (h : modelVocab tokenizer = .ok vocab) : vocab ≠ [] ∧ (vocab.map Prod.fst).Nodup := by
  rw [modelVocab] at h
  split at h
  · split at h
    · split_ifs at h with hnil
      cases h
      exact ⟨itemsOf_ne_nil hnil, nodup_itemsOf _⟩
    · cases h
  · cases h

lemma map_fst_of_baseItem {vocab : List (Str × PyValue)} {base : List (ℤ × Str)}
    (h : vocab.map baseItem = base.map some) : vocab.map Prod.fst = base.map Prod.snd := by
  induction vocab generalizing base with
  | nil =>
    rw [List.map_eq_nil_iff.1 h.symm]
    rfl
  | cons item vocab ih =>
    cases base with
    | nil => cases h
    | cons p base =>
      rw [List.map_cons, List.map_cons, List.cons.injEq] at h
      rw [List.map_cons, List.map_cons, ih h.2, (baseItem_eq_some h.1).2]

lemma assign_eq_none_iff {β : Type} {l : List (ℤ × β)} (hl : (l.map Prod.fst).Nodup) (k : ℤ) :
    assign l (fun _ => none) k = none ↔ k ∉ l.map Prod.fst := by
  rw [Option.eq_none_iff_forall_ne_some]
  constructor
  · intro h hk
    obtain ⟨⟨k', t⟩, hp, rfl⟩ := List.mem_map.1 hk
    exact h t ((assign_eq_some_iff hl _ _ _).2 (.inl hp))
  · intro hk t ht
    rcases (assign_eq_some_iff hl _ _ _).1 ht with hp | ⟨-, hnone⟩
    · exact hk (List.mem_map.2 ⟨_, hp, rfl⟩)
    · cases hnone

lemma Vocabulary.consistent_iff {v : Vocabulary} {n : ℕ} :
    v.Consistent n ↔ v.base ≠ [] ∧ (∀ p ∈ v.base, p.2 ≠ [] ∧ (0 ≤ p.1 ∧ p.1 < n)) ∧
      ((v.base.map Prod.fst).Nodup ∧ (v.base.map Prod.snd).Nodup) ∧
      (∀ a ∈ v.added, a.2.1 ≠ [] ∧ (0 ≤ a.1 ∧ a.1 < n) ∧ a.1 ∉ v.base.map Prod.fst ∧
        a.2.1 ∉ v.base.map Prod.snd) ∧
      (v.added.map fun a => a.1).Nodup ∧ (v.added.map fun a => a.2.1).Nodup := by
  have hfst : v.pairs.map Prod.fst = v.base.map Prod.fst ++ v.added.map fun a => a.1 := by
    rw [pairs, List.map_append, List.map_map]
    rfl
  have hsnd : v.pairs.map Prod.snd = v.base.map Prod.snd ++ v.added.map fun a => a.2.1 := by
    rw [pairs, List.map_append, List.map_map]
    rfl
  constructor
  · rintro ⟨hne, htext, hrange, hids, htexts⟩
    rw [hfst, List.nodup_append'] at hids
    rw [hsnd, List.nodup_append'] at htexts
    rw [pairs, List.forall_mem_append, List.forall_mem_map] at htext hrange
    refine ⟨hne, fun p hp => ⟨htext.1 p hp, hrange.1 p hp⟩, ⟨hids.1, htexts.1⟩, fun a ha => ?_,
      hids.2.1, htexts.2.1⟩
    exact ⟨htext.2 a ha, hrange.2 a ha, fun h => hids.2.2 h (List.mem_map_of_mem ha),
      fun h => htexts.2.2 h (List.mem_map_of_mem ha)⟩
  · rintro ⟨hne, hbase, ⟨hids, htexts⟩, hadded, haddedIds, haddedTexts⟩
    refine ⟨hne, ?_, ?_, ?_, ?_⟩
    · rw [pairs, List.forall_mem_append, List.forall_mem_map]
      exact ⟨fun p hp => (hbase p hp).1, fun a ha => (hadded a ha).1⟩
    · rw [pairs, List.forall_mem_append, List.forall_mem_map]
      exact ⟨fun p hp => (hbase p hp).2, fun a ha => (hadded a ha).2.1⟩
    · rw [hfst, List.nodup_append']
      refine ⟨hids, haddedIds, fun k hk h => ?_⟩
      obtain ⟨a, ha, rfl⟩ := List.mem_map.1 h
      exact (hadded a ha).2.2.1 hk
    · rw [hsnd, List.nodup_append']
      refine ⟨htexts, haddedTexts, fun t ht h => ?_⟩
      obtain ⟨a, ha, rfl⟩ := List.mem_map.1 h
      exact (hadded a ha).2.2.2 ht

/-- The files are accepted exactly when they describe a vocabulary that is consistent with the
size. -/
theorem loadTokenizerFiles_ok_iff (dir : ModelDir) (n : ℕ) :
    (∃ roots, loadTokenizerFiles dir n = .ok roots) ↔ ∃ v, Describes dir v ∧ v.Consistent n := by
  simp only [loadTokenizerFiles, bind_eq_ok]
  constructor
  · rintro ⟨-, ⟨tokenizer, config⟩, hroots, vocab, hvocab, baseIds, hbase, added, hadded, ⟨⟩, hcheck,
      -⟩
    obtain ⟨hne, hkeys⟩ := modelVocab_ok hvocab
    obtain ⟨base, hitems, hall, hids, rfl⟩ :=
      (checkBase_ok_iff hkeys fun k t ht => by cases ht).1 hbase
    obtain ⟨items, hentries, hchecked, haddedIds, haddedTexts⟩ :=
      (checkAdded_ok_iff fun k t ht => by cases ht).1 hcheck
    have htexts := map_fst_of_baseItem hitems
    refine ⟨⟨base, items⟩, ⟨tokenizer, config, vocab, added, hroots, hvocab, hadded, hitems, hentries⟩,
      Vocabulary.consistent_iff.2 ⟨fun h => hne ?_, fun p hp => ?_, ⟨hids, htexts ▸ hkeys⟩, fun a ha => ?_,
        haddedIds, haddedTexts⟩⟩
    · obtain rfl : base = [] := h
      exact List.map_eq_nil_iff.1 hitems
    · obtain ⟨htext, hrange, -⟩ := hall p hp
      exact ⟨htext, hrange⟩
    · obtain ⟨htext, hrange, hfree, -, -, hnew⟩ := hchecked a ha
      exact ⟨htext, hrange, (assign_eq_none_iff hids _).1 hfree, htexts ▸ hnew⟩
  · rintro ⟨v, ⟨tokenizer, config, vocab, added, hroots, hvocab, hadded, hitems, hentries⟩, hv⟩
    obtain ⟨-, hbase, ⟨hids, -⟩, hall, haddedIds, haddedTexts⟩ := Vocabulary.consistent_iff.1 hv
    obtain ⟨-, hkeys⟩ := modelVocab_ok hvocab
    have htexts := map_fst_of_baseItem hitems
    refine ⟨_, ⟨tokenizer, config⟩, hroots, vocab, hvocab, assign v.base fun _ => none,
      (checkBase_ok_iff hkeys fun k t ht => by cases ht).2 ⟨v.base, hitems, fun p hp => ?_, hids, rfl⟩,
      added, hadded, (), (checkAdded_ok_iff fun k t ht => by cases ht).2 ⟨v.added, hentries,
        fun a ha => ?_, haddedIds, haddedTexts⟩, rfl⟩
    · exact ⟨(hbase p hp).1, (hbase p hp).2, rfl⟩
    · obtain ⟨htext, hrange, hfree, hnew⟩ := hall a ha
      refine ⟨htext, hrange, (assign_eq_none_iff hids _).2 hfree, rfl, fun h => (by cases h), ?_⟩
      rwa [htexts]

/-! ## The token list -/

lemma filterMap_of_map_eq {α β : Type} {f : α → Option β} {l : List α} {out : List β}
    (h : l.map f = out.map some) : l.filterMap f = out := by
  have hid : (l.map f).filterMap id = l.filterMap f := List.filterMap_map
  rw [← hid, h, List.filterMap_map, Function.id_comp, List.filterMap_some]

lemma assign_append {β : Type} (l l' : List (ℤ × β)) (init : ℤ → Option β) :
    assign (l ++ l') init = assign l' (assign l init) :=
  List.foldl_append

lemma tokenMaps_eq {vocab : List (Str × PyValue)} {added : List PyValue} {v : Vocabulary}
    (hbase : vocab.map baseItem = v.base.map some) (hadded : added.map addedItem = v.added.map some) :
    tokenMaps vocab added =
      ⟨assign v.pairs fun _ => none, assign (v.added.map fun a => (a.1, a.2.2)) fun _ => none⟩ := by
  have hfold (l : List (ℤ × Str × Bool)) (ids : Ids) (flags : ℤ → Option Bool) :
      l.foldl (fun maps item => (⟨Function.update maps.reverseVocab item.1 (some item.2.1),
        Function.update maps.addedById item.1 (some item.2.2)⟩ : TokenMaps)) ⟨ids, flags⟩ =
      ⟨assign (l.map fun a => (a.1, a.2.1)) ids, assign (l.map fun a => (a.1, a.2.2)) flags⟩ := by
    induction l generalizing ids flags with
    | nil => rfl
    | cons a l ih =>
      rw [List.foldl_cons, ih]
      rfl
  rw [tokenMaps, filterMap_of_map_eq hbase, filterMap_of_map_eq hadded, hfold,
    Vocabulary.pairs, assign_append]
  rfl

lemma padName_injective : Function.Injective padName := fun i j h => by
  rw [padName, padName] at h
  have hdigits := List.append_cancel_right (List.append_cancel_left h)
  rw [← Nat.ofDigitChars_ten_toDigits (n := i), hdigits, Nat.ofDigitChars_ten_toDigits]

namespace Vocabulary

/-- The dictionaries of `add_qwen2_vocab` for a vocabulary. -/
def maps (v : Vocabulary) : TokenMaps :=
  ⟨assign v.pairs fun _ => none, assign (v.added.map fun a => (a.1, a.2.2)) fun _ => none⟩

variable {v : Vocabulary} {n : ℕ}

lemma Consistent.reverseVocab_eq_some_iff (hv : v.Consistent n) (k : ℤ) (t : Str) :
    v.maps.reverseVocab k = some t ↔ (k, t) ∈ v.pairs := by
  rw [maps, assign_eq_some_iff hv.ids_nodup]
  simp

lemma Consistent.reverseVocab_eq_none_iff (hv : v.Consistent n) (k : ℤ) :
    v.maps.reverseVocab k = none ↔ k ∉ v.pairs.map Prod.fst :=
  assign_eq_none_iff hv.ids_nodup k

lemma Consistent.addedById_eq_none_iff (hv : v.Consistent n) (k : ℤ) :
    v.maps.addedById k = none ↔ k ∉ v.added.map fun a => a.1 := by
  have hids := (consistent_iff.1 hv).2.2.2.2.1
  have hmap : (v.added.map fun a => (a.1, a.2.2)).map Prod.fst = v.added.map fun a => a.1 := by
    rw [List.map_map]
    rfl
  rw [maps, assign_eq_none_iff (hmap ▸ hids), hmap]

lemma Consistent.tokenOf_fst (hv : v.Consistent n) {i : ℕ} {t : Str} (h : ((i : ℤ), t) ∈ v.pairs) :
    (tokenOf v.maps i).1 = t := by
  rw [tokenOf, (hv.reverseVocab_eq_some_iff i t).2 h]
  cases v.maps.addedById i with
  | none => rfl
  | some special => rfl

lemma Consistent.tokenOf_fst_of_not_mem (hv : v.Consistent n) {i : ℕ}
    (h : (i : ℤ) ∉ v.pairs.map Prod.fst) : (tokenOf v.maps i).1 = padName i := by
  rw [tokenOf, (hv.reverseVocab_eq_none_iff i).2 h]

lemma Consistent.tokenOf_snd_iff (hv : v.Consistent n) (i : ℕ) :
    ((tokenOf v.maps i).2 = .control ∨ (tokenOf v.maps i).2 = .userDefined) ↔
      (i : ℤ) ∈ v.added.map fun a => a.1 := by
  rw [tokenOf]
  cases hflag : v.maps.addedById i with
  | none =>
    have hnot := (hv.addedById_eq_none_iff i).1 hflag
    cases v.maps.reverseVocab i with
    | none => simp [hnot]
    | some token => simp [hnot]
  | some special =>
    have hmem : (i : ℤ) ∈ v.added.map fun a => a.1 := by
      by_contra h
      rw [(hv.addedById_eq_none_iff i).2 h] at hflag
      cases hflag
    have hpair : (i : ℤ) ∈ v.pairs.map Prod.fst := by
      obtain ⟨a, ha, hid⟩ := List.mem_map.1 hmem
      exact List.mem_map.2 ⟨(a.1, a.2.1), List.mem_append_right _ (List.mem_map_of_mem ha), hid⟩
    cases htoken : v.maps.reverseVocab i with
    | none => exact absurd hpair ((hv.reverseVocab_eq_none_iff i).1 htoken)
    | some token =>
      refine iff_of_true ?_ hmem
      dsimp only
      split_ifs
      · exact .inl rfl
      · exact .inr rfl

/-- No text is the generated name of an id without a token. -/
def NoPaddingName (v : Vocabulary) (n : ℕ) : Prop :=
  ∀ i < n, (i : ℤ) ∉ v.pairs.map Prod.fst → padName i ∉ v.pairs.map Prod.snd

lemma Consistent.nodup_tokens_iff (hv : v.Consistent n) :
    ((List.range n).map fun i => (tokenOf v.maps i).1).Nodup ↔ v.NoPaddingName n := by
  rw [List.nodup_map_iff_inj_on List.nodup_range]
  constructor
  · intro hinj i hi hfree hname
    obtain ⟨⟨k, t⟩, hp, rfl⟩ := List.mem_map.1 hname
    obtain ⟨hk, hkn⟩ := hv.in_range _ hp
    obtain ⟨j, rfl⟩ := Int.eq_ofNat_of_zero_le hk
    have htokens : (tokenOf v.maps j).1 = (tokenOf v.maps i).1 :=
      (hv.tokenOf_fst hp).trans (hv.tokenOf_fst_of_not_mem hfree).symm
    obtain rfl := hinj j (List.mem_range.2 (Int.ofNat_lt.1 hkn)) i (List.mem_range.2 hi) htokens
    exact hfree (List.mem_map.2 ⟨_, hp, rfl⟩)
  · intro hnames i hi j hj h
    rw [List.mem_range] at hi hj
    by_cases hmem : (i : ℤ) ∈ v.pairs.map Prod.fst
    · obtain ⟨⟨k, t⟩, hp, rfl : k = (i : ℤ)⟩ := List.mem_map.1 hmem
      rw [hv.tokenOf_fst hp] at h
      by_cases hmem' : (j : ℤ) ∈ v.pairs.map Prod.fst
      · obtain ⟨⟨k', t'⟩, hp', rfl : k' = (j : ℤ)⟩ := List.mem_map.1 hmem'
        rw [hv.tokenOf_fst hp'] at h
        have hpair := List.inj_on_of_nodup_map hv.texts_nodup hp hp' h
        exact Int.ofNat_inj.1 (congrArg Prod.fst hpair)
      · rw [hv.tokenOf_fst_of_not_mem hmem'] at h
        exact absurd (List.mem_map.2 ⟨_, hp, h⟩) (hnames j hj hmem')
    · rw [hv.tokenOf_fst_of_not_mem hmem] at h
      by_cases hmem' : (j : ℤ) ∈ v.pairs.map Prod.fst
      · obtain ⟨⟨k', t'⟩, hp', rfl : k' = (j : ℤ)⟩ := List.mem_map.1 hmem'
        rw [hv.tokenOf_fst hp'] at h
        exact absurd (List.mem_map.2 ⟨_, hp', h.symm⟩) (hnames i hi hmem)
      · rw [hv.tokenOf_fst_of_not_mem hmem'] at h
        exact padName_injective h

end Vocabulary

/-! ## The whole function -/

/-- What the claim says of an emitted token list. -/
structure RightTokens (v : Vocabulary) (n : ℕ) (out : List Str × List TokenType) : Prop where
  length_tokens : out.1.length = n
  length_types : out.2.length = n
  token_eq : ∀ p ∈ v.pairs, ∃ i : ℕ, (i : ℤ) = p.1 ∧ out.1[i]? = some p.2
  tokens_nodup : out.1.Nodup
  types_added : ∀ i : ℕ, (∃ ty, out.2[i]? = some ty ∧ (ty = .control ∨ ty = .userDefined)) ↔
    (i : ℤ) ∈ v.added.map fun a => a.1

/-- The size that the configuration asks for. -/
def vocabSizeOf (config : List (Str × PyValue)) : Except TokenizerError ℕ :=
  positiveInt config "vocab_size".toList

/-- The claim: an accepted input gives a right token list, an inconsistent one is rejected. -/
structure EmitsRightTokens (dir : ModelDir) (config : List (Str × PyValue)) : Prop where
  right : ∀ out, addQwen2Vocab dir config = .ok out →
    ∃ v n, Describes dir v ∧ vocabSizeOf config = .ok n ∧ RightTokens v n out
  rejects : ∀ n, vocabSizeOf config = .ok n → (¬ ∃ v, Describes dir v ∧ v.Consistent n) →
    ∃ e, addQwen2Vocab dir config = .error e

/-- The token list of a consistent vocabulary. -/
def Vocabulary.emitted (v : Vocabulary) (n : ℕ) : List Str × List TokenType :=
  (((List.range n).map (tokenOf v.maps)).map Prod.fst,
    ((List.range n).map (tokenOf v.maps)).map Prod.snd)

lemma loadRoots_of_load {dir : ModelDir} {n : ℤ} {roots : List (Str × PyValue) × List (Str × PyValue)}
    (h : loadTokenizerFiles dir n = .ok roots) : loadRoots dir = .ok roots := by
  simp only [loadTokenizerFiles, bind_eq_ok] at h
  obtain ⟨⟨tokenizer, config⟩, hroots, -, -, -, -, -, -, -, -, hpure⟩ := h
  cases hpure
  exact hroots

lemma addQwen2Vocab_ok_iff (dir : ModelDir) (config : List (Str × PyValue))
    (out : List Str × List TokenType) :
    addQwen2Vocab dir config = .ok out ↔
      ∃ v n, Describes dir v ∧ vocabSizeOf config = .ok n ∧ v.Consistent n ∧ out = v.emitted n := by
  simp only [addQwen2Vocab, bind_eq_ok]
  constructor
  · rintro ⟨n, hn, ⟨tokenizer, tokenizerConfig⟩, hload, vocab, hvocab, added, hadded, hpure⟩
    obtain ⟨v, hdescribes, hv⟩ := (loadTokenizerFiles_ok_iff dir n).1 ⟨_, hload⟩
    refine ⟨v, n, hdescribes, hn, hv, ?_⟩
    obtain ⟨tokenizer', config', vocab', added', hroots', hvocab', hadded', hbase, hitems⟩ :=
      hdescribes
    rw [loadRoots_of_load hload] at hroots'
    cases hroots'
    rw [hvocab] at hvocab'
    cases hvocab'
    rw [hadded] at hadded'
    cases hadded'
    rw [tokenMaps_eq hbase hitems] at hpure
    cases hpure
    rfl
  · rintro ⟨v, n, hdescribes, hn, hv, rfl⟩
    obtain ⟨⟨tokenizer, tokenizerConfig⟩, hload⟩ :=
      (loadTokenizerFiles_ok_iff dir n).2 ⟨v, hdescribes, hv⟩
    obtain ⟨tokenizer', config', vocab, added, hroots, hvocab, hadded, hbase, hitems⟩ := hdescribes
    rw [loadRoots_of_load hload] at hroots
    cases hroots
    refine ⟨n, hn, _, hload, vocab, hvocab, added, hadded, ?_⟩
    rw [tokenMaps_eq hbase hitems]
    rfl

lemma Vocabulary.Consistent.rightTokens_iff {v : Vocabulary} {n : ℕ} (hv : v.Consistent n) :
    RightTokens v n (v.emitted n) ↔ v.NoPaddingName n := by
  have hnodup : (v.emitted n).1.Nodup ↔ v.NoPaddingName n := by
    rw [emitted, List.map_map]
    exact hv.nodup_tokens_iff
  refine ⟨fun h => hnodup.1 h.tokens_nodup, fun h => ⟨?_, ?_, ?_, hnodup.2 h, fun i => ?_⟩⟩
  · rw [emitted, List.length_map, List.length_map, List.length_range]
  · rw [emitted, List.length_map, List.length_map, List.length_range]
  · rintro ⟨k, t⟩ hp
    obtain ⟨hk, hkn⟩ := hv.in_range _ hp
    obtain ⟨i, rfl⟩ := Int.eq_ofNat_of_zero_le hk
    refine ⟨i, rfl, ?_⟩
    rw [emitted, List.getElem?_map, List.getElem?_map, List.getElem?_range (Int.ofNat_lt.1 hkn)]
    exact congrArg some (hv.tokenOf_fst hp)
  · rw [emitted, List.getElem?_map, List.getElem?_map, ← hv.tokenOf_snd_iff i]
    by_cases hi : i < n
    · rw [List.getElem?_range hi]
      exact ⟨fun ⟨ty, hty, hmark⟩ => Option.some_inj.1 hty ▸ hmark, fun h => ⟨_, rfl, h⟩⟩
    · rw [List.getElem?_eq_none (by rw [List.length_range]; exact not_lt.1 hi)]
      refine iff_of_false (fun ⟨_, hty, _⟩ => by cases hty) ?_
      rw [hv.tokenOf_snd_iff i]
      intro hmem
      obtain ⟨a, ha, hid⟩ := List.mem_map.1 hmem
      have hrange := hv.in_range (a.1, a.2.1) (List.mem_append_right _ (List.mem_map_of_mem ha))
      rw [hid] at hrange
      exact hi (Int.ofNat_lt.1 hrange.2)

/-- The token list is right exactly when no token of the files has the generated name of an id
without a token. -/
theorem emitsRightTokens_iff (dir : ModelDir) (config : List (Str × PyValue)) :
    EmitsRightTokens dir config ↔ ∀ v n, Describes dir v → vocabSizeOf config = .ok n →
      v.Consistent n → v.NoPaddingName n := by
  constructor
  · rintro ⟨hright, -⟩ v n hdescribes hn hv
    obtain ⟨v', n', hdescribes', hn', hout⟩ :=
      hright _ ((addQwen2Vocab_ok_iff dir config _).2 ⟨v, n, hdescribes, hn, hv, rfl⟩)
    obtain rfl := hdescribes.unique hdescribes'
    rw [hn] at hn'
    cases hn'
    exact hv.rightTokens_iff.1 hout
  · intro hnames
    refine ⟨fun out hout => ?_, fun n hn hnot => ?_⟩
    · obtain ⟨v, n, hdescribes, hn, hv, rfl⟩ := (addQwen2Vocab_ok_iff dir config out).1 hout
      exact ⟨v, n, hdescribes, hn, hv.rightTokens_iff.2 (hnames v n hdescribes hn hv)⟩
    · cases hrun : addQwen2Vocab dir config with
      | error e => exact ⟨e, rfl⟩
      | ok out =>
        obtain ⟨v, n', hdescribes, hn', hv, -⟩ := (addQwen2Vocab_ok_iff dir config out).1 hrun
        rw [hn] at hn'
        cases hn'
        exact absurd ⟨v, hdescribes, hv⟩ hnot

/-- A base token with the text `[PAD1]` at id 0, in a vocabulary of size 2. -/
theorem not_emitsRightTokens_pad : ¬ EmitsRightTokens
    ⟨.value (.dict [("model".toList, .dict [("vocab".toList, .dict [("[PAD1]".toList, .int 0)])])]),
      .value (.dict [])⟩
    [("vocab_size".toList, .int 2)] := by
  intro h
  obtain ⟨v, n, -, -, hright⟩ :=
    h.right (["[PAD1]".toList, "[PAD1]".toList], [.normal, .unused]) rfl
  exact (List.nodup_cons.1 hright.tokens_nodup).1 (List.mem_singleton_self _)

end TokenizerFiles

end IFairy
