import IFairy.Framework.Runs
import IFairy.Speculative.NgramMap

/-!
# Indices of an n-gram map

The keys and values of a map are positions in a history that the next `begin` may shorten.  The
positions of the keys always fit (`KeyFits`): the clean-up deletes keys after the last begin, and
before it no key is found so late that it could run over the end.  The values of a key may begin
there, and the clean-up compares only where they begin: a value that begins before the last begin
may end after the new history (`CleansUp` says that none does).  Nor does the clean-up touch the
record of the last draft, so an `accept` after a `begin` may look for a key that is gone
(`FindsKey`).  `call_safe` says that nothing else goes wrong in any run.
-/

namespace IFairy.Speculative

/-! ## Reads -/

lemma readAt_eq_ok {α : Type} {v : List α} {i : ℕ} (h : i < v.length) : readAt v i = .ok v[i] := by
  rw [readAt, List.getElem?_eq_getElem h]

lemma readAt_mem {α : Type} {v : List α} {i : ℕ} {a : α} (h : readAt v i = .ok a) :
    a ∈ v ∧ i < v.length := by
  rw [readAt] at h
  split at h
  case h_1 b hb =>
    obtain rfl := Except.ok.inj h
    exact ⟨List.mem_of_getElem? hb, (List.getElem?_eq_some_iff.1 hb).1⟩
  case h_2 => cases h

lemma usub_eq_ok {a b : ℕ} (h : b ≤ a) : usub a b = .ok (a - b) := if_pos h

lemma exists_mapM_readAt {v : List Token} {l : List ℕ} {f : ℕ → ℕ}
    (h : ∀ i ∈ l, f i < v.length) :
    ∃ out, l.mapM (fun i => readAt v (f i)) = .ok out ∧ out.length = l.length := by
  induction l with
  | nil => exact ⟨[], rfl, rfl⟩
  | cons i l ih =>
    obtain ⟨hi, hl⟩ := List.forall_mem_cons.1 h
    obtain ⟨out, hout, hlen⟩ := ih hl
    refine ⟨v[f i] :: out, ?_, by simp [hlen]⟩
    rw [List.mapM_cons, readAt_eq_ok hi, hout]
    rfl

namespace NgramMap

lemma exists_sameTokens {a b : List Token} {i j len : ℕ} (hi : i + len ≤ a.length)
    (hj : j + len ≤ b.length) : ∃ same, sameTokens a b i j len = .ok same := by
  induction len generalizing i j with
  | zero => exact ⟨true, rfl⟩
  | succ len ih =>
    have hx : i < a.length := by omega
    have hy : j < b.length := by omega
    obtain ⟨same, hsame⟩ := ih (show i + 1 + len ≤ a.length by omega)
      (show j + 1 + len ≤ b.length by omega)
    rw [sameTokens, readAt_eq_ok hx, readAt_eq_ok hy]
    by_cases heq : a[i] = b[j]
    · exact ⟨same, by rw [← hsame]; exact if_pos heq⟩
    · exact ⟨false, if_neg heq⟩

lemma exists_ngramHash {tokens : List Token} {start len : ℕ} (h : start + len ≤ tokens.length) :
    ∃ hash, ngramHash tokens start len = .ok hash := by
  refine exists_foldlM (fun i hi hash => ?_) 0
  have hlt : start + i < tokens.length := by
    have := List.mem_range.1 hi
    omega
  rw [readAt_eq_ok hlt]
  exact ⟨_, rfl⟩

variable {cfg : MapConfig} {map : NgramMap} {inp keyTokens : List Token}

lemma exists_searchDown (hkey : cfg.sizeKey ≤ keyTokens.length) (lo : ℕ) {hi : ℕ}
    (hlen : hi + cfg.sizeKey ≤ inp.length) :
    ∃ j, searchDown cfg inp keyTokens lo hi = .ok j ∧ (j = 0 ∨ lo < j ∧ j ≤ hi) := by
  induction hi with
  | zero => exact ⟨0, rfl, .inl rfl⟩
  | succ hi ih =>
    rw [searchDown]
    by_cases hlo : lo < hi + 1
    · obtain ⟨found, hfound⟩ := exists_sameTokens hlen (show 0 + cfg.sizeKey ≤ keyTokens.length by
        omega)
      rw [if_pos hlo, hfound]
      cases found with
      | true => exact ⟨hi + 1, rfl, .inr ⟨hlo, le_rfl⟩⟩
      | false =>
        obtain ⟨j, hj, hrange⟩ := ih (by omega)
        exact ⟨j, hj, hrange.imp_right fun h => ⟨h.1, by omega⟩⟩
    · exact ⟨0, if_neg hlo, .inl rfl⟩

lemma exists_addHashes (lo : ℕ) {hi : ℕ} (hlen : hi + cfg.sizeKey ≤ inp.length)
    (keyMap : ℕ → ℕ) :
    ∃ keyMap', addHashes cfg inp lo hi keyMap = .ok keyMap' ∧
      ∀ i, keyMap' i = keyMap i ∨ lo < keyMap' i ∧ keyMap' i ≤ hi := by
  induction hi generalizing keyMap with
  | zero => exact ⟨keyMap, rfl, fun i => .inl rfl⟩
  | succ hi ih =>
    rw [addHashes]
    by_cases hlo : lo < hi + 1
    · obtain ⟨hash, hhash⟩ := exists_ngramHash hlen
      rw [if_pos hlo, hhash]
      obtain ⟨keyMap', hkeyMap', hentries⟩ := ih (by omega)
        (if keyMap (hash % cfg.keyMapSize) = 0 then
          Function.update keyMap (hash % cfg.keyMapSize) (hi + 1) else keyMap)
      refine ⟨keyMap', hkeyMap', fun i => ?_⟩
      rcases hentries i with heq | hrange
      · rw [heq]
        split
        · by_cases hi' : i = hash % cfg.keyMapSize
          · subst hi'
            rw [Function.update_self]
            exact .inr ⟨hlo, le_rfl⟩
          · rw [Function.update_of_ne hi']
            exact .inl rfl
        · exact .inl rfl
      · exact .inr ⟨hrange.1, by omega⟩
    · exact ⟨keyMap, if_neg hlo, fun i => .inl rfl⟩

lemma lastStart_eq {len : ℕ} (h : cfg.sizeKey + cfg.sizeValue + 1 ≤ len) :
    lastStart cfg len = .ok (len - cfg.sizeKey - cfg.sizeValue - 1) := by
  rw [lastStart, usub_eq_ok (show cfg.sizeKey ≤ len by omega)]
  change (usub (len - cfg.sizeKey) cfg.sizeValue >>= fun b => usub b 1) = _
  rw [usub_eq_ok (show cfg.sizeValue ≤ len - cfg.sizeKey by omega)]
  exact usub_eq_ok (by omega)

lemma exists_readKey (hpos : 0 < cfg.sizeKey) (hlen : cfg.sizeKey ≤ inp.length) (sampled : Token) :
    ∃ keyTokens, readKey cfg inp sampled = .ok keyTokens ∧ keyTokens.length = cfg.sizeKey := by
  rw [readKey, usub_eq_ok hlen]
  obtain ⟨out, hout, hlength⟩ := exists_mapM_readAt (v := inp) (f := id)
    (l := List.range' (inp.length - cfg.sizeKey + 1)
      (inp.length - (inp.length - cfg.sizeKey + 1)))
    (fun i hi => by
      rw [List.mem_range'_1] at hi
      simp only [id]
      omega)
  refine ⟨out ++ [sampled], ?_, ?_⟩
  · change ((List.range' _ _).mapM (readAt inp) >>= fun tokens => _) = _
    rw [show (List.range' (inp.length - cfg.sizeKey + 1)
      (inp.length - (inp.length - cfg.sizeKey + 1))).mapM (readAt inp) = .ok out from hout]
    rfl
  · rw [List.length_append, hlength, List.length_range', List.length_singleton]
    omega

/-! ## What fits a history -/

/-- A key found at `j` ends before the last begin, with the tokens after it, or begins after it. -/
def KeyFits (cfg : MapConfig) (map : NgramMap) (j : ℕ) : Prop :=
  j + cfg.sizeKey + cfg.sizeValue ≤ map.sizeLastBegin ∨
    map.sizeLastBegin < j ∧ j + cfg.sizeKey + cfg.sizeValue ≤ map.idxLastCheck

/-- An m-gram that a value stores ends in the history of the last check; `0` is no m-gram. -/
def ValuesFit (cfg : MapConfig) (len : ℕ) (values : Fin maxValues → MapValue) : Prop :=
  ∀ v, (values v).valueIdx = 0 ∨ (values v).valueIdx + cfg.sizeValue ≤ len

/-- What holds of a map between two calls. -/
structure Fits (cfg : MapConfig) (map : NgramMap) : Prop where
  begin_le : map.sizeLastBegin ≤ map.idxLastCheck
  entries : cfg.keyMapSize ≠ 0 → ∀ i, map.keyMap i = 0 ∨ map.KeyFits cfg (map.keyMap i)
  keys : ∀ key ∈ map.keys, map.KeyFits cfg key.keyIdx
  values : cfg.keyOnly = false → ∀ key ∈ map.keys, ValuesFit cfg map.idxLastCheck key.values
  draftValue : map.lastDraftValueIdx < maxValues

lemma KeyFits.le {j : ℕ} (h : map.KeyFits cfg j) (hbegin : map.sizeLastBegin ≤ map.idxLastCheck) :
    j + cfg.sizeKey + cfg.sizeValue ≤ map.idxLastCheck := by
  rcases h with h | h <;> omega

lemma fits_empty (cfg : MapConfig) : Fits cfg {} where
  begin_le := le_rfl
  entries := fun _ _ => .inl rfl
  keys := by simp
  values := by simp
  draftValue := by decide

/-! ## Searching -/

/-- The position of a match, if there is one, fits. -/
def MatchFits (cfg : MapConfig) (map : NgramMap) (j : ℕ) : Prop := j = 0 ∨ map.KeyFits cfg j

lemma exists_lookUp (hfits : map.Fits cfg) (hkey : cfg.sizeKey ≤ keyTokens.length)
    (hlen : cfg.sizeKey + cfg.sizeValue + 1 ≤ inp.length) :
    ∃ j, map.lookUp cfg inp keyTokens = .ok j ∧ map.MatchFits cfg j := by
  rw [lookUp]
  by_cases hsize : cfg.keyMapSize = 0
  · exact ⟨0, if_pos hsize, .inl rfl⟩
  obtain ⟨hash, hhash⟩ := exists_ngramHash (show 0 + cfg.sizeKey ≤ keyTokens.length by omega)
  simp only [if_neg hsize, hhash, lastStart_eq hlen, bind, Except.bind]
  by_cases hidx : map.keyMap (hash % cfg.keyMapSize) ≠ 0 ∧ map.keyMap (hash % cfg.keyMapSize) <
      inp.length - cfg.sizeKey - cfg.sizeValue - 1
  · obtain ⟨found, hfound⟩ := exists_sameTokens
      (show map.keyMap (hash % cfg.keyMapSize) + cfg.sizeKey ≤ inp.length by omega)
      (show 0 + cfg.sizeKey ≤ keyTokens.length by omega)
    rw [if_pos hidx, hfound]
    cases found with
    | true => exact ⟨_, rfl, .inr ((hfits.entries hsize _).resolve_left hidx.1)⟩
    | false => exact ⟨0, rfl, .inl rfl⟩
  · exact ⟨0, if_neg hidx, .inl rfl⟩

lemma exists_searchBefore {matchPos : ℕ} (hmatch : map.MatchFits cfg matchPos)
    (hkey : cfg.sizeKey ≤ keyTokens.length) (hbegin : map.sizeLastBegin ≤ inp.length) :
    ∃ j, map.searchBefore cfg inp keyTokens matchPos = .ok j ∧ map.MatchFits cfg j := by
  rw [searchBefore]
  by_cases h : matchPos = 0 ∧ cfg.sizeKey + cfg.sizeValue + 1 < map.sizeLastBegin
  · obtain ⟨j, hj, hrange⟩ := exists_searchDown hkey map.keyMapLastIdx
      (show map.sizeLastBegin - cfg.sizeKey - cfg.sizeValue - 1 + cfg.sizeKey ≤ inp.length by omega)
    rw [if_pos h, lastStart_eq (by omega)]
    refine ⟨j, hj, hrange.imp_right fun hj => .inl ?_⟩
    omega
  · exact ⟨matchPos, if_neg h, hmatch⟩

lemma exists_searchAfter {matchPos : ℕ} (hmatch : map.MatchFits cfg matchPos)
    (hkey : cfg.sizeKey ≤ keyTokens.length)
    (hlen : cfg.sizeKey + cfg.sizeValue + 1 ≤ inp.length) (hcheck : map.idxLastCheck = inp.length) :
    ∃ j, map.searchAfter cfg inp keyTokens matchPos = .ok j ∧ map.MatchFits cfg j := by
  rw [searchAfter]
  by_cases h : matchPos = 0
  · obtain ⟨j, hj, hrange⟩ := exists_searchDown hkey (max map.sizeLastBegin map.keyMapLastIdx)
      (show inp.length - cfg.sizeKey - cfg.sizeValue - 1 + cfg.sizeKey ≤ inp.length by omega)
    rw [if_pos h, lastStart_eq hlen]
    refine ⟨j, hj, hrange.imp_right fun hj => .inr ?_⟩
    omega
  · exact ⟨matchPos, if_neg h, hmatch⟩

lemma exists_updateKeyMap (hfits : map.Fits cfg)
    (hlen : cfg.sizeKey + cfg.sizeValue + 1 ≤ inp.length) (hcheck : map.idxLastCheck = inp.length) :
    ∃ keyMap last, map.updateKeyMap cfg inp = .ok { map with keyMap, keyMapLastIdx := last } ∧
      (cfg.keyMapSize ≠ 0 → ∀ i, keyMap i = 0 ∨ map.KeyFits cfg (keyMap i)) := by
  rw [updateKeyMap]
  by_cases hsize : cfg.keyMapSize = 0
  · exact ⟨map.keyMap, map.keyMapLastIdx, if_pos hsize, hfits.entries⟩
  have hbegin := hfits.begin_le
  obtain ⟨before, hbefore, hentries⟩ : ∃ before, map.addHashesBefore cfg inp = .ok before ∧
      ∀ i, before i = 0 ∨ map.KeyFits cfg (before i) := by
    rw [addHashesBefore]
    by_cases h : cfg.sizeKey + cfg.sizeValue + 1 < map.sizeLastBegin
    · obtain ⟨before, hbefore, hentries⟩ := exists_addHashes map.keyMapLastIdx
        (show map.sizeLastBegin - cfg.sizeKey - cfg.sizeValue - 1 + cfg.sizeKey ≤ inp.length by
          omega) map.keyMap
      rw [if_pos h, lastStart_eq (by omega)]
      refine ⟨before, hbefore, fun i => ?_⟩
      rcases hentries i with heq | hrange
      · rw [heq]
        exact hfits.entries hsize i
      · exact .inr (.inl (by omega))
    · exact ⟨map.keyMap, if_neg h, hfits.entries hsize⟩
  obtain ⟨after, hafter, hentries'⟩ := exists_addHashes (max map.sizeLastBegin map.keyMapLastIdx)
    (show inp.length - cfg.sizeKey - cfg.sizeValue - 1 + cfg.sizeKey ≤ inp.length by omega) before
  simp only [if_neg hsize, hbefore, lastStart_eq hlen, bind, Except.bind, hafter]
  refine ⟨after, _, rfl, fun _ i => ?_⟩
  rcases hentries' i with heq | hrange
  · rw [heq]
    exact hentries i
  · exact .inr (.inr (by omega))

/-! ## Counting -/

lemma exists_findKey (hkey : cfg.sizeKey ≤ keyTokens.length) (keys : List MapKey)
    (h : ∀ key ∈ keys, key.keyIdx + cfg.sizeKey ≤ inp.length) :
    ∃ offset, findKey cfg inp keyTokens keys = .ok offset ∧ offset ≤ keys.length := by
  induction keys with
  | nil => exact ⟨0, rfl, le_rfl⟩
  | cons key keys ih =>
    obtain ⟨hhead, htail⟩ := List.forall_mem_cons.1 h
    obtain ⟨found, hfound⟩ := exists_sameTokens hhead
      (show 0 + cfg.sizeKey ≤ keyTokens.length by omega)
    rw [findKey, hfound]
    cases found with
    | true => exact ⟨0, rfl, Nat.zero_le _⟩
    | false =>
      obtain ⟨offset, hoffset, hle⟩ := ih htail
      exact ⟨offset + 1, by rw [hoffset]; rfl, Nat.succ_le_succ hle⟩

lemma exists_findSlot {values : Fin maxValues → MapValue} (hvalues : ValuesFit cfg inp.length values)
    {idx : ℕ} (hidx : idx + cfg.sizeValue ≤ inp.length) (slots : List (Fin maxValues)) :
    ∃ slot, findSlot cfg inp values idx slots = .ok slot := by
  induction slots with
  | nil => exact ⟨none, rfl⟩
  | cons v slots ih =>
    rw [findSlot]
    by_cases hv : (values v).valueIdx = 0
    · exact ⟨_, if_pos hv⟩
    · obtain ⟨found, hfound⟩ := exists_sameTokens hidx ((hvalues v).resolve_left hv)
      rw [if_neg hv, hfound]
      cases found with
      | true => exact ⟨_, rfl⟩
      | false => exact ih

lemma ValuesFit.update {len : ℕ} {values : Fin maxValues → MapValue}
    (h : ValuesFit cfg len values) {v : Fin maxValues} {value : MapValue}
    (hvalue : value.valueIdx = 0 ∨ value.valueIdx + cfg.sizeValue ≤ len) :
    ValuesFit cfg len (Function.update values v value) := by
  intro w
  by_cases hw : w = v
  · subst hw
    rwa [Function.update_self]
  · rw [Function.update_of_ne hw]
    exact h w

lemma exists_countAt (hkey : cfg.sizeKey ≤ keyTokens.length) {values : Fin maxValues → MapValue}
    (hvalues : ValuesFit cfg inp.length values) {i : ℕ}
    (hi : i + cfg.sizeKey + cfg.sizeValue ≤ inp.length) :
    ∃ values', countAt cfg inp keyTokens values i = .ok values' ∧
      ValuesFit cfg inp.length values' := by
  obtain ⟨found, hfound⟩ := exists_sameTokens (show i + cfg.sizeKey ≤ inp.length by omega)
    (show 0 + cfg.sizeKey ≤ keyTokens.length by omega)
  rw [countAt, hfound]
  cases found with
  | false => exact ⟨values, rfl, hvalues⟩
  | true =>
    obtain ⟨slot, hslot⟩ := exists_findSlot hvalues hi (List.finRange maxValues)
    simp only [bind, Except.bind, if_true, hslot]
    match slot with
    | none => exact ⟨values, rfl, hvalues⟩
    | some (v, true) => exact ⟨_, rfl, hvalues.update (.inr hi)⟩
    | some (v, false) => exact ⟨_, rfl, hvalues.update (hvalues v)⟩

lemma exists_draftTokens {matchPos : ℕ}
    (h : matchPos + cfg.sizeKey + cfg.sizeValue ≤ inp.length) (value : MapValue) :
    ∃ tokens, draftTokens cfg inp matchPos value = .ok tokens := by
  obtain ⟨tokens, htokens, -⟩ := exists_mapM_readAt (v := inp)
    (l := List.range (min (cfg.sizeValue : ℤ) value.nAccepted).toNat)
    (f := fun i => matchPos + cfg.sizeKey + i) fun i hi => by
      have := List.mem_range.1 hi
      omega
  exact ⟨tokens, htokens⟩

/-! ## Drafting -/

lemma Fits.setKey (hfits : map.Fits cfg) {key : MapKey} (hmem : key ∈ map.keys) (offset : ℕ)
    (key' : MapKey) (hidx : key'.keyIdx = key.keyIdx)
    (hvalues : cfg.keyOnly = false → ValuesFit cfg map.idxLastCheck key'.values)
    (created : Bool) (keyIdx valueIdx : ℕ) (hvalueIdx : valueIdx < maxValues) :
    Fits cfg { map with
      keys := map.keys.set offset key'
      lastDraftCreated := created
      lastDraftKeyIdx := keyIdx
      lastDraftValueIdx := valueIdx } where
  begin_le := hfits.begin_le
  entries := hfits.entries
  keys k hk := by
    rcases List.mem_or_eq_of_mem_set hk with hk | rfl
    · exact hfits.keys k hk
    · rw [hidx]
      exact hfits.keys key hmem
  values hkeyOnly k hk := by
    rcases List.mem_or_eq_of_mem_set hk with hk | rfl
    · exact hfits.values hkeyOnly k hk
    · exact hvalues hkeyOnly
  draftValue := hvalueIdx

lemma exists_draftFrom (hfits : map.Fits cfg) (hkey : cfg.sizeKey ≤ keyTokens.length)
    (hcheck : map.idxLastCheck = inp.length) {matchPos offset : ℕ}
    (hmatch : map.KeyFits cfg matchPos) (hoffset : offset < map.keys.length) :
    ∃ out, map.draftFrom cfg inp keyTokens matchPos offset = .ok out ∧ out.1.Fits cfg ∧
      out.1.idxLastCheck = map.idxLastCheck ∧ out.1.sizeLastBegin = map.sizeLastBegin := by
  have hlen := hmatch.le hfits.begin_le
  rw [hcheck] at hlen
  have hmem : map.keys[offset] ∈ map.keys := List.getElem_mem hoffset
  set hit : MapKey := { map.keys[offset] with
    keyNum := min (map.keys[offset].keyNum + 1) maxValueCount } with hhit
  simp only [draftFrom, readAt_eq_ok hoffset, bind, Except.bind]
  by_cases honly : cfg.keyOnly = true
  · obtain ⟨tokens, htokens⟩ := exists_draftTokens hlen (map.keys[offset].values 0)
    rw [if_pos honly, htokens]
    exact ⟨_, rfl, hfits.setKey hmem _ hit rfl (by simp [honly]) _ _ 0 (Nat.succ_pos 3), rfl, rfl⟩
  rw [if_neg honly]
  have hvalues := hfits.values (Bool.eq_false_iff.2 honly) _ hmem
  by_cases hhits : min (map.keys[offset].keyNum + 1) maxValueCount < cfg.minHits
  · rw [if_pos hhits]
    exact ⟨_, rfl, hfits.setKey hmem _ hit rfl (fun _ => hvalues) _ _ _ hfits.draftValue, rfl, rfl⟩
  rw [if_neg hhits]
  -- every position of the loop leaves room for a key and a value
  obtain ⟨values, hloop, hvalues'⟩ := exists_foldlM_invariant (I := ValuesFit cfg inp.length)
    (f := countAt cfg inp keyTokens)
    (l := List.range' map.keys[offset].statIdx (matchPos + 1 - map.keys[offset].statIdx))
    (fun i hi values hI => by
      rw [List.mem_range'_1] at hi
      exact exists_countAt hkey hI (by omega)) (hcheck ▸ hvalues)
  rw [hloop]
  have hset := hfits.setKey hmem offset { hit with values, statIdx := matchPos } rfl
    (fun _ => hcheck ▸ hvalues')
  dsimp only
  split
  · exact ⟨_, rfl, hset _ _ _ hfits.draftValue, rfl, rfl⟩
  · obtain ⟨tokens, htokens⟩ := exists_draftTokens hlen (values (maxOccur values).2)
    rw [htokens]
    exact ⟨_, rfl, hset _ _ _ (maxOccur values).2.isLt, rfl, rfl⟩

lemma draft_spec (hfits : map.Fits cfg) (hpos : 0 < cfg.sizeKey)
    (hcheck : map.idxLastCheck ≤ inp.length) (sampled : Token) :
    (∃ out, map.draft cfg inp sampled = .ok out ∧ out.1.Fits cfg ∧
        out.1.idxLastCheck ≤ inp.length) ∨
      map.draft cfg inp sampled = .error .tooLong ∧ 2 ^ 32 - 1 ≤ inp.length := by
  rw [draft]
  have hreset : Fits cfg { map with
      lastDraftCreated := false, lastDraftKeyIdx := 0, lastDraftValueIdx := 0 } :=
    { hfits with draftValue := Nat.succ_pos 3 }
  by_cases hshort : inp.length < 2 * cfg.sizeKey + cfg.sizeValue
  · rw [if_pos hshort]
    exact .inl ⟨_, rfl, hreset, hcheck⟩
  by_cases hlong : 2 ^ 32 - 1 ≤ inp.length
  · rw [if_neg hshort, if_pos hlong]
    exact .inr ⟨rfl, hlong⟩
  have hbegin : map.sizeLastBegin ≤ inp.length := hfits.begin_le.trans hcheck
  simp only [if_neg hshort, if_neg hlong, if_neg (not_lt.2 hcheck), if_neg (not_lt.2 hbegin)]
  left
  set map₁ : NgramMap := { map with
    lastDraftCreated := false, lastDraftKeyIdx := 0, lastDraftValueIdx := 0,
    idxLastCheck := inp.length } with hmap₁
  have hfits₁ : map₁.Fits cfg :=
    { begin_le := hbegin
      entries := fun hsize i => (hfits.entries hsize i).imp_right (·.imp_right fun h => ⟨h.1, by
        simp only [hmap₁]; omega⟩)
      keys := fun key hk => (hfits.keys key hk).imp_right fun h => ⟨h.1, by
        simp only [hmap₁]; omega⟩
      values := fun honly key hk v => (hfits.values honly key hk v).imp_right (·.trans hcheck)
      draftValue := Nat.succ_pos 3 }
  obtain ⟨keyTokens, hread, hkeyLen⟩ := exists_readKey hpos (show cfg.sizeKey ≤ inp.length by omega)
    sampled
  obtain ⟨j₁, hj₁, hfit₁⟩ := exists_lookUp hfits₁ hkeyLen.ge
    (show cfg.sizeKey + cfg.sizeValue + 1 ≤ inp.length by omega)
  obtain ⟨j₂, hj₂, hfit₂⟩ := exists_searchBefore hfit₁ hkeyLen.ge hbegin
  obtain ⟨matchPos, hmatchPos, hfit⟩ := exists_searchAfter hfit₂ hkeyLen.ge (by omega) rfl
  obtain ⟨keyMap, last, hupdate, hentries⟩ := exists_updateKeyMap hfits₁ (by omega) rfl
  simp only [hread, hj₁, hj₂, hmatchPos, hupdate, bind, Except.bind]
  set map₂ : NgramMap := { map₁ with keyMap, keyMapLastIdx := last } with hmap₂
  have hfits₂ : map₂.Fits cfg := { hfits₁ with entries := hentries }
  by_cases hzero : matchPos = 0
  · rw [if_pos hzero]
    exact ⟨_, rfl, hfits₂, le_rfl⟩
  rw [if_neg hzero]
  have hmatch : map₂.KeyFits cfg matchPos := hfit.resolve_left hzero
  obtain ⟨offset, hoffset, hle⟩ := exists_findKey hkeyLen.ge map₂.keys fun key hk =>
    Nat.le_of_add_right_le ((hfits₂.keys key hk).le hfits₂.begin_le)
  rw [hoffset]
  dsimp only
  split
  case isTrue hnew =>
    have hfits₃ : Fits cfg { map₂ with keys := map₂.keys ++ [newKey cfg matchPos] } :=
      { hfits₂ with
        keys := fun key hk => by
          rcases List.mem_append.1 hk with hk | hk
          · exact hfits₂.keys key hk
          · obtain rfl := List.mem_singleton.1 hk
            exact hmatch
        values := fun honly key hk => by
          rcases List.mem_append.1 hk with hk | hk
          · exact hfits₂.values honly key hk
          · obtain rfl := List.mem_singleton.1 hk
            exact fun v => .inl rfl }
    obtain ⟨out, hout, hfitsOut, hcheckOut, -⟩ := exists_draftFrom hfits₃ hkeyLen.ge rfl hmatch
      (show offset < (map₂.keys ++ [newKey cfg matchPos]).length by
        rw [List.length_append, show offset = map₂.keys.length from hnew]
        exact Nat.lt_succ_self _)
    exact ⟨out, hout, hfitsOut, hcheckOut.le⟩
  case isFalse hold =>
    obtain ⟨out, hout, hfitsOut, hcheckOut, -⟩ :=
      exists_draftFrom hfits₂ hkeyLen.ge rfl hmatch (lt_of_le_of_ne hle hold)
    exact ⟨out, hout, hfitsOut, hcheckOut.le⟩

/-! ## Cleaning up -/

/-- The values that the clean-up keeps are from before, and a slot is empty or below the bound. -/
def Cleaned (bound : ℕ) (old values : Fin maxValues → MapValue) (k : Fin maxValues) : Prop :=
  (values k).valueIdx = 0 ∨ (values k).valueIdx < bound ∧ ∃ v, (values k).valueIdx = (old v).valueIdx

lemma cleanSlot_spec (bound : ℕ) (old values : Fin maxValues → MapValue) {j : Fin maxValues}
    (hj : values j = old j) (h : ∀ k, j < k → Cleaned bound old values k) :
    (∀ k, j ≤ k → Cleaned bound old (cleanSlot bound values j) k) ∧
      ∀ k, k < j → cleanSlot bound values j k = values k := by
  rw [cleanSlot]
  by_cases hremove : (values j).valueIdx ≠ 0 ∧ bound ≤ (values j).valueIdx
  · rw [if_pos hremove]
    refine ⟨fun k hk => ?_, fun k hk => if_pos hk⟩
    rw [Cleaned, removeValue, if_neg (not_lt.2 hk)]
    split
    case isTrue hlt => exact h ⟨k.val + 1, hlt⟩ (Fin.lt_def.2 (Nat.lt_succ_of_le hk))
    case isFalse => exact .inl rfl
  · rw [if_neg hremove]
    refine ⟨fun k hk => ?_, fun k _ => rfl⟩
    rcases hk.eq_or_lt with rfl | hlt
    · rw [not_and_or, not_not, not_le] at hremove
      exact hremove.imp_right fun hlt => ⟨hlt, _, by rw [hj]⟩
    · exact h k hlt

lemma cleanValues_spec (bound : ℕ) (values : Fin maxValues → MapValue) (k : Fin maxValues) :
    Cleaned bound values (cleanValues bound values) k := by
  have h3 := cleanSlot_spec bound values values (j := 3) rfl
    fun k hk => absurd hk ((by decide : ∀ k : Fin maxValues, ¬ 3 < k) k)
  have h2 := cleanSlot_spec bound values _ (h3.2 2 (by decide))
    fun k hk => h3.1 k ((by decide : ∀ k : Fin maxValues, 2 < k → 3 ≤ k) k hk)
  have h1 := cleanSlot_spec bound values _ ((h2.2 1 (by decide)).trans (h3.2 1 (by decide)))
    fun k hk => h2.1 k ((by decide : ∀ k : Fin maxValues, 1 < k → 2 ≤ k) k hk)
  have h0 := cleanSlot_spec bound values _
    ((h1.2 0 (by decide)).trans ((h2.2 0 (by decide)).trans (h3.2 0 (by decide))))
    fun k hk => h1.1 k ((by decide : ∀ k : Fin maxValues, 0 < k → 1 ≤ k) k hk)
  exact h0.1 k (Fin.zero_le k)

/-- A begin with a history that is not shorter than the last begin, but shorter than the history of
the last check, leaves no value that begins before the last begin and ends after the history. -/
def CleansUp (cfg : MapConfig) (map : NgramMap) (sizeBegin : ℕ) : Prop :=
  cfg.keyOnly = false → map.sizeLastBegin ≤ sizeBegin → sizeBegin < map.idxLastCheck →
    ∀ key ∈ map.keys, key.keyIdx < map.sizeLastBegin → ∀ v,
      (key.values v).valueIdx = 0 ∨ map.sizeLastBegin ≤ (key.values v).valueIdx ∨
        (key.values v).valueIdx + cfg.sizeValue ≤ sizeBegin

lemma cleanKey_eq_some {bound : ℕ} {key key' : MapKey}
    (h : cleanKey cfg bound key = some key') :
    key.keyIdx < bound ∧ key'.keyIdx = key.keyIdx ∧
      (cfg.keyOnly = false → ∀ v, Cleaned bound key.values key'.values v) := by
  rw [cleanKey] at h
  by_cases hkey : bound ≤ key.keyIdx
  · simp [hkey] at h
  rw [if_neg hkey] at h
  by_cases honly : cfg.keyOnly = true
  · rw [if_pos honly] at h
    obtain rfl := Option.some.inj h
    exact ⟨not_le.1 hkey, rfl, by simp [honly]⟩
  · rw [if_neg honly] at h
    obtain ⟨_, heq⟩ := Option.ite_none_left_eq_some.1 h
    obtain rfl := Option.some.inj heq
    exact ⟨not_le.1 hkey, rfl, fun _ v => cleanValues_spec bound key.values v⟩

/-- The bound of the clean-up leaves room for a key and a value where the history has become
shorter than at the last begin, and is the last begin otherwise. -/
lemma exists_cleanupBound (cfg : MapConfig) (map : NgramMap) (sizeBegin : ℕ) :
    ∃ bound, map.cleanupBound cfg sizeBegin = .ok bound ∧
      (sizeBegin < map.sizeLastBegin ∧
          (bound = 0 ∨ bound + cfg.sizeKey + cfg.sizeValue ≤ sizeBegin) ∨
        map.sizeLastBegin ≤ sizeBegin ∧ bound = map.sizeLastBegin) := by
  rw [cleanupBound]
  by_cases hshrink : sizeBegin < map.sizeLastBegin
  · rw [if_pos hshrink]
    by_cases hroom : cfg.sizeKey + cfg.sizeValue < sizeBegin
    · rw [if_pos hroom, usub_eq_ok (by omega)]
      exact ⟨_, usub_eq_ok (by omega), .inl ⟨hshrink, .inr (by omega)⟩⟩
    · exact ⟨0, if_neg hroom, .inl ⟨hshrink, .inl rfl⟩⟩
  · exact ⟨_, if_neg hshrink, .inr ⟨not_lt.1 hshrink, rfl⟩⟩

lemma begin_spec (hfits : map.Fits cfg) {tokens : List Token}
    (hclean : map.CleansUp cfg tokens.length) :
    ∃ map', map.begin cfg tokens = .ok map' ∧ map'.Fits cfg ∧
      map'.idxLastCheck = tokens.length := by
  obtain ⟨bound, hbound, hcases⟩ := exists_cleanupBound cfg map tokens.length
  have hbegin := hfits.begin_le
  -- a position below the bound leaves room for a key and a value in the new history
  have hfit : ∀ j, map.KeyFits cfg j → (tokens.length < map.idxLastCheck → j < bound) →
      j + cfg.sizeKey + cfg.sizeValue ≤ tokens.length := by
    intro j hj hlt
    by_cases hshort : tokens.length < map.idxLastCheck
    · have := hlt hshort
      rcases hj with hj | hj <;> rcases hcases with ⟨hsize, hroom⟩ | ⟨hsize, hroom⟩ <;> omega
    · rcases hj with hj | hj <;> omega
  rw [begin, hbound]
  refine ⟨_, rfl, ?_, rfl⟩
  by_cases hshort : tokens.length < map.idxLastCheck
  · have hkeys : ∀ key' ∈ map.keys.filterMap (cleanKey cfg bound),
        ∃ key ∈ map.keys, cleanKey cfg bound key = some key' := fun key' hkey' =>
      List.mem_filterMap.1 hkey'
    have hvalues : cfg.keyOnly = false → ∀ key' ∈ map.keys.filterMap (cleanKey cfg bound),
        ValuesFit cfg tokens.length key'.values := by
      intro honly key' hkey' v
      obtain ⟨key, hmem, hclean'⟩ := hkeys key' hkey'
      obtain ⟨hlt, -, hcleaned⟩ := cleanKey_eq_some hclean'
      rcases hcleaned honly v with hzero | ⟨hvlt, w, hw⟩
      · exact .inl hzero
      rcases hcases with ⟨hsize, hroom⟩ | ⟨hsize, rfl⟩
      · exact .inr (by omega)
      · rcases hclean honly hsize hshort key hmem hlt w with h | h | h <;> rw [← hw] at h
        · exact .inl h
        · omega
        · exact .inr h
    have hentries : cfg.keyMapSize ≠ 0 → ∀ i, (map.cleanKeyMap bound).keyMap i = 0 ∨
        (map.cleanKeyMap bound).keyMap i + cfg.sizeKey + cfg.sizeValue ≤ tokens.length := by
      intro hsize i
      rw [cleanKeyMap]
      by_cases hclear : map.keyMap i ≠ 0 ∧ bound ≤ map.keyMap i
      · exact .inl (if_pos hclear)
      simp only [hclear, if_false]
      by_cases hzero : map.keyMap i = 0
      · exact .inl hzero
      · exact .inr (hfit _ ((hfits.entries hsize i).resolve_left hzero) fun _ => by omega)
    have hkeyFits : ∀ key' ∈ map.keys.filterMap (cleanKey cfg bound),
        key'.keyIdx + cfg.sizeKey + cfg.sizeValue ≤ tokens.length := by
      intro key' hkey'
      obtain ⟨key, hmem, hclean'⟩ := hkeys key' hkey'
      obtain ⟨hlt, hidx, -⟩ := cleanKey_eq_some hclean'
      rw [hidx]
      exact hfit _ (hfits.keys key hmem) fun _ => hlt
    have hcheck : (map.cleanKeyMap bound).idxLastCheck = map.idxLastCheck := rfl
    by_cases hsize : cfg.keyMapSize = 0
    · simp only [hsize, hshort, ne_eq, not_true_eq_false, false_and, if_true, if_false]
      exact
        { begin_le := le_rfl
          entries := fun hsize' => absurd hsize hsize'
          keys := fun key hk => .inl (hkeyFits key hk)
          values := hvalues
          draftValue := hfits.draftValue }
    · simp only [hsize, hshort, hcheck, ne_eq, not_false_eq_true, and_self, if_true]
      exact
        { begin_le := le_rfl
          entries := fun hsize' i => (hentries hsize' i).imp_right fun h => .inl h
          keys := fun key hk => .inl (hkeyFits key hk)
          values := hvalues
          draftValue := hfits.draftValue }
  · simp only [hshort, and_false, if_false]
    exact
      { begin_le := le_rfl
        entries := fun hsize i => (hfits.entries hsize i).imp_right fun h =>
          .inl (hfit _ h fun h => absurd h hshort)
        keys := fun key hk => .inl (hfit _ (hfits.keys key hk) fun h => absurd h hshort)
        values := fun honly key hk v => (hfits.values honly key hk v).imp_right
          fun h => h.trans (not_lt.1 hshort)
        draftValue := hfits.draftValue }

/-! ## Accepting -/

/-- The key of the last draft is still there. -/
def FindsKey (map : NgramMap) : Prop :=
  map.lastDraftCreated = true → map.lastDraftKeyIdx < map.keys.length

lemma accept_spec (hfits : map.Fits cfg) (hfinds : map.FindsKey) (nAccepted : ℕ) :
    ∃ map', map.accept nAccepted = .ok map' ∧ map'.Fits cfg ∧
      map'.idxLastCheck = map.idxLastCheck := by
  rw [accept]
  by_cases hcreated : map.lastDraftCreated = true
  · have hkey := hfinds hcreated
    rw [if_pos hcreated, readAt_eq_ok hkey]
    simp only [bind, Except.bind, dif_pos hfits.draftValue]
    refine ⟨_, rfl, ?_, rfl⟩
    set key := map.keys[map.lastDraftKeyIdx] with hkeyEq
    have hmem : key ∈ map.keys := List.getElem_mem hkey
    set v : Fin maxValues := ⟨map.lastDraftValueIdx, hfits.draftValue⟩ with hv
    exact hfits.setKey hmem _ { key with
      values := Function.update key.values v { key.values v with nAccepted := toInt16 nAccepted } }
      rfl (fun honly => (hfits.values honly key hmem).update (hfits.values honly key hmem v)) _ _ _
      hfits.draftValue
  · exact ⟨map, if_neg hcreated, hfits, rfl⟩

end NgramMap

/-! ## Runs -/

/-- A map, the tokens of its last begin, and the length of its last history. -/
structure MapRun where
  map : NgramMap
  beginTokens : List Token
  histLen : ℕ

/-- A call. -/
inductive MapCall
  | begin (tokens : List Token)
  | draft (inp : List Token) (sampled : Token)
  | accept (nAccepted : ℕ)

namespace MapRun

def call (cfg : MapConfig) (s : MapRun) : MapCall → Except MapError MapRun
  | .begin tokens => do
    let map ← s.map.begin cfg tokens
    .ok ⟨map, tokens, tokens.length⟩
  | .draft inp sampled => do
    let out ← s.map.draft cfg inp sampled
    .ok ⟨out.1, s.beginTokens, inp.length⟩
  | .accept nAccepted => do
    let map ← s.map.accept nAccepted
    .ok { s with map }

/-- A step of a run is a call that returns. -/
def step (cfg : MapConfig) (s : MapRun) (a : MapCall) : Option MapRun := (s.call cfg a).toOption

def start : MapRun := ⟨{}, [], 0⟩

/-- The history of a draft extends the tokens of the last begin, and histories grow. -/
def Extends (s : MapRun) : MapCall → Prop
  | .draft inp _ => s.beginTokens <+: inp ∧ s.histLen ≤ inp.length
  | _ => True

/-- The clean-up of a begin keeps no value that ends after the history, and an accept finds its
key. -/
def Kept (cfg : MapConfig) (s : MapRun) : MapCall → Prop
  | .begin tokens => s.map.CleansUp cfg tokens.length
  | .draft _ _ => True
  | .accept _ => s.map.FindsKey

/-- Every index is in range, no difference wraps, and no abort on inconsistent indices fires; what
remains is the abort on a history that is too long for `key_map`. -/
def Safe (cfg : MapConfig) (s : MapRun) (a : MapCall) : Prop :=
  (∃ s', s.call cfg a = .ok s') ∨
    s.call cfg a = .error .tooLong ∧ ∃ inp sampled, a = .draft inp sampled ∧ 2 ^ 32 - 1 ≤ inp.length

/-- What holds of every run. -/
structure Fits (cfg : MapConfig) (s : MapRun) : Prop where
  map : s.map.Fits cfg
  check_le : s.map.idxLastCheck ≤ s.histLen

variable {cfg : MapConfig} {s s' : MapRun} {a : MapCall}

lemma call_spec (hpos : 0 < cfg.sizeKey) (hfits : s.Fits cfg) (hext : s.Extends a)
    (hkept : s.Kept cfg a) : s.Safe cfg a ∧ ∀ s', s.call cfg a = .ok s' → s'.Fits cfg := by
  cases a with
  | begin tokens =>
    obtain ⟨map', hmap', hfits', hcheck⟩ := NgramMap.begin_spec hfits.map hkept
    have hcall : s.call cfg (.begin tokens) = .ok ⟨map', tokens, tokens.length⟩ := by
      rw [call, hmap']
      rfl
    refine ⟨.inl ⟨_, hcall⟩, fun s' hs' => ?_⟩
    obtain rfl := Except.ok.inj (hcall.symm.trans hs')
    exact ⟨hfits', hcheck.le⟩
  | draft inp sampled =>
    rcases NgramMap.draft_spec hfits.map hpos (hfits.check_le.trans hext.2) sampled with
      ⟨out, hout, hfits', hcheck⟩ | ⟨herr, hlong⟩
    · have hcall : s.call cfg (.draft inp sampled) = .ok ⟨out.1, s.beginTokens, inp.length⟩ := by
        rw [call, hout]
        rfl
      refine ⟨.inl ⟨_, hcall⟩, fun s' hs' => ?_⟩
      obtain rfl := Except.ok.inj (hcall.symm.trans hs')
      exact ⟨hfits', hcheck⟩
    · have hcall : s.call cfg (.draft inp sampled) = .error .tooLong := by
        rw [call, herr]
        rfl
      exact ⟨.inr ⟨hcall, inp, sampled, rfl, hlong⟩, fun s' hs' => by rw [hcall] at hs'; cases hs'⟩
  | accept nAccepted =>
    obtain ⟨map', hmap', hfits', hcheck⟩ := NgramMap.accept_spec hfits.map hkept nAccepted
    have hcall : s.call cfg (.accept nAccepted) = .ok { s with map := map' } := by
      rw [call, hmap']
      rfl
    refine ⟨.inl ⟨_, hcall⟩, fun s' hs' => ?_⟩
    obtain rfl := Except.ok.inj (hcall.symm.trans hs')
    exact ⟨hfits', hcheck.le.trans hfits.check_le⟩

lemma step_eq_some : s.step cfg a = some s' ↔ s.call cfg a = .ok s' := by
  rw [step]
  cases s.call cfg a <;> simp [Except.toOption]

lemma fits_of_reaches (hpos : 0 < cfg.sizeKey)
    (hs : Reaches (step cfg) (fun s a => s.Extends a ∧ s.Kept cfg a) start s) : s.Fits cfg :=
  hs.invariant ⟨NgramMap.fits_empty cfg, le_rfl⟩ fun _ _ _ hfits hok hstep =>
    (call_spec hpos hfits hok.1 hok.2).2 _ (step_eq_some.1 hstep)

/-- In a run whose begins clean up and whose accepts find their keys, every call is safe. -/
theorem call_safe (hpos : 0 < cfg.sizeKey)
    (hs : Reaches (step cfg) (fun s a => s.Extends a ∧ s.Kept cfg a) start s)
    (hext : s.Extends a) (hkept : s.Kept cfg a) : s.Safe cfg a :=
  (call_spec hpos (fits_of_reaches hpos hs) hext hkept).1

/-- The first draft of a new map. -/
theorem call_safe_firstDraft :
    Safe ⟨1, 3, false, 1, hashMapSize⟩ start (.draft [1, 1, 1, 1, 1, 1, 1] 1) :=
  call_safe (by decide) .start ⟨List.nil_prefix, Nat.zero_le _⟩ trivial

/-! ## Stale records -/

instance (s : MapRun) (a : MapCall) : Decidable (s.Extends a) :=
  match a with
  | .begin _ | .accept _ => inferInstanceAs (Decidable True)
  | .draft _ _ => inferInstanceAs (Decidable (_ ∧ _))

def callError (cfg : MapConfig) (a : MapCall) (s : MapRun) : Option MapError :=
  match s.call cfg a with
  | .ok _ => none
  | .error e => some e

lemma not_safe_of_callError (h : s.callError cfg a = some .outOfBounds) : ¬ s.Safe cfg a := by
  rw [callError] at h
  rintro (⟨s', hs'⟩ | ⟨herr, -⟩)
  · simp [hs'] at h
  · simp [herr] at h

def threeValues : MapConfig := ⟨1, 3, false, 1, hashMapSize⟩

/-- The second history, of eight tokens, grows to fourteen, and its draft stores a value at `7`.
The third history has eight tokens again, so that the value is kept. -/
def rewritten : List MapCall :=
  [.begin [0, 5, 6, 7, 0, 0, 0, 0], .draft [0, 5, 6, 7, 0, 0, 0, 0] 5,
    .begin [0, 8, 1, 1, 1, 1, 8, 2], .draft [0, 8, 1, 1, 1, 1, 8, 2, 3, 8, 4, 4, 4, 4] 8,
    .begin [0, 7, 1, 7, 2, 3, 4, 2], .draft [0, 7, 1, 7, 2, 3, 4, 2, 3] 7]

/-- A draft whose key is deleted before its accept. -/
def restarted : List MapCall := [.draft [7, 7, 7, 7, 7, 7, 7] 7, .begin []]

/-- A draft compares a value that ends after the history, and an accept looks for a key that has
been deleted. -/
theorem not_call_safe :
    (∃ s, Reaches (step threeValues) Extends start s ∧
      s.Extends (.draft [0, 7, 1, 7, 2, 3, 4, 2, 3] 7) ∧
      ¬ s.Safe threeValues (.draft [0, 7, 1, 7, 2, 3, 4, 2, 3] 7)) ∧
    ∃ s, Reaches (step threeValues) Extends start s ∧ ¬ s.Safe threeValues (.accept 0) := by
  constructor
  · obtain ⟨s, hs, herr⟩ := exists_reached_of_admitted (step threeValues) Extends start rewritten
      (fun s => (s.callError threeValues (.draft [0, 7, 1, 7, 2, 3, 4, 2, 3] 7),
        decide (s.Extends (.draft [0, 7, 1, 7, 2, 3, 4, 2, 3] 7))))
      (v := (some .outOfBounds, true)) (by decide +kernel)
    obtain ⟨herr, hext⟩ := Prod.ext_iff.1 herr
    exact ⟨s, hs, of_decide_eq_true hext, not_safe_of_callError herr⟩
  · obtain ⟨s, hs, herr⟩ := exists_reached_of_admitted (step threeValues) Extends start restarted
      (callError threeValues (.accept 0)) (v := some .outOfBounds) (by decide +kernel)
    exact ⟨s, hs, not_safe_of_callError herr⟩

end MapRun

end IFairy.Speculative
