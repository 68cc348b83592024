import IFairy.Speculative.NgramMapSafe

/-!
# What a key counts

The values of a key count the m-grams that follow it, up to the position where a draft has found it.
The first draft that comes to the statistics of a key counts right (`statistics_right`).  It drafts
what follows the key at the matched position, so the draft is that of the most frequent m-gram just
when this is the one there (`Agrees`).  Every later draft counts the position where the last one
ended again (`not_statistics_right`).
-/

namespace IFairy.Speculative

/-! ## What is counted -/

/-- The m-gram that begins at a position. -/
def mgramAt (cfg : MapConfig) (inp : List Token) (i : ℕ) : List Token :=
  (inp.drop i).take cfg.sizeValue

/-- The positions up to the matched one at which the history has the key. -/
def keyPositions (cfg : MapConfig) (inp keyTokens : List Token) (matchPos : ℕ) : List ℕ :=
  (List.range (matchPos + 1)).filter fun i => (inp.drop i).take cfg.sizeKey = keyTokens

/-- The m-grams that follow the key there. -/
def following (cfg : MapConfig) (inp keyTokens : List Token) (matchPos : ℕ) : List (List Token) :=
  (keyPositions cfg inp keyTokens matchPos).map fun i => mgramAt cfg inp (i + cfg.sizeKey)

/-- A slot in use counts its m-gram, below the cap, and an empty one nothing. -/
structure CountsRight (cfg : MapConfig) (inp : List Token) (grams : List (List Token))
    (values : Fin maxValues → MapValue) : Prop where
  used : ∀ v, (values v).valueIdx ≠ 0 → (values v).valueNum < maxValueCount →
    (values v).valueNum = grams.count (mgramAt cfg inp (values v).valueIdx)
  unused : ∀ v, (values v).valueIdx = 0 → (values v).valueNum = 0

/-- The draft begins the most frequent m-gram, which occurs at least twice as often as all others
together. -/
def DraftRight (grams : List (List Token)) (draft : List Token) : Prop :=
  ∃ g ∈ grams, draft <+: g ∧ (∀ h, grams.count h ≤ grams.count g) ∧
    2 * (grams.length - grams.count g) ≤ grams.count g

/-- The slots can count so far that an m-gram occurs at least twice as often as all others. -/
def Dominates (grams : List (List Token)) (g : List Token) : Prop :=
  g ∈ grams ∧ 2 * ∑ h ∈ grams.toFinset.erase g, min (grams.count h) maxValueCount ≤
    min (grams.count g) maxValueCount

/-- Of as many tokens as a new slot drafts, the m-gram at the matched position is the one that
dominates. -/
def Agrees (cfg : MapConfig) (inp : List Token) (matchPos : ℕ) (grams : List (List Token)) : Prop :=
  let drafted := (min (cfg.sizeValue : ℤ) (toInt16 cfg.sizeValue)).toNat
  ∀ g, Dominates grams g → (mgramAt cfg inp (matchPos + cfg.sizeKey)).take drafted = g.take drafted

namespace NgramMap

/-- The position where a draft finds its key. -/
def findMatch (cfg : MapConfig) (map : NgramMap) (inp keyTokens : List Token) : Except MapError ℕ := do
  let matchPos ← map.lookUp cfg inp keyTokens
  let matchPos ← map.searchBefore cfg inp keyTokens matchPos
  map.searchAfter cfg inp keyTokens matchPos

/-- A draft comes to the statistics of the key at an offset, which is new when there is none. -/
structure ComesToStatistics (cfg : MapConfig) (map : NgramMap) (inp : List Token) (sampled : Token)
    (keyTokens : List Token) (matchPos offset : ℕ) (key : MapKey) : Prop where
  long : 2 * cfg.sizeKey + cfg.sizeValue ≤ inp.length
  readKey : readKey cfg inp sampled = .ok keyTokens
  findMatch : map.findMatch cfg inp keyTokens = .ok matchPos
  found : matchPos ≠ 0
  findKey : findKey cfg inp keyTokens map.keys = .ok offset
  key_eq : key = map.keys.getD offset (newKey cfg matchPos)
  hits : cfg.minHits ≤ min (key.keyNum + 1) maxValueCount

variable {cfg : MapConfig} {map map' : NgramMap} {inp keyTokens : List Token}
  {values values' : Fin maxValues → MapValue} {grams : List (List Token)}

/-! ## Comparing -/

lemma sameTokens_eq_ok {a b : List Token} {i j len : ℕ} {found : Bool}
    (h : sameTokens a b i j len = .ok found) :
    found = true ↔ (a.drop i).take len = (b.drop j).take len := by
  induction len generalizing i j with
  | zero =>
    obtain rfl := Except.ok.inj h
    simp
  | succ len ih =>
    obtain ⟨x, hx, h⟩ := bind_eq_ok.1 h
    obtain ⟨y, hy, h⟩ := bind_eq_ok.1 h
    have hdrop {v : List Token} {k : ℕ} {z : Token} (hz : readAt v k = .ok z) :
        v.drop k = z :: v.drop (k + 1) := by
      rw [readAt] at hz
      split at hz
      case h_1 w hw =>
        obtain rfl := Except.ok.inj hz
        obtain ⟨hk, heq⟩ := List.getElem?_eq_some_iff.1 hw
        rw [List.drop_eq_getElem_cons hk, heq]
      case h_2 => cases hz
    rw [hdrop hx, hdrop hy, List.take_succ_cons, List.take_succ_cons, List.cons.injEq]
    split_ifs at h with hxy
    · rw [ih h]
      exact ⟨fun heq => ⟨hxy, heq⟩, fun heq => heq.2⟩
    · obtain rfl := Except.ok.inj h
      exact ⟨fun hfalse => (by cases hfalse), fun heq => absurd heq.1 hxy⟩

/-- What `findSlot` says of the slots it looked at. -/
lemma findSlot_eq_ok {idx : ℕ} {slots : List (Fin maxValues)}
    {slot : Option (Fin maxValues × Bool)} (h : findSlot cfg inp values idx slots = .ok slot) :
    let other := fun w => (values w).valueIdx ≠ 0 ∧
      mgramAt cfg inp idx ≠ mgramAt cfg inp (values w).valueIdx
    (slot = none ∧ ∀ w ∈ slots, other w) ∨
      (∃ v, slot = some (v, true) ∧ (values v).valueIdx = 0 ∧
        ∃ before after, slots = before ++ v :: after ∧ ∀ w ∈ before, other w) ∨
      ∃ v, slot = some (v, false) ∧ (values v).valueIdx ≠ 0 ∧
        mgramAt cfg inp idx = mgramAt cfg inp (values v).valueIdx := by
  dsimp only
  induction slots with
  | nil =>
    obtain rfl := Except.ok.inj h
    exact .inl ⟨rfl, fun w hw => absurd hw List.not_mem_nil⟩
  | cons v slots ih =>
    rw [findSlot] at h
    split_ifs at h with hv
    · obtain rfl := Except.ok.inj h
      exact .inr (.inl ⟨v, rfl, hv, [], slots, rfl, fun w hw => absurd hw List.not_mem_nil⟩)
    · obtain ⟨found, hfound, h⟩ := bind_eq_ok.1 h
      have hsame := sameTokens_eq_ok hfound
      cases found with
      | true =>
        obtain rfl := Except.ok.inj h
        exact .inr (.inr ⟨v, rfl, hv, hsame.1 rfl⟩)
      | false =>
        have hother : mgramAt cfg inp idx ≠ mgramAt cfg inp (values v).valueIdx := fun heq =>
          Bool.noConfusion (hsame.2 heq)
        rcases ih h with ⟨rfl, hall⟩ | ⟨w, rfl, hw, before, after, rfl, hall⟩ | hfound
        · exact .inl ⟨rfl, List.forall_mem_cons.2 ⟨⟨hv, hother⟩, hall⟩⟩
        · exact .inr (.inl ⟨w, rfl, hw, v :: before, after, rfl,
            List.forall_mem_cons.2 ⟨⟨hv, hother⟩, hall⟩⟩)
        · exact .inr (.inr hfound)

/-! ## Counting -/

/-- The slots in use come first, hold different m-grams and count them up to the cap, and an m-gram
has a slot unless all are in use. -/
structure Slots (cfg : MapConfig) (inp : List Token) (grams : List (List Token))
    (values : Fin maxValues → MapValue) : Prop where
  first : ∀ v w, w < v → (values v).valueIdx ≠ 0 → (values w).valueIdx ≠ 0
  distinct : ∀ v w, (values v).valueIdx ≠ 0 → (values w).valueIdx ≠ 0 →
    mgramAt cfg inp (values v).valueIdx = mgramAt cfg inp (values w).valueIdx → v = w
  mem : ∀ v, (values v).valueIdx ≠ 0 → mgramAt cfg inp (values v).valueIdx ∈ grams
  num : ∀ v, (values v).valueIdx ≠ 0 → (values v).valueNum =
    min (grams.count (mgramAt cfg inp (values v).valueIdx)) maxValueCount
  accepted : ∀ v, (values v).valueIdx ≠ 0 → (values v).nAccepted = toInt16 cfg.sizeValue
  unused : ∀ v, (values v).valueIdx = 0 → (values v).valueNum = 0
  slot : ∀ g ∈ grams, (∃ v, (values v).valueIdx ≠ 0 ∧
    mgramAt cfg inp (values v).valueIdx = g) ∨ ∀ v, (values v).valueIdx ≠ 0

lemma slots_nil (h : ∀ v, (values v).valueIdx = 0 ∧ (values v).valueNum = 0) :
    Slots cfg inp [] values where
  first v _ _ hv := absurd (h v).1 hv
  distinct v _ hv := absurd (h v).1 hv
  mem v hv := absurd (h v).1 hv
  num v hv := absurd (h v).1 hv
  accepted v hv := absurd (h v).1 hv
  unused v _ := (h v).2
  slot _ hg := absurd hg List.not_mem_nil

lemma Slots.count (h : Slots cfg inp grams values) {v : Fin maxValues}
    (hv : (values v).valueIdx ≠ 0) {g : List Token}
    (hg : g = mgramAt cfg inp (values v).valueIdx) :
    Slots cfg inp (grams ++ [g]) (Function.update values v (MapValue.count (values v))) := by
  have hidx (w : Fin maxValues) :
      (Function.update values v (MapValue.count (values v)) w).valueIdx = (values w).valueIdx := by
    by_cases hw : w = v
    · rw [hw, Function.update_self]
      rfl
    · rw [Function.update_of_ne hw]
  refine ⟨?_, ?_, ?_, fun w hw => ?_, fun w hw => ?_, fun w hw => ?_, ?_⟩
  · simp only [hidx]
    exact h.first
  · simp only [hidx]
    exact h.distinct
  · simp only [hidx]
    exact fun w hw => List.mem_append_left _ (h.mem w hw)
  · rw [hidx] at hw ⊢
    have hnum := h.num w hw
    rw [List.count_append]
    by_cases heq : w = v
    · rw [heq] at hnum ⊢
      rw [Function.update_self, hg, List.count_singleton_self, MapValue.count]
      dsimp only
      omega
    · have hne : g ≠ mgramAt cfg inp (values w).valueIdx := fun hgram =>
        heq (h.distinct w v hw hv (hgram.symm.trans hg))
      rw [Function.update_of_ne heq, List.count_singleton, if_neg (by simpa using hne),
        Nat.add_zero, hnum]
  · rw [hidx] at hw
    have haccepted := h.accepted w hw
    by_cases heq : w = v
    · rw [heq] at haccepted ⊢
      rw [Function.update_self]
      exact haccepted
    · rw [Function.update_of_ne heq, haccepted]
  · rw [hidx] at hw
    rw [Function.update_of_ne fun heq : w = v => hv (heq ▸ hw)]
    exact h.unused w hw
  · simp only [hidx]
    intro g' hg'
    rcases List.mem_append.1 hg' with hold | hnew
    · exact h.slot g' hold
    · exact .inl ⟨v, hv, hg.symm.trans (List.mem_singleton.1 hnew).symm⟩

lemma Slots.full (h : Slots cfg inp grams values) {g : List Token}
    (hall : ∀ w, (values w).valueIdx ≠ 0 ∧ g ≠ mgramAt cfg inp (values w).valueIdx) :
    Slots cfg inp (grams ++ [g]) values :=
  { h with
    mem := fun w hw => List.mem_append_left _ (h.mem w hw)
    num := fun w hw => by
      rw [List.count_append, List.count_singleton, if_neg (by simpa using (hall w).2),
        Nat.add_zero]
      exact h.num w hw
    slot := fun _ _ => .inr fun w => (hall w).1 }

lemma Slots.insert (h : Slots cfg inp grams values) {v : Fin maxValues} {idx : ℕ} (hidx : idx ≠ 0)
    (hv : (values v).valueIdx = 0)
    (hbefore : ∀ w < v, (values w).valueIdx ≠ 0 ∧
      mgramAt cfg inp idx ≠ mgramAt cfg inp (values w).valueIdx) :
    Slots cfg inp (grams ++ [mgramAt cfg inp idx]) (Function.update values v (MapValue.count
      { valueIdx := idx, valueNum := 0, nAccepted := toInt16 cfg.sizeValue })) := by
  -- the slots in use are those before
  have hused (w : Fin maxValues) (hw : w ≠ v) (hne : (values w).valueIdx ≠ 0) : w < v :=
    lt_of_le_of_ne (not_lt.1 fun hlt => h.first w v hlt hne hv) hw
  have hnew : mgramAt cfg inp idx ∉ grams := fun hmem => by
    rcases h.slot _ hmem with ⟨w, hw, hgram⟩ | hall
    · have hwv : w ≠ v := fun heq => hw (heq ▸ hv)
      exact (hbefore w (hused w hwv hw)).2 hgram.symm
    · exact hall v hv
  obtain ⟨new, hnewValue⟩ : ∃ new : MapValue, MapValue.count
      { valueIdx := idx, valueNum := 0, nAccepted := toInt16 cfg.sizeValue } = new := ⟨_, rfl⟩
  have hnewIdx : new.valueIdx = idx := hnewValue ▸ rfl
  have hnewNum : new.valueNum = min (0 + 1) maxValueCount := hnewValue ▸ rfl
  rw [hnewValue]
  have hself : Function.update values v new v = new := Function.update_self ..
  have hother {w : Fin maxValues} (hw : w ≠ v) : Function.update values v new w = values w :=
    Function.update_of_ne hw ..
  refine ⟨fun w w' hlt hw => ?_, fun w w' hw hw' hgram => ?_, fun w hw => ?_, fun w hw => ?_,
    fun w hw => ?_, fun w hw => ?_, fun g hg => ?_⟩
  · have hle : w ≤ v := by
      by_cases heq : w = v
      · exact heq.le
      · rw [hother heq] at hw
        exact (hused w heq hw).le
    rw [hother (hlt.trans_le hle).ne]
    exact (hbefore w' (hlt.trans_le hle)).1
  · by_cases heq : w = v <;> by_cases heq' : w' = v
    · rw [heq, heq']
    · rw [heq, hself, hother heq', hnewIdx] at hgram
      rw [hother heq'] at hw'
      exact absurd hgram (hbefore w' (hused w' heq' hw')).2
    · rw [heq', hself, hother heq, hnewIdx] at hgram
      rw [hother heq] at hw
      exact absurd hgram.symm (hbefore w (hused w heq hw)).2
    · rw [hother heq] at hw hgram
      rw [hother heq'] at hw' hgram
      exact h.distinct w w' hw hw' hgram
  · by_cases heq : w = v
    · rw [heq, hself, hnewIdx]
      exact List.mem_append_right _ (List.mem_singleton_self _)
    · rw [hother heq] at hw ⊢
      exact List.mem_append_left _ (h.mem w hw)
  · rw [List.count_append]
    by_cases heq : w = v
    · rw [heq, hself, hnewIdx, List.count_eq_zero_of_not_mem hnew, List.count_singleton_self,
        hnewNum]
    · rw [hother heq] at hw ⊢
      rw [List.count_singleton, if_neg (by simpa using (hbefore w (hused w heq hw)).2),
        Nat.add_zero]
      exact h.num w hw
  · by_cases heq : w = v
    · rw [heq, hself, ← hnewValue, MapValue.count]
    · rw [hother heq] at hw ⊢
      exact h.accepted w hw
  · by_cases heq : w = v
    · rw [heq, hself, hnewIdx] at hw
      exact absurd hw hidx
    · rw [hother heq] at hw ⊢
      exact h.unused w hw
  · rcases List.mem_append.1 hg with hold | hnew'
    · rcases h.slot g hold with ⟨w, hw, hgram⟩ | hall
      · have heq : w ≠ v := fun heq => hw (heq ▸ hv)
        exact .inl ⟨w, by rwa [hother heq], by rwa [hother heq]⟩
      · exact absurd hv (hall v)
    · refine .inl ⟨v, by rwa [hself, hnewIdx], ?_⟩
      rw [hself, hnewIdx, List.mem_singleton.1 hnew']

lemma countAt_spec (hpos : 0 < cfg.sizeKey) (hkey : keyTokens.length = cfg.sizeKey)
    (h : Slots cfg inp grams values) {i : ℕ}
    (hcount : countAt cfg inp keyTokens values i = .ok values') :
    Slots cfg inp (grams ++ if (inp.drop i).take cfg.sizeKey = keyTokens then
      [mgramAt cfg inp (i + cfg.sizeKey)] else []) values' := by
  obtain ⟨found, hfound, hcount⟩ := bind_eq_ok.1 hcount
  have hsame := sameTokens_eq_ok hfound
  rw [List.drop_zero, ← hkey, List.take_length, hkey] at hsame
  cases found with
  | false =>
    obtain rfl := Except.ok.inj hcount
    rwa [if_neg fun heq => Bool.noConfusion (hsame.2 heq), List.append_nil]
  | true =>
    rw [if_pos (hsame.1 rfl)]
    obtain ⟨slot, hslot, hcount⟩ := bind_eq_ok.1 hcount
    rcases findSlot_eq_ok hslot with ⟨rfl, hall⟩ | ⟨v, rfl, hv, before, after, hsplit, hbefore⟩ |
      ⟨v, rfl, hv, hgram⟩
    · obtain rfl := Except.ok.inj hcount
      exact h.full fun w => hall w (List.mem_finRange w)
    · obtain rfl := Except.ok.inj hcount
      refine h.insert (by omega) hv fun w hw => hbefore w ?_
      have hmem : w ∈ before ++ v :: after := hsplit ▸ List.mem_finRange w
      have hsorted : (before ++ v :: after).Pairwise (· < ·) :=
        hsplit ▸ List.pairwise_lt_finRange maxValues
      refine (List.mem_append.1 hmem).resolve_right fun hlater => ?_
      rcases List.mem_cons.1 hlater with rfl | hafter
      · exact hw.ne rfl
      · exact hw.not_gt ((List.pairwise_cons.1 (List.pairwise_append.1 hsorted).2.1).1 w hafter)
    · obtain rfl := Except.ok.inj hcount
      exact h.count hv hgram

lemma slots_of_loop (hpos : 0 < cfg.sizeKey) (hkey : keyTokens.length = cfg.sizeKey)
    (h : ∀ v, (values v).valueIdx = 0 ∧ (values v).valueNum = 0) {count : ℕ}
    (hloop : (List.range count).foldlM (countAt cfg inp keyTokens) values = .ok values') :
    Slots cfg inp (((List.range count).filter fun i =>
      (inp.drop i).take cfg.sizeKey = keyTokens).map fun i =>
        mgramAt cfg inp (i + cfg.sizeKey)) values' := by
  induction count generalizing values' with
  | zero =>
    obtain rfl := Except.ok.inj hloop
    exact slots_nil h
  | succ count ih =>
    rw [List.range_succ, List.foldlM_append] at hloop
    obtain ⟨mid, hmid, hlast⟩ := bind_eq_ok.1 hloop
    obtain ⟨out, hout, hnil⟩ := foldlM_cons_eq_ok.1 hlast
    obtain rfl := foldlM_nil_eq_ok.1 hnil
    have hstep := countAt_spec hpos hkey (ih hmid) hout
    rw [List.range_succ, List.filter_append, List.map_append, List.filter_singleton]
    convert hstep using 2
    by_cases heq : (inp.drop count).take cfg.sizeKey = keyTokens
    · simp [heq]
    · simp [heq]

/-! ## The winner -/

lemma maxOccur_spec (values : Fin maxValues → MapValue) :
    (maxOccur values).1 = (values (maxOccur values).2).valueNum ∧
      ∀ v, (values v).valueNum ≤ (maxOccur values).1 := by
  have hloop (l : List (Fin maxValues)) (best : ℕ × Fin maxValues) :
      let r := l.foldl (fun best v =>
        if best.1 < (values v).valueNum then ((values v).valueNum, v) else best) best
      best.1 ≤ r.1 ∧ (∀ v ∈ l, (values v).valueNum ≤ r.1) ∧
        (r = best ∨ r.1 = (values r.2).valueNum) := by
    induction l generalizing best with
    | nil => exact ⟨le_rfl, fun v hv => absurd hv List.not_mem_nil, .inl rfl⟩
    | cons v l ih =>
      dsimp only
      rw [List.foldl_cons]
      split_ifs with hlt
      · obtain ⟨hle, hall, hr⟩ := ih ((values v).valueNum, v)
        refine ⟨hlt.le.trans hle, List.forall_mem_cons.2 ⟨hle, hall⟩, .inr ?_⟩
        rcases hr with hr | hr
        · rw [hr]
        · exact hr
      · obtain ⟨hle, hall, hr⟩ := ih best
        exact ⟨hle, List.forall_mem_cons.2 ⟨(not_lt.1 hlt).trans hle, hall⟩, hr⟩
  obtain ⟨-, hall, hr⟩ := hloop (List.finRange maxValues) (0, 0)
  refine ⟨?_, fun v => hall v (List.mem_finRange v)⟩
  rcases hr with hr | hr
  · have hzero := hall 0 (List.mem_finRange 0)
    rw [maxOccur, hr] at *
    exact (Nat.le_zero.1 hzero).symm
  · exact hr

lemma sumOccur_eq (values : Fin maxValues → MapValue) (v : Fin maxValues) :
    sumOccur values v = ∑ w ∈ Finset.univ.erase v, (values w).valueNum := by
  rw [sumOccur, ← List.sum_toFinset _ ((List.nodup_finRange maxValues).filter _)]
  refine Finset.sum_congr (Finset.ext fun w => ?_) fun _ _ => rfl
  simp

lemma Slots.exists_slot (h : Slots cfg inp grams values)
    (hfits : grams.toFinset.card ≤ maxValues) {g : List Token} (hg : g ∈ grams) :
    ∃ v, (values v).valueIdx ≠ 0 ∧ mgramAt cfg inp (values v).valueIdx = g := by
  rcases h.slot g hg with hslot | hall
  · exact hslot
  have hinj : Function.Injective fun v => mgramAt cfg inp (values v).valueIdx := fun v w heq =>
    h.distinct v w (hall v) (hall w) heq
  have hsubset : (Finset.univ.image fun v => mgramAt cfg inp (values v).valueIdx) ⊆
      grams.toFinset := by
    intro g' hg'
    obtain ⟨v, -, rfl⟩ := Finset.mem_image.1 hg'
    exact List.mem_toFinset.2 (h.mem v (hall v))
  have heq := Finset.eq_of_subset_of_card_le hsubset (by
    rwa [Finset.card_image_of_injective _ hinj, Finset.card_univ, Fintype.card_fin])
  obtain ⟨v, -, hv⟩ := Finset.mem_image.1 (heq ▸ List.mem_toFinset.2 hg)
  exact ⟨v, hall v, hv⟩

lemma Slots.sumOccur_eq (h : Slots cfg inp grams values) (hfits : grams.toFinset.card ≤ maxValues)
    {v : Fin maxValues} (hv : (values v).valueIdx ≠ 0) :
    sumOccur values v = ∑ g ∈ grams.toFinset.erase (mgramAt cfg inp (values v).valueIdx),
      min (grams.count g) maxValueCount := by
  rw [NgramMap.sumOccur_eq, ← Finset.sum_filter_of_ne
    fun w _ hw (hzero : (values w).valueIdx = 0) => hw (h.unused w hzero)]
  refine Finset.sum_nbij (fun w => mgramAt cfg inp (values w).valueIdx) (fun w hw => ?_)
    (fun w hw w' hw' heq => ?_) (fun g hg => ?_) fun w hw => ?_
  · obtain ⟨hne, hused⟩ := Finset.mem_filter.1 hw
    refine Finset.mem_erase.2 ⟨fun heq => ?_, List.mem_toFinset.2 (h.mem w hused)⟩
    exact (Finset.mem_erase.1 hne).1 (h.distinct w v hused hv heq)
  · exact h.distinct w w' (Finset.mem_filter.1 hw).2 (Finset.mem_filter.1 hw').2 heq
  · obtain ⟨hne, hmem⟩ := Finset.mem_erase.1 hg
    obtain ⟨w, hw, rfl⟩ := h.exists_slot hfits (List.mem_toFinset.1 hmem)
    refine ⟨w, Finset.mem_coe.2 (Finset.mem_filter.2 ⟨Finset.mem_erase.2 ⟨fun heq => ?_,
      Finset.mem_univ w⟩, hw⟩), rfl⟩
    exact hne (by rw [heq])
  · exact h.num w (Finset.mem_filter.1 hw).2

lemma Slots.dominates_iff (h : Slots cfg inp grams values)
    (hfits : grams.toFinset.card ≤ maxValues) (hne : grams ≠ []) :
    (values (maxOccur values).2).valueIdx ≠ 0 ∧ ∀ g, Dominates grams g ↔
      g = mgramAt cfg inp (values (maxOccur values).2).valueIdx ∧
        2 * sumOccur values (maxOccur values).2 ≤ (maxOccur values).1 := by
  obtain ⟨hmax, hle⟩ := maxOccur_spec values
  have hslot (v : Fin maxValues) (hv : (values v).valueIdx ≠ 0) : 0 < (values v).valueNum := by
    rw [h.num v hv]
    exact lt_min (List.count_pos_iff.2 (h.mem v hv)) (Nat.succ_pos _)
  have hused : (values (maxOccur values).2).valueIdx ≠ 0 := fun hzero => by
    obtain ⟨g, hg⟩ := List.exists_mem_of_ne_nil grams hne
    obtain ⟨v, hv, -⟩ := h.exists_slot hfits hg
    have hpos := (hslot v hv).trans_le (hle v)
    rw [hmax, h.unused _ hzero] at hpos
    exact hpos.ne rfl
  refine ⟨hused, fun g => ⟨fun hg => ?_, ?_⟩⟩
  · obtain ⟨v, hv, rfl⟩ := h.exists_slot hfits hg.1
    have hsum := hg.2
    rw [← h.sumOccur_eq hfits hv, ← h.num v hv] at hsum
    have heq : v = (maxOccur values).2 := by
      by_contra hne
      have hother : (values (maxOccur values).2).valueNum ≤ sumOccur values v := by
        rw [NgramMap.sumOccur_eq]
        exact Finset.single_le_sum (f := fun w => (values w).valueNum) (fun _ _ => Nat.zero_le _)
          (Finset.mem_erase.2 ⟨Ne.symm hne, Finset.mem_univ _⟩)
      have hpos := hslot v hv
      have := hle v
      omega
    rw [heq] at hsum
    exact ⟨by rw [heq], by rwa [hmax, ← heq, heq]⟩
  · rintro ⟨rfl, hsum⟩
    refine ⟨h.mem _ hused, ?_⟩
    rwa [← h.sumOccur_eq hfits hused, ← h.num _ hused, ← hmax]

lemma count_le_of_dominates {g : List Token} (h : Dominates grams g) :
    (∀ g', grams.count g' ≤ grams.count g) ∧ 2 * (grams.length - grams.count g) ≤ grams.count g := by
  obtain ⟨hmem, hsum⟩ := h
  have hcap : min (grams.count g) maxValueCount ≤ maxValueCount := min_le_right _ _
  have hpos : 0 < maxValueCount := Nat.succ_pos _
  have hterm (g' : List Token) (hg' : g' ∈ grams.toFinset.erase g) :
      min (grams.count g') maxValueCount = grams.count g' := by
    have hle := Finset.single_le_sum (f := fun g' => min (grams.count g') maxValueCount)
      (fun _ _ => Nat.zero_le _) hg'
    omega
  have hothers : 2 * ∑ g' ∈ grams.toFinset.erase g, grams.count g' ≤ grams.count g := by
    rw [← Finset.sum_congr rfl hterm]
    exact hsum.trans (min_le_left _ _)
  have htotal : grams.count g + ∑ g' ∈ grams.toFinset.erase g, grams.count g' = grams.length := by
    rw [Finset.add_sum_erase _ (fun g' => grams.count g') (List.mem_toFinset.2 hmem)]
    convert List.sum_toFinset_count_eq_length grams
  refine ⟨fun g' => ?_, by omega⟩
  by_cases heq : g' = g
  · rw [heq]
  by_cases hg' : g' ∈ grams
  · have hle := Finset.single_le_sum (f := fun g' => grams.count g') (fun _ _ => Nat.zero_le _)
      (Finset.mem_erase.2 ⟨heq, List.mem_toFinset.2 hg'⟩)
    omega
  · rw [List.count_eq_zero_of_not_mem hg']
    exact Nat.zero_le _

lemma isPrefix_of_draftRight {draft g : List Token} (h : DraftRight grams draft)
    (hg : Dominates grams g) : draft <+: g := by
  obtain ⟨g', hmem, hdraft, -, hdouble⟩ := h
  by_cases heq : g' = g
  · rwa [← heq]
  have hother : grams.count g ≤ grams.length - grams.count g' := by
    have hsum := List.length_eq_countP_add_countP (· == g') (l := grams)
    have hle : grams.count g ≤ grams.countP fun a => ¬ (a == g') = true :=
      List.countP_mono_left fun a _ ha => by
        rw [beq_iff_eq] at ha
        rw [ha, decide_eq_true_iff, beq_iff_eq]
        exact Ne.symm heq
    have heq' : grams.countP (· == g') = grams.count g' := rfl
    omega
  have hle := (count_le_of_dominates hg).1 g'
  have hpos := List.count_pos_iff.2 hg.1
  omega

/-! ## Searching -/

lemma searchDown_eq_ok (hkey : keyTokens.length = cfg.sizeKey) {lo hi j : ℕ}
    (h : searchDown cfg inp keyTokens lo hi = .ok j) (hj : j ≠ 0) :
    (inp.drop j).take cfg.sizeKey = keyTokens := by
  induction hi with
  | zero => exact absurd (Except.ok.inj h).symm hj
  | succ hi ih =>
    rw [searchDown] at h
    split_ifs at h with hlt
    · obtain ⟨found, hfound, h⟩ := bind_eq_ok.1 h
      split_ifs at h with hf
      · obtain rfl := Except.ok.inj h
        have hsame := (sameTokens_eq_ok hfound).1 hf
        rwa [List.drop_zero, ← hkey, List.take_length, hkey] at hsame
      · exact ih h
    · exact absurd (Except.ok.inj h).symm hj

lemma findMatch_eq_ok (hkey : keyTokens.length = cfg.sizeKey) {j : ℕ}
    (h : map.findMatch cfg inp keyTokens = .ok j) (hj : j ≠ 0) :
    (inp.drop j).take cfg.sizeKey = keyTokens := by
  obtain ⟨j₁, h₁, h⟩ := bind_eq_ok.1 h
  obtain ⟨j₂, h₂, h₃⟩ := bind_eq_ok.1 h
  have hlookUp : j₁ ≠ 0 → (inp.drop j₁).take cfg.sizeKey = keyTokens := by
    intro hj₁
    rw [lookUp] at h₁
    split_ifs at h₁ with hsize
    · exact absurd (Except.ok.inj h₁).symm hj₁
    obtain ⟨hash, -, h₁⟩ := bind_eq_ok.1 h₁
    obtain ⟨last, -, h₁⟩ := bind_eq_ok.1 h₁
    split_ifs at h₁ with hin
    · obtain ⟨found, hfound, h₁⟩ := bind_eq_ok.1 h₁
      obtain rfl := Except.ok.inj h₁
      split_ifs at hj₁ ⊢ with hf
      · have hsame := (sameTokens_eq_ok hfound).1 hf
        rwa [List.drop_zero, ← hkey, List.take_length, hkey] at hsame
      · exact absurd rfl hj₁
    · exact absurd (Except.ok.inj h₁).symm hj₁
  have hbefore : j₂ ≠ 0 → (inp.drop j₂).take cfg.sizeKey = keyTokens := by
    intro hj₂
    rw [searchBefore] at h₂
    split_ifs at h₂ with hsize
    · obtain ⟨last, -, h₂⟩ := bind_eq_ok.1 h₂
      exact searchDown_eq_ok hkey h₂ hj₂
    · obtain rfl := Except.ok.inj h₂
      exact hlookUp hj₂
  rw [searchAfter] at h₃
  split_ifs at h₃ with hsize
  · obtain ⟨last, -, h₃⟩ := bind_eq_ok.1 h₃
    exact searchDown_eq_ok hkey h₃ hj
  · obtain rfl := Except.ok.inj h₃
    exact hbefore hj

lemma updateKeyMap_eq_ok (h : map.updateKeyMap cfg inp = .ok map') :
    map'.keys = map.keys ∧ map'.lastDraftCreated = map.lastDraftCreated := by
  rw [updateKeyMap] at h
  split_ifs at h with hsize
  · rw [Except.ok.inj h]
    exact ⟨rfl, rfl⟩
  · obtain ⟨keyMap, -, h⟩ := bind_eq_ok.1 h
    obtain ⟨last, -, h⟩ := bind_eq_ok.1 h
    obtain ⟨keyMap', -, h⟩ := bind_eq_ok.1 h
    rw [← Except.ok.inj h]
    exact ⟨rfl, rfl⟩

/-! ## Drafting -/

lemma draftTokens_eq_ok {matchPos : ℕ} {value : MapValue} {draft : List Token}
    (h : draftTokens cfg inp matchPos value = .ok draft) :
    let drafted := (min (cfg.sizeValue : ℤ) value.nAccepted).toNat
    draft = (mgramAt cfg inp (matchPos + cfg.sizeKey)).take drafted ∧ draft.length = drafted := by
  intro drafted
  have hle : drafted ≤ cfg.sizeValue := Int.toNat_le.2 (min_le_left _ _)
  have hlength : draft.length = drafted := by
    rw [length_of_mapM h, List.length_range]
  have hget (i : ℕ) (hi : i < draft.length) : inp[matchPos + cfg.sizeKey + i]? = some draft[i] := by
    obtain ⟨k, hk, hread⟩ := exists_getElem?_of_mapM h (List.getElem?_eq_getElem hi)
    rw [List.getElem?_range (hi.trans_eq hlength), Option.some_inj] at hk
    rw [← hk, readAt] at hread
    split at hread
    case h_1 a ha =>
      rw [ha, Except.ok.inj hread]
    case h_2 => cases hread
  refine ⟨List.ext_getElem? fun i => ?_, hlength⟩
  rw [mgramAt, List.take_take, min_eq_left hle, List.getElem?_take]
  split_ifs with hi
  · rw [List.getElem?_drop, hget i (hlength ▸ hi), List.getElem?_eq_getElem (hlength ▸ hi)]
  · exact List.getElem?_eq_none (hlength ▸ not_lt.1 hi)

/-- What a draft writes to a key: a hit, and where it comes to the statistics the values and the
matched position. -/
lemma draftFrom_eq_ok {matchPos offset : ℕ} {out : NgramMap × List Token}
    (h : map.draftFrom cfg inp keyTokens matchPos offset = .ok out) :
    ∃ key, readAt map.keys offset = .ok key ∧ ∃ key', out.1.keys = map.keys.set offset key' ∧
      ((cfg.keyOnly = true ∨ min (key.keyNum + 1) maxValueCount < cfg.minHits) ∧
          key'.statIdx = key.statIdx ∧ key'.values = key.values ∨
        cfg.keyOnly = false ∧ key'.statIdx = matchPos ∧
          (List.range' key.statIdx (matchPos + 1 - key.statIdx)).foldlM (countAt cfg inp keyTokens)
            key.values = .ok key'.values ∧
          (out.1.lastDraftCreated = true → ¬ map.lastDraftCreated = true →
            2 * sumOccur key'.values (maxOccur key'.values).2 ≤ (maxOccur key'.values).1 ∧
              draftTokens cfg inp matchPos (key'.values (maxOccur key'.values).2) = .ok out.2) ∧
          (2 * sumOccur key'.values (maxOccur key'.values).2 ≤ (maxOccur key'.values).1 →
            out.1.lastDraftCreated = true)) := by
  obtain ⟨key, hread, h⟩ := bind_eq_ok.1 h
  refine ⟨key, hread, ?_⟩
  dsimp only at h
  split_ifs at h with honly hhits
  · obtain ⟨draft, -, h⟩ := bind_eq_ok.1 h
    obtain rfl := Except.ok.inj h
    exact ⟨_, rfl, .inl ⟨.inl honly, rfl, rfl⟩⟩
  · obtain rfl := Except.ok.inj h
    exact ⟨_, rfl, .inl ⟨.inr hhits, rfl, rfl⟩⟩
  · obtain ⟨values, hloop, h⟩ := bind_eq_ok.1 h
    split_ifs at h with hclose
    · obtain rfl := Except.ok.inj h
      refine ⟨_, rfl, .inr ⟨Bool.eq_false_iff.2 honly, rfl, hloop, fun hcreated hnot =>
        absurd hcreated hnot, fun hle => ?_⟩⟩
      dsimp only at hle
      omega
    · obtain ⟨draft, hdraft, h⟩ := bind_eq_ok.1 h
      obtain rfl := Except.ok.inj h
      refine ⟨_, rfl, .inr ⟨Bool.eq_false_iff.2 honly, rfl, hloop, fun _ _ => ⟨?_, hdraft⟩,
        fun _ => rfl⟩⟩
      dsimp only
      omega

lemma draft_eq_ok {sampled : Token} {out : NgramMap × List Token}
    (h : map.draft cfg inp sampled = .ok out) :
    (out.1.keys = map.keys ∧ (inp.length < 2 * cfg.sizeKey + cfg.sizeValue ∨
        ∃ keyTokens, readKey cfg inp sampled = .ok keyTokens ∧
          map.findMatch cfg inp keyTokens = .ok 0)) ∨
      ∃ keyTokens matchPos offset, ∃ map' : NgramMap, matchPos ≠ 0 ∧
      readKey cfg inp sampled = .ok keyTokens ∧ map.findMatch cfg inp keyTokens = .ok matchPos ∧
      findKey cfg inp keyTokens map.keys = .ok offset ∧ map'.lastDraftCreated = false ∧
      map'.keys = map.keys ++ (if offset = map.keys.length then [newKey cfg matchPos] else []) ∧
      map'.draftFrom cfg inp keyTokens matchPos offset = .ok out := by
  rw [draft] at h
  dsimp only at h
  split_ifs at h with hshort hlong hcheck hbegin
  · obtain rfl := Except.ok.inj h
    exact .inl ⟨rfl, .inl hshort⟩
  obtain ⟨keyTokens, hread, h⟩ := bind_eq_ok.1 h
  obtain ⟨j₁, h₁, h⟩ := bind_eq_ok.1 h
  obtain ⟨j₂, h₂, h⟩ := bind_eq_ok.1 h
  obtain ⟨matchPos, h₃, h⟩ := bind_eq_ok.1 h
  obtain ⟨map₁, hupdate, h⟩ := bind_eq_ok.1 h
  obtain ⟨hkeys, hcreated⟩ := updateKeyMap_eq_ok hupdate
  dsimp only at hkeys hcreated h
  have hmatch : map.findMatch cfg inp keyTokens = .ok matchPos :=
    bind_eq_ok.2 ⟨j₁, h₁, bind_eq_ok.2 ⟨j₂, h₂, h₃⟩⟩
  split_ifs at h with hzero
  · obtain rfl := Except.ok.inj h
    exact .inl ⟨hkeys, .inr ⟨keyTokens, hread, hzero ▸ hmatch⟩⟩
  obtain ⟨offset, hoffset, h⟩ := bind_eq_ok.1 h
  rw [hkeys] at hoffset
  refine .inr ⟨keyTokens, matchPos, offset, _, hzero, hread, hmatch, hoffset, ?_, ?_, h⟩
  · split_ifs <;> exact hcreated
  · rw [hkeys]
    split_ifs
    · rfl
    · exact hkeys.trans (List.append_nil _).symm

/-! ## Before the statistics -/

/-- As long as a key has no statistics, all its slots are empty. -/
def Untouched (key : MapKey) : Prop :=
  key.statIdx = 0 → ∀ v, (key.values v).valueIdx = 0 ∧ (key.values v).valueNum = 0

lemma untouched_newKey {matchPos : ℕ} : Untouched (newKey cfg matchPos) := fun _ _ => ⟨rfl, rfl⟩

lemma cleanValues_of_untouched {bound : ℕ} (h : ∀ v, (values v).valueIdx = 0) :
    cleanValues bound values = values := by
  have hslot (j : Fin maxValues) : cleanSlot bound values j = values :=
    if_neg fun hremove => hremove.1 (h j)
  have hall (l : List (Fin maxValues)) : l.foldl (cleanSlot bound) values = values := by
    induction l with
    | nil => rfl
    | cons j l ih => rw [List.foldl_cons, hslot, ih]
  exact hall _

lemma untouched_begin {tokens : List Token} (h : ∀ key ∈ map.keys, Untouched key)
    (hbegin : map.begin cfg tokens = .ok map') : ∀ key ∈ map'.keys, Untouched key := by
  obtain ⟨bound, -, hbegin⟩ := bind_eq_ok.1 hbegin
  obtain rfl := Except.ok.inj hbegin
  have hclean : ∀ key ∈ map.keys.filterMap (cleanKey cfg bound), Untouched key := by
    intro key' hkey' hstat
    obtain ⟨key, hkey, hclean⟩ := List.mem_filterMap.1 hkey'
    rw [cleanKey] at hclean
    split_ifs at hclean with hbound honly
    · obtain rfl := Option.some.inj hclean
      exact h key hkey hstat
    · dsimp only at hclean
      split_ifs at hclean with hzero
      obtain rfl := Option.some.inj hclean
      have hempty := h key hkey hstat
      dsimp only
      rw [cleanValues_of_untouched fun v => (hempty v).1]
      exact hempty
  intro key hkey
  dsimp only at hkey
  split_ifs at hkey <;> first | exact hclean key hkey | exact h key hkey

lemma untouched_draft {sampled : Token} {out : NgramMap × List Token}
    (h : ∀ key ∈ map.keys, Untouched key) (hdraft : map.draft cfg inp sampled = .ok out) :
    ∀ key ∈ out.1.keys, Untouched key := by
  rcases draft_eq_ok hdraft with ⟨hkeys, -⟩ | ⟨keyTokens, matchPos, offset, map', hpos, -, -, -, -,
    hkeys, hfrom⟩
  · rwa [hkeys]
  have hall : ∀ key ∈ map'.keys, Untouched key := by
    intro key hkey
    rw [hkeys] at hkey
    rcases List.mem_append.1 hkey with hold | hnew
    · exact h key hold
    · split_ifs at hnew
      · rw [List.mem_singleton.1 hnew]
        exact untouched_newKey
      · cases hnew
  obtain ⟨key, hread, key', hset, hcases⟩ := draftFrom_eq_ok hfrom
  have huntouched := hall key (readAt_mem hread).1
  intro k hk
  rw [hset] at hk
  rcases List.mem_or_eq_of_mem_set hk with hk | rfl
  · exact hall k hk
  · rcases hcases with ⟨-, hstat, hvalues⟩ | ⟨-, hstat, -⟩
    · intro hzero
      rw [hvalues]
      exact huntouched (hstat.symm.trans hzero)
    · exact fun hzero => absurd (hstat.symm.trans hzero) hpos

lemma untouched_accept {nAccepted : ℕ} (h : ∀ key ∈ map.keys, Untouched key)
    (haccept : map.accept nAccepted = .ok map') : ∀ key ∈ map'.keys, Untouched key := by
  rw [accept] at haccept
  by_cases hcreated : map.lastDraftCreated = true
  · rw [if_pos hcreated] at haccept
    obtain ⟨key, hread, haccept⟩ := bind_eq_ok.1 haccept
    split_ifs at haccept with hslot
    obtain rfl := Except.ok.inj haccept
    intro k hk
    rcases List.mem_or_eq_of_mem_set hk with hk | rfl
    · exact h k hk
    · intro hzero v
      have hempty := h key (readAt_mem hread).1 hzero
      dsimp only
      by_cases hv : v = ⟨map.lastDraftValueIdx, hslot⟩
      · rw [hv, Function.update_self]
        exact hempty ⟨map.lastDraftValueIdx, hslot⟩
      · rw [Function.update_of_ne hv]
        exact hempty v
  · rw [if_neg hcreated] at haccept
    obtain rfl := Except.ok.inj haccept
    exact h

/-! ## The first statistics -/

lemma ComesToStatistics.length_key {sampled : Token} {matchPos offset : ℕ} {key : MapKey}
    (h : map.ComesToStatistics cfg inp sampled keyTokens matchPos offset key)
    (hpos : 0 < cfg.sizeKey) : keyTokens.length = cfg.sizeKey := by
  have hlong := h.long
  obtain ⟨tokens, htokens, hlength⟩ :=
    exists_readKey hpos (show cfg.sizeKey ≤ inp.length by omega) sampled
  rw [h.readKey] at htokens
  rw [Except.ok.inj htokens, hlength]

lemma ComesToStatistics.exists_draftFrom {sampled : Token} {matchPos offset : ℕ} {key : MapKey}
    {out : NgramMap × List Token}
    (h : map.ComesToStatistics cfg inp sampled keyTokens matchPos offset key)
    (hdraft : map.draft cfg inp sampled = .ok out) :
    ∃ map' : NgramMap, map'.lastDraftCreated = false ∧ readAt map'.keys offset = .ok key ∧
      map'.draftFrom cfg inp keyTokens matchPos offset = .ok out := by
  rcases draft_eq_ok hdraft with ⟨-, hnone⟩ | ⟨keyTokens', matchPos', offset', map', -, hread,
    hmatch, hoffset, hcreated, hkeys, hfrom⟩
  · rcases hnone with hshort | ⟨keyTokens', hread, hmatch⟩
    · exact absurd h.long (not_le.2 hshort)
    · obtain rfl := Except.ok.inj (h.readKey.symm.trans hread)
      exact absurd (Except.ok.inj (h.findMatch.symm.trans hmatch)) h.found
  obtain rfl := Except.ok.inj (h.readKey.symm.trans hread)
  obtain rfl := Except.ok.inj (h.findMatch.symm.trans hmatch)
  obtain rfl := Except.ok.inj (h.findKey.symm.trans hoffset)
  refine ⟨map', hcreated, ?_, hfrom⟩
  obtain ⟨key₀, hread₀, -⟩ := draftFrom_eq_ok hfrom
  rw [hread₀, h.key_eq]
  rw [hkeys] at hread₀
  split_ifs at hread₀ with hnew
  · rw [hnew, readAt_eq_ok (by simp)] at hread₀
    rw [← Except.ok.inj hread₀, hnew, List.getElem_concat_length rfl,
      List.getD_eq_getElem?_getD, List.getElem?_eq_none le_rfl, Option.getD_none]
  · rw [List.append_nil] at hread₀
    have hlt := (readAt_mem hread₀).2
    rw [readAt_eq_ok hlt] at hread₀
    rw [← Except.ok.inj hread₀, List.getD_eq_getElem?_getD, List.getElem?_eq_getElem hlt,
      Option.getD_some]

lemma ComesToStatistics.untouched {sampled : Token} {matchPos offset : ℕ} {key : MapKey}
    (h : map.ComesToStatistics cfg inp sampled keyTokens matchPos offset key)
    (hall : ∀ key ∈ map.keys, Untouched key) : Untouched key := by
  rw [h.key_eq, List.getD_eq_getElem?_getD]
  cases hoffset : map.keys[offset]? with
  | none => exact untouched_newKey
  | some key₀ => exact hall key₀ (List.mem_of_getElem? hoffset)

/-- The first draft that comes to the statistics of a key fills its slots, and drafts when one of
them outweighs the others. -/
lemma ComesToStatistics.exists_slots {sampled : Token} {matchPos offset : ℕ} {key : MapKey}
    {out : NgramMap × List Token} (hpos : 0 < cfg.sizeKey) (hmode : cfg.keyOnly = false)
    (h : map.ComesToStatistics cfg inp sampled keyTokens matchPos offset key)
    (hdraft : map.draft cfg inp sampled = .ok out) (hfirst : key.statIdx = 0)
    (hempty : ∀ v, (key.values v).valueIdx = 0 ∧ (key.values v).valueNum = 0) :
    ∃ key', out.1.keys[offset]? = some key' ∧
      Slots cfg inp (following cfg inp keyTokens matchPos) key'.values ∧
      (out.1.lastDraftCreated = true ↔
        2 * sumOccur key'.values (maxOccur key'.values).2 ≤ (maxOccur key'.values).1) ∧
      (out.1.lastDraftCreated = true →
        draftTokens cfg inp matchPos (key'.values (maxOccur key'.values).2) = .ok out.2) := by
  obtain ⟨map', hcreated, hread, hfrom⟩ := h.exists_draftFrom hdraft
  obtain ⟨key₀, hread₀, key', hkeys, hcases⟩ := draftFrom_eq_ok hfrom
  obtain rfl := Except.ok.inj (hread.symm.trans hread₀)
  rcases hcases with ⟨hnone, -⟩ | ⟨-, -, hloop, hwins, hcreates⟩
  · rcases hnone with honly | hfew
    · rw [hmode] at honly
      cases honly
    · exact absurd h.hits (not_le.2 hfew)
  have hnot : ¬ map'.lastDraftCreated = true := by rw [hcreated]; exact Bool.false_ne_true
  rw [hfirst, Nat.sub_zero, ← List.range_eq_range'] at hloop
  refine ⟨key', ?_, slots_of_loop hpos (h.length_key hpos) hempty hloop,
    ⟨fun hc => (hwins hc hnot).1, hcreates⟩, fun hc => (hwins hc hnot).2⟩
  rw [hkeys, List.getElem?_set_self (readAt_mem hread).2]

end NgramMap

/-! ## Runs -/

namespace MapRun

variable {cfg : MapConfig} {s : MapRun} {inp keyTokens : List Token} {sampled : Token}
  {matchPos offset : ℕ} {key : MapKey} {out : NgramMap × List Token}

/-- No key has values without statistics. -/
def Untouched (s : MapRun) : Prop := ∀ key ∈ s.map.keys, NgramMap.Untouched key

lemma untouched_start : start.Untouched := fun _ hkey => absurd hkey List.not_mem_nil

lemma untouched_of_reaches (hs : Reaches (step cfg) (fun _ _ => True) start s) : s.Untouched := by
  refine hs.invariant untouched_start fun s a s' h _ hstep => ?_
  have hcall := step_eq_some.1 hstep
  cases a with
  | begin tokens =>
    obtain ⟨map', hbegin, hcall⟩ := bind_eq_ok.1 hcall
    obtain rfl := Except.ok.inj hcall
    exact NgramMap.untouched_begin h hbegin
  | draft inp sampled =>
    obtain ⟨out, hdraft, hcall⟩ := bind_eq_ok.1 hcall
    obtain rfl := Except.ok.inj hcall
    exact NgramMap.untouched_draft h hdraft
  | accept nAccepted =>
    obtain ⟨map', haccept, hcall⟩ := bind_eq_ok.1 hcall
    obtain rfl := Except.ok.inj hcall
    exact NgramMap.untouched_accept h haccept

/-- In every run, a draft that is the first to come to the statistics of its key counts right, and
where the m-grams fit the slots, it drafts right exactly if the m-gram at the matched position is
the one that dominates. -/
theorem statistics_right (hpos : 0 < cfg.sizeKey) (hmode : cfg.keyOnly = false)
    (hs : Reaches (step cfg) (fun _ _ => True) start s)
    (hstat : s.map.ComesToStatistics cfg inp sampled keyTokens matchPos offset key)
    (hdraft : s.map.draft cfg inp sampled = .ok out) (hfirst : key.statIdx = 0) :
    ∃ key', out.1.keys[offset]? = some key' ∧
      CountsRight cfg inp (following cfg inp keyTokens matchPos) key'.values ∧
      ((following cfg inp keyTokens matchPos).toFinset.card ≤ maxValues →
        ((out.1.lastDraftCreated = true →
            DraftRight (following cfg inp keyTokens matchPos) out.2) ↔
          Agrees cfg inp matchPos (following cfg inp keyTokens matchPos))) := by
  obtain ⟨key', hkey', hslots, hcreated, htokens⟩ := hstat.exists_slots hpos hmode hdraft hfirst
    (hstat.untouched (untouched_of_reaches hs) hfirst)
  refine ⟨key', hkey', ⟨fun v hv hcap => ?_, hslots.unused⟩, fun hfits => ?_⟩
  · have hnum := hslots.num v hv
    omega
  have hne : following cfg inp keyTokens matchPos ≠ [] := by
    have hmatch := NgramMap.findMatch_eq_ok (hstat.length_key hpos) hstat.findMatch hstat.found
    refine List.ne_nil_of_mem (List.mem_map.2 ⟨matchPos, List.mem_filter.2 ⟨?_, ?_⟩, rfl⟩)
    · exact List.mem_range.2 (Nat.lt_succ_self _)
    · exact decide_eq_true hmatch
  obtain ⟨hused, hdominates⟩ := hslots.dominates_iff hfits hne
  have haccepted := hslots.accepted _ hused
  rw [Agrees]
  constructor
  · intro hright g hg
    have hc := hcreated.2 ((hdominates g).1 hg).2
    obtain ⟨hdrafted, hlength⟩ := NgramMap.draftTokens_eq_ok (htokens hc)
    have hprefix := NgramMap.isPrefix_of_draftRight (hright hc) hg
    rw [List.prefix_iff_eq_take, hlength, haccepted] at hprefix
    rw [haccepted] at hdrafted
    exact hdrafted.symm.trans hprefix
  · intro hagrees hc
    have hg := (hdominates _).2 ⟨rfl, hcreated.1 hc⟩
    obtain ⟨hdrafted, -⟩ := NgramMap.draftTokens_eq_ok (htokens hc)
    rw [haccepted, hagrees _ hg] at hdrafted
    obtain ⟨hmost, hdouble⟩ := NgramMap.count_le_of_dominates hg
    exact ⟨_, hg.1, hdrafted ▸ List.take_prefix _ _, hmost, hdouble⟩

/-- One token follows a key of one token. -/
def oneValue : MapConfig := ⟨1, 1, false, 1, hashMapSize⟩

lemma comesToStatistics_oneValue {map : NgramMap} (hlong : 3 ≤ inp.length)
    (hread : NgramMap.readKey oneValue inp sampled = .ok keyTokens)
    (hmatch : map.findMatch oneValue inp keyTokens = .ok matchPos) (hfound : matchPos ≠ 0)
    (hkey : NgramMap.findKey oneValue inp keyTokens map.keys = .ok offset) :
    map.ComesToStatistics oneValue inp sampled keyTokens matchPos offset
      (map.keys.getD offset (NgramMap.newKey oneValue matchPos)) where
  long := hlong
  readKey := hread
  findMatch := hmatch
  found := hfound
  findKey := hkey
  key_eq := rfl
  hits := le_min (Nat.le_add_left _ _) (Nat.succ_pos _)

/-- A key that one token follows. -/
theorem statistics_right_firstDraft : ∃ out key',
    start.map.draft oneValue [1, 7, 8, 1, 1, 1] 7 = .ok out ∧ out.1.keys[0]? = some key' ∧
      CountsRight oneValue [1, 7, 8, 1, 1, 1] (following oneValue [1, 7, 8, 1, 1, 1] [7] 1)
        key'.values ∧
      (out.1.lastDraftCreated = true →
        DraftRight (following oneValue [1, 7, 8, 1, 1, 1] [7] 1) out.2) := by
  have hstat : start.map.ComesToStatistics oneValue [1, 7, 8, 1, 1, 1] 7 [7] 1 0
      (NgramMap.newKey oneValue 1) :=
    comesToStatistics_oneValue (by decide) rfl (by decide +kernel) Nat.one_ne_zero rfl
  obtain ⟨out, hout⟩ : ∃ out, start.map.draft oneValue [1, 7, 8, 1, 1, 1] 7 = .ok out := by
    rcases NgramMap.draft_spec (NgramMap.fits_empty oneValue) Nat.one_pos (Nat.zero_le _) 7 with
      ⟨out, hout, -⟩ | ⟨-, hlong⟩
    · exact ⟨out, hout⟩
    · exact absurd hlong (by decide)
  have hgrams : following oneValue [1, 7, 8, 1, 1, 1] [7] 1 = [[8]] := by decide
  obtain ⟨key', hkey', hcounts, hdraft⟩ := statistics_right Nat.one_pos rfl .start hstat hout rfl
  refine ⟨out, key', hout, hkey', hcounts, (hdraft (by rw [hgrams]; decide)).2 fun g hg => ?_⟩
  have hmem := hg.1
  rw [hgrams, List.mem_singleton] at hmem
  rw [hmem]
  decide

/-! ## A position counted twice -/

/-- A second draft with a key counts the one position again, and a first one drafts what follows
the last position and not the token that follows twice as often. -/
theorem not_statistics_right :
    (∃ s key out key', Reaches (step oneValue) Extends start s ∧
      s.Extends (.draft [1, 7, 8, 1, 1, 1, 7] 7) ∧
      s.map.ComesToStatistics oneValue [1, 7, 8, 1, 1, 1, 7] 7 [7] 1 0 key ∧
      s.map.draft oneValue [1, 7, 8, 1, 1, 1, 7] 7 = .ok out ∧ out.1.keys[0]? = some key' ∧
      ¬ CountsRight oneValue [1, 7, 8, 1, 1, 1, 7]
        (following oneValue [1, 7, 8, 1, 1, 1, 7] [7] 1) key'.values) ∧
    ∃ out key,
      start.map.ComesToStatistics oneValue [1, 7, 8, 7, 8, 7, 9, 1, 1] 7 [7] 5 0 key ∧
      start.map.draft oneValue [1, 7, 8, 7, 8, 7, 9, 1, 1] 7 = .ok out ∧
      out.1.lastDraftCreated = true ∧
      ¬ DraftRight (following oneValue [1, 7, 8, 7, 8, 7, 9, 1, 1] [7] 5) out.2 := by
  constructor
  · obtain ⟨s, hs, hvalue⟩ := exists_reached_of_admitted (step oneValue) Extends start
      [.begin [], .draft [1, 7, 8, 1, 1, 1] 7]
      (fun s => ((s.map.findMatch oneValue [1, 7, 8, 1, 1, 1, 7] [7],
          NgramMap.findKey oneValue [1, 7, 8, 1, 1, 1, 7] [7] s.map.keys),
        decide (s.Extends (.draft [1, 7, 8, 1, 1, 1, 7] 7)),
        (s.map.draft oneValue [1, 7, 8, 1, 1, 1, 7] 7).toOption.map fun out =>
          out.1.keys.map fun key => ((key.values 0).valueIdx, (key.values 0).valueNum)))
      (v := ((.ok 1, .ok 0), true, some [(2, 2)])) (by decide +kernel)
    simp only [Prod.mk.injEq] at hvalue
    obtain ⟨⟨hmatch, hkey⟩, hext, hdraft⟩ := hvalue
    obtain ⟨out, hout, hkeys⟩ := Option.map_eq_some_iff.1 hdraft
    obtain ⟨key', hkey', hslot⟩ := List.map_eq_singleton_iff.1 hkeys
    obtain ⟨hidx, hnum⟩ := Prod.mk.inj hslot
    refine ⟨s, _, out, key', hs, of_decide_eq_true hext,
      comesToStatistics_oneValue (by decide) rfl hmatch Nat.one_ne_zero hkey, ?_, ?_, fun h => ?_⟩
    · cases hresult : s.map.draft oneValue [1, 7, 8, 1, 1, 1, 7] 7 with
      | error e => rw [hresult] at hout; cases hout
      | ok out' => rw [hresult] at hout; exact congrArg _ (Option.some.inj hout)
    · rw [hkey']
      rfl
    · have hcount := h.used 0 (by rw [hidx]; exact Nat.succ_ne_zero 1) (by rw [hnum]; decide)
      rw [hidx, hnum] at hcount
      revert hcount
      decide
  · refine ⟨_, _, comesToStatistics_oneValue (by decide) rfl (by decide +kernel)
      (Nat.succ_ne_zero 4) rfl, rfl, rfl, ?_⟩
    rintro ⟨g, hg, hprefix, hmost, -⟩
    have hgrams : following oneValue [1, 7, 8, 7, 8, 7, 9, 1, 1] [7] 5 = [[8], [8], [9]] := by
      decide
    change [9] <+: g at hprefix
    rw [hgrams] at hg hmost
    have hnine : g = [9] := by
      rcases List.mem_cons.1 hg with rfl | hg
      · exact absurd hprefix (by decide)
      · rcases List.mem_cons.1 hg with rfl | hg
        · exact absurd hprefix (by decide)
        · exact List.mem_singleton.1 hg
    rw [hnine] at hmost
    exact absurd (hmost [8]) (by decide)

end MapRun

end IFairy.Speculative
