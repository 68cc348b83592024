import IFairy.Speculative.Drafting
import IFairy.Speculative.NgramMapSafe

/-!
# Where an acceptance goes

`common_speculative_accept` tells every implementation how many tokens of a draft were accepted.
An implementation that was not asked in this round, because another one had a result before it,
still holds the record of an earlier round and applies the number to that.  Where no implementation
but the one that has produced the draft holds a record (`NoOtherRecord`), the acceptance goes to
the draft that it is about and changes nothing else (`accept_applies`).

The run carries, beside the state of the source, what the last draft of each sequence was
(`Round`).  It is not read by any call.
-/

namespace IFairy.Speculative

/-- The last draft of a sequence: which implementation has produced it, the key and the value of an
n-gram map that it was taken from, its tokens, and whether the sequence began anew since. -/
structure Round where
  producer : Option ℕ
  source : ℕ × ℕ
  drafted : List Token
  begun : Bool
  deriving DecidableEq

/-- A speculative object, the draft model, and the last draft of each sequence. -/
structure SpecRun (nSeq : ℕ) (D : Type) where
  impls : List (Impl nSeq)
  draftModel : D
  rounds : Fin nSeq → Option Round

/-- A call; a draft sets the parameters of every sequence. -/
inductive SpecCall (nSeq : ℕ)
  | begin (seq : Fin nSeq) (prompt : List Token)
  | draft (dps : Fin nSeq → DraftParams)
  | accept (seq : Fin nSeq) (nAccepted : ℕ)

namespace Impl

variable {nSeq : ℕ}

/-- The record of the last draft: the key and the value of an n-gram map. -/
def source (seq : Fin nSeq) : Impl nSeq → ℕ × ℕ
  | ngramMap _ maps => ((maps seq).lastDraftKeyIdx, (maps seq).lastDraftValueIdx)
  | _ => (0, 0)

/-- The implementation holds a record of a draft for the sequence. -/
def HasRecord (seq : Fin nSeq) : Impl nSeq → Prop
  | ngramMap _ maps => (maps seq).lastDraftCreated = true
  | ngramMod _ _ sinfos => 0 < (sinfos seq).nDraftLast
  | _ => False

end Impl

namespace SpecRun

variable {nSeq : ℕ} {D : Type}

/-- One round of the loop of `common_speculative_draft` over the sequences. -/
def draftSeq (model : DraftModel D) (dps : Fin nSeq → DraftParams) (s : SpecRun nSeq D)
    (seq : Fin nSeq) : Except MapError (SpecRun nSeq D) :=
  if (dps seq).drafting = false then .ok s
  else do
    let (impls, d, result, producer) ← draftLoop model seq (dps seq) s.impls s.draftModel
    let source := (producer.bind fun i => impls[i]?.map (Impl.source seq)).getD (0, 0)
    .ok ⟨impls, d, Function.update s.rounds seq (some ⟨producer, source, result, false⟩)⟩

/-- What a call does: `common_speculative_begin`, `common_speculative_draft` and
`common_speculative_accept`. -/
def call (model : DraftModel D) (s : SpecRun nSeq D) :
    SpecCall nSeq → Except MapError (SpecRun nSeq D)
  | .begin seq prompt => do
    let impls ← s.impls.mapM fun impl => impl.begin seq prompt
    let round := (s.rounds seq).map fun round => { round with begun := true }
    .ok { s with impls, rounds := Function.update s.rounds seq round }
  | .draft dps => (List.finRange nSeq).foldlM (draftSeq model dps) s
  | .accept seq nAccepted => do
    let impls ← s.impls.mapM fun impl => impl.accept seq nAccepted
    .ok { s with impls }

/-- A step of a run is a call that returns. -/
def step (model : DraftModel D) (s : SpecRun nSeq D) (a : SpecCall nSeq) :
    Option (SpecRun nSeq D) := (s.call model a).toOption

def start (impls : List (Impl nSeq)) (d : D) : SpecRun nSeq D := ⟨impls, d, fun _ => none⟩

/-- An accept follows a draft for the sequence and reports how many of its tokens were accepted. -/
def Admits (s : SpecRun nSeq D) : SpecCall nSeq → Prop
  | .accept seq nAccepted => ∃ round, s.rounds seq = some round ∧ nAccepted ≤ round.drafted.length
  | _ => True

/-- At an accept, the sequence has not begun anew since its draft, and no implementation but the
one that has produced the draft holds a record of an earlier one. -/
def NoOtherRecord (s : SpecRun nSeq D) : SpecCall nSeq → Prop
  | .accept seq _ => ∀ round, s.rounds seq = some round → round.begun = false ∧
      ∀ i impl, s.impls[i]? = some impl → round.producer ≠ some i → ¬ impl.HasRecord seq
  | _ => True

/-- The number accepted is the one of this key and this value, and nothing else has changed. -/
def AppliedAt (map map' : NgramMap) (source : ℕ × ℕ) (nAccepted : ℕ) : Prop :=
  ∃ key v, map.keys[source.1]? = some key ∧ source.2 = v.val ∧
    map' = { map with keys := map.keys.set source.1 { key with
      values := Function.update key.values v
        { key.values v with nAccepted := toInt16 nAccepted } } }

/-- What an acceptance may change of the implementation that has produced the draft: in an n-gram
map, the value of the key that the draft was taken from; in an n-gram hasher, the record of the
sequence, and the table that all sequences share. -/
def Applies (seq : Fin nSeq) (source : ℕ × ℕ) (nAccepted : ℕ) (impl impl' : Impl nSeq) : Prop :=
  match impl with
  | .ngramMap cfg maps => ∃ map', AppliedAt (maps seq) map' source nAccepted ∧
      impl' = .ngramMap cfg (Function.update maps seq map')
  | .ngramMod params _ sinfos => ∃ mod' sinfo',
      impl' = .ngramMod params mod' (Function.update sinfos seq sinfo')
  | impl => impl' = impl

/-- An accept changes only the implementation that has produced the draft, and there only what the
draft was taken from. -/
structure AppliesOnly (s s' : SpecRun nSeq D) (seq : Fin nSeq) (nAccepted : ℕ) (round : Round) :
    Prop where
  length_eq : s'.impls.length = s.impls.length
  others : ∀ i, round.producer ≠ some i → s'.impls[i]? = s.impls[i]?
  producer : ∀ i impl impl', round.producer = some i → s.impls[i]? = some impl →
    s'.impls[i]? = some impl' → Applies seq round.source nAccepted impl impl'
  draftModel : s'.draftModel = s.draftModel

end SpecRun

/-! ## Records of an n-gram map -/

namespace NgramMap

/-- The record of the last draft names a key and a value that the map has. -/
structure Recorded (map : NgramMap) (source : ℕ × ℕ) : Prop where
  created : map.lastDraftCreated = true
  source_eq : (map.lastDraftKeyIdx, map.lastDraftValueIdx) = source
  key_lt : source.1 < map.keys.length
  value_lt : source.2 < maxValues

variable {cfg : MapConfig} {map map' : NgramMap} {inp keyTokens tokens : List Token}

lemma draftFrom_recorded {matchPos offset : ℕ}
    (h : map.draftFrom cfg inp keyTokens matchPos offset = .ok (map', tokens))
    (hne : tokens ≠ []) : map'.Recorded (map'.lastDraftKeyIdx, map'.lastDraftValueIdx) := by
  rw [draftFrom, bind_eq_ok] at h
  obtain ⟨key, hkey, h⟩ := h
  have hoffset := (readAt_mem hkey).2
  dsimp only at h
  split_ifs at h
  · obtain ⟨draft, -, h⟩ := bind_eq_ok.1 h
    obtain ⟨rfl, -⟩ := Prod.ext_iff.1 (Except.ok.inj h)
    exact ⟨rfl, rfl, by simpa using hoffset, Nat.succ_pos 3⟩
  · exact absurd (Prod.ext_iff.1 (Except.ok.inj h)).2.symm hne
  · obtain ⟨values, -, h⟩ := bind_eq_ok.1 h
    split_ifs at h
    · exact absurd (Prod.ext_iff.1 (Except.ok.inj h)).2.symm hne
    · obtain ⟨draft, -, h⟩ := bind_eq_ok.1 h
      obtain ⟨rfl, -⟩ := Prod.ext_iff.1 (Except.ok.inj h)
      exact ⟨rfl, rfl, by simpa using hoffset, (maxOccur values).2.isLt⟩

lemma draft_recorded {sampled : Token} (h : map.draft cfg inp sampled = .ok (map', tokens))
    (hne : tokens ≠ []) : map'.Recorded (map'.lastDraftKeyIdx, map'.lastDraftValueIdx) := by
  rw [draft] at h
  dsimp only at h
  split_ifs at h
  · exact absurd (Prod.ext_iff.1 (Except.ok.inj h)).2.symm hne
  · simp only [bind_eq_ok] at h
    obtain ⟨_, -, _, -, _, -, _, -, _, -, h⟩ := h
    split_ifs at h
    · exact absurd (Prod.ext_iff.1 (Except.ok.inj h)).2.symm hne
    all_goals
      obtain ⟨_, -, h⟩ := bind_eq_ok.1 h
      exact draftFrom_recorded h hne

lemma Recorded.accept {source : ℕ × ℕ} (h : map.Recorded source) (nAccepted : ℕ) :
    ∃ map', map.accept nAccepted = .ok map' ∧ SpecRun.AppliedAt map map' source nAccepted := by
  obtain ⟨hcreated, rfl, hkey, hvalue⟩ := h
  rw [NgramMap.accept, if_pos hcreated, readAt_eq_ok hkey]
  simp only [bind, Except.bind]
  rw [dif_pos hvalue]
  exact ⟨_, rfl, _, ⟨_, hvalue⟩, List.getElem?_eq_getElem hkey, rfl, rfl⟩

lemma Recorded.of_accept {source : ℕ × ℕ} {nAccepted : ℕ} (h : map.Recorded source)
    (hmap' : map.accept nAccepted = .ok map') : map'.Recorded source := by
  obtain ⟨_, haccept, key, v, -, -, heq⟩ := h.accept nAccepted
  obtain rfl := Except.ok.inj (hmap'.symm.trans haccept)
  rw [heq]
  exact ⟨h.created, h.source_eq, by simpa using h.key_lt, h.value_lt⟩

end NgramMap

/-! ## What the calls of an implementation change -/

namespace Impl

variable {nSeq : ℕ} {D : Type} {model : DraftModel D} {impl impl' : Impl nSeq} {seq t : Fin nSeq}

def mapOf (seq : Fin nSeq) : Impl nSeq → Option NgramMap
  | ngramMap _ maps => some (maps seq)
  | _ => none

lemma source_of_mapOf {map : NgramMap} (h : impl.mapOf seq = some map) :
    impl.source seq = (map.lastDraftKeyIdx, map.lastDraftValueIdx) := by
  cases impl <;> simp_all [mapOf, source]

lemma mapOf_begin {prompt : List Token} (ht : seq ≠ t) (h : impl.begin t prompt = .ok impl') :
    impl'.mapOf seq = impl.mapOf seq := by
  cases impl with
  | draftSimple | ngramSimple => obtain rfl := Except.ok.inj h; rfl
  | ngramMap cfg maps =>
    obtain ⟨map, -, h⟩ := bind_eq_ok.1 h
    obtain rfl := Except.ok.inj h
    simp [mapOf, Function.update_of_ne ht]
  | ngramMod params mod sinfos =>
    obtain ⟨_, -, h⟩ := bind_eq_ok.1 h
    obtain rfl := Except.ok.inj h
    rfl

lemma mapOf_draft {d d' : D} {dp : DraftParams} {result : List Token} (ht : seq ≠ t)
    (h : impl.draft model d t dp = .ok (impl', d', result)) :
    impl'.mapOf seq = impl.mapOf seq := by
  rw [draft] at h
  cases hprompt : dp.prompt with
  | none =>
    simp only [hprompt] at h
    obtain ⟨rfl, -⟩ := Prod.ext_iff.1 (Except.ok.inj h)
    rfl
  | some prompt =>
    simp only [hprompt] at h
    by_cases hhas : dp.hasResult = false
    · rw [if_pos hhas] at h
      obtain ⟨rfl, -⟩ := Prod.ext_iff.1 (Except.ok.inj h)
      rfl
    rw [if_neg hhas] at h
    cases impl with
    | draftSimple =>
      dsimp only at h
      split_ifs at h <;> obtain ⟨rfl, -⟩ := Prod.ext_iff.1 (Except.ok.inj h) <;> rfl
    | ngramSimple =>
      obtain ⟨_, -, h⟩ := bind_eq_ok.1 h
      obtain ⟨rfl, -⟩ := Prod.ext_iff.1 (Except.ok.inj h)
      rfl
    | ngramMap cfg maps =>
      obtain ⟨_, -, h⟩ := bind_eq_ok.1 h
      obtain ⟨rfl, -⟩ := Prod.ext_iff.1 (Except.ok.inj h)
      simp [mapOf, Function.update_of_ne ht]
    | ngramMod params mod sinfos =>
      obtain ⟨_, -, h⟩ := bind_eq_ok.1 h
      obtain ⟨rfl, -⟩ := Prod.ext_iff.1 (Except.ok.inj h)
      rfl

lemma recorded_draft {d d' : D} {dp : DraftParams} {result : List Token}
    (h : impl.draft model d seq dp = .ok (impl', d', result)) (hne : result ≠ [])
    {map' : NgramMap} (hmap' : impl'.mapOf seq = some map') :
    map'.Recorded (impl'.source seq) := by
  rw [draft] at h
  cases hprompt : dp.prompt with
  | none =>
    simp only [hprompt] at h
    exact absurd (Prod.ext_iff.1 (Prod.ext_iff.1 (Except.ok.inj h)).2).2.symm hne
  | some prompt =>
    simp only [hprompt] at h
    by_cases hhas : dp.hasResult = false
    · rw [if_pos hhas] at h
      exact absurd (Prod.ext_iff.1 (Prod.ext_iff.1 (Except.ok.inj h)).2).2.symm hne
    rw [if_neg hhas] at h
    cases impl with
    | draftSimple =>
      dsimp only at h
      split_ifs at h <;> obtain ⟨rfl, -⟩ := Prod.ext_iff.1 (Except.ok.inj h) <;> cases hmap'
    | ngramSimple =>
      obtain ⟨_, -, h⟩ := bind_eq_ok.1 h
      obtain ⟨rfl, -⟩ := Prod.ext_iff.1 (Except.ok.inj h)
      cases hmap'
    | ngramMap cfg maps =>
      obtain ⟨out, hout, h⟩ := bind_eq_ok.1 h
      obtain ⟨rfl, hrest⟩ := Prod.ext_iff.1 (Except.ok.inj h)
      have hresult : dp.limitResult out.2 = result := (Prod.ext_iff.1 hrest).2
      have htokens : out.2 ≠ [] := by
        intro hnil
        rw [hnil, DraftParams.limitResult] at hresult
        exact hne (by rw [← hresult]; split <;> simp)
      obtain rfl : out.1 = map' := by simpa [mapOf] using hmap'
      rw [source_of_mapOf hmap']
      exact NgramMap.draft_recorded hout htokens
    | ngramMod params mod sinfos =>
      obtain ⟨_, -, h⟩ := bind_eq_ok.1 h
      obtain ⟨rfl, -⟩ := Prod.ext_iff.1 (Except.ok.inj h)
      cases hmap'

lemma recorded_accept {nAccepted : ℕ} (h : impl.accept t nAccepted = .ok impl')
    {source : ℕ × ℕ} (hrec : ∀ map, impl.mapOf seq = some map → map.Recorded source)
    {map' : NgramMap} (hmap' : impl'.mapOf seq = some map') : map'.Recorded source := by
  cases impl with
  | draftSimple | ngramSimple => obtain rfl := Except.ok.inj h; cases hmap'
  | ngramMap cfg maps =>
    obtain ⟨map, hmap, h⟩ := bind_eq_ok.1 h
    obtain rfl := Except.ok.inj h
    by_cases ht : seq = t
    · subst ht
      obtain rfl : map = map' := by simpa [mapOf] using hmap'
      exact (hrec _ rfl).of_accept hmap
    · obtain rfl : maps seq = map' := by simpa [mapOf, Function.update_of_ne ht] using hmap'
      exact hrec _ rfl
  | ngramMod params mod sinfos => obtain rfl := Except.ok.inj h; cases hmap'

lemma accept_of_not_hasRecord (h : ¬ impl.HasRecord seq) (nAccepted : ℕ) :
    impl.accept seq nAccepted = .ok impl := by
  cases impl with
  | draftSimple | ngramSimple => rfl
  | ngramMap cfg maps =>
    have hcreated : ¬ (maps seq).lastDraftCreated = true := h
    rw [accept, NgramMap.accept, if_neg hcreated]
    exact congrArg (fun maps => Except.ok (ngramMap cfg maps)) (Function.update_eq_self seq maps)
  | ngramMod params mod sinfos =>
    have hlast : ¬ 0 < (sinfos seq).nDraftLast := h
    simp only [accept, modAccept, if_neg hlast, Function.update_eq_self]

lemma exists_accept {source : ℕ × ℕ}
    (hrec : ∀ map, impl.mapOf seq = some map → map.Recorded source) (nAccepted : ℕ) :
    ∃ impl', impl.accept seq nAccepted = .ok impl' ∧
      SpecRun.Applies seq source nAccepted impl impl' := by
  cases impl with
  | draftSimple | ngramSimple => exact ⟨_, rfl, rfl⟩
  | ngramMap cfg maps =>
    obtain ⟨map', hmap', happlied⟩ := (hrec _ rfl).accept nAccepted
    refine ⟨.ngramMap cfg (Function.update maps seq map'), ?_, map', happlied, rfl⟩
    rw [accept, hmap']
    rfl
  | ngramMod params mod sinfos => exact ⟨_, rfl, _, _, rfl⟩

end Impl

/-! ## Runs -/

section Loop

variable {nSeq : ℕ} {D : Type} {model : DraftModel D} {seq t : Fin nSeq} {dp : DraftParams}

lemma map_mapOf_draftLoop {impls impls' : List (Impl nSeq)} {d d' : D} {result : List Token}
    {producer : Option ℕ} (ht : seq ≠ t)
    (h : draftLoop model t dp impls d = .ok (impls', d', result, producer)) :
    impls'.map (Impl.mapOf seq) = impls.map (Impl.mapOf seq) := by
  induction impls generalizing d impls' d' result producer with
  | nil =>
    obtain ⟨rfl, -⟩ := Prod.ext_iff.1 (Except.ok.inj h)
    rfl
  | cons impl impls ih =>
    obtain ⟨⟨impl₁, d₁, result₁⟩, hdraft, h⟩ := bind_eq_ok.1 h
    dsimp only at h
    split_ifs at h
    · obtain ⟨rfl, -⟩ := Prod.ext_iff.1 (Except.ok.inj h)
      simp [Impl.mapOf_draft ht hdraft]
    · obtain ⟨⟨impls₂, d₂, result₂, producer₂⟩, hrest, h⟩ := bind_eq_ok.1 h
      obtain ⟨rfl, -⟩ := Prod.ext_iff.1 (Except.ok.inj h)
      simp [Impl.mapOf_draft ht hdraft, ih hrest]

lemma recorded_draftLoop {impls impls' : List (Impl nSeq)} {d d' : D} {result : List Token}
    {i : ℕ} (h : draftLoop model seq dp impls d = .ok (impls', d', result, some i)) :
    ∃ impl', impls'[i]? = some impl' ∧
      ∀ map', impl'.mapOf seq = some map' → map'.Recorded (impl'.source seq) := by
  induction impls generalizing d impls' d' result i with
  | nil => cases (Prod.ext_iff.1 (Prod.ext_iff.1 (Prod.ext_iff.1 (Except.ok.inj h)).2).2).2
  | cons impl impls ih =>
    obtain ⟨⟨impl₁, d₁, result₁⟩, hdraft, h⟩ := bind_eq_ok.1 h
    dsimp only at h
    split_ifs at h with hresult
    · obtain ⟨rfl, hrest⟩ := Prod.ext_iff.1 (Except.ok.inj h)
      obtain rfl : 0 = i := Option.some.inj (Prod.ext_iff.1 (Prod.ext_iff.1 hrest).2).2
      exact ⟨impl₁, rfl, fun map' hmap' => Impl.recorded_draft hdraft hresult hmap'⟩
    · obtain ⟨⟨impls₂, d₂, result₂, producer₂⟩, hloop, h⟩ := bind_eq_ok.1 h
      obtain ⟨rfl, hrest⟩ := Prod.ext_iff.1 (Except.ok.inj h)
      have hproducer : producer₂.map (· + 1) = some i :=
        (Prod.ext_iff.1 (Prod.ext_iff.1 hrest).2).2
      obtain ⟨j, rfl, rfl⟩ := Option.map_eq_some_iff.1 hproducer
      obtain ⟨impl', hi, hrec⟩ := ih hloop
      exact ⟨impl', hi, hrec⟩

end Loop

namespace SpecRun

variable {nSeq : ℕ} {D : Type} {model : DraftModel D} {s s' : SpecRun nSeq D} {a : SpecCall nSeq}
  {seq : Fin nSeq}

/-- The n-gram map that has produced the last draft of the sequence has recorded it. -/
def RoundRecorded (s : SpecRun nSeq D) (seq : Fin nSeq) : Prop :=
  ∀ round, s.rounds seq = some round → round.begun = false → ∀ i impl map,
    round.producer = some i → s.impls[i]? = some impl → impl.mapOf seq = some map →
    map.Recorded round.source

lemma getElem?_of_map_mapOf {impls impls' : List (Impl nSeq)}
    (h : impls'.map (Impl.mapOf seq) = impls.map (Impl.mapOf seq)) {i : ℕ} {impl' : Impl nSeq}
    (hi : impls'[i]? = some impl') :
    ∃ impl, impls[i]? = some impl ∧ impl.mapOf seq = impl'.mapOf seq := by
  have hmap := congrArg (·[i]?) h
  simp only [List.getElem?_map, hi, Option.map_some] at hmap
  exact Option.map_eq_some_iff.1 hmap.symm

lemma recorded_draftSeq {dps : Fin nSeq → DraftParams} {t : Fin nSeq}
    (h : ∀ seq, s.RoundRecorded seq) (hs' : s.draftSeq model dps t = .ok s') (seq : Fin nSeq) :
    s'.RoundRecorded seq := by
  rw [draftSeq] at hs'
  split_ifs at hs'
  · obtain rfl := Except.ok.inj hs'
    exact h seq
  obtain ⟨⟨impls', d', result, producer⟩, hloop, hs'⟩ := bind_eq_ok.1 hs'
  obtain rfl := Except.ok.inj hs'
  intro round hround hbegun i impl' map hproducer hi hmap
  dsimp only at hround hi
  by_cases ht : seq = t
  · subst ht
    rw [Function.update_self] at hround
    obtain rfl := Option.some.inj hround
    dsimp only at hproducer ⊢
    subst hproducer
    obtain ⟨impl'', hi'', hrec⟩ := recorded_draftLoop hloop
    obtain rfl := Option.some.inj (hi.symm.trans hi'')
    simp only [Option.bind_some, hi, Option.map_some, Option.getD_some]
    exact hrec map hmap
  · rw [Function.update_of_ne ht] at hround
    obtain ⟨impl, hi', heq⟩ := getElem?_of_map_mapOf (map_mapOf_draftLoop ht hloop) hi
    exact h seq round hround hbegun i impl map hproducer hi' (heq.trans hmap)

lemma recorded_call (h : ∀ seq, s.RoundRecorded seq) (hs' : s.call model a = .ok s')
    (seq : Fin nSeq) : s'.RoundRecorded seq := by
  cases a with
  | begin t prompt =>
    obtain ⟨impls', himpls', hs'⟩ := bind_eq_ok.1 hs'
    obtain rfl := Except.ok.inj hs'
    intro round hround hbegun i impl' map hproducer hi hmap
    dsimp only at hround hi
    by_cases ht : seq = t
    · subst ht
      rw [Function.update_self] at hround
      obtain ⟨_, -, rfl⟩ := Option.map_eq_some_iff.1 hround
      cases hbegun
    · rw [Function.update_of_ne ht] at hround
      obtain ⟨impl, hi', hbegin⟩ := exists_getElem?_of_mapM himpls' hi
      exact h seq round hround hbegun i impl map hproducer hi'
        ((Impl.mapOf_begin ht hbegin).symm.trans hmap)
  | draft dps =>
    exact foldlM_invariant (I := fun s => ∀ seq, RoundRecorded s seq)
      (fun t _ s s' hI hs' => recorded_draftSeq hI hs') h hs' seq
  | accept t nAccepted =>
    obtain ⟨impls', himpls', hs'⟩ := bind_eq_ok.1 hs'
    obtain rfl := Except.ok.inj hs'
    intro round hround hbegun i impl' map hproducer hi hmap
    obtain ⟨impl, hi', haccept⟩ := exists_getElem?_of_mapM himpls' hi
    exact Impl.recorded_accept haccept
      (fun map hmap => h seq round hround hbegun i impl map hproducer hi' hmap) hmap

lemma step_eq_some : s.step model a = some s' ↔ s.call model a = .ok s' := by
  rw [step]
  cases s.call model a <;> simp [Except.toOption]

lemma recorded_of_reaches {impls : List (Impl nSeq)} {d : D}
    {ok : SpecRun nSeq D → SpecCall nSeq → Prop} (hs : Reaches (step model) ok (start impls d) s) :
    ∀ seq, s.RoundRecorded seq :=
  hs.invariant (fun _ round hround => by cases hround)
    fun _ _ _ hI _ hstep => recorded_call hI (step_eq_some.1 hstep)

/-- In every run, an accept without a stale record goes only to the implementation that has produced
the draft, and there only to what the draft was taken from. -/
theorem accept_applies {impls : List (Impl nSeq)} {d : D}
    (hs : Reaches (step model) (fun s a => s.Admits a ∧ s.NoOtherRecord a) (start impls d) s)
    {nAccepted : ℕ} (hadmits : s.Admits (.accept seq nAccepted))
    (hrecord : s.NoOtherRecord (.accept seq nAccepted)) :
    ∃ round s', s.rounds seq = some round ∧ s.call model (.accept seq nAccepted) = .ok s' ∧
      s.AppliesOnly s' seq nAccepted round := by
  obtain ⟨round, hround, -⟩ := hadmits
  obtain ⟨hbegun, hothers⟩ := hrecord round hround
  have hrec := recorded_of_reaches hs seq round hround hbegun
  have hproducer : ∀ i impl, round.producer = some i → s.impls[i]? = some impl →
      ∃ impl', impl.accept seq nAccepted = .ok impl' ∧
        Applies seq round.source nAccepted impl impl' := fun i impl hi himpl =>
    Impl.exists_accept (fun map hmap => hrec i impl map hi himpl hmap) nAccepted
  obtain ⟨impls', himpls'⟩ : ∃ impls', (s.impls.mapM fun impl => impl.accept seq nAccepted) =
      .ok impls' := by
    refine exists_mapM fun impl himpl => ?_
    obtain ⟨i, hi⟩ := List.mem_iff_getElem?.1 himpl
    by_cases hprod : round.producer = some i
    · obtain ⟨impl', haccept, -⟩ := hproducer i impl hprod hi
      exact ⟨impl', haccept⟩
    · exact ⟨impl, Impl.accept_of_not_hasRecord (hothers i impl hi hprod) nAccepted⟩
  refine ⟨round, { s with impls := impls' }, hround, by rw [call, himpls']; rfl,
    ⟨length_of_mapM himpls', fun i hi => ?_, fun i impl impl' hprod hi hi' => ?_, rfl⟩⟩
  · cases himpl' : impls'[i]? with
    | none =>
      rw [List.getElem?_eq_none_iff, length_of_mapM himpls'] at himpl'
      exact (List.getElem?_eq_none_iff.2 himpl').symm
    | some impl' =>
      obtain ⟨impl, himpl, haccept⟩ := exists_getElem?_of_mapM himpls' himpl'
      rw [Impl.accept_of_not_hasRecord (hothers i impl himpl hi) nAccepted] at haccept
      rw [himpl, Except.ok.inj haccept]
  · obtain ⟨impl₁, himpl₁, haccept⟩ := exists_getElem?_of_mapM himpls' hi'
    obtain rfl := Option.some.inj (hi.symm.trans himpl₁)
    obtain ⟨impl₂, haccept₂, happlies⟩ := hproducer i impl hprod hi
    obtain rfl := Except.ok.inj (haccept.symm.trans haccept₂)
    exact happlies

/-! ## A stale record -/

instance (seq : Fin nSeq) (impl : Impl nSeq) : Decidable (impl.HasRecord seq) :=
  match impl with
  | .draftSimple | .ngramSimple _ => inferInstanceAs (Decidable False)
  | .ngramMap _ _ => inferInstanceAs (Decidable (_ = true))
  | .ngramMod _ _ _ => inferInstanceAs (Decidable (0 < _))

instance (s : SpecRun nSeq D) (a : SpecCall nSeq) : Decidable (s.Admits a) :=
  match a with
  | .begin _ _ | .draft _ => inferInstanceAs (Decidable True)
  | .accept seq nAccepted =>
    decidable_of_iff (∃ round ∈ s.rounds seq, nAccepted ≤ round.drafted.length) Iff.rfl

lemma noOtherRecord_iff {nAccepted : ℕ} : s.NoOtherRecord (.accept seq nAccepted) ↔
    ∀ round ∈ s.rounds seq, round.begun = false ∧ ∀ i, (h : i < s.impls.length) →
      round.producer ≠ some i → ¬ (s.impls[i]).HasRecord seq := by
  refine forall_congr' fun round => forall_congr' fun _ => and_congr_right fun _ =>
    forall_congr' fun i => ⟨fun h hi => h _ (List.getElem?_eq_getElem hi), fun h impl himpl => ?_⟩
  obtain ⟨hi, rfl⟩ := List.getElem?_eq_some_iff.1 himpl
  exact h hi

instance (s : SpecRun nSeq D) (a : SpecCall nSeq) : Decidable (s.NoOtherRecord a) :=
  match a with
  | .begin _ _ | .draft _ => inferInstanceAs (Decidable True)
  | .accept _ _ => decidable_of_iff' _ noOtherRecord_iff

/-- A history search for two tokens, and an n-gram map for one. -/
def searchThenMap : List (Impl 1) :=
  [.ngramSimple ⟨2, 2⟩, .ngramMap ⟨1, 1, true, 1, hashMapSize⟩ fun _ => {}]

def noDraftModel : DraftModel Unit := ⟨false, 0, fun d _ _ _ => ([], d)⟩

/-- A draft of the sequence after the history and the sampled token. -/
def draftAfter (prompt : List Token) (sampled : Token) : SpecCall 1 :=
  .draft fun _ => ⟨true, -1, sampled, some prompt, true⟩

/-- The map drafts `1`, and the target model accepts it. -/
theorem accept_applies_map :
    ∃ s : SpecRun 1 Unit, s.rounds 0 = some ⟨some 1, (0, 0), [1], false⟩ ∧
      ∃ round s', s.rounds 0 = some round ∧ s.call noDraftModel (.accept 0 1) = .ok s' ∧
        s.AppliesOnly s' 0 1 round := by
  obtain ⟨s, hs, hread⟩ := exists_reached_of_admitted (step noDraftModel)
    (fun s a => s.Admits a ∧ s.NoOtherRecord a) (start searchThenMap ())
    [draftAfter [0, 5, 1, 2] 5] (fun s => decide (s.rounds 0 = some ⟨some 1, (0, 0), [1], false⟩ ∧
      s.NoOtherRecord (.accept 0 1))) (v := true) (by decide +kernel)
  obtain ⟨hround, hrecord⟩ := of_decide_eq_true hread
  exact ⟨s, hround, accept_applies hs ⟨_, hround, le_rfl⟩ hrecord⟩

/-- In the second round the search drafts and the map is not asked; what was accepted of the second
draft is written to the value that the map drafted from in the first. -/
theorem not_accept_applies :
    ¬ ∀ (impls : List (Impl 1)) (s : SpecRun 1 Unit),
      Reaches (step noDraftModel) Admits (start impls ()) s → ∀ nAccepted,
        s.Admits (.accept 0 nAccepted) → ∃ round s', s.rounds 0 = some round ∧
          s.call noDraftModel (.accept 0 nAccepted) = .ok s' ∧
          s.AppliesOnly s' 0 nAccepted round := by
  let nAcceptedOf : Impl 1 → List ℤ
    | .ngramMap _ maps => (maps 0).keys.map fun key => (key.values 0).nAccepted
    | _ => []
  intro h
  obtain ⟨s, hs, hread⟩ := exists_reached_of_admitted (step noDraftModel) Admits
    (start searchThenMap ()) [draftAfter [0, 5, 1, 2] 5, draftAfter [0, 5, 1, 2, 3, 5] 1]
    (fun s => decide ((s.rounds 0).map Round.producer = some (some 0) ∧
      s.Admits (.accept 0 0) ∧ s.impls[1]?.map nAcceptedOf = some [1] ∧
      (s.step noDraftModel (.accept 0 0)).map (fun s' => s'.impls[1]?.map nAcceptedOf) =
        some (some [0]))) (v := true) (by decide +kernel)
  obtain ⟨hproducer, hadmits, hbefore, hafter⟩ := of_decide_eq_true hread
  obtain ⟨round, s', hround, hcall, happlies⟩ := h searchThenMap s hs 0 hadmits
  rw [step_eq_some.2 hcall] at hafter
  rw [hround] at hproducer
  have hsame := happlies.others 1 (by rw [Option.some.inj hproducer]; decide)
  rw [Option.map_some, hsame, hbefore] at hafter
  exact absurd hafter (by decide)

end SpecRun

end IFairy.Speculative
