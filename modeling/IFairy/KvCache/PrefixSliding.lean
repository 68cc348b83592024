import IFairy.KvCache.PrefixEntries
import IFairy.KvCache.SlidingWindow

/-!
# Tail removals in a cache with prefix sliding

A run is followed together with the positions that the calls so far give to every sequence, and
with those of them that no ubatch has evicted.  The cache has the latter in every state
(`PrefixRun.Tracks`).  `seq_rm` reports success for every tail removal, and leaves the window before
the removed tail as the ubatches have left it (`PrefixRun.tailRemoval_of_reaches`): a position of the
window is missing only when an ubatch has started behind it by a window length or more.
-/

namespace IFairy

namespace KvCache

variable {cfg : KvConfig} {k k' : KvCache} {u : UBatch} {s t : SeqId} {op : KvOp}
  {rope : KvLayer → ℤ → (ℕ → UInt8) → ℕ → UInt8} {C C' : SeqId → Set ℤ}

/-- `seq_rm` with the value that it returns. -/
def seqRmResult (cfg : KvConfig) (k : KvCache) (seqId : Option SeqId) (p0 p1 : ℤ) : KvCache × Bool :=
  (k.seqRm cfg seqId p0 p1, true)

/-! ## What the calls make of the positions -/

/-- The positions of a sequence after a call of the memory API, when the sequences had `C`. -/
def afterCall (cfg : KvConfig) (C : SeqId → Set ℤ) (s : SeqId) : KvOp → Set ℤ
  | .clear _ => ∅
  | .seqRm none p0 p1 => {p ∈ C s | ¬ (clampP0 p0 ≤ p ∧ p < clampP1 p1)}
  | .seqRm (some t) p0 p1 => {p ∈ C s | ¬ (s = t ∧ clampP0 p0 ≤ p ∧ p < clampP1 p1)}
  | .seqCp src dst p0 p1 => if p0 ≤ 0 ∧ p1 < 0 then copyTo cfg src dst C s else C s
  | .seqKeep t => {p ∈ C s | s = t}
  | _ => C s

/-- The positions of a sequence after an ubatch that evicts `E` and whose computation succeeds or
not. -/
def afterUbatch (E : Set (SeqId × ℤ)) (u : UBatch) (ok : Bool) (C : SeqId → Set ℤ) (s : SeqId) :
    Set ℤ :=
  let placed := (C s \ {p | (s, p) ∈ E}) ∪ tokenPositions [u] s
  if ok then placed else {p ∈ placed | ∀ f ∈ WindowRun.failedFrom u s, p < f}

lemma api_positions (hp : cfg.PrefixSliding) (h : k.Ok cfg) (hhome : Homed cfg k)
    (hlt : ∀ s, ∀ p ∈ k.positions cfg s, p < posMax) (hk : KvMachine.api rope cfg k op = some k') :
    Homed cfg k' ∧ ∀ s, k'.positions cfg s = afterCall cfg (k.positions cfg) s op := by
  have hfiltered : ∀ {Q : SeqId → ℤ → Prop} {k' : KvCache}, Filtered cfg Q k' k → Homed cfg k' ∧
      ∀ s, k'.positions cfg s = {p ∈ k.positions cfg s | Q s p} := fun hQ =>
    ⟨hQ.within.homed hhome, hQ.positions⟩
  have hsame : ∀ {k' : KvCache}, (∀ st j, (k'.cell st j).entries = (k.cell st j).entries) →
      Homed cfg k' ∧ ∀ s, k'.positions cfg s = k.positions cfg s := fun heq =>
    ⟨Within.homed (fun st j _ => (heq st j).le) hhome, congrFun (positions_congr heq)⟩
  refine KvMachine.api_cases (P := fun op k' => Homed cfg k' ∧
    ∀ s, k'.positions cfg s = afterCall cfg (k.positions cfg) s op) (fun data => ?_)
    (fun seqId p0 p1 _ => ?_) (fun src dst p0 p1 k' hsrc hdst hcp => ?_) (fun s _ => ?_)
    (fun s e => ?_) (fun s p0 p1 d _ => ?_) (fun s p0 p1 d _ => ?_) (fun ok => ?_) hk
  · obtain ⟨hhome', hpos⟩ := hfiltered (clear_filtered cfg k data)
    refine ⟨hhome', fun s => (hpos s).trans ?_⟩
    exact Set.eq_empty_iff_forall_notMem.2 fun p hp => hp.2
  · cases seqId with
    | none => exact hfiltered (seqRm_none_filtered h p0 p1)
    | some t => exact hfiltered (seqRm_filtered h.sized hhome t p0 p1)
  · by_cases hwhole : p0 ≤ 0 ∧ p1 < 0
    · have hsrc' := seqToStream_lt_of_idOk hsrc
      refine ⟨hhome.seqCp h hcp hwhole (hlt src) hsrc', fun s => ?_⟩
      rw [afterCall, if_pos hwhole,
        seqCp_positions h hhome hcp hwhole (hlt src) hsrc' (seqToStream_lt_of_idOk hdst)]
    · -- a partial copy does nothing
      have hskip : k.seqCp cfg src dst p0 p1 = some k := if_pos ⟨hp, hwhole⟩
      obtain rfl := Option.some.inj (hskip.symm.trans hcp)
      refine ⟨hhome, fun s => ?_⟩
      rw [afterCall, if_neg hwhole]
  · exact hfiltered ( seqKeep_filtered_of_prefix hp h.sized s)
  · exact hsame fun st j => by rw [cell_of_cells (seqSetPrefix_cells k s e)]
  · have hskip : k.seqAdd cfg s p0 p1 d = k := if_pos hp
    rw [hskip]
    exact ⟨hhome, fun _ => rfl⟩
  · have hskip : k.seqDiv cfg s p0 p1 d = k := if_pos hp
    rw [hskip]
    exact ⟨hhome, fun _ => rfl⟩
  · exact hsame (update_entries rope k ok)

lemma copyTo_mono (h : ∀ s, C s ⊆ C' s) (src dst : SeqId) (s : SeqId) :
    copyTo cfg src dst C s ⊆ copyTo cfg src dst C' s := by
  unfold copyTo
  split_ifs
  · exact Set.union_subset_union (h dst) (h src)
  · exact h s
  · exact h src
  · exact subset_rfl
  · exact h s

lemma afterCall_mono (h : ∀ s, C s ⊆ C' s) (s : SeqId) (op : KvOp) :
    afterCall cfg C s op ⊆ afterCall cfg C' s op := by
  unfold afterCall
  split
  · exact subset_rfl
  · exact fun p hp => ⟨h s hp.1, hp.2⟩
  · exact fun p hp => ⟨h s hp.1, hp.2⟩
  · split
    · exact copyTo_mono h _ _ s
    · exact h s
  · exact fun p hp => ⟨h s hp.1, hp.2⟩
  · exact h s

lemma exists_of_mem_afterCall {p : ℤ} (hmem : p ∈ afterCall cfg C s op) : ∃ t, p ∈ C t := by
  unfold afterCall at hmem
  split at hmem
  · exact hmem.elim
  · exact ⟨s, hmem.1⟩
  · exact ⟨s, hmem.1⟩
  · split at hmem
    · exact copyTo_subset hmem
    · exact ⟨s, hmem⟩
  · exact ⟨s, hmem.1⟩
  · exact ⟨s, hmem⟩

lemma afterUbatch_mono (h : ∀ s, C s ⊆ C' s) (E : Set (SeqId × ℤ)) (u : UBatch) (ok : Bool)
    (s : SeqId) : afterUbatch E u ok C s ⊆ afterUbatch ∅ u ok C' s := by
  have hplaced : (C s \ {p | (s, p) ∈ E}) ∪ tokenPositions [u] s
      ⊆ (C' s \ {p | (s, p) ∈ (∅ : Set (SeqId × ℤ))}) ∪ tokenPositions [u] s :=
    Set.union_subset_union_left _ fun p hp => ⟨h s hp.1, fun hno => hno.elim⟩
  cases ok with
  | true => exact hplaced
  | false => exact fun p hp => ⟨hplaced hp.1, hp.2⟩

end KvCache

/-! ## Runs -/

/-- A run with the positions that the sequences hold by the calls so far. -/
structure PrefixRun where
  machine : KvMachine
  held : SeqId → Set ℤ
  /-- The held positions that no ubatch has evicted. -/
  kept : SeqId → Set ℤ
  /-- The first position of every ubatch with tokens of the sequence, or of one that it is a copy
  of. -/
  starts : SeqId → Set ℤ

/-- What the next `apply_ubatch` evicts. -/
def KvMachine.nextEvicted (cfg : KvConfig) (m : KvMachine) : Set (SeqId × ℤ) :=
  match m.todo with
  | [] => ∅
  | e :: _ => m.cache.evicted cfg e.1

namespace PrefixRun

open KvCache

variable {cfg : KvConfig} {rope : KvLayer → ℤ → (ℕ → UInt8) → ℕ → UInt8} {r r' : PrefixRun}
  {op : KvOp}

def start (cfg : KvConfig) : PrefixRun := ⟨.start cfg, fun _ => ∅, fun _ => ∅, fun _ => ∅⟩

/-- The positions of a sequence after a step in which an ubatch evicts `E`. -/
def after (cfg : KvConfig) (m : KvMachine) (E : Set (SeqId × ℤ)) (C : SeqId → Set ℤ) (s : SeqId) :
    KvOp → Set ℤ
  | .apply _ ok => match m.todo with
    | [] => C s
    | e :: _ => afterUbatch E e.2 ok C s
  | op => afterCall cfg C s op

/-- The starts of ubatches after a step. -/
def startsAfter (m : KvMachine) (S : SeqId → Set ℤ) (s : SeqId) : KvOp → Set ℤ
  | .apply _ _ => match m.todo with
    | [] => S s
    | e :: _ => S s ∪ {p | IsLeast (tokenPositions [e.2] s) p}
  | .seqCp src dst _ _ => if s = dst then S dst ∪ S src else S s
  | _ => S s

/-- The run goes on to the state `m`. -/
def follow (cfg : KvConfig) (r : PrefixRun) (op : KvOp) (m : KvMachine) : PrefixRun where
  machine := m
  held s := after cfg r.machine ∅ r.held s op
  kept s := after cfg r.machine (r.machine.nextEvicted cfg) r.kept s op
  starts s := startsAfter r.machine r.starts s op

def step (rope : KvLayer → ℤ → (ℕ → UInt8) → ℕ → UInt8) (cfg : KvConfig) (r : PrefixRun)
    (op : KvOp) : Option PrefixRun :=
  (r.machine.step rope cfg op).map (r.follow cfg op)

/-- The steps of `KvMachine.Keeps`; a cache with several streams splits a batch sequence by
sequence, and its positions are less than the greatest one. -/
def Admits (cfg : KvConfig) (r : PrefixRun) (op : KvOp) : Prop :=
  r.machine.Keeps cfg op ∧ ∀ d, op = .decode d →
    (1 < cfg.nStream → d.sp = .equal true) ∧
      ∀ i < d.inp.nTokens, (d.inp.completed d.mem d.outputAll).pos i < posMax

/-- The window before position `p0`, up to the prefix. -/
def windowBefore (cfg : KvConfig) (k : KvCache) (s : SeqId) (p0 : ℤ) : Set ℤ :=
  Set.Ico (max (k.prefixEnd s) (p0 - cfg.window + 1)) p0

/-- When the removal of the tail from `p0` on reports success, the positions that the sequence holds
in the window before `p0` are still present. -/
def WindowComplete (cfg : KvConfig) (r : PrefixRun) (s : SeqId) (p0 : ℤ) : Prop :=
  (r.machine.cache.seqRmResult cfg (some s) p0 (-1)).2 = true →
    ∀ q ∈ r.held s, q ∈ windowBefore cfg r.machine.cache s p0 →
      q ∈ (r.machine.cache.seqRmResult cfg (some s) p0 (-1)).1.positions cfg s

/-- The invariant of a run. -/
structure Tracks (cfg : KvConfig) (r : PrefixRun) : Prop where
  good : r.machine.Good cfg
  homed : Homed cfg r.machine.cache
  todo : ∀ e ∈ r.machine.todo, SlotHomes cfg e.1 e.2 ∧ ∀ i < e.2.nTokens, e.2.pos i < posMax
  evicts : EvictsAll cfg r.machine.cache r.machine.todo
  present : r.machine.cache.positions cfg = r.kept
  kept_subset : ∀ s, r.kept s ⊆ r.held s
  lt_posMax : ∀ s, ∀ p ∈ r.held s, p < posMax
  behind : ∀ s, ∀ q ∈ r.held s, q ∉ r.kept s → ∃ m ∈ r.starts s, q + cfg.window ≤ m

/-! ## The steps -/

lemma tracks_start (cfg : KvConfig) : Tracks cfg (start cfg) where
  good := KvMachine.good_idle (ok_new cfg)
  homed _ _ _ s hs := absurd hs (Finset.notMem_empty s)
  todo _ he := absurd he List.not_mem_nil
  evicts := trivial
  present := funext (positions_eq_empty fun _ _ _ _ => rfl)
  kept_subset _ := subset_rfl
  lt_posMax _ _ hp := hp.elim
  behind _ _ hq := hq.elim

lemma Tracks.cache_lt (h : r.Tracks cfg) (s : SeqId) :
    ∀ p ∈ r.machine.cache.positions cfg s, p < posMax := fun p hp =>
  h.lt_posMax s p (h.kept_subset s (h.present ▸ hp))

/-- What is missing after a call was missing before, for the sequence or the one it is copied
from. -/
lemma Tracks.behind_call (h : r.Tracks cfg) {k : KvCache}
    (hk : KvMachine.api rope cfg r.machine.cache op = some k) {s : SeqId} {q : ℤ}
    (hheld : q ∈ afterCall cfg r.held s op) (hkept : q ∉ afterCall cfg r.kept s op) :
    ∃ m ∈ startsAfter r.machine r.starts s op, q + cfg.window ≤ m := by
  have hsame : startsAfter r.machine r.starts s op = r.starts s → q ∈ r.held s → q ∉ r.kept s →
      ∃ m ∈ startsAfter r.machine r.starts s op, q + cfg.window ≤ m := fun heq hin hout =>
    heq ▸ h.behind s q hin hout
  cases op with
  | clear _ => exact hheld.elim
  | seqRm seqId p0 p1 =>
    cases seqId with
    | none => exact hsame rfl hheld.1 fun hin => hkept ⟨hin, hheld.2⟩
    | some t => exact hsame rfl hheld.1 fun hin => hkept ⟨hin, hheld.2⟩
  | seqCp src dst p0 p1 =>
    have hself : q ∈ r.held s → q ∉ r.kept s →
        ∃ m ∈ startsAfter r.machine r.starts s (.seqCp src dst p0 p1), q + cfg.window ≤ m := by
      intro hin hout
      obtain ⟨m, hm, hle⟩ := h.behind s q hin hout
      refine ⟨m, ?_, hle⟩
      rw [startsAfter]
      split_ifs with hs
      · exact .inl (hs ▸ hm)
      · exact hm
    have hsource : s = dst → q ∈ r.held src → q ∉ r.kept src →
        ∃ m ∈ startsAfter r.machine r.starts s (.seqCp src dst p0 p1), q + cfg.window ≤ m := by
      intro hs hin hout
      obtain ⟨m, hm, hle⟩ := h.behind src q hin hout
      refine ⟨m, ?_, hle⟩
      rw [startsAfter, if_pos hs]
      exact .inr hm
    rw [afterCall, copyTo] at hheld hkept
    split_ifs at hheld hkept with hwhole hstream hs hs hother
    · subst hs
      rw [Set.mem_union, not_or] at hkept
      rcases hheld with hin | hin
      · exact hself hin hkept.1
      · exact hsource rfl hin hkept.2
    · exact hself hheld hkept
    · exact hsource hs hheld hkept
    · exact hheld.elim
    · exact hself hheld hkept
    · exact hself hheld hkept
  | seqKeep t => exact hsame rfl hheld.1 fun hin => hkept ⟨hin, hheld.2⟩
  | apply _ _ => cases hk
  | seqSetPrefix _ _ => exact hsame rfl hheld hkept
  | seqAdd _ _ _ _ => exact hsame rfl hheld hkept
  | seqDiv _ _ _ _ => exact hsame rfl hheld hkept
  | update _ => exact hsame rfl hheld hkept
  | decode _ => exact hsame rfl hheld hkept
  | abandon => exact hsame rfl hheld hkept

lemma Tracks.call (hp : cfg.PrefixSliding) (h : r.Tracks cfg) (htodo : r.machine.todo = [])
    {k : KvCache} (hk : KvMachine.api rope cfg r.machine.cache op = some k)
    (hgood : KvMachine.Good cfg { r.machine with cache := k }) :
    Tracks cfg (r.follow cfg op { r.machine with cache := k }) := by
  have hafter : ∀ (E : Set (SeqId × ℤ)) (C : SeqId → Set ℤ) (s : SeqId),
      after cfg r.machine E C s op = afterCall cfg C s op := by
    intro E C s
    cases op with
    | apply _ _ => cases hk
    | _ => rfl
  obtain ⟨hhome, hpos⟩ := api_positions hp h.good.ok h.homed h.cache_lt hk
  refine ⟨hgood, hhome, h.todo, ?_, ?_, fun s => ?_, fun s p hp => ?_, fun s q hheld hkept => ?_⟩
  · change EvictsAll cfg k r.machine.todo
    rw [htodo]
    trivial
  · funext s
    refine (hpos s).trans ?_
    rw [h.present]
    exact (hafter _ _ s).symm
  · change after cfg r.machine _ r.kept s op ⊆ after cfg r.machine _ r.held s op
    rw [hafter, hafter]
    exact afterCall_mono h.kept_subset s op
  · have hmem : p ∈ after cfg r.machine ∅ r.held s op := hp
    rw [hafter] at hmem
    obtain ⟨t, ht⟩ := exists_of_mem_afterCall hmem
    exact h.lt_posMax t p ht
  · have hin : q ∈ after cfg r.machine ∅ r.held s op := hheld
    have hout : q ∉ after cfg r.machine (r.machine.nextEvicted cfg) r.kept s op := hkept
    rw [hafter] at hin hout
    exact h.behind_call hk hin hout

section Apply

variable {e : SlotInfo × UBatch} {rest : List (SlotInfo × UBatch)}

lemma Tracks.applied (hp : cfg.PrefixSliding) (h : r.Tracks cfg)
    (htodo : r.machine.todo = e :: rest) :
    (r.machine.cache.applyUbatch cfg e.1 e.2).Ok cfg ∧
      Homed cfg (r.machine.cache.applyUbatch cfg e.1 e.2) ∧
      ∀ s, (r.machine.cache.applyUbatch cfg e.1 e.2).positions cfg s
        = (r.kept s \ {p | (s, p) ∈ r.machine.nextEvicted cfg}) ∪ tokenPositions [e.2] s := by
  have hmem : e ∈ r.machine.todo := htodo ▸ List.mem_cons_self
  obtain ⟨hfit, hproper⟩ := h.good.fits e hmem
  obtain ⟨hhomes, -⟩ := h.todo e hmem
  refine ⟨h.good.ok.applyUbatch hfit hproper, applyUbatch_homed hp h.good.ok hfit h.homed hhomes,
    fun s => ?_⟩
  rw [applyUbatch_positions hp h.good.ok hfit hhomes s, h.present, KvMachine.nextEvicted, htodo]

variable (cfg) in
lemma after_apply (htodo : r.machine.todo = e :: rest) (E : Set (SeqId × ℤ)) (C : SeqId → Set ℤ)
    (s : SeqId) (data : KvData) (ok : Bool) :
    after cfg r.machine E C s (.apply data ok) = afterUbatch E e.2 ok C s := by
  rw [after, htodo]

lemma Tracks.behind_apply (h : r.Tracks cfg) (htodo : r.machine.todo = e :: rest) (data : KvData)
    (ok : Bool) {s : SeqId} {q : ℤ} (hheld : q ∈ afterUbatch ∅ e.2 ok r.held s)
    (hkept : q ∉ afterUbatch (r.machine.nextEvicted cfg) e.2 ok r.kept s) :
    ∃ m ∈ startsAfter r.machine r.starts s (.apply data ok), q + cfg.window ≤ m := by
  have hstarts : startsAfter r.machine r.starts s (.apply data ok)
      = r.starts s ∪ {p | IsLeast (tokenPositions [e.2] s) p} := by
    rw [startsAfter, htodo]
  have hmissing : q ∈ r.held s ∧ q ∉ r.kept s \ {p | (s, p) ∈ r.machine.nextEvicted cfg} := by
    cases ok with
    | true =>
      have hout := not_or.1 hkept
      exact ⟨(hheld.resolve_right hout.2).1, hout.1⟩
    | false =>
      have hout := not_or.1 fun hplaced => hkept ⟨hplaced, hheld.2⟩
      exact ⟨(hheld.1.resolve_right hout.2).1, hout.1⟩
  rw [hstarts]
  by_cases hin : q ∈ r.kept s
  · have hevicted : (s, q) ∈ r.machine.nextEvicted cfg := not_not.1 fun hno =>
      hmissing.2 ⟨hin, hno⟩
    have hevicts := h.evicts
    rw [htodo] at hevicts
    rw [KvMachine.nextEvicted, htodo] at hevicted
    obtain ⟨m, hm, hle⟩ := hevicts.1 (s, q) hevicted.1
    exact ⟨m, .inr hm, hle⟩
  · obtain ⟨m, hm, hle⟩ := h.behind s q hmissing.1 hin
    exact ⟨m, .inl hm, hle⟩

lemma Tracks.held_lt (h : r.Tracks cfg) (htodo : r.machine.todo = e :: rest) (ok : Bool)
    (s : SeqId) : ∀ p ∈ afterUbatch ∅ e.2 ok r.held s, p < posMax := by
  have hplaced : ∀ p ∈ (r.held s \ {p | (s, p) ∈ (∅ : Set (SeqId × ℤ))}) ∪ tokenPositions [e.2] s,
      p < posMax := by
    rintro p (⟨hin, -⟩ | ⟨u, hu, i, hi, -, rfl⟩)
    · exact h.lt_posMax s p hin
    · obtain rfl := List.mem_singleton.1 hu
      exact (h.todo e (htodo ▸ List.mem_cons_self)).2 i hi
  cases ok with
  | true => exact hplaced
  | false => exact fun p hp => hplaced p hp.1

lemma Tracks.next (h : r.Tracks cfg) (htodo : r.machine.todo = e :: rest) (data : KvData) (ok : Bool)
    {m : KvMachine} (hgood : m.Good cfg) (hhome : Homed cfg m.cache)
    (hrest : ∀ e ∈ m.todo, SlotHomes cfg e.1 e.2 ∧ ∀ i < e.2.nTokens, e.2.pos i < posMax)
    (hevicts : EvictsAll cfg m.cache m.todo)
    (hpos : ∀ s, m.cache.positions cfg s
      = afterUbatch (r.machine.nextEvicted cfg) e.2 ok r.kept s) :
    Tracks cfg (r.follow cfg (.apply data ok) m) := by
  have hheld : ∀ s, (r.follow cfg (.apply data ok) m).held s = afterUbatch ∅ e.2 ok r.held s :=
    fun s => after_apply cfg htodo ∅ r.held s data ok
  have hkept : ∀ s, (r.follow cfg (.apply data ok) m).kept s
      = afterUbatch (r.machine.nextEvicted cfg) e.2 ok r.kept s := fun s =>
    after_apply cfg htodo (r.machine.nextEvicted cfg) r.kept s data ok
  refine ⟨hgood, hhome, hrest, hevicts, ?_, fun s => ?_, fun s => ?_, fun s q => ?_⟩
  · funext s
    exact (hpos s).trans (hkept s).symm
  · rw [hheld, hkept]
    exact afterUbatch_mono h.kept_subset _ e.2 ok s
  · rw [hheld]
    exact h.held_lt htodo ok s
  · rw [hheld, hkept]
    exact h.behind_apply htodo data ok

lemma Tracks.apply (hp : cfg.PrefixSliding) (h : r.Tracks cfg) (htodo : r.machine.todo = e :: rest)
    (data : KvData) (hgood : KvMachine.Good cfg ⟨r.machine.cache.computed cfg e.1 e.2 data, rest⟩) :
    Tracks cfg (r.follow cfg (.apply data true)
      ⟨r.machine.cache.computed cfg e.1 e.2 data, rest⟩) := by
  obtain ⟨hok, hhome, hpos⟩ := h.applied hp htodo
  have hevicts := h.evicts
  rw [htodo] at hevicts
  exact h.next htodo data true hgood hhome
    (fun x hx => h.todo x (htodo ▸ List.mem_cons_of_mem e hx))
    (hevicts.2.congr hp hok hgood.ok hgood.fits fun _ _ => rfl) hpos

/-- The computation fails, and `decode` removes what the ubatch has placed. -/
lemma Tracks.fail (hp : cfg.PrefixSliding) (h : r.Tracks cfg) (htodo : r.machine.todo = e :: rest)
    (data : KvData) : Tracks cfg (r.follow cfg (.apply data false)
      ⟨(r.machine.cache.computed cfg e.1 e.2 data).removeFailed cfg e.2, []⟩) := by
  obtain ⟨hok, hhome, hpos⟩ := h.applied hp htodo
  set k := r.machine.cache.computed cfg e.1 e.2 data with hk
  have hok' : k.Ok cfg := hok.of_cells rfl
  have hpos' : ∀ s, k.positions cfg s
      = (r.kept s \ {p | (s, p) ∈ r.machine.nextEvicted cfg}) ∪ tokenPositions [e.2] s := hpos
  have hcut := WindowRun.removeFailed_positions hok' hhome e.2 fun s c hc _ _ _ => by
    rw [hpos'] at hc
    rcases hc with hc | ⟨u, hu, i, hi, -, rfl⟩
    · exact h.lt_posMax s c (h.kept_subset s hc.1)
    · obtain rfl := List.mem_singleton.1 hu
      exact (h.todo e (htodo ▸ List.mem_cons_self)).2 i hi
  have hin : Within cfg (k.removeFailed cfg e.2) k := fun st j _ => by
    rw [removeFailed_cell hok'.sized, Cell.entries_keepOnly]
    exact Set.sep_subset _ _
  have hclean := KvMachine.removeFailed_inv (P := fun k => k.Ok cfg) hok' e.2
    fun k s p0 hk => hk.seqRm (some s) p0 (-1)
  have hcut' : ∀ s, (k.removeFailed cfg e.2).positions cfg s
      = afterUbatch (r.machine.nextEvicted cfg) e.2 false r.kept s := fun s => by
    rw [hcut]
    change {c ∈ k.positions cfg s | ∀ f ∈ WindowRun.failedFrom e.2 s, c < f} = _
    rw [hpos']
    rfl
  generalize k.removeFailed cfg e.2 = k' at hin hclean hcut'
  exact h.next htodo data false (KvMachine.good_idle hclean) (hin.homed hhome)
    (fun _ hx => absurd hx List.not_mem_nil) trivial hcut'

end Apply

lemma Tracks.same (h : r.Tracks cfg) {m : KvMachine} (hgood : m.Good cfg)
    (hsame : ∀ st j, (m.cache.cell st j).entries = (r.machine.cache.cell st j).entries)
    (hrest : ∀ e ∈ m.todo, SlotHomes cfg e.1 e.2 ∧ ∀ i < e.2.nTokens, e.2.pos i < posMax)
    (hevicts : EvictsAll cfg m.cache m.todo) : Tracks cfg { r with machine := m } :=
  ⟨hgood, Within.homed (fun st j _ => (hsame st j).le) h.homed, hrest, hevicts,
    (positions_congr hsame).trans h.present, h.kept_subset, h.lt_posMax, h.behind⟩

lemma Tracks.decode (hp : cfg.PrefixSliding) (hswa : cfg.swaType = .none) (h : r.Tracks cfg)
    {d : DecodeArgs} (hok : r.Admits cfg (.decode d)) (htodo : r.machine.todo = []) {m : KvMachine}
    (hm : r.machine.decode rope cfg d = some m) (hgood : m.Good cfg) :
    Tracks cfg { r with machine := m } := by
  obtain ⟨hproper, hargs⟩ := hok
  obtain ⟨hsp, hlt⟩ := hargs d rfl
  set k₁ := r.machine.cache.update rope cfg d.okUpdate with hk₁
  have hup : ∀ st j, (k₁.cell st j).entries = (r.machine.cache.cell st j).entries :=
    update_entries rope r.machine.cache d.okUpdate
  have hok₁ : k₁.Ok cfg := h.good.ok.update d.okUpdate
  rcases KvMachine.decode_cases hm with rfl | ⟨b, hb, rfl | ⟨us, hus, hassert, hcache, htodo'⟩⟩
  · exact h
  · refine h.same hgood hup (fun e he => h.todo e he) ?_
    change EvictsAll cfg k₁ r.machine.todo
    rw [htodo]
    trivial
  · obtain ⟨hacc, -⟩ := BatchInp.init_eq_some (batchSeqMax_pos cfg) hb
    obtain rfl := KvMachine.init_eq_completed hb
    have hready : ∀ u ∈ KvMachine.tried cfg k₁ us, u.Ready cfg ∧ u.Lists := fun u hu =>
      ⟨ready_of_split hproper hacc hus hsp (List.mem_of_mem_take hu) (hassert u hu),
        (splitBatch_of hus u (List.mem_of_mem_take hu)).lists hacc⟩
    have hprep := @KvMachine.prepare_tried cfg us k₁
    have hsame : ∀ st j, ((k₁.prepare cfg us).1.cell st j).entries = (k₁.cell st j).entries := by
      rw [← hprep.1]
      exact prepare_entries hp _ hok₁ fun u hu =>
        ⟨(hready u hu).1.placeable, (hready u hu).1.proper⟩
    obtain ⟨cache, todo⟩ := m
    obtain rfl : cache = (k₁.prepare cfg us).1 := hcache
    have hsame' := fun st j => (hsame st j).trans (hup st j)
    rcases htodo' with rfl | ⟨sis, hsis, rfl⟩
    · exact h.same hgood hsame' (fun _ he => absurd he List.not_mem_nil) trivial
    · have htried := hprep.2 (by rw [hsis]; exact Option.some_ne_none sis)
      rw [htried] at hready
      have hplan := prepare_planned us k₁ sis hsis
      refine h.same hgood hsame' (fun e he => ⟨?_, fun i hi => ?_⟩) ?_
      · exact hplan.homes (fun u hu => (hready u hu).1) e he
      · obtain ⟨row, hrow, hpos, -⟩ := (splitBatch_of hus e.2 (List.of_mem_zip he).2).row i hi
        rw [hpos]
        exact hlt row hrow
      · exact (hplan.evictsAll hswa hok₁ hready).congr hp hok₁ hgood.ok hgood.fits hsame

theorem Tracks.step (hp : cfg.PrefixSliding) (hswa : cfg.swaType = .none) (h : r.Tracks cfg)
    (hok : r.Admits cfg op) (hstep : r.step rope cfg op = some r') : r'.Tracks cfg := by
  obtain ⟨m, hm, rfl⟩ := Option.map_eq_some_iff.1 hstep
  have hgood := h.good.step hok.1 hm
  refine KvMachine.step_cases (P := fun op m => r.Admits cfg op → m.Good cfg →
    Tracks cfg (r.follow cfg op m)) (fun d m htodo hd hok hgood => ?_)
    (fun data si u rest htodo _ hgood => ?_) (fun data si u rest htodo _ _ => ?_)
    (fun _ hgood => ?_) (fun op k htodo hk _ hgood => ?_) hm hok hgood
  · exact h.decode hp hswa hok htodo hd hgood
  · exact h.apply hp htodo data hgood
  · exact h.fail hp htodo data
  · exact h.same hgood (fun _ _ => rfl) (fun _ he => absurd he List.not_mem_nil) trivial
  · exact h.call hp htodo hk hgood

lemma tracks_of_reaches (hp : cfg.PrefixSliding) (hswa : cfg.swaType = .none)
    (h : Reaches (step rope cfg) (Admits cfg) (start cfg) r) : r.Tracks cfg :=
  h.invariant (tracks_start cfg) fun _ _ _ hr hok hstep => hr.step hp hswa hok hstep

/-! ## Tail removals -/

lemma Tracks.tail_positions (h : r.Tracks cfg) (s : SeqId) {p0 q : ℤ} (hq : q < p0) :
    q ∈ (r.machine.cache.seqRmResult cfg (some s) p0 (-1)).1.positions cfg s ↔ q ∈ r.kept s := by
  have hbefore : ¬ (s = s ∧ clampP0 p0 ≤ q ∧ q < clampP1 (-1)) := by
    rintro ⟨-, hle, -⟩
    unfold clampP0 at hle
    split at hle <;> omega
  rw [← h.present]
  change q ∈ (r.machine.cache.seqRm cfg (some s) p0 (-1)).positions cfg s ↔ _
  rw [(seqRm_filtered h.good.ok.sized h.homed s p0 (-1)).positions]
  exact and_iff_left hbefore

/-- In every run a tail removal reports success.  The window before the tail is complete exactly
when no ubatch has evicted a position that the sequence holds there, and so it is when no ubatch of
the sequence has started behind `p0`. -/
theorem tailRemoval_of_reaches (hp : cfg.PrefixSliding) (hswa : cfg.swaType = .none)
    (h : Reaches (step rope cfg) (Admits cfg) (start cfg) r) (s : SeqId) (p0 : ℤ) :
    (r.machine.cache.seqRmResult cfg (some s) p0 (-1)).2 = true ∧
      (r.WindowComplete cfg s p0 ↔
        ∀ q ∈ r.held s, q ∈ windowBefore cfg r.machine.cache s p0 → q ∈ r.kept s) ∧
      ((∀ m ∈ r.starts s, m ≤ p0) → r.WindowComplete cfg s p0) := by
  have htracks := tracks_of_reaches hp hswa h
  have hiff : r.WindowComplete cfg s p0 ↔
      ∀ q ∈ r.held s, q ∈ windowBefore cfg r.machine.cache s p0 → q ∈ r.kept s := by
    constructor
    · exact fun hall q hq hin => (htracks.tail_positions s hin.2).1 (hall rfl q hq hin)
    · exact fun hall _ q hq hin => (htracks.tail_positions s hin.2).2 (hall q hq hin)
  refine ⟨rfl, hiff, fun hstarts => hiff.2 fun q hq hin => ?_⟩
  by_contra hout
  obtain ⟨m, hm, hle⟩ := htracks.behind s q hq hout
  have hwindow := (le_max_right _ _).trans hin.1
  have := hstarts m hm
  omega

/-! ## A small run -/

lemma held_subset_of_perform {ops : List KvOp}
    (hops : ∀ op ∈ ops, (∃ d, op = .decode d) ∨ ∃ data, op = .apply data true) :
    ∀ {r r' : PrefixRun}, perform (step rope cfg) r ops = some r' → ∀ s, r.held s ⊆ r'.held s := by
  induction ops with
  | nil =>
    rintro r r' ⟨⟩ s
    exact subset_rfl
  | cons op ops ih =>
    intro r r' h s
    obtain ⟨hop, hops'⟩ := List.forall_mem_cons.1 hops
    obtain ⟨r₁, hstep, hrest⟩ := Option.bind_eq_some_iff.1 h
    obtain ⟨m, -, rfl⟩ := Option.map_eq_some_iff.1 hstep
    refine Set.Subset.trans ?_ (ih hops' hrest s)
    change r.held s ⊆ after cfg r.machine ∅ r.held s op
    rcases hop with ⟨d, rfl⟩ | ⟨data, rfl⟩
    · exact subset_rfl
    · rw [after]
      split
      · exact subset_rfl
      · exact fun p hp => .inl ⟨hp, fun hno => hno.elim⟩

end PrefixRun

/-- One stream of four cells; the prefix is one position and the window two. -/
def prefixStream : KvConfig :=
  { KvConfig.basic false 1 4 Nat.one_pos one_le_llamaMaxSeq with
    window := 2
    prefixCap := 1 }

/-- The decode of one token after position `p`, from which the cache has position `0`. -/
def decodeAfter (p : ℤ) : KvOp :=
  .decode { oneToken.firstDecode .simple 1 with
    mem := ⟨fun s => if s = 0 then min p 0 else -1, fun s => if s = 0 then p else -1⟩ }

/-- The prefix is set, and two tokens are decoded. -/
def prefixTokens : List KvOp :=
  [.seqSetPrefix 0 1, decodeAfter (-1), .apply .zero true, decodeAfter 0, .apply .zero true]

def moreTokens : List KvOp :=
  [decodeAfter 1, .apply .zero true, decodeAfter 2, .apply .zero true]

namespace PrefixRun

open KvCache

lemma admits_prefixTokens : ∀ op ∈ prefixTokens ++ moreTokens, ∀ r, Admits prefixStream r op := by
  have hdecode : ∀ p ∈ [-1, 0, 1, (2 : ℤ)], ∀ r, Admits prefixStream r (decodeAfter p) := by
    intro p hp r
    refine ⟨?_, ?_⟩
    · change Batch.Proper _
      unfold Batch.Proper
      revert p
      decide
    · rintro d ⟨⟩
      refine ⟨fun hmany => absurd hmany (by decide), ?_⟩
      revert p
      decide
  have happly : ∀ r, Admits prefixStream r (.apply .zero true) := fun r =>
    ⟨trivial, fun _ hd => by cases hd⟩
  have hset : ∀ r, Admits prefixStream r (.seqSetPrefix 0 1) := fun r =>
    ⟨trivial, fun _ hd => by cases hd⟩
  simp only [prefixTokens, moreTokens, List.cons_append, List.nil_append, List.forall_mem_cons]
  exact ⟨hset, hdecode _ (by decide), happly, hdecode _ (by decide), happly, hdecode _ (by decide),
    happly, hdecode _ (by decide), happly, List.forall_mem_nil _⟩

/-- Position `1` is overwritten with position `3`, while `seq_pos_min` still reports the prefix; then
`seq_rm` reports that the tail from `2` on is removed. -/
theorem not_windowComplete_moreTokens : ∃ r,
    Reaches (step noRope prefixStream) (Admits prefixStream) (start prefixStream) r ∧
      r.machine.cache.prefixEnd 0 < 2 ∧ r.machine.cache.seqPosMin prefixStream 0 = 0 ∧
        (r.machine.cache.seqRmResult prefixStream (some 0) 2 (-1)).2 = true ∧
          ¬ r.WindowComplete prefixStream 0 2 := by
  obtain ⟨r₁, hr₁, hrest⟩ := Option.bind_eq_some_iff.1 (by decide +kernel :
    (perform (step noRope prefixStream) (start prefixStream) prefixTokens).bind (fun r₁ =>
      (perform (step noRope prefixStream) r₁ moreTokens).map fun r =>
        (decide (0 ∈ (r₁.machine.cache.cell 0 1).seq ∧ (r₁.machine.cache.cell 0 1).pos = 1),
          r.machine.cache.prefixEnd 0, r.machine.cache.seqPosMin prefixStream 0,
          decide (∀ st, st < prefixStream.nStream → ∀ j, j < prefixStream.kvSize →
            ¬ (0 ∈ (r.machine.cache.cell st j).seq ∧ (r.machine.cache.cell st j).pos = 1))))
      = some (true, 1, 0, true))
  obtain ⟨r, hr, hread⟩ := Option.map_eq_some_iff.1 hrest
  obtain ⟨hpresent, hread⟩ := Prod.mk.inj hread
  obtain ⟨hend, hread⟩ := Prod.mk.inj hread
  obtain ⟨hmin, hgone⟩ := Prod.mk.inj hread
  have hadmits := List.forall_mem_append.1 admits_prefixTokens
  have hreach₁ : Reaches (step noRope prefixStream) (Admits prefixStream) (start prefixStream) r₁ :=
    Reaches.perform hadmits.1 .start hr₁
  have hreach := Reaches.perform hadmits.2 hreach₁ hr
  have htracks₁ := tracks_of_reaches (by decide) rfl hreach₁
  have htracks := tracks_of_reaches (by decide) rfl hreach
  refine ⟨r, hreach, hend ▸ by decide, hmin, rfl, fun hcomplete => ?_⟩
  -- the second position of the run is held to its end
  have hheld : (1 : ℤ) ∈ r.held 0 := by
    refine held_subset_of_perform ?_ hr 0 (htracks₁.kept_subset 0 ?_)
    · simp only [moreTokens, decodeAfter, List.forall_mem_cons]
      exact ⟨.inl ⟨_, rfl⟩, .inr ⟨_, rfl⟩, .inl ⟨_, rfl⟩, .inr ⟨_, rfl⟩, List.forall_mem_nil _⟩
    · have hcell : 0 ∈ (r₁.machine.cache.cell 0 1).seq ∧ (r₁.machine.cache.cell 0 1).pos = 1 :=
        of_decide_eq_true hpresent
      rw [← htracks₁.present]
      exact ⟨0, by decide, 1, by decide, hcell⟩
  have hkept := (htracks.tail_positions 0 (by decide)).1 (hcomplete rfl 1 hheld (by
    rw [windowBefore, hend]
    decide))
  rw [← htracks.present] at hkept
  obtain ⟨st, hst, j, hj, hmem⟩ := hkept
  exact of_decide_eq_true hgone st hst j hj hmem

theorem tailRemoval_moreTokens : ∃ r,
    perform (step noRope prefixStream) (start prefixStream) (prefixTokens ++ moreTokens) = some r ∧
      (r.machine.cache.seqRmResult prefixStream (some 0) 4 (-1)).2 = true ∧
      (r.WindowComplete prefixStream 0 4 ↔
        ∀ q ∈ r.held 0, q ∈ windowBefore prefixStream r.machine.cache 0 4 → q ∈ r.kept 0) ∧
      ((∀ m ∈ r.starts 0, m ≤ 4) → r.WindowComplete prefixStream 0 4) := by
  obtain ⟨r, hr⟩ := Option.isSome_iff_exists.1 (by decide +kernel : (perform
    (step noRope prefixStream) (start prefixStream) (prefixTokens ++ moreTokens)).isSome = true)
  exact ⟨r, hr, tailRemoval_of_reaches (by decide) rfl
    (Reaches.perform admits_prefixTokens .start hr) 0 4⟩

end PrefixRun

end IFairy
