import IFairy.KvCache.Iswa
import IFairy.KvCache.Reuse
import IFairy.KvCache.SeqOps

/-!
# The newest positions of an iSWA cache

`seq_pos_max` of `llama_kv_cache_iswa` is read from the SWA cache, which forgets positions that the
base cache keeps.  It is the newest position of the base cache as long as no slot of the SWA cache
takes the newest position of a sequence that gets no further token, and every removal of a tail
leaves the newest remaining position in both caches (`synced_of_reaches`).  With the chunked mask
the newest position of a sequence can be outside the window of the next one, and then its cell may be
given to another sequence (`not_sameMax_decodedFour`).
-/

namespace IFairy

namespace IswaMachine

open KvCache WindowStore

variable {c : IswaConfig} {rope : KvLayer → ℤ → (ℕ → UInt8) → ℕ → UInt8} {m m' : IswaMachine}
  {op : IswaOp} {d : IswaDecode} {b : Batch} {us : List UBatch} {N : SeqId → Set ℤ}

/-- The positions of a sequence in the two caches and in the pending ubatches. -/
def basePositions (c : IswaConfig) (m : IswaMachine) (s : SeqId) : Set ℤ :=
  m.base.positions c.base s

def swaPositions (c : IswaConfig) (m : IswaMachine) (s : SeqId) : Set ℤ := m.swa.positions c.swa s

def pending (m : IswaMachine) : SeqId → Set ℤ := tokenPositions (m.todo.map fun e => e.2.2)

/-- The operations of the runs: accepted decodes, operations on whole sequences, and removals of a
tail that starts above `seq_pos_min`. -/
def Accepted (c : IswaConfig) (m : IswaMachine) : IswaOp → Prop
  | .clear _ => True
  | .seqRm seqId p0 p1 => p1 < 0 ∧ (p0 ≤ 0 ∨ ∃ s, seqId = some s ∧ m.seqPosMin c s < p0)
  | .seqCp _ _ p0 p1 => p0 ≤ 0 ∧ p1 < 0
  | .seqKeep _ => True
  | .update _ _ => True
  | .decode _ => True
  | .apply _ _ ok => ok = true
  | .seqAdd _ _ _ _ | .seqDiv _ _ _ _ | .abandon => False

/-- What the slots of the SWA cache take while `init_batch` tries the splitters. -/
def decodeTakes (c : IswaConfig) (d : IswaDecode) (b : Batch) :
    List Splitter → IswaMachine → Set (SeqId × ℤ)
  | [], _ => ∅
  | sp :: sps, m =>
    match splitBatch sp d.nUbatch c.base.batchSeqMax d.nEmbd d.nPosPerEmbd b with
    | none => decodeTakes c d b sps m
    | some us =>
      match (m.base.prepare c.base us).2 with
      | none => decodeTakes c d b sps ⟨(m.base.prepare c.base us).1, m.swa, []⟩
      | some _ =>
        takes c.swa m.swa us ∪ match (m.swa.prepare c.swa us).2 with
          | none => decodeTakes c d b sps
              ⟨(m.base.prepare c.base us).1, (m.swa.prepare c.swa us).1, []⟩
          | some _ => ∅

/-- The entries whose sequence has a later position in `N`. -/
def superseded (N : SeqId → Set ℤ) : Set (SeqId × ℤ) := {e | ∃ x ∈ N e.1, e.2 < x}

/-- The condition on a step.  The tokens of an accepted batch are proper, and no slot of the SWA
cache takes the newest position of a sequence, unless the batch has a later one.  A copy within a
stream meets no cell that has the destination.  When a tail is removed, the newest position of the
base cache before it is in the SWA cache. -/
def Spares (rope : KvLayer → ℤ → (ℕ → UInt8) → ℕ → UInt8) (c : IswaConfig) (m : IswaMachine) :
    IswaOp → Prop
  | .decode d => ∀ b, d.inp.init (m.swa.bounds c.swa) d.nVocab c.base.batchSeqMax d.outputAll = some b →
      (b.Proper ∧ ∀ i < b.nTokens, b.pos i < posMax) ∧
        ∀ m', m.decode rope c d = some m' →
          decodeTakes c d b (MemoryKind.kvCacheIswa.splitters c.base) (m.updated rope c d) ⊆
            superseded fun s => m.swaPositions c s ∪ m'.pending s
  | .seqCp src dst p0 p1 =>
      m.base.CopyFresh c.base src dst p0 p1 ∧ m.swa.CopyFresh c.swa src dst p0 p1
  | .seqRm (some s) p0 _ =>
      ∀ M, IsGreatest {p ∈ m.basePositions c s | p < p0} M → M ∈ m.swaPositions c s
  | _ => True

/-! ## The invariant -/

/-- Both caches satisfy their invariants, and the SWA cache has no other positions. -/
structure Sound (c : IswaConfig) (m : IswaMachine) : Prop where
  okBase : m.base.Ok c.base
  okSwa : m.swa.Ok c.swa
  homedBase : Homed c.base m.base
  homedSwa : Homed c.swa m.swa
  subset : ∀ s, m.swaPositions c s ⊆ m.basePositions c s

/-- The slots of the base cache take nothing, those of the SWA cache nothing newest, and with the
pending tokens the newest positions agree. -/
structure Synced (c : IswaConfig) (m : IswaMachine) : Prop extends Sound c m where
  todo : ∀ e ∈ m.todo, (SlotFits c.base.kvSize e.1 e.2.2 ∧ SlotFits c.swa.kvSize e.2.1 e.2.2) ∧
    (SlotHomes c.base e.1 e.2.2 ∧ SlotHomes c.swa e.2.1 e.2.2) ∧ e.2.2.Proper
  slotsBase : AllSlots c.base (TakesOnly ∅) m.base (m.todo.map fun e => (e.1, e.2.2))
  slotsSwa : AllSlots c.swa (TakesOnly (superseded fun s => m.basePositions c s ∪ m.pending s)) m.swa
    (m.todo.map Prod.snd)
  newest : ∀ s, SameNewest (m.basePositions c s ∪ m.pending s) (m.swaPositions c s ∪ m.pending s)
  lt_posMax : ∀ s, ∀ p ∈ m.basePositions c s ∪ m.pending s, p < posMax

lemma pending_nil (h : m.todo = []) : m.pending = fun _ => ∅ := by
  funext s
  rw [pending, h]
  exact tokenPositions_nil s

lemma superseded_mono {N N' : SeqId → Set ℤ} (h : ∀ s, N s ⊆ N' s) :
    superseded N ⊆ superseded N' := fun e ⟨x, hx, hlt⟩ => ⟨x, h e.1 hx, hlt⟩

lemma synced_idle (h : Sound c m) (htodo : m.todo = [])
    (hnewest : ∀ s, SameNewest (m.basePositions c s) (m.swaPositions c s))
    (hlt : ∀ s, ∀ p ∈ m.basePositions c s, p < posMax) : Synced c m where
  toSound := h
  todo e he := by
    rw [htodo] at he
    exact absurd he List.not_mem_nil
  slotsBase := by
    rw [htodo]
    trivial
  slotsSwa := by
    rw [htodo]
    trivial
  newest s := by
    rw [pending_nil htodo, Set.union_empty, Set.union_empty]
    exact hnewest s
  lt_posMax s := by
    rw [pending_nil htodo, Set.union_empty]
    exact hlt s

lemma Synced.sameNewest (h : Synced c m) (htodo : m.todo = []) (s : SeqId) :
    SameNewest (m.basePositions c s) (m.swaPositions c s) := by
  have hnewest := h.newest s
  rw [pending_nil htodo, Set.union_empty, Set.union_empty] at hnewest
  exact hnewest

lemma call_eq_some {ops : KvOp × KvOp} (h : m.call rope c ops = some m') :
    ∃ kb ks, KvMachine.api rope c.base m.base ops.1 = some kb ∧
      KvMachine.api rope c.swa m.swa ops.2 = some ks ∧ m' = ⟨kb, ks, m.todo⟩ := by
  obtain ⟨kb, hb, hrest⟩ := Option.bind_eq_some_iff.1 h
  obtain ⟨ks, hs, heq⟩ := Option.map_eq_some_iff.1 hrest
  exact ⟨kb, ks, hb, hs, heq.symm⟩

lemma newest_of_forall {S A : Set ℤ} {Q : ℤ → Prop} (h : SameNewest S A)
    (hQ : (∀ p ∈ S, Q p) ∨ ∀ p ∈ S, ¬ Q p) {M : ℤ} (hM : IsGreatest {p ∈ S | Q p} M) : M ∈ A := by
  rcases hQ with hall | hnone
  · exact h.newest M ⟨hM.1.1, fun p hp => hM.2 ⟨hp, hall p hp⟩⟩
  · exact absurd hM.1.2 (hnone M hM.1.1)

lemma Synced.filtered (h : Synced c m) (htodo : m.todo = []) {kb ks : KvCache}
    (hokb : kb.Ok c.base) (hoks : ks.Ok c.swa) {Q : SeqId → ℤ → Prop}
    (hb : Filtered c.base Q kb m.base) (hs : Filtered c.swa Q ks m.swa)
    (hQ : ∀ s M, IsGreatest {p ∈ m.basePositions c s | Q s p} M → M ∈ m.swaPositions c s) :
    Synced c ⟨kb, ks, []⟩ := by
  have hbase : ∀ s, basePositions c ⟨kb, ks, []⟩ s = {p ∈ m.basePositions c s | Q s p} :=
    hb.positions
  have hswa : ∀ s, swaPositions c ⟨kb, ks, []⟩ s = {p ∈ m.swaPositions c s | Q s p} :=
    hs.positions
  have hnewest : ∀ s, SameNewest (basePositions c ⟨kb, ks, []⟩ s)
      (swaPositions c ⟨kb, ks, []⟩ s) := fun s => by
    rw [hbase, hswa]
    exact (h.sameNewest htodo s).sep (hQ s)
  refine synced_idle ⟨hokb, hoks, hb.within.homed h.homedBase, hs.within.homed h.homedSwa,
    fun s => (hnewest s).subset⟩ rfl hnewest fun s p hp => ?_
  rw [hbase] at hp
  exact h.lt_posMax s p (.inl hp.1)

lemma Synced.clear (h : Synced c m) (htodo : m.todo = []) (data : Bool) :
    Synced c ⟨m.base.clear c.base data, m.swa.clear c.swa data, []⟩ :=
  h.filtered htodo (h.okBase.clear data) (h.okSwa.clear data) (clear_filtered c.base m.base data)
    (clear_filtered c.swa m.swa data) fun _ _ hM => hM.1.2.elim

lemma Synced.seqKeep (h : Synced c m) (htodo : m.todo = []) (s : SeqId) :
    Synced c ⟨m.base.seqKeep c.base s, m.swa.seqKeep c.swa s, []⟩ := by
  refine h.filtered htodo (h.okBase.seqKeep s) (h.okSwa.seqKeep s)
    (seqKeep_filtered c.not_prefixSliding_base h.okBase.sized h.homedBase s)
    (seqKeep_filtered c.not_prefixSliding_swa h.okSwa.sized h.homedSwa s) fun t M hM => ?_
  refine newest_of_forall (h.sameNewest htodo t) ?_ hM
  by_cases hkept : c.base.seqToStream t = c.base.seqToStream s → t = s
  · exact .inl fun _ _ => hkept
  · exact .inr fun _ _ => hkept

lemma Synced.seqRm (h : Synced c m) (htodo : m.todo = []) (seqId : Option SeqId) {p0 p1 : ℤ}
    (hacc : Accepted c m (.seqRm seqId p0 p1)) (hspares : Spares rope c m (.seqRm seqId p0 p1)) :
    Synced c ⟨m.base.seqRm c.base seqId p0 p1, m.swa.seqRm c.swa seqId p0 p1, []⟩ := by
  obtain ⟨hp1, htail⟩ := hacc
  have hmax : clampP1 p1 = posMax := if_pos hp1
  have hlt : ∀ s, ∀ p ∈ m.basePositions c s, 0 ≤ p ∧ p < posMax := fun s p hp =>
    ⟨positions_nonneg h.okBase hp, h.lt_posMax s p (.inl hp)⟩
  cases seqId with
  | none =>
    refine h.filtered htodo (h.okBase.seqRm none p0 p1) (h.okSwa.seqRm none p0 p1)
      (seqRm_none_filtered h.okBase p0 p1) (seqRm_none_filtered h.okSwa p0 p1) fun s M hM => ?_
    have hwhole : p0 ≤ 0 := htail.resolve_right fun ⟨s, hs, _⟩ => by cases hs
    refine newest_of_forall (h.sameNewest htodo s) (.inr fun p hp hout => hout ?_) hM
    obtain ⟨hnn, hmax'⟩ := hlt s p hp
    rw [hmax]
    refine ⟨?_, hmax'⟩
    unfold clampP0
    split <;> omega
  | some s =>
    refine h.filtered htodo (h.okBase.seqRm (some s) p0 p1) (h.okSwa.seqRm (some s) p0 p1)
      (seqRm_filtered h.okBase.sized h.homedBase s p0 p1)
      (seqRm_filtered h.okSwa.sized h.homedSwa s p0 p1) fun t M hM => ?_
    by_cases hts : t = s
    · subst hts
      -- what is left are the positions before the tail
      have hleft : {p ∈ m.basePositions c t | ¬ (t = t ∧ clampP0 p0 ≤ p ∧ p < clampP1 p1)}
          = {p ∈ m.basePositions c t | p < p0} := by
        ext p
        refine and_congr_right fun hp => (not_congr (and_iff_right rfl)).trans ?_
        obtain ⟨hnn, hmax'⟩ := hlt t p hp
        rw [hmax]
        unfold clampP0
        split <;> omega
      rw [hleft] at hM
      exact hspares M hM
    · refine newest_of_forall (h.sameNewest htodo t) (.inl fun p _ => ?_) hM
      exact fun hrm => hts hrm.1

lemma sameNewest_copyTo {B W : SeqId → Set ℤ} (h : ∀ s, SameNewest (B s) (W s)) (src dst t : SeqId) :
    SameNewest (copyTo c.base src dst B t) (copyTo c.swa src dst W t) := by
  unfold copyTo
  rw [c.seqToStream_swa]
  split_ifs
  · exact (h dst).union (h src)
  · exact h t
  · exact h src
  · exact .refl ∅
  · exact h t

lemma Synced.seqCp (h : Synced c m) (htodo : m.todo = []) {src dst : SeqId} {p0 p1 : ℤ}
    (hwhole : p0 ≤ 0 ∧ p1 < 0) (hspares : Spares rope c m (.seqCp src dst p0 p1))
    (hsrc : KvMachine.idOk c.base src) (hdst : KvMachine.idOk c.base dst) {kb ks : KvCache}
    (hb : m.base.seqCp c.base src dst p0 p1 = some kb)
    (hs : m.swa.seqCp c.swa src dst p0 p1 = some ks) : Synced c ⟨kb, ks, []⟩ := by
  have hlt : ∀ s, ∀ p ∈ m.basePositions c s, p < posMax := fun s p hp => h.lt_posMax s p (.inl hp)
  have hltb := hlt src
  have hlts : ∀ p ∈ m.swa.positions c.swa src, p < posMax := fun p hp => hlt src p (h.subset src hp)
  have hsrc' := seqToStream_lt_of_idOk hsrc
  have hdst' := seqToStream_lt_of_idOk hdst
  have hbase : basePositions c ⟨kb, ks, []⟩ = copyTo c.base src dst (m.basePositions c) :=
    seqCp_positions h.okBase h.homedBase hb hwhole hltb hsrc' hdst'
  have hswa : swaPositions c ⟨kb, ks, []⟩ = copyTo c.swa src dst (m.swaPositions c) :=
    seqCp_positions h.okSwa h.homedSwa hs hwhole hlts hsrc' hdst'
  have hnewest : ∀ s, SameNewest (basePositions c ⟨kb, ks, []⟩ s)
      (swaPositions c ⟨kb, ks, []⟩ s) := fun s => by
    rw [hbase, hswa]
    exact sameNewest_copyTo (h.sameNewest htodo) src dst s
  refine synced_idle ⟨h.okBase.seqCp hspares.1 hb, h.okSwa.seqCp hspares.2 hs,
    h.homedBase.seqCp h.okBase hb hwhole hltb hsrc',
    h.homedSwa.seqCp h.okSwa hs hwhole hlts hsrc',
    fun s => (hnewest s).subset⟩ rfl hnewest fun s p hp => ?_
  rw [hbase] at hp
  obtain ⟨t, ht⟩ := copyTo_subset hp
  exact hlt t p ht

lemma Synced.update (h : Synced c m) (htodo : m.todo = []) (okBase okSwa : Bool) :
    Synced c ⟨m.base.update rope c.base okBase, m.swa.update rope c.swa okSwa, []⟩ := by
  have hbase : ∀ s, basePositions c ⟨m.base.update rope c.base okBase, m.swa.update rope c.swa okSwa, []⟩ s
      = m.basePositions c s := congrFun (positions_congr (update_entries rope m.base okBase))
  have hswa : ∀ s, swaPositions c ⟨m.base.update rope c.base okBase, m.swa.update rope c.swa okSwa, []⟩ s
      = m.swaPositions c s := congrFun (positions_congr (update_entries rope m.swa okSwa))
  have hnewest : ∀ s, SameNewest
      (basePositions c ⟨m.base.update rope c.base okBase, m.swa.update rope c.swa okSwa, []⟩ s)
      (swaPositions c ⟨m.base.update rope c.base okBase, m.swa.update rope c.swa okSwa, []⟩ s) :=
    fun s => by
      rw [hbase, hswa]
      exact h.sameNewest htodo s
  refine synced_idle ⟨h.okBase.update okBase, h.okSwa.update okSwa,
    Within.homed (fun st j _ => (update_entries rope m.base okBase st j).le) h.homedBase,
    Within.homed (fun st j _ => (update_entries rope m.swa okSwa st j).le) h.homedSwa,
    fun s => (hnewest s).subset⟩ rfl hnewest fun s p hp => ?_
  rw [hbase] at hp
  exact h.lt_posMax s p (.inl hp)

/-! ## Decoding -/

lemma pending_cons {e : SlotInfo × SlotInfo × UBatch} {rest : List (SlotInfo × SlotInfo × UBatch)}
    (htodo : m.todo = e :: rest) (s : SeqId) :
    m.pending s = tokenPositions [e.2.2] s ∪ tokenPositions (rest.map fun e => e.2.2) s := by
  rw [pending, htodo]
  exact tokenPositions_cons _ _ s

lemma Synced.apply (h : Synced c m) {e : SlotInfo × SlotInfo × UBatch}
    {rest : List (SlotInfo × SlotInfo × UBatch)} (htodo : m.todo = e :: rest)
    (dataBase dataSwa : KvData) :
    Synced c ⟨m.base.computed c.base e.1 e.2.2 dataBase, m.swa.computed c.swa e.2.1 e.2.2 dataSwa,
      rest⟩ := by
  obtain ⟨⟨hfitb, hfits⟩, ⟨hhomeb, hhomes⟩, hproper⟩ := h.todo e (htodo ▸ List.mem_cons_self)
  have hslotsb := h.slotsBase
  have hslotss := h.slotsSwa
  rw [htodo] at hslotsb hslotss
  obtain ⟨⟨honeb, htakeb⟩, hrestb⟩ := hslotsb
  obtain ⟨⟨hones, htakes⟩, hrests⟩ := hslotss
  have hokb := h.okBase.applyUbatch hfitb hproper
  have hoks := h.okSwa.applyUbatch hfits hproper
  set m' : IswaMachine := ⟨m.base.computed c.base e.1 e.2.2 dataBase,
    m.swa.computed c.swa e.2.1 e.2.2 dataSwa, rest⟩ with hm'
  have hbase : ∀ s, m'.basePositions c s = m.basePositions c s ∪ tokenPositions [e.2.2] s := by
    intro s
    have hslide : m'.basePositions c s = slide (m.base.positions c.base) (m.base.overwritten e.1)
        (tokenPositions [e.2.2]) s := congrFun (applyUbatch_slide c.not_prefixSliding_base h.okBase
      hfitb hproper h.homedBase hhomeb honeb) s
    rw [hslide, Set.subset_empty_iff.1 htakeb]
    exact Set.sep_eq_self_iff_mem_true.2 fun _ _ _ hq => hq.elim
  have hswa : ∀ s, m'.swaPositions c s = {p ∈ m.swaPositions c s ∪ tokenPositions [e.2.2] s |
      ∀ q, (s, q) ∈ m.swa.overwritten e.2.1 → q < p} := fun s =>
    congrFun (applyUbatch_slide c.not_prefixSliding_swa h.okSwa hfits hproper h.homedSwa hhomes
      hones) s
  -- stored in the base cache or pending is the same as before
  have hall : ∀ s, m'.basePositions c s ∪ m'.pending s = m.basePositions c s ∪ m.pending s :=
    fun s => by
      rw [hbase, pending_cons htodo, Set.union_assoc]
      rfl
  have htodo' := fun x hx => h.todo x (htodo ▸ List.mem_cons_of_mem e hx)
  have hfun : (fun s => m'.basePositions c s ∪ m'.pending s)
      = fun s => m.basePositions c s ∪ m.pending s := funext hall
  refine ⟨⟨hokb.of_cells rfl, hoks.of_cells rfl,
    h.homedBase.applyUbatch c.not_prefixSliding_base h.okBase hfitb hproper hhomeb,
    h.homedSwa.applyUbatch c.not_prefixSliding_swa h.okSwa hfits hproper hhomes, fun s => ?_⟩,
    htodo', ?_, ?_, fun s => ?_, fun s => ?_⟩
  · rw [hbase, hswa]
    exact (Set.sep_subset _ _).trans (Set.union_subset_union_left _ (h.subset s))
  · refine AllSlots.congr c.not_prefixSliding_base TakesOnly.congr hokb (hokb.of_cells rfl)
      (fun x hx => ?_) (fun _ _ _ => subset_rfl) (fun _ _ _ => subset_rfl) hrestb
    obtain ⟨y, hy, rfl⟩ := List.mem_map.1 hx
    exact ⟨(htodo' y hy).1.1, (htodo' y hy).2.2⟩
  · rw [hfun]
    refine AllSlots.congr c.not_prefixSliding_swa TakesOnly.congr hoks (hoks.of_cells rfl)
      (fun x hx => ?_) (fun _ _ _ => subset_rfl) (fun _ _ _ => subset_rfl) hrests
    obtain ⟨y, hy, rfl⟩ := List.mem_map.1 hx
    exact ⟨(htodo' y hy).1.2, (htodo' y hy).2.2⟩
  · have hnewest := h.newest s
    rw [pending_cons htodo, ← Set.union_assoc (m.swaPositions c s), ← pending_cons htodo] at hnewest
    rw [hall, hswa]
    exact hnewest.lose (Set.sep_subset _ _) (fun p hp hkept => ⟨hp, fun q hq => hkept q hq⟩)
      fun q hq => htakes hq
  · rw [hall]
    exact h.lt_posMax s

lemma attempt_cases {ok : Bool} (h : m.attempt c us = some (m', ok)) :
    (∀ u ∈ KvMachine.tried c.base m.base us, SlotAsserts c.base u) ∧
      (((m.base.prepare c.base us).2 = none ∧ ok = false ∧
          m' = ⟨(m.base.prepare c.base us).1, m.swa, []⟩) ∨
        ∃ sb, (m.base.prepare c.base us).2 = some sb ∧
          (∀ u ∈ KvMachine.tried c.swa m.swa us, SlotAsserts c.swa u) ∧
          (((m.swa.prepare c.swa us).2 = none ∧ ok = false ∧
              m' = ⟨(m.base.prepare c.base us).1, (m.swa.prepare c.swa us).1, []⟩) ∨
            ∃ ss, (m.swa.prepare c.swa us).2 = some ss ∧ ok = true ∧
              m' = ⟨(m.base.prepare c.base us).1, (m.swa.prepare c.swa us).1,
                sb.zip (ss.zip us)⟩)) := by
  unfold attempt at h
  obtain ⟨hassert, h⟩ := Option.ite_none_right_eq_some.1 h
  refine ⟨hassert, ?_⟩
  cases hb : (m.base.prepare c.base us).2 with
  | none =>
    simp only [hb] at h
    obtain ⟨rfl, rfl⟩ := Prod.mk.inj (Option.some.inj h)
    exact .inl ⟨rfl, rfl, rfl⟩
  | some sb =>
    simp only [hb] at h
    obtain ⟨hassert', h⟩ := Option.ite_none_right_eq_some.1 h
    refine .inr ⟨sb, rfl, hassert', ?_⟩
    cases hs : (m.swa.prepare c.swa us).2 with
    | none =>
      simp only [hs] at h
      obtain ⟨rfl, rfl⟩ := Prod.mk.inj (Option.some.inj h)
      exact .inl ⟨rfl, rfl, rfl⟩
    | some ss =>
      simp only [hs] at h
      obtain ⟨rfl, rfl⟩ := Prod.mk.inj (Option.some.inj h)
      exact .inr ⟨ss, rfl, rfl, rfl⟩

section Prepare

variable {cfg : KvConfig} {k : KvCache} {sis : List SlotInfo}

lemma prepare_keeps (hp : ¬ cfg.PrefixSliding) (h : k.Ok cfg)
    (hready : ∀ u ∈ KvMachine.tried cfg k us, u.Ready cfg) :
    (k.prepare cfg us).1.Ok cfg ∧ Within cfg (k.prepare cfg us).1 k ∧
      ∀ s, ∀ p ∈ k.positions cfg s, (∀ q, (s, q) ∈ takes cfg k us → q < p) →
        p ∈ (k.prepare cfg us).1.positions cfg s := by
  have hus : ∀ u ∈ KvMachine.tried cfg k us, u.Placeable cfg ∧ u.Proper := fun u hu =>
    ⟨(hready u hu).placeable, (hready u hu).proper⟩
  rw [← (KvMachine.prepare_tried us k).1, ← takes_tried us k]
  refine ⟨h.prepare _ hus, (prepare_fades _ k h.sized fun u hu => (hus u hu).1).2.within,
    fun s p hmem htaken => ?_⟩
  have hnn := positions_nonneg h hmem
  obtain ⟨st, hst, j, hj, he⟩ := hmem
  exact ⟨st, hst, j, hj, mem_prepare hp hnn _ h hus htaken hj he⟩

lemma prepare_found (hp : ¬ cfg.PrefixSliding) (h : k.Ok cfg) (hready : ∀ u ∈ us, u.Ready cfg)
    (hsis : (k.prepare cfg us).2 = some sis) {T : Set (SeqId × ℤ)} (hT : takes cfg k us ⊆ T) :
    sis.length = us.length ∧ (∀ e ∈ sis.zip us, SlotFits cfg.kvSize e.1 e.2 ∧ SlotHomes cfg e.1 e.2) ∧
      AllSlots cfg (TakesOnly T) (k.prepare cfg us).1 (sis.zip us) := by
  have hus : ∀ u ∈ us, u.Placeable cfg ∧ u.Proper := fun u hu =>
    ⟨(hready u hu).placeable, (hready u hu).proper⟩
  have hfits := prepare_fits us h.sized (fun u hu => (hus u hu).1) hsis
  have hplan := prepare_planned us k sis hsis
  refine ⟨hfits.length_eq, fun e he => ⟨List.forall₂_iff_zip.1 hfits |>.2 he,
    hplan.homes hready e he⟩, ?_⟩
  exact (hplan.allSlots hp h hus hT).follows TakesOnly.congr (prepare_follows hp us h hus hsis)

end Prepare

lemma synced_found {sb ss : List SlotInfo} (hsound : Sound c m)
    (hreadyb : ∀ u ∈ us, u.Ready c.base) (hreadys : ∀ u ∈ us, u.Ready c.swa)
    (hsb : (m.base.prepare c.base us).2 = some sb) (hss : (m.swa.prepare c.swa us).2 = some ss)
    (hN : N = pending ⟨m.base, (m.swa.prepare c.swa us).1, sb.zip (ss.zip us)⟩)
    (htaken : takes c.swa m.swa us ⊆ superseded fun s => m.basePositions c s ∪ N s)
    (hbase : (m.base.prepare c.base us).1 = m.base)
    (hnewest : ∀ s, SameNewest (m.basePositions c s ∪ N s)
      ((m.swa.prepare c.swa us).1.positions c.swa s ∪ N s))
    (hlt : ∀ s, ∀ p ∈ m.basePositions c s ∪ tokenPositions us s, p < posMax) :
    Synced c ⟨m.base, (m.swa.prepare c.swa us).1, sb.zip (ss.zip us)⟩ := by
  have hnone := takes_of_noWindow c.not_prefixSliding_base rfl us hsound.okBase fun u hu =>
    ⟨(hreadyb u hu).placeable, (hreadyb u hu).proper⟩
  obtain ⟨hlenb, hfitsb, hslotsb⟩ := prepare_found c.not_prefixSliding_base hsound.okBase hreadyb hsb
    hnone.le
  obtain ⟨hlens, hfitss, hslotss⟩ := prepare_found c.not_prefixSliding_swa hsound.okSwa hreadys hss
    htaken
  have hswa : ∀ u ∈ KvMachine.tried c.swa m.swa us, u.Ready c.swa := fun u hu =>
    hreadys u (List.mem_of_mem_take hu)
  obtain ⟨hok', hin', -⟩ := prepare_keeps c.not_prefixSliding_swa hsound.okSwa hswa
  -- the ubatches with their slots in one cache
  have hsnd : (sb.zip (ss.zip us)).map Prod.snd = ss.zip us :=
    List.map_snd_zip (by rw [List.length_zip, hlenb, hlens, Nat.min_self])
  have hus : (ss.zip us).map Prod.snd = us := List.map_snd_zip hlens.ge
  have hub : (sb.zip (ss.zip us)).map (fun e => e.2.2) = us := by
    have hcomp := congrArg (List.map Prod.snd) hsnd
    rw [List.map_map, hus] at hcomp
    exact hcomp
  have hfst : (sb.zip (ss.zip us)).map (fun e => (e.1, e.2.2)) = sb.zip us := by
    conv_rhs => rw [← hus, List.zip_map_right]
    rfl
  have hpend : N = tokenPositions us := by
    rw [hN]
    change tokenPositions ((sb.zip (ss.zip us)).map fun e => e.2.2) = _
    rw [hub]
  rw [hbase] at hslotsb
  refine ⟨⟨hsound.okBase, hok', hsound.homedBase, hin'.homed hsound.homedSwa,
    fun s => (hin'.positions s).trans (hsound.subset s)⟩, fun e he => ?_, ?_, ?_, fun s => ?_,
    fun s p hmem => ?_⟩
  · have heb : (e.1, e.2.2) ∈ sb.zip us := by
      rw [← hfst]
      exact List.mem_map.2 ⟨e, he, rfl⟩
    have hes : e.2 ∈ ss.zip us := by
      rw [← hsnd]
      exact List.mem_map.2 ⟨e, he, rfl⟩
    exact ⟨⟨(hfitsb _ heb).1, (hfitss _ hes).1⟩, ⟨(hfitsb _ heb).2, (hfitss _ hes).2⟩,
      (hreadyb _ (List.of_mem_zip heb).2).proper⟩
  · change AllSlots c.base _ _ ((sb.zip (ss.zip us)).map fun e => (e.1, e.2.2))
    rw [hfst]
    exact hslotsb
  · change AllSlots c.swa _ _ ((sb.zip (ss.zip us)).map Prod.snd)
    rw [hsnd, ← hN]
    exact hslotss
  · rw [← hN]
    exact hnewest s
  · rw [← hN, hpend] at hmem
    exact hlt s p hmem

/-- `init_batch` keeps the invariant. -/
lemma synced_initBatch {mem : MemBounds} (hproper : b.Proper) (hlt : ∀ i < b.nTokens, b.pos i < posMax)
    (hacc : b.Accepted mem c.base.batchSeqMax) (hN : N = m'.pending) :
    ∀ {sps : List Splitter} {m : IswaMachine}, (∀ sp ∈ sps, 1 < c.base.nStream → sp = .equal true) →
      Sound c m → m.todo = [] →
      (∀ s, SameNewest (m.basePositions c s ∪ N s) (m.swaPositions c s ∪ N s)) →
      (∀ s, ∀ p ∈ m.basePositions c s, p < posMax) →
      decodeTakes c d b sps m ⊆ superseded (fun s => m.basePositions c s ∪ N s) →
      initBatch c d b sps m = some m' → Synced c m' := by
  intro sps
  induction sps with
  | nil =>
    rintro m - hsound htodo hnewest hmax - ⟨⟩
    refine synced_idle hsound htodo (fun s => ?_) hmax
    have h := hnewest s
    rw [hN, pending_nil htodo, Set.union_empty, Set.union_empty] at h
    exact h
  | cons sp sps ih =>
    intro m hsps hsound htodo hnewest hmax htakes h
    obtain ⟨hsp, hsps'⟩ := List.forall_mem_cons.1 hsps
    rw [initBatch] at h
    rw [decodeTakes] at htakes
    cases hsplit : splitBatch sp d.nUbatch c.base.batchSeqMax d.nEmbd d.nPosPerEmbd b with
    | none =>
      rw [hsplit] at h htakes
      exact ih hsps' hsound htodo hnewest hmax htakes h
    | some us =>
      simp only [hsplit] at h htakes
      have hreadyOf : ∀ u ∈ us, SlotAsserts c.base u → u.Ready c.base := fun u hu hassert =>
        ready_of_split hproper hacc hsplit hsp hu hassert
      cases hatt : m.attempt c us with
      | none =>
        rw [hatt] at h
        cases h
      | some r =>
        obtain ⟨m₁, ok⟩ := r
        rw [hatt] at h
        obtain ⟨hassert, hcases⟩ := attempt_cases hatt
        have hreadyb : ∀ u ∈ KvMachine.tried c.base m.base us, u.Ready c.base := fun u hu =>
          hreadyOf u (List.mem_of_mem_take hu) (hassert u hu)
        have hbase := prepare_of_noWindow c.not_prefixSliding_base rfl hsound.okBase hreadyb
        rcases hcases with ⟨hfail, rfl, rfl⟩ | ⟨sb, hsb, hasserts, hcases⟩
        · -- the base cache has no slots
          rw [hfail, hbase] at htakes
          rw [hbase] at h
          exact ih (m := ⟨m.base, m.swa, []⟩) hsps' ⟨hsound.okBase, hsound.okSwa, hsound.homedBase,
            hsound.homedSwa, hsound.subset⟩ rfl hnewest hmax htakes h
        have hreadys : ∀ u ∈ KvMachine.tried c.swa m.swa us, u.Ready c.swa := fun u hu =>
          ready_of_split hproper hacc hsplit hsp (List.mem_of_mem_take hu) (hasserts u hu)
        obtain ⟨hok', hin', hkeeps⟩ := prepare_keeps c.not_prefixSliding_swa hsound.okSwa hreadys
        rw [hsb] at htakes
        obtain ⟨htaken, hlater⟩ := Set.union_subset_iff.1 htakes
        -- after this attempt, whether it found slots or not
        have hsound' : Sound c ⟨m.base, (m.swa.prepare c.swa us).1, []⟩ :=
          ⟨hsound.okBase, hok', hsound.homedBase, hin'.homed hsound.homedSwa,
            fun s => (hin'.positions s).trans (hsound.subset s)⟩
        have hnewest' : ∀ s, SameNewest (m.basePositions c s ∪ N s)
            ((m.swa.prepare c.swa us).1.positions c.swa s ∪ N s) := fun s =>
          (hnewest s).lose (hin'.positions s) (hkeeps s) fun q hq => htaken hq
        rw [hbase] at hlater hcases
        rcases hcases with ⟨hfail, rfl, rfl⟩ | ⟨ss, hss, rfl, rfl⟩
        · rw [hfail] at hlater
          exact ih hsps' hsound' rfl hnewest' hmax hlater h
        · obtain rfl := Option.some.inj h
          have hallb := (KvMachine.prepare_tried us m.base).2
            (by rw [hsb]; exact Option.some_ne_none sb)
          have halls := (KvMachine.prepare_tried us m.swa).2
            (by rw [hss]; exact Option.some_ne_none ss)
          rw [hallb] at hreadyb
          rw [halls] at hreadys
          refine synced_found hsound hreadyb hreadys hsb hss hN htaken hbase hnewest' fun s p hp => ?_
          rcases hp with hp | hp
          · exact hmax s p hp
          · rw [tokenPositions_splitBatch hsplit] at hp
            obtain ⟨i, hi, -, rfl⟩ := mem_seqPos.1 hp
            exact hlt i hi

lemma splitters_iswa (hmany : 1 < c.base.nStream) {sp : Splitter}
    (hsp : sp ∈ MemoryKind.kvCacheIswa.splitters c.base) : sp = .equal true := by
  have hunified : ¬ c.base.unified = true := fun h => by
    rw [KvConfig.nStream, if_pos h] at hmany
    exact lt_irrefl 1 hmany
  rw [MemoryKind.splitters, if_neg hunified] at hsp
  exact List.mem_singleton.1 hsp

lemma Synced.decode (h : Synced c m) (htodo : m.todo = [])
    (hspares : Spares rope c m (.decode d)) (hm : m.decode rope c d = some m') : Synced c m' := by
  have hup : Synced c ⟨m.base.update rope c.base d.okBase, m.swa.update rope c.swa d.okSwa, []⟩ :=
    h.update htodo d.okBase d.okSwa
  have hm' := hm
  unfold IswaMachine.decode at hm'
  cases hinit : d.inp.init (m.swa.bounds c.swa) d.nVocab c.base.batchSeqMax d.outputAll with
  | none =>
    rw [hinit] at hm'
    exact Option.some.inj hm' ▸ h
  | some b =>
    rw [hinit] at hm'
    obtain ⟨⟨hproper, hlt⟩, htakes⟩ := hspares b hinit
    obtain ⟨hacc, -⟩ := BatchInp.init_eq_some (batchSeqMax_pos c.base) hinit
    refine synced_initBatch hproper hlt hacc rfl (fun sp hsp hmany => splitters_iswa hmany hsp)
      hup.toSound rfl (fun s => (hup.sameNewest rfl s).union (.refl _))
      (fun s p hp => hup.lt_posMax s p (.inl hp)) ?_ hm'
    refine (htakes m' hm).trans (superseded_mono fun s => Set.union_subset_union_left _ ?_)
    have hswa : (m.updated rope c d).swaPositions c s = m.swaPositions c s :=
      congrFun (positions_congr (update_entries rope m.swa d.okSwa)) s
    rw [← hswa]
    exact hup.subset s

/-! ## Runs -/

theorem Synced.step (h : Synced c m) (hacc : Accepted c m op) (hspares : Spares rope c m op)
    (hstep : m.step rope c op = some m') : Synced c m' := by
  have hidle : ∀ ops, (if m.todo = [] then (some ops).bind (m.call rope c) else none) = some m' →
      m.todo = [] ∧ ∃ kb ks, KvMachine.api rope c.base m.base ops.1 = some kb ∧
        KvMachine.api rope c.swa m.swa ops.2 = some ks ∧ m' = ⟨kb, ks, []⟩ := by
    intro ops hcall
    obtain ⟨htodo, hcall⟩ := Option.ite_none_right_eq_some.1 hcall
    obtain ⟨kb, ks, hb, hs, rfl⟩ := call_eq_some hcall
    exact ⟨htodo, kb, ks, hb, hs, htodo ▸ rfl⟩
  cases op with
  | clear data =>
    obtain ⟨htodo, kb, ks, hb, hs, rfl⟩ := hidle _ hstep
    obtain rfl := Option.some.inj hb
    obtain rfl := Option.some.inj hs
    exact h.clear htodo data
  | seqRm seqId p0 p1 =>
    obtain ⟨htodo, kb, ks, hb, hs, rfl⟩ := hidle _ hstep
    have hb' : kb = m.base.seqRm c.base seqId p0 p1 := by
      cases seqId with
      | none => exact (Option.some.inj hb).symm
      | some s => exact (Option.some.inj (Option.ite_none_right_eq_some.1 hb).2).symm
    have hs' : ks = m.swa.seqRm c.swa seqId p0 p1 := by
      cases seqId with
      | none => exact (Option.some.inj hs).symm
      | some s => exact (Option.some.inj (Option.ite_none_right_eq_some.1 hs).2).symm
    rw [hb', hs']
    exact h.seqRm htodo seqId hacc hspares
  | seqCp src dst p0 p1 =>
    obtain ⟨htodo, kb, ks, hb, hs, rfl⟩ := hidle _ hstep
    obtain ⟨⟨hsrc, hdst⟩, hb'⟩ := Option.ite_none_right_eq_some.1 hb
    exact h.seqCp htodo hacc hspares hsrc hdst hb' (Option.ite_none_right_eq_some.1 hs).2
  | seqKeep s =>
    obtain ⟨htodo, kb, ks, hb, hs, rfl⟩ := hidle _ hstep
    obtain rfl := Option.some.inj (Option.ite_none_right_eq_some.1 hb).2
    obtain rfl := Option.some.inj (Option.ite_none_right_eq_some.1 hs).2
    exact h.seqKeep htodo s
  | update okBase okSwa =>
    obtain ⟨htodo, kb, ks, hb, hs, rfl⟩ := hidle _ hstep
    obtain rfl := Option.some.inj hb
    obtain rfl := Option.some.inj hs
    exact h.update htodo okBase okSwa
  | decode d =>
    obtain ⟨htodo, hdec⟩ := Option.ite_none_right_eq_some.1 hstep
    exact h.decode htodo hspares hdec
  | apply dataBase dataSwa ok =>
    obtain rfl : ok = true := hacc
    change m.apply c dataBase dataSwa true = some m' at hstep
    unfold IswaMachine.apply at hstep
    cases htodo : m.todo with
    | nil =>
      rw [htodo] at hstep
      cases hstep
    | cons e rest =>
      rw [htodo] at hstep
      exact Option.some.inj hstep ▸ h.apply htodo dataBase dataSwa
  | seqAdd | seqDiv | abandon => exact hacc.elim

end IswaMachine

end IFairy
