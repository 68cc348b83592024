import IFairy.KvCache.Reuse

/-!
# Caches with a sliding window

A run of decodes on a cache with a standard window is followed together with the positions that
`apply_ubatch` has overwritten so far.  The decodes that meet `WindowRun.Orderly` keep the invariant
of `IFairy.Framework.WindowStore` for the positions of the sequences: nothing that a token can
attend to was overwritten, and the positions of a sequence have no gap, so that `seq_pos_min` tells
what is still there (`windowKept_of_reaches`).
-/

namespace IFairy

/-- Every sequence has greater positions in `v` than in `u`. -/
def UBatch.Ahead (u v : UBatch) : Prop :=
  ∀ s, ∀ i < u.nTokens, ∀ j < v.nTokens, s ∈ u.seqSet i → s ∈ v.seqSet j → u.pos i < v.pos j

namespace KvCache

variable {cfg : KvConfig} {k k' : KvCache} {u : UBatch} {us : List UBatch} {si : SlotInfo}
  {sis : List SlotInfo} {s : SeqId} {st j : ℕ} {L : Set (SeqId × ℤ)}
  {rope : KvLayer → ℤ → (ℕ → UInt8) → ℕ → UInt8}

lemma tokenPositions_lt (h : ∀ v ∈ us, u.Ahead v) {n p : ℤ} (hn : n ∈ tokenPositions [u] s)
    (hp : p ∈ tokenPositions us s) : n < p := by
  obtain ⟨u', hu', i, hi, hs, rfl⟩ := hn
  obtain ⟨v, hv, j, hj, hs', rfl⟩ := hp
  obtain rfl := List.mem_singleton.1 hu'
  exact h v hv s i hi j hj hs hs'

lemma Reuses.reusable (hswa : cfg.swaType = .standard) (h : Reuses cfg k si) :
    WindowStore.Reusable cfg.nSwa (k.positions cfg) (k.overwritten si) := by
  intro e he
  obtain ⟨hmem, hmask⟩ := h.2 e he
  refine ⟨hmem, fun M hM => ?_⟩
  have hle := hmask M hM
  rw [KvConfig.IsMaskedSwa, hswa] at hle
  change (cfg.nSwa : ℤ) ≤ M + 1 - e.2 at hle
  omega

lemma window_apply (hp : ¬ cfg.PrefixSliding) (hswa : cfg.swaType = .standard) (h : k.Ok cfg)
    (hfit : SlotFits cfg.kvSize si u) (hu : u.Proper) (hhome : Homed cfg k)
    (hslot : SlotHomes cfg si u) (hreuse : Reuses cfg k si) (hahead : ∀ v ∈ us, u.Ahead v)
    (hinv : WindowStore.Inv cfg.nSwa (k.positions cfg) (tokenPositions (u :: us)) L) :
    (k.applyUbatch cfg si u).positions cfg
        = WindowStore.place (k.positions cfg) (k.overwritten si) (tokenPositions [u]) ∧
      WindowStore.Inv cfg.nSwa ((k.applyUbatch cfg si u).positions cfg) (tokenPositions us)
        (L ∪ k.overwritten si) := by
  have hsplit : tokenPositions (u :: us) = fun s => tokenPositions [u] s ∪ tokenPositions us s :=
    funext (tokenPositions_cons u us)
  rw [hsplit] at hinv
  have hpos := applyUbatch_slide hp h hfit hu hhome hslot hreuse.1
  rw [← WindowStore.place_eq_slide fun s n hn q hq =>
    hinv.before s q (hreuse.2 (s, q) hq).1 n (.inl hn)] at hpos
  refine ⟨hpos, ?_⟩
  rw [hpos]
  exact hinv.place (finite_positions cfg k) (hreuse.reusable hswa)
    fun s n hn p hp => tokenPositions_lt hahead hn hp

end KvCache

/-! ## The tokens of a batch -/

namespace Batch

variable {b : Batch} {mem : MemBounds} {s : SeqId}

lemma SeqConsistent.ordConnected (h : b.SeqConsistent mem s) :
    (b.seqPos s : Set ℤ).OrdConnected := by
  rcases h with hempty | ⟨-, hcard⟩
  · rw [hempty, Finset.coe_empty]
    exact Set.ordConnected_empty
  · rcases (b.seqPos s).eq_empty_or_nonempty with hempty | hne
    · rw [hempty, Finset.coe_empty]
      exact Set.ordConnected_empty
    · rw [Batch.seqPosMax, Batch.seqPosMin, dif_pos hne, dif_pos hne] at hcard
      have hsub : b.seqPos s ⊆ Finset.Icc ((b.seqPos s).min' hne) ((b.seqPos s).max' hne) :=
        fun p hp => Finset.mem_Icc.2 ⟨Finset.min'_le _ p hp, Finset.le_max' _ p hp⟩
      have heq := Finset.eq_of_subset_of_card_le hsub (by rw [Int.card_Icc]; omega)
      rw [heq, Finset.coe_Icc]
      exact Set.ordConnected_Icc

lemma SeqConsistent.isLeast (h : b.SeqConsistent mem s) (htoken : b.token.isSome)
    (hmem : 0 ≤ mem.max s) (hne : (b.seqPos s).Nonempty) :
    IsLeast (b.seqPos s : Set ℤ) (mem.max s + 1) := by
  rcases h with hempty | ⟨hstart, -⟩
  · exact absurd hempty hne.ne_empty
  · have hmin : b.seqPosMin s = mem.max s + 1 := by
      rcases hstart hmem with hmin | ⟨hnone, -⟩
      · exact hmin
      · rw [Option.isNone_iff_eq_none] at hnone
        rw [hnone] at htoken
        cases htoken
    rw [Batch.seqPosMin, dif_pos hne] at hmin
    rw [← hmin]
    exact ⟨Finset.mem_coe.2 (Finset.min'_mem _ hne), fun p hp => Finset.min'_le _ p hp⟩

end Batch

namespace KvCache

variable {cfg : KvConfig} {k : KvCache} {b : Batch} {mem : MemBounds} {us : List UBatch}
  {sp : Splitter} {nUbatch nSeqMax nEmbd nPosPerEmbd : ℕ}

lemma window_extend {L : Set (SeqId × ℤ)} (h : k.Ok cfg) (hhome : Homed cfg k)
    (hb : b.Checked (k.bounds cfg)) (htoken : b.token.isSome) (hswa : 0 < cfg.nSwa)
    (hrestart : cfg.nSwa = 1 → ∀ e ∈ L, k.positions cfg e.1 = ∅ → ∀ p ∈ b.seqPos e.1, e.2 < p)
    (hinv : WindowStore.Inv cfg.nSwa (k.positions cfg) (fun _ => ∅) L) :
    WindowStore.Inv cfg.nSwa (k.positions cfg) (fun s => (b.seqPos s : Set ℤ)) L := by
  refine hinv.extend (finite_positions cfg k) (fun s => (hb.consistent s).ordConnected)
    (fun s hne M hM => ?_) (by exact_mod_cast hswa) fun hone => hrestart (by exact_mod_cast hone)
  obtain rfl := (seqPosMax_isGreatest h hhome ⟨M, hM.1⟩).unique hM
  exact (hb.consistent s).isLeast htoken (positions_nonneg h hM.1) (Finset.coe_nonempty.1 hne)

end KvCache

/-! ## Runs -/

/-- A run with the overwritten entries so far. -/
structure WindowRun where
  machine : KvMachine
  lost : Set (SeqId × ℤ)

/-- What the next `apply_ubatch` overwrites. -/
def KvMachine.nextOverwritten (m : KvMachine) : Set (SeqId × ℤ) :=
  match m.todo with
  | [] => ∅
  | e :: _ => m.cache.overwritten e.1

/-- The positions of a sequence in the pending ubatches. -/
def KvMachine.pending (m : KvMachine) : SeqId → Set ℤ :=
  KvCache.tokenPositions (m.todo.map Prod.snd)

namespace WindowRun

open KvCache

variable {cfg : KvConfig} {rope : KvLayer → ℤ → (ℕ → UInt8) → ℕ → UInt8} {r r' : WindowRun}
  {op : KvOp}

def start (cfg : KvConfig) : WindowRun := ⟨.start cfg, ∅⟩

/-- A step of the machine; what `apply_ubatch` overwrites is remembered. -/
def step (rope : KvLayer → ℤ → (ℕ → UInt8) → ℕ → UInt8) (cfg : KvConfig) (r : WindowRun)
    (op : KvOp) : Option WindowRun :=
  (r.machine.step rope cfg op).map fun m => ⟨m, match op with
    | .apply _ _ => r.lost ∪ r.machine.nextOverwritten
    | _ => r.lost⟩

/-- A decode of tokens, with the bounds of the cache itself and the splitter that a cache with
several streams uses; the ubatches are applied until one fails or the decode returns early. -/
def Decodes (cfg : KvConfig) (r : WindowRun) : KvOp → Prop
  | .decode d => d.mem = r.machine.cache.bounds cfg ∧ d.inp.token.isSome ∧
      (1 < cfg.nStream → d.sp = .equal true)
  | .apply _ _ => True
  | .abandon => True
  | _ => False

/-- What an accepted and split batch must satisfy: proper tokens, positions that increase from
ubatch to ubatch, a `prepare` that takes only oldest positions out of the cache, and, with a window
of one position, no restart of a sequence behind an overwritten position. -/
structure OrderlyBatch (rope : KvLayer → ℤ → (ℕ → UInt8) → ℕ → UInt8) (cfg : KvConfig)
    (r : WindowRun) (ok : Bool) (b : Batch) (us : List UBatch) : Prop where
  proper : b.Proper
  lt_posMax : ∀ i < b.nTokens, b.pos i < posMax
  ahead : us.Pairwise UBatch.Ahead
  prepared : ∀ s, WindowStore.KeepsNewest (r.machine.cache.positions cfg s)
    (((r.machine.cache.update rope cfg ok).prepare cfg us).1.positions cfg s)
  restart : cfg.nSwa = 1 → ∀ e ∈ r.lost, r.machine.cache.positions cfg e.1 = ∅ →
    ∀ p ∈ b.seqPos e.1, e.2 < p

def Orderly (rope : KvLayer → ℤ → (ℕ → UInt8) → ℕ → UInt8) (cfg : KvConfig) (r : WindowRun)
    (op : KvOp) : Prop :=
  r.Decodes cfg op ∧ ∀ d, op = .decode d →
    ∀ b us, d.inp.init d.mem d.nVocab cfg.batchSeqMax d.outputAll = some b →
      splitBatch d.sp d.nUbatch cfg.batchSeqMax d.nEmbd d.nPosPerEmbd b = some us →
        OrderlyBatch rope cfg r d.okUpdate b us

/-- Nothing that was overwritten, or is with the next ubatch, is in the window of a token that is
still to be computed. -/
def NothingMissed (cfg : KvConfig) (r : WindowRun) : Prop :=
  ∀ e ∈ r.lost ∪ r.machine.nextOverwritten, ∀ p ∈ r.machine.pending e.1, cfg.IsMaskedSwa e.2 p

/-- The positions of a sequence in the cache are those from `seq_pos_min` to `seq_pos_max`. -/
def Contiguous (cfg : KvConfig) (k : KvCache) : Prop :=
  ∀ s, (k.positions cfg s).Nonempty →
    k.positions cfg s = Set.Icc (k.seqPosMin cfg s) (k.seqPosMax cfg s)

/-- The invariant of an orderly run. -/
structure Kept (cfg : KvConfig) (r : WindowRun) : Prop where
  ok : r.machine.cache.Ok cfg
  homed : Homed cfg r.machine.cache
  todo : ∀ e ∈ r.machine.todo, (SlotFits cfg.kvSize e.1 e.2 ∧ e.2.Proper) ∧
    SlotHomes cfg e.1 e.2 ∧ ∀ i < e.2.nTokens, e.2.pos i < posMax
  ahead : (r.machine.todo.map Prod.snd).Pairwise UBatch.Ahead
  reuses : ReusesAll cfg r.machine.cache r.machine.todo
  window : WindowStore.Inv cfg.nSwa (r.machine.cache.positions cfg) r.machine.pending r.lost

lemma pending_nil {m : KvMachine} (h : m.todo = []) : m.pending = fun _ => ∅ := by
  funext s
  rw [KvMachine.pending, h]
  exact tokenPositions_nil s

lemma nextOverwritten_cons {m : KvMachine} {e : SlotInfo × UBatch}
    {rest : List (SlotInfo × UBatch)} (h : m.todo = e :: rest) :
    m.nextOverwritten = m.cache.overwritten e.1 := by
  rw [KvMachine.nextOverwritten, h]

lemma kept_idle {k : KvCache} {L : Set (SeqId × ℤ)} (hok : k.Ok cfg) (hhome : Homed cfg k)
    (hinv : WindowStore.Inv cfg.nSwa (k.positions cfg) (fun _ => ∅) L) :
    Kept cfg ⟨⟨k, []⟩, L⟩ where
  ok := hok
  homed := hhome
  todo _ he := absurd he List.not_mem_nil
  ahead := .nil
  reuses := trivial
  window := by
    rw [pending_nil rfl]
    exact hinv

lemma kept_start (cfg : KvConfig) : Kept cfg (start cfg) := by
  have hnone : ∀ st j, ((KvCache.new cfg).cell st j).seq = ∅ := fun _ _ => rfl
  have hpos : (KvCache.new cfg).positions cfg = fun _ => ∅ :=
    funext (positions_eq_empty fun st _ j _ => hnone st j)
  refine kept_idle (ok_new cfg) (fun st j _ s hs => ?_) ?_
  · exact absurd (hnone st j ▸ hs) (Finset.notMem_empty s)
  · rw [hpos]
    exact WindowStore.inv_empty _

lemma Kept.reusable (h : r.Kept cfg) (hswa : cfg.swaType = .standard) :
    WindowStore.Reusable cfg.nSwa (r.machine.cache.positions cfg) r.machine.nextOverwritten := by
  have hreuses := h.reuses
  unfold KvMachine.nextOverwritten
  cases htodo : r.machine.todo with
  | nil => exact fun _ he => he.elim
  | cons e rest =>
    rw [htodo] at hreuses
    exact hreuses.1.reusable hswa

lemma Kept.overwritten_le (h : r.Kept cfg) (hswa : cfg.swaType = .standard) {e : SeqId × ℤ}
    (he : e ∈ r.lost ∪ r.machine.nextOverwritten) {p : ℤ} (hp : p ∈ r.machine.pending e.1) :
    e.2 + cfg.nSwa ≤ p :=
  h.window.reused_pending (finite_positions cfg _) (h.reusable hswa) he hp

theorem Kept.windowKept (h : r.Kept cfg) (hswa : cfg.swaType = .standard) :
    r.NothingMissed cfg ∧ Contiguous cfg r.machine.cache := by
  constructor
  · intro e he p hp
    rw [KvConfig.IsMaskedSwa, hswa]
    have := h.overwritten_le hswa he hp
    change (cfg.nSwa : ℤ) ≤ p - e.2
    omega
  · intro s hne
    have hconn := h.window.idle.connected s
    rw [Set.union_empty] at hconn
    exact WindowStore.eq_Icc_of_ordConnected hconn (seqPosMin_isLeast h.ok h.homed hne)
      (seqPosMax_isGreatest h.ok h.homed hne)

/-! ## The steps -/

section Step

variable {e : SlotInfo × UBatch} {rest : List (SlotInfo × UBatch)}

lemma Kept.applied (hp : ¬ cfg.PrefixSliding) (hswa : cfg.swaType = .standard) (h : r.Kept cfg)
    (htodo : r.machine.todo = e :: rest) :
    (r.machine.cache.applyUbatch cfg e.1 e.2).Ok cfg ∧
      Homed cfg (r.machine.cache.applyUbatch cfg e.1 e.2) ∧
      (r.machine.cache.applyUbatch cfg e.1 e.2).positions cfg
        = WindowStore.place (r.machine.cache.positions cfg) r.machine.nextOverwritten
          (tokenPositions [e.2]) ∧
      WindowStore.Inv cfg.nSwa ((r.machine.cache.applyUbatch cfg e.1 e.2).positions cfg)
        (tokenPositions (rest.map Prod.snd)) (r.lost ∪ r.machine.nextOverwritten) ∧
      ReusesAll cfg (r.machine.cache.applyUbatch cfg e.1 e.2) rest := by
  obtain ⟨⟨hfit, hproper⟩, hhomes, -⟩ := h.todo e (htodo ▸ List.mem_cons_self)
  have hreuses := h.reuses
  have hahead := h.ahead
  have hwindow := h.window
  rw [htodo] at hreuses hahead
  rw [KvMachine.pending, htodo] at hwindow
  obtain ⟨hreuse, hrest⟩ := hreuses
  obtain ⟨hpos, hinv⟩ := window_apply hp hswa h.ok hfit hproper h.homed hhomes hreuse
    (List.pairwise_cons.1 hahead).1 hwindow
  rw [nextOverwritten_cons htodo]
  exact ⟨h.ok.applyUbatch hfit hproper, h.homed.applyUbatch hp h.ok hfit hproper hhomes, hpos, hinv,
    hrest⟩

lemma Kept.apply (hp : ¬ cfg.PrefixSliding) (hswa : cfg.swaType = .standard) (h : r.Kept cfg)
    (htodo : r.machine.todo = e :: rest) (data : KvData) :
    Kept cfg ⟨⟨r.machine.cache.computed cfg e.1 e.2 data, rest⟩,
      r.lost ∪ r.machine.nextOverwritten⟩ := by
  obtain ⟨hok, hhome, -, hinv, hreuses⟩ := h.applied hp hswa htodo
  have hok' : (r.machine.cache.computed cfg e.1 e.2 data).Ok cfg := hok.of_cells rfl
  have htodo' := fun x hx => h.todo x (htodo ▸ List.mem_cons_of_mem e hx)
  refine ⟨hok', hhome, htodo', ?_, ?_, hinv⟩
  · have hahead := h.ahead
    rw [htodo] at hahead
    exact (List.pairwise_cons.1 hahead).2
  · exact hreuses.congr hp hok hok' (fun x hx => (htodo' x hx).1) (fun _ _ _ => subset_rfl)
      fun _ _ _ => subset_rfl

/-- The positions that the clean-up after a failed computation starts from. -/
def failedFrom (u : UBatch) (s : SeqId) : Set ℤ :=
  {p | ∃ i < u.nTokens, (u.seqId i).head = s ∧ u.pos i = p}

lemma failedFrom_subset (u : UBatch) (s : SeqId) : failedFrom u s ⊆ tokenPositions [u] s := by
  rintro p ⟨i, hi, rfl, rfl⟩
  exact ⟨u, List.mem_cons_self, i, hi, List.mem_toFinset.2 (u.seqId i).head_mem, rfl⟩

lemma removeFailed_positions {k : KvCache} (h : k.Ok cfg) (hhome : Homed cfg k) (u : UBatch)
    (hlt : ∀ s, ∀ c ∈ k.positions cfg s, ∀ f ∈ failedFrom u s, f ≤ c → c < posMax) :
    (k.removeFailed cfg u).positions cfg
      = fun s => {c ∈ k.positions cfg s | ∀ f ∈ failedFrom u s, c < f} := by
  funext s
  ext c
  have hentries : ∀ st j, ((k.removeFailed cfg u).cell st j).entries
      = {e ∈ (k.cell st j).entries | ¬ Removes cfg u e.1 st j (k.cell st j).pos} := fun st j => by
    rw [removeFailed_cell h.sized, Cell.entries_keepOnly]
  constructor
  · rintro ⟨st, hst, j, hj, he⟩
    rw [hentries] at he
    obtain ⟨hmem, hkept⟩ := he
    have hc : c ∈ k.positions cfg s := ⟨st, hst, j, hj, hmem⟩
    refine ⟨hc, ?_⟩
    rintro f ⟨i, hi, hhead, rfl⟩
    by_contra hle
    rw [not_lt] at hle
    refine hkept ⟨⟨(hhome st j hj s hmem.1).symm, hj⟩, ?_, i, hi, hhead, hmem.2 ▸ hle⟩
    rw [hmem.2]
    exact ⟨positions_nonneg h hc, hlt s c hc _ ⟨i, hi, hhead, rfl⟩ hle⟩
  · rintro ⟨⟨st, hst, j, hj, hmem⟩, hkept⟩
    refine ⟨st, hst, j, hj, ?_⟩
    rw [hentries]
    refine ⟨hmem, ?_⟩
    rintro ⟨-, -, i, hi, hhead, hle⟩
    rw [hmem.2] at hle
    exact absurd (hkept _ ⟨i, hi, hhead, rfl⟩) (not_lt.2 hle)

lemma Kept.fail (hp : ¬ cfg.PrefixSliding) (hswa : cfg.swaType = .standard) (h : r.Kept cfg)
    (htodo : r.machine.todo = e :: rest) (data : KvData) :
    Kept cfg ⟨⟨(r.machine.cache.computed cfg e.1 e.2 data).removeFailed cfg e.2, []⟩,
      r.lost ∪ r.machine.nextOverwritten⟩ := by
  obtain ⟨hok, hhome, hpos, hinv, -⟩ := h.applied hp hswa htodo
  obtain ⟨-, -, hlt⟩ := h.todo e (htodo ▸ List.mem_cons_self)
  set k := r.machine.cache.computed cfg e.1 e.2 data with hk
  have hok' : k.Ok cfg := hok.of_cells rfl
  have hpos' : k.positions cfg = WindowStore.place (r.machine.cache.positions cfg)
      r.machine.nextOverwritten (tokenPositions [e.2]) := hpos
  have hinv' : WindowStore.Inv cfg.nSwa (k.positions cfg) (tokenPositions (rest.map Prod.snd))
      (r.lost ∪ r.machine.nextOverwritten) := hinv
  have hpending : ∀ s, tokenPositions [e.2] s ⊆ r.machine.pending s := fun s p hp => by
    rw [KvMachine.pending, htodo, List.map_cons, tokenPositions_cons]
    exact .inl hp
  have hcut := removeFailed_positions hok' hhome e.2 fun s c hc f hf hle => by
    rw [hpos'] at hc
    rcases hc with ⟨hc, -⟩ | ⟨u, hu, i, hi, -, rfl⟩
    · exact absurd (h.window.before s c hc f (hpending s (failedFrom_subset e.2 s hf)))
        (not_lt.2 hle)
    · obtain rfl := List.mem_singleton.1 hu
      exact hlt i hi
  have hin : Within cfg (k.removeFailed cfg e.2) k := fun st j _ => by
    rw [removeFailed_cell hok'.sized, Cell.entries_keepOnly]
    exact Set.sep_subset _ _
  have hclean := KvMachine.removeFailed_inv (P := fun k => k.Ok cfg) hok' e.2
    fun k s p0 hk => hk.seqRm (some s) p0 (-1)
  have hkept := hinv'.cut (F := failedFrom e.2) (fun s p hp => ?_) (fun x hx f hf => ?_)
    fun hw x hx => ?_
  · rw [← hcut] at hkept
    generalize k.removeFailed cfg e.2 = k' at hin hclean hkept
    exact kept_idle hclean (hin.homed hhome) hkept
  · rw [hpos']
    exact .inr (failedFrom_subset e.2 s hp)
  · exact h.overwritten_le hswa hx (hpending x.1 (failedFrom_subset e.2 x.1 hf))
  · -- the newest position before the ubatch survives
    obtain ⟨M, hM, hmem⟩ := h.window.newest_mem_place (N := tokenPositions [e.2])
      (finite_positions cfg _) (h.reusable hswa) hw hx
    refine ⟨M, hpos' ▸ hmem, fun f hf => ?_⟩
    exact h.window.before x.1 M hM.1 f (hpending x.1 (failedFrom_subset e.2 x.1 hf))

end Step

lemma Kept.decode (hp : ¬ cfg.PrefixSliding) (hn : 0 < cfg.nSwa) (h : r.Kept cfg)
    {d : DecodeArgs} (hok : r.Orderly rope cfg (.decode d))
    (htodo : r.machine.todo = []) {m : KvMachine} (hm : r.machine.decode rope cfg d = some m) :
    Kept cfg ⟨m, r.lost⟩ := by
  obtain ⟨⟨hmem, htoken, hsp⟩, horder⟩ := hok
  have hidle := h.window
  rw [pending_nil htodo] at hidle
  set k := r.machine.cache with hk
  set k₁ := k.update rope cfg d.okUpdate with hk₁
  have hsame : ∀ st j, (k₁.cell st j).entries = (k.cell st j).entries :=
    update_entries rope k d.okUpdate
  have hpos : k₁.positions cfg = k.positions cfg := positions_congr hsame
  have hok₁ : k₁.Ok cfg := h.ok.update d.okUpdate
  have hin : Within cfg k₁ k := fun st j _ => (hsame st j).le
  have hhome₁ : Homed cfg k₁ := hin.homed h.homed
  rcases KvMachine.decode_cases hm with rfl | ⟨b, hb, rfl | ⟨us, hus, hassert, hcache, htodo'⟩⟩
  · exact h
  · rw [htodo]
    exact kept_idle hok₁ hhome₁ (hpos ▸ hidle)
  · have hbatch := horder d rfl b us hb hus
    obtain ⟨hacc, -⟩ := BatchInp.init_eq_some (batchSeqMax_pos cfg) hb
    have hready : ∀ u ∈ KvMachine.tried cfg k₁ us, u.Ready cfg := fun u hu =>
      ready_of_split hbatch.proper hacc hus hsp (List.mem_of_mem_take hu) (hassert u hu)
    have hprep := @KvMachine.prepare_tried cfg us k₁
    have hok' : (k₁.prepare cfg us).1.Ok cfg := by
      rw [← hprep.1]
      exact hok₁.prepare _ fun u hu => ⟨(hready u hu).placeable, (hready u hu).proper⟩
    have hin' : Within cfg (k₁.prepare cfg us).1 k₁ := by
      rw [← hprep.1]
      exact (prepare_fades _ k₁ hok₁.sized fun u hu => (hready u hu).placeable).2.within
    have hhome' := hin'.homed hhome₁
    have htoken' : b.token.isSome := by
      rw [KvMachine.init_eq_completed hb]
      exact htoken
    have hwindow := window_extend h.ok h.homed (hmem ▸ hacc.toChecked) htoken' hn hbatch.restart
      hidle
    have htokens : (fun s => (b.seqPos s : Set ℤ)) = tokenPositions us :=
      funext fun s => (tokenPositions_splitBatch hus s).symm
    rw [htokens] at hwindow
    have hwindow' := hwindow.trim hbatch.prepared
    obtain ⟨cache, todo⟩ := m
    obtain rfl : cache = (k₁.prepare cfg us).1 := hcache
    rcases htodo' with rfl | ⟨sis, hsis, rfl⟩
    · exact kept_idle hok' hhome' hwindow'.idle
    · have htried := hprep.2 (by rw [hsis]; exact Option.some_ne_none sis)
      rw [htried] at hready
      have hfits := prepare_fits us hok₁.sized (fun u hu => (hready u hu).placeable) hsis
      have hmap : (sis.zip us).map Prod.snd = us := List.map_snd_zip hfits.length_eq.ge
      have hplan := prepare_planned us k₁ sis hsis
      refine ⟨hok', hhome', fun e he => ⟨⟨List.forall₂_iff_zip.1 hfits |>.2 he, ?_⟩,
        hplan.homes hready e he, fun i hi => ?_⟩, ?_, ?_, ?_⟩
      · exact (hready e.2 (List.of_mem_zip he).2).proper
      · obtain ⟨row, hrow, hrowpos, -⟩ := (splitBatch_of hus e.2 (List.of_mem_zip he).2).row i hi
        rw [hrowpos]
        exact hbatch.lt_posMax row hrow
      · change ((sis.zip us).map Prod.snd).Pairwise UBatch.Ahead
        rw [hmap]
        exact hbatch.ahead
      · refine reuses_of_follows hp hok₁ hok' hhome₁ hhome' hplan (prepare_follows hp us hok₁
          (fun u hu => ⟨(hready u hu).placeable, (hready u hu).proper⟩) hsis) hready fun s => ?_
        rw [hpos]
        exact (hbatch.prepared s).sameNewest
      · change WindowStore.Inv _ _ (tokenPositions ((sis.zip us).map Prod.snd)) _
        rw [hmap]
        exact hwindow'

theorem Kept.step (hp : ¬ cfg.PrefixSliding) (hswa : cfg.swaType = .standard) (hn : 0 < cfg.nSwa)
    (h : r.Kept cfg) (hok : r.Orderly rope cfg op) (hstep : r.step rope cfg op = some r') :
    r'.Kept cfg := by
  obtain ⟨m, hm, rfl⟩ := Option.map_eq_some_iff.1 hstep
  refine KvMachine.step_cases (P := fun op m => r.Orderly rope cfg op → Kept cfg ⟨m, match op with
    | .apply _ _ => r.lost ∪ r.machine.nextOverwritten
    | _ => r.lost⟩) (fun d m htodo hd hok => ?_) (fun data si u rest htodo _ => ?_)
    (fun data si u rest htodo _ => ?_) (fun _ => ?_) (fun op k htodo hk hok => ?_) hm hok
  · exact h.decode hp hn hok htodo hd
  · exact h.apply hp hswa htodo data
  · exact h.fail hp hswa htodo data
  · exact kept_idle h.ok h.homed h.window.idle
  · -- no call of the memory API is a decode
    cases op
    case decode | apply | abandon => cases hk
    all_goals exact hok.1.elim

/-- In every run of orderly decodes on a cache with a standard window, no token misses what was
overwritten, and the positions of every sequence are those between its reported bounds. -/
theorem windowKept_of_reaches (hp : ¬ cfg.PrefixSliding) (hswa : cfg.swaType = .standard)
    (hn : 0 < cfg.nSwa) (h : Reaches (step rope cfg) (Orderly rope cfg) (start cfg) r) :
    r.NothingMissed cfg ∧ Contiguous cfg r.machine.cache :=
  (h.invariant (kept_start cfg) fun _ _ _ hr hok hstep => hr.step hp hswa hn hok hstep).windowKept
    hswa

/-! ## Small runs -/

open KvMachine (swaStream)

/-- Five tokens of sequence `0`, at the next positions. -/
def fiveTokens : BatchInp := { oneToken with nTokens := 5 }

/-- The decode of a batch by a new cache, one token at a time. -/
def freshDecode (inp : BatchInp) : DecodeArgs :=
  { inp.firstDecode .simple 1 with mem := (KvCache.new swaStream).bounds swaStream }

lemma orderly_fiveTokens :
    (start swaStream).Orderly noRope swaStream (.decode (freshDecode fiveTokens)) := by
  refine ⟨⟨rfl, rfl, fun h => absurd h (by decide)⟩, ?_⟩
  rintro d ⟨⟩ b us hb hus
  obtain rfl := KvMachine.init_eq_completed hb
  have hproper : ∀ i, i < 5 → ((fiveTokens.completed
      ((KvCache.new swaStream).bounds swaStream) false).seqId i).toList.Nodup ∧
      0 ≤ (fiveTokens.completed ((KvCache.new swaStream).bounds swaStream) false).pos i ∧
      (fiveTokens.completed ((KvCache.new swaStream).bounds swaStream) false).pos i < posMax := by
    decide +kernel
  have hread : (splitBatch .simple 1 swaStream.batchSeqMax 0 1 (fiveTokens.completed
      ((KvCache.new swaStream).bounds swaStream) false)).all (fun us =>
        decide (us.Pairwise fun u v => ∀ i, i < u.nTokens → ∀ j, j < v.nTokens → u.pos i < v.pos j) &&
        decide (∀ st, st < swaStream.nStream → ∀ j, j < swaStream.kvSize →
          ((((KvCache.new swaStream).update noRope swaStream true).prepare swaStream us).1.cell
            st j).seq = ∅)) = true := by
    decide +kernel
  rw [show splitBatch .simple 1 swaStream.batchSeqMax 0 1 (fiveTokens.completed
    ((KvCache.new swaStream).bounds swaStream) false) = some us from hus, Option.all_some,
    Bool.and_eq_true] at hread
  obtain ⟨hahead, hempty⟩ := hread
  refine ⟨fun i hi => ⟨(hproper i hi).1, (hproper i hi).2.1⟩, fun i hi => (hproper i hi).2.2,
    (of_decide_eq_true hahead).imp fun huv s i hi j hj _ _ => huv i hi j hj, fun s => ?_,
    fun _ e he => he.elim⟩
  have hbefore : (KvCache.new swaStream).positions swaStream s = ∅ :=
    positions_eq_empty (fun _ _ _ _ => rfl) s
  have hafter := positions_eq_empty (of_decide_eq_true hempty) s
  change WindowStore.KeepsNewest ((KvCache.new swaStream).positions swaStream s)
    ((((KvCache.new swaStream).update noRope swaStream true).prepare swaStream us).1.positions
      swaStream s)
  rw [hbefore, hafter]
  exact .refl ∅

/-- The tokens are decoded and applied. -/
def decodedFive : List KvOp :=
  .decode (freshDecode fiveTokens) :: List.replicate 5 (.apply .zero true)

theorem windowKept_decodedFive : ∃ r,
    perform (step noRope swaStream) (start swaStream) decodedFive = some r ∧
      r.machine.cache.seqPosMin swaStream 0 = 1 ∧
        r.NothingMissed swaStream ∧ Contiguous swaStream r.machine.cache := by
  have hread : (perform (step noRope swaStream) (start swaStream) decodedFive).map
      (fun r => r.machine.cache.seqPosMin swaStream 0) = some 1 := by decide +kernel
  obtain ⟨r, hr, hmin⟩ := Option.map_eq_some_iff.1 hread
  obtain ⟨r₁, h₁, hrest⟩ := Option.bind_eq_some_iff.1 hr
  have hreach : Reaches (step noRope swaStream) (Orderly noRope swaStream) (start swaStream) r := by
    refine Reaches.perform (fun op hop s => ?_) (.snoc _ .start orderly_fiveTokens h₁) hrest
    obtain rfl := List.eq_of_mem_replicate hop
    exact ⟨trivial, fun d hd => by cases hd⟩
  exact ⟨r, hr, hmin, windowKept_of_reaches (by decide) rfl (by decide) hreach⟩

/-- The positions `2`, `0` and `1`, which `init` accepts. -/
def mixedTokens : BatchInp where
  nTokens := 3
  token := some fun _ => 0
  embd := none
  pos := some fun i => (i + 2) % 3
  seqId := none
  logits := none

/-- The first two ubatches of one token each are applied. -/
def decodedMixed : List KvOp :=
  .decode (freshDecode mixedTokens) :: List.replicate 2 (.apply .zero true)

/-- The positions `0` and `2` are present, and `1` is not. -/
theorem not_contiguous_decodedMixed : ∃ r,
    Reaches (step noRope swaStream) (Decodes swaStream) (start swaStream) r ∧
      ¬ Contiguous swaStream r.machine.cache := by
  have hread : (perform (step noRope swaStream) (start swaStream) decodedMixed).map
      (fun r => (r.machine.cache.seqPosMin swaStream 0, r.machine.cache.seqPosMax swaStream 0,
        decide ((r.machine.cache.cell 0 0).pos = 2 ∧ 0 ∈ (r.machine.cache.cell 0 0).seq ∧
          ∀ st, st < swaStream.nStream → ∀ j, j < swaStream.kvSize →
            (r.machine.cache.cell st j).pos ≠ 1))) = some (0, 2, true) := by
    decide +kernel
  obtain ⟨r, hr, hv⟩ := Option.map_eq_some_iff.1 hread
  obtain ⟨hmin, hrest⟩ := Prod.mk.inj hv
  obtain ⟨hmax, hcells⟩ := Prod.mk.inj hrest
  obtain ⟨hpos, hseq, hnone⟩ := of_decide_eq_true hcells
  obtain ⟨r₁, h₁, hr₁⟩ := Option.bind_eq_some_iff.1 hr
  have hfirst : (start swaStream).Decodes swaStream (.decode (freshDecode mixedTokens)) :=
    ⟨rfl, rfl, fun h => absurd h (by decide)⟩
  refine ⟨r, Reaches.perform (fun op hop s => ?_) (.snoc _ .start hfirst h₁) hr₁, fun hcont => ?_⟩
  · obtain rfl := List.eq_of_mem_replicate hop
    trivial
  · have hall := hcont 0 ⟨2, 0, by decide, 0, by decide, hseq, hpos⟩
    rw [hmin, hmax] at hall
    have hone : (1 : ℤ) ∈ r.machine.cache.positions swaStream 0 := by
      rw [hall]
      exact ⟨by decide, by decide⟩
    obtain ⟨st, hst, j, hj, -, hp⟩ := hone
    exact hnone st hst j hj hp

end WindowRun

end IFairy
