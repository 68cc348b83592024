import IFairy.Context.Outputs
import IFairy.KvCache.SplitSpec

/-!
# The rows of the output buffer

The buffer of a context holds `nMax` rows of logits and behind them, when there are embeddings,
`nMax` rows of embeddings (`Placed`).  Storing the outputs of a ubatch writes rows of both kinds and
leaves the others alone (`store_spec`), and `output_reorder` permutes the rows of both kinds as the
pending swaps say (`Placed.reorder`).
-/

namespace IFairy

namespace OutputCtx

variable {α : Type*} {p : OutputParams} {c c' : OutputCtx α} {nMax n w off : ℕ} {buf : ℕ → α}

/-! ## Rows of a flat buffer -/

lemma row_congr {buf buf' : ℕ → α} {off w r : ℕ}
    (h : ∀ a, off + r * w ≤ a → a < off + (r + 1) * w → buf a = buf' a) :
    row buf off w r = row buf' off w r := by
  funext k
  have hk := k.isLt
  refine h _ (by omega) ?_
  rw [Nat.succ_mul]
  omega

lemma mul_row_le {r n : ℕ} (h : r ≤ n) (w : ℕ) : r * w ≤ n * w := Nat.mul_le_mul_right w h

lemma row_storeAt (buf : ℕ → α) (off w prev : ℕ) (src : ℕ → α) {r : ℕ} (hr : r < n) :
    row (storeAt buf (off + prev * w) (n * w) src) off w (prev + r) = row src 0 w r := by
  funext k
  have hk := k.isLt
  have hle := mul_row_le (Nat.succ_le_of_lt hr) w
  rw [Nat.succ_mul] at hle
  have hadd : (prev + r) * w = prev * w + r * w := Nat.add_mul _ _ _
  have hoff : off + ((prev + r) * w + k) - (off + prev * w) = 0 + (r * w + k) := by omega
  unfold row storeAt
  rw [if_pos (by omega), hoff]

lemma storeAt_of_not_mem {a : ℕ} {src : ℕ → α} (h : a < off ∨ off + n ≤ a) :
    storeAt buf off n src a = buf a := if_neg (by omega)

lemma row_storeAt_of_lt (buf : ℕ → α) (off w prev m : ℕ) (src : ℕ → α) {r : ℕ} (hr : r < prev) :
    row (storeAt buf (off + prev * w) m src) off w r = row buf off w r := by
  refine row_congr fun a _ ha => storeAt_of_not_mem (Or.inl ?_)
  have hle : (r + 1) * w ≤ prev * w := mul_row_le hr w
  omega

lemma row_swapRows (buf : ℕ → α) (off w i j r : ℕ) :
    row (swapRows off w buf (i, j)) off w r = row buf off w (Equiv.swap i j r) := by
  -- after `m` floats have been swapped, the first `m` floats of each row are exchanged
  have hloop : ∀ m ≤ w, ∀ r k, k < w →
      (List.range m).foldl
        (fun buf k => buf ∘ Equiv.swap (off + (i * w + k)) (off + (j * w + k))) buf
        (off + (r * w + k)) =
      if k < m then buf (off + (Equiv.swap i j r * w + k)) else buf (off + (r * w + k)) := by
    intro m
    induction m with
    | zero => exact fun _ r k _ => rfl
    | succ m ih =>
      intro hm r k hk
      rw [List.range_succ, List.foldl_append, List.foldl_cons, List.foldl_nil, Function.comp_apply]
      have hne : ∀ x, (x ≠ r ∨ k ≠ m) → off + (r * w + k) ≠ off + (x * w + m) := by
        intro x hx heq
        obtain ⟨hrx, hkm⟩ := mul_add_inj hk (show m < w by omega) (Nat.add_left_cancel heq)
        exact hx.elim (fun h => h hrx.symm) fun h => h hkm
      by_cases hkm : k = m
      · subst hkm
        rw [if_pos k.lt_succ_self]
        by_cases hri : r = i
        · subst hri
          rw [Equiv.swap_apply_left, Equiv.swap_apply_left, ih (by omega) j k hk,
            if_neg (lt_irrefl k)]
        · by_cases hrj : r = j
          · subst hrj
            rw [Equiv.swap_apply_right, Equiv.swap_apply_right, ih (by omega) i k hk,
              if_neg (lt_irrefl k)]
          · rw [Equiv.swap_apply_of_ne_of_ne (hne i (Or.inl (Ne.symm hri)))
              (hne j (Or.inl (Ne.symm hrj))), Equiv.swap_apply_of_ne_of_ne hri hrj,
              ih (by omega) r k hk, if_neg (lt_irrefl k)]
      · rw [Equiv.swap_apply_of_ne_of_ne (hne i (Or.inr hkm)) (hne j (Or.inr hkm)),
          ih (by omega) r k hk]
        exact if_congr (by omega) rfl rfl
  funext k
  rw [row, swapRows, hloop w le_rfl r k k.isLt, if_pos k.isLt]
  rfl

lemma swapRows_of_not_mem (buf : ℕ → α) {off w i j n a : ℕ} (hi : i < n) (hj : j < n)
    (ha : a < off ∨ off + n * w ≤ a) : swapRows off w buf (i, j) a = buf a := by
  have hi' := mul_row_le (Nat.succ_le_of_lt hi) w
  have hj' := mul_row_le (Nat.succ_le_of_lt hj) w
  rw [Nat.succ_mul] at hi' hj'
  refine foldl_read_of_not_cover
    (fun buf k => buf ∘ Equiv.swap (off + (i * w + k)) (off + (j * w + k))) (fun buf => buf a)
    (fun k hk buf => ?_) buf
  have hk := List.mem_range.1 hk
  rw [Function.comp_apply, Equiv.swap_apply_of_ne_of_ne (by omega) (by omega)]

/-! ## The layout of the buffer -/

/-- The buffer has room for `nMax` outputs, of which `n_outputs` are in use. -/
structure Placed (p : OutputParams) (nMax : ℕ) (c : OutputCtx α) : Prop where
  logitsSize : c.logitsSize = p.nVocab * nMax
  embdSize : c.embdSize = if p.hasEmbd then p.nEmbd * nMax else 0
  logits : c.logits = some 0
  embd : c.embd = if p.hasEmbd then some (p.nVocab * nMax) else none

/-- Row `r` of the logits. -/
def logitsRow (p : OutputParams) (c : OutputCtx α) : ℕ → Fin p.nVocab → α := row c.buf 0 p.nVocab

/-- Row `r` of the embeddings of a buffer with `nMax` outputs. -/
def embdRow (p : OutputParams) (nMax : ℕ) (c : OutputCtx α) : ℕ → Fin p.nEmbd → α :=
  row c.buf (p.nVocab * nMax) p.nEmbd

lemma Placed.withOutputs (h : Placed p nMax c) (n : ℕ) : Placed p nMax { c with nOutputs := n } :=
  ⟨h.logitsSize, h.embdSize, h.logits, h.embd⟩

/-- A reservation that found memory. -/
structure Reserved (p : OutputParams) (n : ℕ) (c : OutputCtx α) (r : ℕ × OutputCtx α) : Prop where
  size : r.1 = max n p.nSeqMax
  placed : Placed p (max n p.nSeqMax) r.2
  nOutputs : r.2.nOutputs = 0
  outputIds : r.2.outputIds = fun _ => -1
  outputSwaps : r.2.outputSwaps = c.outputSwaps
  bufSize : r.2.bufSize.isSome

lemma outputReserve_nIds (p : OutputParams) (alloc : Option (ℕ → α)) (n : ℕ) (c : OutputCtx α) :
    (c.outputReserve p alloc n).2.nIds = if c.nIds = 0 then p.nBatch else c.nIds := by
  have hite : ∀ (q : Prop) [Decidable q] (x y : ℕ × OutputCtx α), x.2.nIds = y.2.nIds →
      (if q then x else y).2.nIds = y.2.nIds := by
    intro q _ x y h
    split_ifs
    · exact h
    · rfl
  unfold outputReserve
  dsimp only
  split
  · exact hite _ _ _ rfl
  · exact hite _ _ _ rfl
  · rfl
  · rfl

lemma outputReserve_reserved (p : OutputParams) (fresh : ℕ → α) (n : ℕ) (c : OutputCtx α) :
    Reserved p n c (c.outputReserve p (some fresh) n) := by
  unfold outputReserve
  cases hsize : c.bufSize with
  | none => exact ⟨rfl, ⟨rfl, rfl, rfl, rfl⟩, rfl, rfl, rfl, rfl⟩
  | some size =>
    by_cases hlt : size < p.nVocab * max n p.nSeqMax +
        if p.hasEmbd then p.nEmbd * max n p.nSeqMax else 0
    · dsimp only
      rw [if_pos hlt]
      exact ⟨rfl, ⟨rfl, rfl, rfl, rfl⟩, rfl, rfl, rfl, rfl⟩
    · dsimp only
      rw [if_neg hlt]
      exact ⟨rfl, ⟨rfl, rfl, rfl, rfl⟩, rfl, rfl, rfl, rfl⟩

lemma outputReserve_none (p : OutputParams) (n : ℕ) {c : OutputCtx α}
    (h : c.bufSize = none → c.logits = none) :
    Reserved p n c (c.outputReserve p none n) ∨
      (c.outputReserve p none n).2.logits = none ∧ (c.outputReserve p none n).2.bufSize = none := by
  unfold outputReserve
  cases hsize : c.bufSize with
  | none => exact Or.inr ⟨h hsize, rfl⟩
  | some size =>
    by_cases hlt : size < p.nVocab * max n p.nSeqMax +
        if p.hasEmbd then p.nEmbd * max n p.nSeqMax else 0
    · dsimp only
      rw [if_pos hlt]
      exact Or.inr ⟨rfl, rfl⟩
    · dsimp only
      rw [if_neg hlt]
      exact Or.inl ⟨rfl, ⟨rfl, rfl, rfl, rfl⟩, rfl, rfl, rfl, rfl⟩

/-! ## Storing the outputs of a ubatch -/

/-- The buffer after an extraction of `n` rows behind `prev` others. -/
def extracted (buf : ℕ → α) (off w prev n : ℕ) : Option (ℕ → α) → ℕ → α
  | none => buf
  | some src => storeAt buf (off + prev * w) (n * w) src

lemma extract_spec {base : Option ℕ} {size nAll prev : ℕ} {t : Option (ℕ → α)} (c : OutputCtx α)
    (hbase : t.isSome → base = some off) (hle : prev + c.nOutputs ≤ nAll)
    (hsize : t.isSome → (prev + c.nOutputs) * w ≤ size) :
    extract base size w nAll prev t c =
      some { c with buf := extracted c.buf off w prev c.nOutputs t } := by
  cases t with
  | none => rfl
  | some src =>
    unfold extract
    dsimp only
    by_cases hzero : c.nOutputs = 0
    · have hbuf : extracted c.buf off w prev c.nOutputs (some src) = c.buf := by
        funext a
        rw [hzero, extracted, Nat.zero_mul]
        exact storeAt_of_not_mem (by omega)
      rw [if_pos hzero, hbuf]
    · rw [if_neg hzero, hbase rfl]
      dsimp only
      rw [if_pos ⟨hle, hsize rfl⟩]
      rfl

lemma extract_frame {base : Option ℕ} {size nAll prev : ℕ} {t : Option (ℕ → α)}
    (h : extract base size w nAll prev t c = some c') : ∃ buf, c' = { c with buf := buf } := by
  unfold extract at h
  split at h
  · exact ⟨c.buf, (Option.some.inj h).symm⟩
  · split at h
    · exact ⟨c.buf, (Option.some.inj h).symm⟩
    · split at h
      · cases h
      · split at h
        · exact ⟨_, (Option.some.inj h).symm⟩
        · cases h

lemma store_frame {nAll prev : ℕ} {res : GraphResult α} (h : c.store p nAll prev res = some c') :
    ∃ buf, c' = { c with buf := buf } := by
  obtain ⟨c₁, hlogits, hembd⟩ := Option.bind_eq_some_iff.1 h
  obtain ⟨buf₁, rfl⟩ := extract_frame hlogits
  dsimp only at hembd
  split at hembd
  · obtain ⟨buf₂, rfl⟩ := extract_frame hembd
    exact ⟨buf₂, rfl⟩
  all_goals first
    | exact ⟨buf₁, (Option.some.inj hembd).symm⟩
    | split at hembd
      · cases hembd
      · exact ⟨buf₁, (Option.some.inj hembd).symm⟩

lemma row_extracted (buf : ℕ → α) (off w prev : ℕ) (src : ℕ → α) {r : ℕ} (hr : r < n) :
    row (extracted buf off w prev n (some src)) off w (prev + r) = row src 0 w r :=
  row_storeAt buf off w prev src hr

lemma row_extracted_of_lt (t : Option (ℕ → α)) {prev r : ℕ} (hr : r < prev) :
    row (extracted buf off w prev n t) off w r = row buf off w r := by
  cases t with
  | none => rfl
  | some src => exact row_storeAt_of_lt buf off w prev _ src hr

lemma extracted_of_not_mem (t : Option (ℕ → α)) {prev a : ℕ}
    (h : a < off ∨ off + (prev + n) * w ≤ a) : extracted buf off w prev n t a = buf a := by
  rw [Nat.add_mul] at h
  cases t with
  | none => rfl
  | some src => exact storeAt_of_not_mem (by omega)

/-- The tensor of which token embeddings are stored. -/
def tokenEmbd (p : OutputParams) (res : GraphResult α) : Option (ℕ → α) :=
  if p.poolingType = .none then embdTensor p res else none

lemma hasEmbd_of_tokenEmbd {res : GraphResult α} (h : (tokenEmbd p res).isSome) :
    p.hasEmbd = true := by
  unfold tokenEmbd embdTensor at h
  rw [OutputParams.hasEmbd]
  cases hembd : p.embeddings with
  | true => rfl
  | false => simp [hembd] at h

/-- What storing the outputs of a ubatch behind `prev` others does. -/
structure Stored (p : OutputParams) (nMax prev : ℕ) (res : GraphResult α)
    (c c' : OutputCtx α) : Prop where
  eq : c' = { c with buf := c'.buf }
  earlier : ∀ r < prev, logitsRow p c' r = logitsRow p c r ∧ embdRow p nMax c' r = embdRow p nMax c r
  logits : ∀ src ∈ res.tLogits, ∀ r < c.nOutputs, logitsRow p c' (prev + r) = row src 0 p.nVocab r
  embd : ∀ src ∈ tokenEmbd p res, ∀ r < c.nOutputs,
    embdRow p nMax c' (prev + r) = row src 0 p.nEmbd r

theorem store_spec {nAll prev : ℕ} (res : GraphResult α) (hc : Placed p nMax c)
    (hle : prev + c.nOutputs ≤ nAll) (hmax : nAll ≤ nMax) :
    ∃ c', c.store p nAll prev res = some c' ∧ Stored p nMax prev res c c' := by
  have hrows : (prev + c.nOutputs) * p.nVocab ≤ p.nVocab * nMax := by
    rw [Nat.mul_comm p.nVocab]
    exact mul_row_le (hle.trans hmax) _
  have hlogits := extract_spec (w := p.nVocab) (t := res.tLogits) c (fun _ => hc.logits) hle
    fun _ => hc.logitsSize ▸ hrows
  set buf₁ := extracted c.buf 0 p.nVocab prev c.nOutputs res.tLogits with hbuf₁
  set buf₂ := extracted buf₁ (p.nVocab * nMax) p.nEmbd prev c.nOutputs (tokenEmbd p res) with hbuf₂
  have hstore : c.store p nAll prev res = some { c with buf := buf₂ } := by
    unfold store
    rw [hlogits, Option.bind_some]
    dsimp only
    by_cases hpool : p.poolingType = .none
    · have htoken : tokenEmbd p res = embdTensor p res := if_pos hpool
      rw [hpool]
      dsimp only
      rw [hbuf₂, htoken]
      refine extract_spec (c := { c with buf := buf₁ }) (fun ht => ?_) hle fun ht => ?_
      · rw [hc.embd, if_pos (hasEmbd_of_tokenEmbd (htoken ▸ ht))]
      · rw [hc.embdSize, if_pos (hasEmbd_of_tokenEmbd (htoken ▸ ht)), Nat.mul_comm p.nEmbd]
        exact mul_row_le (hle.trans hmax) _
    · have htoken : tokenEmbd p res = none := if_neg hpool
      rw [hbuf₂, htoken]
      cases htype : p.poolingType with
      | none => exact absurd htype hpool
      | unspecified => exact absurd htype p.poolingType_ne
      | mean => rfl
      | cls => rfl
      | last => rfl
      | rank => rfl
  -- the second extraction starts behind the logits
  have hlogitsRow : ∀ r < nMax, row buf₂ 0 p.nVocab r = row buf₁ 0 p.nVocab r := by
    intro r hr
    refine row_congr fun a _ ha => extracted_of_not_mem _ (Or.inl ?_)
    have hle : (r + 1) * p.nVocab ≤ nMax * p.nVocab := mul_row_le hr _
    rw [Nat.mul_comm p.nVocab]
    omega
  have hembdRow : ∀ r, row buf₁ (p.nVocab * nMax) p.nEmbd r = row c.buf (p.nVocab * nMax) p.nEmbd r := by
    intro r
    refine row_congr fun a ha _ => extracted_of_not_mem _ (Or.inr ?_)
    omega
  refine ⟨_, hstore, rfl, fun r hr => ⟨?_, ?_⟩, fun src hsrc r hr => ?_, fun src hsrc r hr => ?_⟩
  · exact (hlogitsRow r (by omega)).trans (row_extracted_of_lt _ hr)
  · exact (row_extracted_of_lt _ hr).trans (hembdRow r)
  · refine (hlogitsRow _ (by omega)).trans ?_
    rw [hbuf₁, Option.mem_def.1 hsrc]
    exact row_extracted _ _ _ _ _ hr
  · change row buf₂ _ _ _ = _
    rw [hbuf₂, Option.mem_def.1 hsrc]
    exact row_extracted _ _ _ _ _ hr

/-! ## Swapping rows -/

/-- The rows of `c'` are those of `c` after the swaps. -/
structure Swapped (p : OutputParams) (nMax : ℕ) (swaps : List (ℕ × ℕ)) (c c' : OutputCtx α) :
    Prop where
  eq : c' = { c with buf := c'.buf }
  logits : ∀ r < nMax, logitsRow p c' r = applySwaps swaps (logitsRow p c) r
  embd : p.hasEmbd → ∀ r < nMax, embdRow p nMax c' r = applySwaps swaps (embdRow p nMax c) r

lemma Placed.of_eq (h : Placed p nMax c) (heq : c' = { c with buf := c'.buf }) :
    Placed p nMax c' := by
  rw [heq]
  exact ⟨h.logitsSize, h.embdSize, h.logits, h.embd⟩

lemma row_width_zero {buf buf' : ℕ → α} {off off' r r' : ℕ} (hw : w = 0) :
    row buf off w r = row buf' off' w r' := by
  subst hw
  exact funext fun k => k.elim0

lemma Placed.reorderStep (h : Placed p nMax c) {s : ℕ × ℕ} (hs : s.1 < nMax ∧ s.2 < nMax) :
    Swapped p nMax [s] c (c.reorderStep p s) := by
  obtain ⟨i, j⟩ := s
  obtain ⟨hi, hj⟩ := hs
  have hpos : 0 < nMax := Nat.zero_lt_of_lt hi
  set buf₁ := if 0 < c.logitsSize then swapRows 0 p.nVocab c.buf (i, j) else c.buf with hbuf₁
  set buf₂ := if 0 < c.embdSize then swapRows (p.nVocab * nMax) p.nEmbd buf₁ (i, j) else buf₁
    with hbuf₂
  have hstep : c.reorderStep p (i, j) = { c with buf := buf₂ } := by
    have hoff : c.logits.getD 0 = 0 := by rw [h.logits, Option.getD_some]
    have hfirst : (if 0 < c.logitsSize then
        { c with buf := swapRows (c.logits.getD 0) p.nVocab c.buf (i, j) } else c) =
        { c with buf := buf₁ } := by
      rw [hbuf₁, hoff]
      split_ifs <;> rfl
    unfold OutputCtx.reorderStep
    rw [hfirst, hbuf₂]
    dsimp only
    split_ifs with hsize
    · have hembd : p.hasEmbd := by
        by_contra hembd
        rw [h.embdSize, if_neg hembd] at hsize
        exact lt_irrefl 0 hsize
      rw [show c.embd.getD 0 = p.nVocab * nMax by rw [h.embd, if_pos hembd, Option.getD_some]]
    · rfl
  rw [hstep]
  refine ⟨rfl, fun r hr => ?_, fun hembd r hr => ?_⟩
  · have hlogits : row buf₂ 0 p.nVocab r = row buf₁ 0 p.nVocab r := by
      rw [hbuf₂]
      split_ifs
      · refine row_congr fun a _ ha => swapRows_of_not_mem buf₁ hi hj (Or.inl ?_)
        have hle : (r + 1) * p.nVocab ≤ nMax * p.nVocab := mul_row_le hr _
        rw [Nat.mul_comm p.nVocab]
        omega
      · rfl
    refine hlogits.trans ?_
    rw [hbuf₁]
    split_ifs with hsize
    · exact row_swapRows c.buf 0 p.nVocab i j r
    · rw [h.logitsSize] at hsize
      exact row_width_zero (Nat.eq_zero_of_not_pos fun hw => hsize (Nat.mul_pos hw hpos))
  · have hold : ∀ r, row buf₁ (p.nVocab * nMax) p.nEmbd r
        = row c.buf (p.nVocab * nMax) p.nEmbd r := by
      intro r
      rw [hbuf₁]
      split_ifs
      · refine row_congr fun a ha _ => swapRows_of_not_mem c.buf hi hj (Or.inr ?_)
        rw [Nat.mul_comm nMax]
        omega
      · rfl
    change row buf₂ _ _ r = row c.buf _ _ (Equiv.swap i j r)
    rw [hbuf₂, ← hold]
    split_ifs with hsize
    · exact row_swapRows buf₁ _ p.nEmbd i j r
    · rw [h.embdSize, if_pos hembd] at hsize
      exact row_width_zero (Nat.eq_zero_of_not_pos fun hw => hsize (Nat.mul_pos hw hpos))

lemma outputReorder_frame (p : OutputParams) (c : OutputCtx α) :
    ∃ buf, c.outputReorder p = { c with buf := buf, outputSwaps := [] } := by
  have hstep : ∀ (c : OutputCtx α) s, ∃ buf, c.reorderStep p s = { c with buf := buf } := by
    intro c s
    unfold OutputCtx.reorderStep
    dsimp only
    split_ifs <;> exact ⟨_, rfl⟩
  have hloop : ∀ (swaps : List (ℕ × ℕ)) (c : OutputCtx α),
      ∃ buf, swaps.foldl (OutputCtx.reorderStep p) c = { c with buf := buf } := by
    intro swaps
    induction swaps with
    | nil => exact fun c => ⟨c.buf, rfl⟩
    | cons s swaps ih =>
      intro c
      obtain ⟨buf₁, h₁⟩ := hstep c s
      obtain ⟨buf₂, h₂⟩ := ih (c.reorderStep p s)
      exact ⟨buf₂, by rw [List.foldl_cons, h₂, h₁]⟩
  obtain ⟨buf, h⟩ := hloop c.outputSwaps c
  exact ⟨buf, by rw [outputReorder, h]⟩

section Reorder

variable (p : OutputParams) (c : OutputCtx α)

@[simp] lemma outputReorder_logits : (c.outputReorder p).logits = c.logits := by
  obtain ⟨buf, h⟩ := outputReorder_frame p c
  rw [h]

@[simp] lemma outputReorder_embd : (c.outputReorder p).embd = c.embd := by
  obtain ⟨buf, h⟩ := outputReorder_frame p c
  rw [h]

@[simp] lemma outputReorder_nOutputs : (c.outputReorder p).nOutputs = c.nOutputs := by
  obtain ⟨buf, h⟩ := outputReorder_frame p c
  rw [h]

@[simp] lemma outputReorder_nIds : (c.outputReorder p).nIds = c.nIds := by
  obtain ⟨buf, h⟩ := outputReorder_frame p c
  rw [h]

@[simp] lemma outputReorder_outputIds : (c.outputReorder p).outputIds = c.outputIds := by
  obtain ⟨buf, h⟩ := outputReorder_frame p c
  rw [h]

@[simp] lemma outputReorder_outputSwaps : (c.outputReorder p).outputSwaps = [] := rfl

end Reorder

lemma outputReorder_of_nil (h : c.outputSwaps = []) : c.outputReorder p = c := by
  rw [outputReorder, h, List.foldl_nil, ← h]

/-- `output_reorder` performs the pending swaps on the rows. -/
theorem Placed.reorder {swaps : List (ℕ × ℕ)} (hs : SwapsBelow nMax swaps) :
    ∀ c : OutputCtx α, Placed p nMax c →
      Swapped p nMax swaps c (swaps.foldl (OutputCtx.reorderStep p) c) := by
  induction swaps with
  | nil => exact fun c _ => ⟨rfl, fun _ _ => rfl, fun _ _ _ => rfl⟩
  | cons s swaps ih =>
    intro c hc
    obtain ⟨hhead, htail⟩ := List.forall_mem_cons.1 hs
    have hstep := hc.reorderStep hhead
    have hrest := ih htail _ (hc.of_eq hstep.eq)
    refine ⟨?_, fun r hr => ?_, fun hembd r hr => ?_⟩
    · rw [List.foldl_cons, hrest.eq, hstep.eq]
    · exact (hrest.logits r hr).trans (SwapsBelow.applySwaps_congr htail hstep.logits hr)
    · exact (hrest.embd hembd r hr).trans
        (SwapsBelow.applySwaps_congr htail (hstep.embd hembd) hr)

end OutputCtx

end IFairy
