import IFairy.Context.GetOutputs

/-!
# Saving and loading the outputs: `state_write_data`, `state_read_data`

The saved outputs are the batch index of every row and the rows themselves.  The rows are written as
they stand in the buffer, without the pending swaps, while the indices are those after the swaps; and
the swaps that are pending in the loading context stay pending.  So the loading context returns what
the saving context would return when the same swaps are pending in both (`getters_load_save`), and
not in general (`not_getters_load_save`).  The part of the state that belongs to the memory module is
left out.
-/

namespace IFairy

/-- What `state_write_data` writes of the outputs. -/
structure SavedOutputs (α : Type*) where
  arch : String
  nOutputs : ℕ
  /-- `w_output_pos`. -/
  outputPos : List ℕ
  logits : List α
  embd : List α

namespace OutputCtx

variable {α : Type*}

/-! ## The two functions -/

/-- `w_output_pos[pos] = i` for every batch index that is mapped to an output. -/
def outputPos (p : OutputParams) (c : OutputCtx α) : ℕ → ℕ :=
  (List.range p.nBatch).foldl (fun w i =>
    if 0 ≤ c.outputIds i then Function.update w (c.outputIds i).toNat i else w) fun _ => 0

/-- Write one part of the buffer; reading it through a null pointer ends in `none`. -/
def writePart (base : Option ℕ) (buf : ℕ → α) (size : ℕ) : Option (List α) :=
  if size = 0 then some []
  else base.map fun off => (List.range size).map fun k => buf (off + k)

/-- The outputs in `state_write_data`; a failed assertion is `none`. -/
def stateWriteData (p : OutputParams) (c : OutputCtx α) : Option (SavedOutputs α) :=
  if ∃ i < p.nBatch, (c.nOutputs : ℤ) ≤ c.outputIds i then none
  else
    (writePart c.logits c.buf (min c.logitsSize (c.nOutputs * p.nVocab))).bind fun logits =>
      (writePart c.embd c.buf (min c.embdSize (c.nOutputs * p.nEmbd))).map fun embd =>
        { arch := p.arch
          nOutputs := c.nOutputs
          outputPos := (List.range c.nOutputs).map (c.outputPos p)
          logits := logits
          embd := embd }

def readPart (base : Option ℕ) (part : List α) (c : OutputCtx α) : OutputCtx α :=
  { c with buf := fun a =>
      if base.getD 0 ≤ a then part.getD (a - base.getD 0) (c.buf a) else c.buf a }

/-- The outputs in `state_read_data`: the error, when one is thrown, and the context. -/
def stateReadData (p : OutputParams) (alloc : Option (ℕ → α)) (s : SavedOutputs α)
    (c : OutputCtx α) : Option String × OutputCtx α :=
  if p.arch ≠ s.arch then
    let wrong (got want : String) : String := s!"wrong model arch: '{got}' instead of '{want}'"
    (some (wrong s.arch p.arch), c)
  else
    let r := c.outputReserve p alloc s.nOutputs
    if r.1 < s.nOutputs then (some "could not reserve outputs", r.2)
    else
      match s.outputPos.findIdx? fun id => p.nBatch ≤ id with
      | some i =>
        let id := keysOf s.outputPos i
        (some s!"invalid output id, {id} does not fit in batch size of {p.nBatch}",
          { r.2 with outputIds := mapIds r.2.outputIds (keysOf s.outputPos) i })
      | none =>
        let c := { r.2 with
          outputIds := mapIds r.2.outputIds (keysOf s.outputPos) s.outputPos.length
          nOutputs := s.nOutputs }
        if c.logitsSize < s.logits.length then (some "logits buffer too small", c)
        else
          let c := readPart c.logits s.logits c
          if c.embdSize < s.embd.length then (some "embeddings buffer too small", c)
          else (none, readPart c.embd s.embd c)

variable {p : OutputParams} {c c' : OutputCtx α} {nMax n w off off' : ℕ} {base : Option ℕ}
  {buf : ℕ → α}

/-! ## One part of the buffer -/

/-- The first `n` floats of a part. -/
def floats (buf : ℕ → α) (off n : ℕ) : List α := (List.range n).map fun k => buf (off + k)

@[simp] lemma length_floats (buf : ℕ → α) (off n : ℕ) : (floats buf off n).length = n := by
  simp [floats]

lemma writePart_some (buf : ℕ → α) (off size : ℕ) :
    writePart (some off) buf size = some (floats buf off size) := by
  unfold writePart
  split_ifs with h
  · rw [h]
    rfl
  · rfl

lemma row_readPart {r : ℕ} (hr : r < n) (h : base = some off') :
    row (readPart base (floats buf off (n * w)) c).buf off' w r = row buf off w r := by
  funext k
  have hk := k.isLt
  have hle : (r + 1) * w ≤ n * w := Nat.mul_le_mul_right w hr
  rw [Nat.succ_mul] at hle
  unfold row readPart
  dsimp only
  rw [h, Option.getD_some, if_pos (Nat.le_add_right _ _), Nat.add_sub_cancel_left,
    List.getD_eq_getElem _ _ (by rw [length_floats]; omega)]
  simp [floats]

lemma readPart_of_not_mem {part : List α} {a : ℕ} (h : base = some off)
    (ha : a < off ∨ off + part.length ≤ a) : (readPart base part c).buf a = c.buf a := by
  unfold readPart
  dsimp only
  rw [h, Option.getD_some]
  split_ifs with hle
  · exact List.getD_eq_default _ _ (by omega)
  · rfl

lemma readPart_nil {part : List α} {a : ℕ} (h : part = []) :
    (readPart base part c).buf a = c.buf a := by
  unfold readPart
  dsimp only
  rw [h, List.getD_nil, ite_self]

/-! ## The mapping -/

/-- Every row is the output of a token. -/
def AllMapped (p : OutputParams) (c : OutputCtx α) : Prop :=
  ∀ r < c.nOutputs, ∃ t < p.nBatch, c.outputIds t = r

instance : Decidable (AllMapped p c) :=
  inferInstanceAs (Decidable (∀ r, r < c.nOutputs → ∃ t, t < p.nBatch ∧ c.outputIds t = r))

lemma outputPos_eq (h : Usable p nMax c) {t r : ℕ} (ht : t < p.nBatch) (hid : c.outputIds t = r) :
    c.outputPos p r = t := by
  refine foldl_read_of_cover
    (fun (w : ℕ → ℕ) i =>
      if 0 ≤ c.outputIds i then Function.update w (c.outputIds i).toNat i else w)
    (fun w => w r) (fun i => c.outputIds i = r) t ?_ ?_ ⟨t, List.mem_range.2 ht, hid⟩ _
  · intro i _ hi w
    have hit : i = t := h.ids_inj i t (by omega) (hi.trans hid.symm)
    rw [if_pos (by omega), hi, Int.toNat_natCast, Function.update_self, hit]
  · intro i _ hi w
    split_ifs with hpos
    · exact Function.update_of_ne (by omega) _ _
    · rfl

lemma mapIds_outputPos (h : Usable p nMax c) (hmapped : AllMapped p c) {t : ℕ}
    (ht : t < p.nBatch) :
    mapIds (fun _ => -1) (c.outputPos p) c.nOutputs t = c.outputIds t ∨
      mapIds (fun _ => -1) (c.outputPos p) c.nOutputs t < 0 ∧ c.outputIds t < 0 := by
  have hback : ∀ r < c.nOutputs, c.outputIds (c.outputPos p r) = r := by
    intro r hr
    obtain ⟨t, ht, hid⟩ := hmapped r hr
    rw [outputPos_eq h ht hid, hid]
  have hinj : ∀ a < c.nOutputs, ∀ b < c.nOutputs, c.outputPos p a = c.outputPos p b → a = b := by
    intro a ha b hb heq
    have hab := hback a ha
    rw [heq, hback b hb] at hab
    exact_mod_cast hab.symm
  rcases mapIds_eq_or hinj t with ⟨r, hr, rfl, heq⟩ | ⟨hnone, heq⟩
  · exact Or.inl (heq.trans (hback r hr).symm)
  · refine Or.inr ⟨by omega, not_le.1 fun hpos => ?_⟩
    have hlt := h.ids_lt t
    exact hnone (c.outputIds t).toNat (by omega)
      (outputPos_eq h ht (Int.toNat_of_nonneg hpos).symm)

/-! ## Equal outputs -/

/-- Two contexts have the same mapping and the same rows. -/
structure SameOutputs (p : OutputParams) (nMax nMax' : ℕ) (c c' : OutputCtx α) : Prop where
  nOutputs : c'.nOutputs = c.nOutputs
  nIds : c'.nIds = c.nIds
  outputIds : ∀ t < c.nIds,
    c'.outputIds t = c.outputIds t ∨ c'.outputIds t < 0 ∧ c.outputIds t < 0
  logits : ∀ r < c.nOutputs, logitsRow p c' r = logitsRow p c r
  embd : p.hasEmbd → ∀ r < c.nOutputs, embdRow p nMax' c' r = embdRow p nMax c r

lemma getRow_congr {missing : String} {i : Int32} (hn : c'.nOutputs = c.nOutputs)
    (hids : c'.nIds = c.nIds) (hid : ∀ t < c.nIds,
      c'.outputIds t = c.outputIds t ∨ c'.outputIds t < 0 ∧ c.outputIds t < 0)
    (hrow : ∀ r < c.nOutputs, row c'.buf off' w r = row c.buf off w r) :
    getRow missing (some off') w i c' = getRow missing (some off) w i c := by
  have hat : ∀ j : ℤ, ¬ j < 0 → ¬ (c.nOutputs : ℤ) ≤ j →
      (.ok (row c'.buf off' w j.toNat) : Except String _) = .ok (row c.buf off w j.toNat) :=
    fun j hj hlt => congrArg _ (hrow _ (by omega))
  unfold getRow
  dsimp only
  rw [hn, hids]
  by_cases hneg : i < 0
  · rw [if_pos hneg, if_pos hneg]
    split_ifs with h₁ h₂
    · rfl
    · rfl
    · exact hat _ h₁ h₂
  · rw [if_neg hneg, if_neg hneg]
    by_cases hin : (c.nIds : ℤ) ≤ i.toInt
    · rw [if_pos hin, if_pos hin]
    · rw [if_neg hin, if_neg hin]
      have hpos : 0 ≤ i.toInt := by
        rw [neg_iff_toInt] at hneg
        omega
      rcases hid i.toInt.toNat (by omega) with heq | ⟨h₁, h₂⟩
      · rw [heq]
        split_ifs with h₁ h₂
        · rfl
        · rfl
        · exact hat _ h₁ h₂
      · rw [if_pos h₁, if_pos h₂]

/-- Contexts with the same outputs and the same pending swaps return the same. -/
theorem SameOutputs.getters (h : SameOutputs p nMax n c c') (hc : Placed p nMax c)
    (hc' : Placed p n c') (hle : c.nOutputs ≤ nMax) (hle' : c.nOutputs ≤ n)
    (hswaps : c'.outputSwaps = c.outputSwaps) (hbelow : SwapsBelow c.nOutputs c.outputSwaps)
    (i : Int32) : (c'.getLogitsIth p i).1 = (c.getLogitsIth p i).1 ∧
      (c'.getEmbeddingsIth p i).1 = (c.getEmbeddingsIth p i).1 := by
  have hr := Placed.reorder (hbelow.mono hle) c hc
  have hr' := Placed.reorder (hbelow.mono hle') c' hc'
  have hid : ∀ t < (c.outputReorder p).nIds,
      (c'.outputReorder p).outputIds t = (c.outputReorder p).outputIds t ∨
        (c'.outputReorder p).outputIds t < 0 ∧ (c.outputReorder p).outputIds t < 0 := by
    simpa using h.outputIds
  constructor
  · unfold getLogitsIth
    dsimp only
    rw [outputReorder_logits, outputReorder_logits, hc.logits, hc'.logits]
    refine getRow_congr (by simpa using h.nOutputs) (by simpa using h.nIds) hid fun r hr₀ => ?_
    rw [outputReorder_nOutputs] at hr₀
    have hrow := (hr'.logits r (hr₀.trans_le hle')).trans
      ((hbelow.applySwaps_congr h.logits hr₀).trans (hr.logits r (hr₀.trans_le hle)).symm)
    rw [outputReorder, outputReorder, hswaps]
    exact hrow
  · unfold getEmbeddingsIth
    dsimp only
    rw [outputReorder_embd, outputReorder_embd, hc.embd, hc'.embd]
    by_cases hembd : p.hasEmbd
    · rw [if_pos hembd, if_pos hembd]
      refine getRow_congr (by simpa using h.nOutputs) (by simpa using h.nIds) hid fun r hr₀ => ?_
      rw [outputReorder_nOutputs] at hr₀
      have hrow := (hr'.embd hembd r (hr₀.trans_le hle')).trans
        ((hbelow.applySwaps_congr (h.embd hembd) hr₀).trans
          (hr.embd hembd r (hr₀.trans_le hle)).symm)
      rw [outputReorder, outputReorder, hswaps]
      exact hrow
    · rw [if_neg hembd, if_neg hembd]
      rfl

/-! ## Runs with loads -/

lemma computeBatch_nIds {env : DecodeEnv α} {b : Batch} {s : List UBatch × BatchAllocr}
    (h : c.nIds = p.nBatch) : (c.computeBatch p env b s).2.nIds = p.nBatch := by
  have hr : (c.outputReserve p env.alloc b.nOutputs).2.nIds = p.nBatch := by
    rw [outputReserve_nIds, h, if_neg p.nBatch_pos.ne']
  unfold computeBatch
  set r := c.outputReserve p env.alloc b.nOutputs
  dsimp only
  obtain ⟨buf, m, -, hloop⟩ := ubatchLoop_frame (p := p) (b := b)
    (n := (s.1.map (newOutputs b)).sum + r.2.nOutputs) env.processUbatch s.1 0 0 r.2
    (fun u hu => (List.le_sum_of_mem (List.mem_map_of_mem hu)).trans (Nat.le_add_right _ _))
    (Nat.le_add_left _ _)
  split_ifs
  · exact hr
  · generalize ubatchLoop p env.processUbatch b s.1 0 0 r.2 = run at hloop ⊢
    obtain ⟨e, c₁⟩ := run
    dsimp only at hloop
    subst hloop
    cases e with
    | some e => exact hr
    | none =>
      dsimp only
      generalize hset : setMappings s.2.outIds
        { r.2 with buf := buf, nOutputs := b.nOutputs } = mapped
      cases mapped with
      | none => exact hr
      | some c₂ =>
        obtain ⟨ids, swaps, rfl⟩ := setMappings_frame hset
        exact hr

lemma decode_nIds {env : DecodeEnv α} {inp : BatchInp} (h : c.nIds = p.nBatch) :
    (c.decode p env inp).2.nIds = p.nBatch := by
  rcases decode_cases p env inp c with heq | heq | ⟨b, sp, -, -, -, heq⟩
  · rwa [heq]
  · rwa [heq]
  · rw [heq]
    exact computeBatch_nIds h

lemma stateReadData_nIds {alloc : Option (ℕ → α)} {s : SavedOutputs α} (h : c.nIds = p.nBatch) :
    (c.stateReadData p alloc s).2.nIds = p.nBatch := by
  have hr : (c.outputReserve p alloc s.nOutputs).2.nIds = p.nBatch := by
    rw [outputReserve_nIds, h, if_neg p.nBatch_pos.ne']
  unfold stateReadData
  split
  · exact h
  · dsimp only
    split
    · exact hr
    · split
      · exact hr
      · split_ifs <;> exact hr

end OutputCtx

/-- The calls of a context that also loads states. -/
inductive ContextAction (α : Type*)
  | call (a : OutputAction α)
  | load (alloc : Option (ℕ → α)) (s : SavedOutputs α)

def ContextAction.step {α : Type*} (p : OutputParams) (c : OutputCtx α) :
    ContextAction α → Option (OutputCtx α)
  | call a => a.step p c
  | load alloc s => some (c.stateReadData p alloc s).2

@[simp] lemma ContextAction.step_call {α : Type*} (p : OutputParams) (c : OutputCtx α)
    (a : OutputAction α) : ContextAction.step p c (.call a) = a.step p c := rfl

namespace OutputCtx

variable {α : Type*} {p : OutputParams} {c c' : OutputCtx α} {nMax n : ℕ}

/-- `output_ids` is never resized after the construction. -/
lemma nIds_of_reaches {fresh : ℕ → α} {ok : OutputCtx α → ContextAction α → Prop}
    (h : Reaches (ContextAction.step p) ok (constructed p fresh) c) : c.nIds = p.nBatch := by
  induction h with
  | start => exact (outputInv_constructed p fresh).nIds
  | snoc a _ _ hstep ih =>
    cases a with
    | load alloc s =>
      obtain rfl := Option.some.inj hstep
      exact stateReadData_nIds ih
    | call a =>
      cases a with
      | decode env inp =>
        obtain ⟨-, heq⟩ := Option.ite_none_left_eq_some.1 hstep
        obtain rfl := Option.some.inj heq
        exact decode_nIds ih
      | getLogitsIth i =>
        obtain rfl := Option.some.inj hstep
        exact (outputReorder_nIds p _).trans ih
      | getEmbeddingsIth i =>
        obtain rfl := Option.some.inj hstep
        exact (outputReorder_nIds p _).trans ih

/-! ## The round trip -/

/-- What is saved of a context whose buffer is there. -/
def savedOf (p : OutputParams) (nMax : ℕ) (c : OutputCtx α) : SavedOutputs α where
  arch := p.arch
  nOutputs := c.nOutputs
  outputPos := (List.range c.nOutputs).map (c.outputPos p)
  logits := floats c.buf 0 (c.nOutputs * p.nVocab)
  embd := if p.hasEmbd then floats c.buf (p.nVocab * nMax) (c.nOutputs * p.nEmbd) else []

lemma stateWriteData_eq (h : Usable p nMax c) : c.stateWriteData p = some (savedOf p nMax c) := by
  have hids : ¬ ∃ i < p.nBatch, (c.nOutputs : ℤ) ≤ c.outputIds i := by
    rintro ⟨i, -, hi⟩
    exact absurd (h.ids_lt i) (not_lt.2 hi)
  have hlogits : min c.logitsSize (c.nOutputs * p.nVocab) = c.nOutputs * p.nVocab := by
    rw [h.placed.logitsSize, Nat.mul_comm p.nVocab]
    exact min_eq_right (mul_row_le h.nOutputs_le _)
  unfold stateWriteData
  rw [if_neg hids, h.placed.logits, writePart_some, Option.bind_some, hlogits, h.placed.embd,
    h.placed.embdSize]
  by_cases hembd : p.hasEmbd
  · have hsize : min (p.nEmbd * nMax) (c.nOutputs * p.nEmbd) = c.nOutputs * p.nEmbd := by
      rw [Nat.mul_comm p.nEmbd]
      exact min_eq_right (mul_row_le h.nOutputs_le _)
    rw [if_pos hembd, if_pos hembd, writePart_some, hsize, savedOf, if_pos hembd]
    rfl
  · rw [if_neg hembd, if_neg hembd, savedOf, if_neg hembd, Nat.zero_min]
    rfl

lemma keysOf_map_range (f : ℕ → ℕ) {r : ℕ} (hr : r < n) : keysOf ((List.range n).map f) r = f r :=
  keysOf_eq (by rw [List.getElem?_map, List.getElem?_range hr]; rfl)

lemma mapIds_congr {ids : ℕ → ℤ} {keys keys' : ℕ → ℕ} (h : ∀ r < n, keys r = keys' r) :
    mapIds ids keys n = mapIds ids keys' n := by
  unfold mapIds
  refine List.foldl_ext _ _ _ fun ids r hr => ?_
  rw [h r (List.mem_range.1 hr)]

/-- Loading what was saved gives the outputs that the saving context has in its buffer. -/
theorem stateReadData_savedOf {fresh : ℕ → α} (h : Usable p nMax c) (hmapped : AllMapped p c)
    (hids : c.nIds = p.nBatch) (hids' : c'.nIds = p.nBatch) :
    ∃ l, c'.stateReadData p (some fresh) (savedOf p nMax c) = (none, l) ∧
      Placed p (max c.nOutputs p.nSeqMax) l ∧ l.outputSwaps = c'.outputSwaps ∧
      SameOutputs p nMax (max c.nOutputs p.nSeqMax) c l := by
  have hr := outputReserve_reserved p fresh c.nOutputs c'
  set r := c'.outputReserve p (some fresh) c.nOutputs with hrdef
  have hn : r.2.nIds = p.nBatch := by
    rw [hrdef, outputReserve_nIds, hids', if_neg p.nBatch_pos.ne']
  set ids := mapIds (fun _ => -1) (c.outputPos p) c.nOutputs with hidsdef
  set l₀ : OutputCtx α := { r.2 with outputIds := ids, nOutputs := c.nOutputs } with hl₀
  set l₁ := readPart r.2.logits (savedOf p nMax c).logits l₀ with hl₁
  set l₂ := readPart r.2.embd (savedOf p nMax c).embd l₁ with hl₂
  have hlow : ∀ {w q}, q < c.nOutputs → (q + 1) * w ≤ max c.nOutputs p.nSeqMax * w :=
    fun hq => Nat.mul_le_mul_right _ (Nat.succ_le_of_lt (hq.trans_le (le_max_left _ _)))
  have hread : c'.stateReadData p (some fresh) (savedOf p nMax c) = (none, l₂) := by
    have hfit : ¬ r.1 < (savedOf p nMax c).nOutputs := by
      rw [hr.size]
      exact not_lt.2 (le_max_left _ _)
    have hvalid : (savedOf p nMax c).outputPos.findIdx? (fun id => p.nBatch ≤ id) = none := by
      rw [List.findIdx?_eq_none_iff]
      intro id hid
      obtain ⟨q, hq, rfl⟩ := List.mem_map.1 hid
      obtain ⟨t, ht, htq⟩ := hmapped q (List.mem_range.1 hq)
      rw [outputPos_eq h ht htq]
      exact decide_eq_false (not_le.2 ht)
    have hmap : mapIds r.2.outputIds (keysOf (savedOf p nMax c).outputPos)
        (savedOf p nMax c).outputPos.length = ids := by
      rw [hr.outputIds, show (savedOf p nMax c).outputPos.length = c.nOutputs by simp [savedOf]]
      exact mapIds_congr fun q hq => keysOf_map_range _ hq
    have hlogits : ¬ r.2.logitsSize < (savedOf p nMax c).logits.length := by
      rw [hr.placed.logitsSize, savedOf, length_floats, Nat.mul_comm p.nVocab]
      exact not_lt.2 (mul_row_le (le_max_left _ _) _)
    have hembd : ¬ r.2.embdSize < (savedOf p nMax c).embd.length := by
      rw [hr.placed.embdSize, savedOf]
      dsimp only
      split_ifs
      · rw [length_floats, Nat.mul_comm p.nEmbd]
        exact not_lt.2 (mul_row_le (le_max_left _ _) _)
      · exact Nat.not_lt_zero _
    have harch : ¬ p.arch ≠ (savedOf p nMax c).arch := fun h => h rfl
    have hreserve : c'.outputReserve p (some fresh) (savedOf p nMax c).nOutputs = r := rfl
    unfold stateReadData
    rw [if_neg harch, hreserve]
    dsimp only
    rw [if_neg hfit, hvalid]
    dsimp only
    rw [hmap, if_neg hlogits]
    change (if r.2.embdSize < _ then _ else _) = _
    rw [if_neg hembd]
    rfl
  refine ⟨l₂, hread, ?_, ?_, ?_, ?_, ?_, ?_, ?_⟩
  · exact ⟨hr.placed.logitsSize, hr.placed.embdSize, hr.placed.logits, hr.placed.embd⟩
  · exact hr.outputSwaps
  · rfl
  · exact hn.trans hids.symm
  · intro t ht
    rw [hids] at ht
    exact mapIds_outputPos h hmapped ht
  · intro q hq
    have hkeep : logitsRow p l₂ q = logitsRow p l₁ q := by
      refine row_congr fun a _ ha => ?_
      by_cases hembd : p.hasEmbd
      · refine readPart_of_not_mem
          (hr.placed.embd.trans (if_pos hembd)) (Or.inl ?_)
        have hle := hlow (w := p.nVocab) hq
        rw [Nat.mul_comm p.nVocab]
        omega
      · refine readPart_nil ?_
        rw [savedOf]
        exact if_neg hembd
    exact hkeep.trans (row_readPart hq hr.placed.logits)
  · intro hembd q hq
    have hpart : (savedOf p nMax c).embd =
        floats c.buf (p.nVocab * nMax) (c.nOutputs * p.nEmbd) := if_pos hembd
    unfold embdRow
    rw [hl₂, hpart]
    exact row_readPart hq (hr.placed.embd.trans (if_pos hembd))

lemma Decoded.allMapped {swaps : List (ℕ × ℕ)} {us : List UBatch} {outIds : List ℕ}
    {parts : List (List ℕ)} {res : ℕ → GraphResult α} {b : Batch}
    (h : Decoded p nMax swaps b us outIds res c) (hsplit : SplitInto b us outIds parts)
    (hbatch : b.nTokens ≤ p.nBatch) : AllMapped p c := by
  intro r hr
  rw [h.nOutputs] at hr
  refine ⟨applySwaps swaps (keysOf outIds) r, ?_, ?_⟩
  · exact (sorted_mem hsplit h.sorted hr).1.trans_le hbatch
  · rw [h.outputIds]
    exact mapIds_of_mem h.sorted.inj hr

/-- After a state was saved and loaded, the getters of both contexts return the same, when the same
swaps were pending in both and the rows of the saved one are all mapped. -/
theorem getters_load_save {buf buf' fresh : ℕ → α} {s l : OutputCtx α}
    (hs : Reaches (OutputAction.step p) (fun _ _ => True) (constructed p buf) s)
    (hl : Reaches (ContextAction.step p) (fun _ _ => True) (constructed p buf') l)
    (hbuf : s.logits.isSome) (hmapped : AllMapped p s) (hswaps : l.outputSwaps = s.outputSwaps) :
    ∃ saved l', s.stateWriteData p = some saved ∧
      l.stateReadData p (some fresh) saved = (none, l') ∧
      ∀ i, (l'.getLogitsIth p i).1 = (s.getLogitsIth p i).1 ∧
        (l'.getEmbeddingsIth p i).1 = (s.getEmbeddingsIth p i).1 := by
  have hinv := outputInv_of_reaches hs
  obtain ⟨nMax, hu⟩ := hinv.usable hbuf
  obtain ⟨l', hread, hplaced, hpending, hsame⟩ := stateReadData_savedOf hu hmapped
    hinv.nIds (nIds_of_reaches hl)
  exact ⟨_, l', stateWriteData_eq hu, hread, fun i => hsame.getters hu.placed hplaced hu.nOutputs_le
    (le_max_left _ _) (hpending.trans hswaps) hu.swaps i⟩

lemma step_of_decode {env : DecodeEnv α} {inp : BatchInp}
    (h : (c.decode p env inp).1 = .code 0) :
    OutputAction.step p c (.decode env inp) = some (c.decode p env inp).2 :=
  if_neg (by rw [h]; decide)

/-! ## Two interleaved sequences -/

def oneLogit : OutputParams where
  nVocab := 1
  nEmbd := 1
  nPosPerEmbd := 1
  arch := "llama"
  nBatch := 4
  nUbatch := 4
  nSeqMax := 2
  kvUnified := false
  embeddings := false
  poolingType := .none
  nBatch_lt := meanPooled.nBatch_lt
  nBatch_pos := meanPooled.nBatch_pos
  poolingType_ne := by decide

/-- Four outputs of the sequences `0` and `1` in turn. -/
def interleaved : BatchInp where
  nTokens := 4
  token := some fun _ => 0
  embd := none
  pos := none
  seqId := some fun i => ⟨(i % 2 : ℕ), []⟩
  logits := some fun _ => true

/-- An empty memory that splits batches by sequences; row `r` of a ubatch has logit `r`. -/
def rowEnv : DecodeEnv ℕ where
  mem := ⟨fun _ => -1, fun _ => -1⟩
  initBatch _ := .ok (.equal false)
  alloc := some fun _ => 0
  processUbatch _ _ := .ok ⟨some fun r => r, none, none⟩

/-- The context after the batch was decoded; the rows of tokens `1` and `2` are to be swapped. -/
def afterInterleaved : OutputCtx ℕ :=
  ((constructed oneLogit fun _ => 0).decode oneLogit rowEnv interleaved).2

lemma step_interleaved :
    OutputAction.step oneLogit (constructed oneLogit fun _ => 0) (.decode rowEnv interleaved) =
      some afterInterleaved := step_of_decode (by decide +kernel)

theorem getters_load_save_interleaved :
    ∃ saved l', afterInterleaved.stateWriteData oneLogit = some saved ∧
      afterInterleaved.stateReadData oneLogit (some fun _ => 0) saved = (none, l') ∧
      ∀ i, (l'.getLogitsIth oneLogit i).1 = (afterInterleaved.getLogitsIth oneLogit i).1 ∧
        (l'.getEmbeddingsIth oneLogit i).1 = (afterInterleaved.getEmbeddingsIth oneLogit i).1 := by
  have hs : Reaches (OutputAction.step oneLogit) (fun _ _ => True)
      (constructed oneLogit fun _ => 0) afterInterleaved :=
    .snoc (.decode rowEnv interleaved) .start trivial step_interleaved
  have hl : Reaches (ContextAction.step oneLogit) (fun _ _ => True)
      (constructed oneLogit fun _ => 0) afterInterleaved :=
    .snoc (.call (.decode rowEnv interleaved)) .start trivial
      ((ContextAction.step_call ..).trans step_interleaved)
  have hbuf : afterInterleaved.logits.isSome := by decide +kernel
  have hmapped : AllMapped oneLogit afterInterleaved := by decide +kernel
  exact getters_load_save hs hl hbuf hmapped rfl

/-- Loaded into a new context, the logits of token `1` are those of token `2`. -/
theorem not_getters_load_save :
    Reaches (OutputAction.step oneLogit) (fun _ _ => True) (constructed oneLogit fun _ => 0)
        afterInterleaved ∧
      ∃ saved, afterInterleaved.stateWriteData oneLogit = some saved ∧
        let r := (constructed oneLogit fun _ => 0).stateReadData oneLogit (some fun _ => 0) saved
        r.1 = none ∧
          (r.2.getLogitsIth oneLogit 1).1 ≠ (afterInterleaved.getLogitsIth oneLogit 1).1 := by
  refine ⟨.snoc (.decode rowEnv interleaved) .start trivial step_interleaved, ?_⟩
  let first : Except String (Fin oneLogit.nVocab → ℕ) → Option ℕ := fun row =>
    row.toOption.map fun f => f ⟨0, by decide⟩
  have hrun : (afterInterleaved.stateWriteData oneLogit).map (fun saved =>
      let r := (constructed oneLogit fun _ => 0).stateReadData oneLogit (some fun _ => 0) saved
      (r.1, first (r.2.getLogitsIth oneLogit 1).1,
        first (afterInterleaved.getLogitsIth oneLogit 1).1)) = some (none, some 1, some 2) := by
    decide +kernel
  obtain ⟨saved, hsaved, heq⟩ := Option.map_eq_some_iff.1 hrun
  simp only [Prod.mk.injEq] at heq
  obtain ⟨hnone, hloaded, hold⟩ := heq
  refine ⟨saved, hsaved, hnone, fun hsame => ?_⟩
  rw [hsame, hold] at hloaded
  cases hloaded

end OutputCtx

end IFairy
