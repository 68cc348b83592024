import IFairy.Framework.FallibleLoops
import IFairy.Framework.Spans
import Mathlib.Tactic.Ring

/-!
# The dynamic tensor allocator

`ggml_dyn_tallocr` plans one buffer: a list of free blocks from which `alloc` takes the best fit
and to which `freeTensor` gives back, joining blocks that meet.  What both do to the free
addresses is an equation between coverages (`Takes`, `GivesBack`); the order in which the code
keeps the blocks plays no part in it.
-/

namespace IFairy.Alloc

/-! ## The allocator -/

/-- What stops a plan: an assertion that fails, `GGML_ABORT`, or `false` from a buffer that
cannot be allocated. -/
inductive GallocrError
  | bufferId
  | notEnoughSpace
  | outOfFreeBlocks
  | bufferAllocation
deriving DecidableEq

/-- `SIZE_MAX`. -/
def sizeMax : ℕ := 2 ^ 64 - 1

/-- `MAX_FREE_BLOCKS`. -/
def maxFreeBlocks : ℕ := 256

/-- `aligned_offset` from a `NULL` buffer, in `size_t`. -/
def alignedOffset (offset alignment : ℕ) : ℕ :=
  (offset + (alignment - offset % alignment) % alignment) % 2 ^ 64

/-- `ggml_dyn_tallocr`; a `free_block` is a `Span`. -/
structure DynTallocr where
  alignment : ℕ
  freeBlocks : List Span
  maxSize : ℕ
deriving DecidableEq

namespace DynTallocr

/-- `ggml_dyn_tallocr_reset`. -/
def reset (a : DynTallocr) : DynTallocr :=
  { a with freeBlocks := [⟨0, sizeMax / 2⟩], maxSize := 0 }

/-- `ggml_dyn_tallocr_new`. -/
def new (alignment : ℕ) : DynTallocr := reset ⟨alignment, [], 0⟩

/-- The best fitting free block besides the last one, the later one of two of a size. -/
def bestFitBlock (a : DynTallocr) (size : ℕ) : Option ℕ :=
  (a.freeBlocks.dropLast.zipIdx.foldl (fun (best : Option ℕ × ℕ) (entry : Span × ℕ) =>
    if size ≤ entry.1.size ∧ entry.1.size ≤ best.2 then (some entry.2, entry.1.size) else best)
    (none, sizeMax)).1

/-- The block to take from; the last one is the last resort. -/
def findBlock (a : DynTallocr) (size : ℕ) : Except GallocrError ℕ :=
  match a.bestFitBlock size with
  | some i => .ok i
  | none =>
    match a.freeBlocks.getLast? with
    | some block =>
      if size ≤ block.size then .ok (a.freeBlocks.length - 1) else .error .notEnoughSpace
    | none => .error .notEnoughSpace

/-- `ggml_dyn_tallocr_alloc`. -/
def alloc (a : DynTallocr) (size : ℕ) : Except GallocrError (ℕ × DynTallocr) := do
  let size := alignedOffset size a.alignment
  let i ← a.findBlock size
  let block := a.freeBlocks.getD i ⟨0, 0⟩
  let offset := block.offset
  let block : Span := ⟨offset + size, block.size - size⟩
  let freeBlocks :=
    if block.size = 0 then a.freeBlocks.eraseIdx i else a.freeBlocks.set i block
  pure (offset, { a with freeBlocks := freeBlocks, maxSize := max a.maxSize (offset + size) })

/-- The search of `ggml_dyn_tallocr_free_tensor` for a block that meets the freed addresses, with
the blocks already passed in reverse order; `none` when there is none. -/
def mergeBlock (offset size : ℕ) : List Span → List Span → Option (List Span)
  | _, [] => none
  | before, block :: after =>
    if block.offset + block.size = offset then
      let block : Span := ⟨block.offset, block.size + size⟩
      match after with
      | next :: after' =>
        if block.offset + block.size = next.offset then
          some (before.reverse ++ ⟨block.offset, block.size + next.size⟩ :: after')
        else some (before.reverse ++ block :: after)
      | [] => some (before.reverse ++ [block])
    else if offset + size = block.offset then
      let block : Span := ⟨offset, block.size + size⟩
      match before with
      | prev :: before' =>
        if prev.offset + prev.size = block.offset then
          some (before'.reverse ++ ⟨prev.offset, prev.size + block.size⟩ :: after)
        else some (before.reverse ++ block :: after)
      | [] => some (block :: after)
    else mergeBlock offset size (block :: before) after

/-- A new block, put where the blocks stay sorted by address. -/
def insertBlock (offset size : ℕ) (blocks : List Span) : List Span :=
  blocks.takeWhile (·.offset < offset) ++ ⟨offset, size⟩ :: blocks.dropWhile (·.offset < offset)

/-- `ggml_dyn_tallocr_free_tensor`. -/
def freeTensor (a : DynTallocr) (offset size : ℕ) : Except GallocrError DynTallocr :=
  let size := alignedOffset size a.alignment
  match mergeBlock offset size [] a.freeBlocks with
  | some freeBlocks => .ok { a with freeBlocks := freeBlocks }
  | none =>
    if a.freeBlocks.length < maxFreeBlocks then
      .ok { a with freeBlocks := insertBlock offset size a.freeBlocks }
    else .error .outOfFreeBlocks

/-! ## What a call does to the free addresses -/

def free (a : DynTallocr) (x : ℕ) : ℕ := Span.coverage a.freeBlocks x

/-- `span` was taken from the free addresses, and the recorded size covers it. -/
structure Takes (a : DynTallocr) (span : Span) (a' : DynTallocr) : Prop where
  free : ∀ x, a'.free x + Span.coverage [span] x = a.free x
  maxSize : a'.maxSize = max a.maxSize (span.offset + span.size)
  alignment : a'.alignment = a.alignment

/-- `span` was given back to the free addresses. -/
structure GivesBack (a : DynTallocr) (span : Span) (a' : DynTallocr) : Prop where
  free : ∀ x, a'.free x = a.free x + Span.coverage [span] x
  maxSize : a'.maxSize = a.maxSize
  alignment : a'.alignment = a.alignment

/-- A chosen block is one of the list, and large enough. -/
def Fits (blocks : List Span) (size i : ℕ) : Prop :=
  ∃ before block after, blocks = before ++ block :: after ∧ before.length = i ∧ size ≤ block.size

lemma Fits.append {blocks : List Span} {size i : ℕ} (h : Fits blocks size i) (rest : List Span) :
    Fits (blocks ++ rest) size i := by
  obtain ⟨before, block, after, rfl, rfl, hsize⟩ := h
  exact ⟨before, block, after ++ rest, by simp, rfl, hsize⟩

lemma fits_bestFitBlock {a : DynTallocr} {size i : ℕ} (h : a.bestFitBlock size = some i) :
    Fits a.freeBlocks size i := by
  have hfold : ∀ (rest done : List Span) (best : Option ℕ × ℕ),
      (∀ j, best.1 = some j → Fits (done ++ rest) size j) →
      ∀ j, ((rest.zipIdx done.length).foldl (fun (best : Option ℕ × ℕ) (entry : Span × ℕ) =>
        if size ≤ entry.1.size ∧ entry.1.size ≤ best.2 then (some entry.2, entry.1.size)
        else best) best).1 = some j → Fits (done ++ rest) size j := by
    intro rest
    induction rest with
    | nil => exact fun done best hbest j hj => hbest j hj
    | cons block rest ih =>
      intro done best hbest j hj
      rw [List.zipIdx_cons, List.foldl_cons] at hj
      have hstep := ih (done ++ [block])
      simp only [List.append_assoc, List.singleton_append, List.length_append,
        List.length_singleton] at hstep
      refine hstep _ ?_ j hj
      intro k hk
      split_ifs at hk with hfit
      · obtain rfl : done.length = k := by simpa using hk
        exact ⟨done, block, rest, rfl, rfl, hfit.1⟩
      · exact hbest k hk
  rcases List.eq_nil_or_concat a.freeBlocks with hnil | ⟨blocks, last, hblocks⟩
  · simp [bestFitBlock, hnil] at h
  · rw [List.concat_eq_append] at hblocks
    rw [bestFitBlock, hblocks, List.dropLast_concat] at h
    rw [hblocks]
    exact Fits.append (hfold blocks [] _ (by simp) i h) [last]

lemma fits_findBlock {a : DynTallocr} {size i : ℕ} (h : a.findBlock size = .ok i) :
    Fits a.freeBlocks size i := by
  unfold findBlock at h
  split at h
  case h_1 j hj =>
    obtain rfl : j = i := by simpa using h
    exact fits_bestFitBlock hj
  case h_2 =>
    split at h
    case h_1 block hlast =>
      split_ifs at h with hsize
      obtain rfl : a.freeBlocks.length - 1 = i := by simpa using h
      obtain ⟨before, hbefore⟩ := List.getLast?_eq_some_iff.1 hlast
      exact ⟨before, block, [], hbefore, by simp [hbefore], hsize⟩
    case h_2 => cases h

lemma alloc_eq_ok {a a' : DynTallocr} {size offset : ℕ} (h : a.alloc size = .ok (offset, a')) :
    let padded := alignedOffset size a.alignment
    (∃ before block after, a.freeBlocks = before ++ block :: after ∧ padded ≤ block.size ∧
        offset = block.offset ∧ a'.freeBlocks = before ++ (if block.size - padded = 0 then [] else
          [⟨offset + padded, block.size - padded⟩]) ++ after) ∧
      a'.maxSize = max a.maxSize (offset + padded) ∧ a'.alignment = a.alignment := by
  intro padded
  obtain ⟨i, hi, h⟩ := bind_eq_ok.1 h
  obtain ⟨before, block, after, hblocks, rfl, hsize⟩ := fits_findBlock hi
  have hget : a.freeBlocks.getD before.length ⟨0, 0⟩ = block := by
    simp [hblocks, List.getD_eq_getElem?_getD]
  rw [hget] at h
  obtain ⟨rfl, rfl⟩ : block.offset = offset ∧ _ = a' := by simpa [pure, Except.pure] using h
  refine ⟨⟨before, block, after, hblocks, hsize, rfl, ?_⟩, rfl, rfl⟩
  simp only [hblocks, List.eraseIdx_append_of_length_le le_rfl, Nat.sub_self,
    List.eraseIdx_cons_zero, List.set_append_right _ _ le_rfl, List.set_cons_zero]
  split_ifs <;> simp [padded, *]

lemma takes_alloc {a a' : DynTallocr} {size offset : ℕ} (h : a.alloc size = .ok (offset, a')) :
    a.Takes ⟨offset, alignedOffset size a.alignment⟩ a' := by
  obtain ⟨⟨before, block, after, hblocks, hsize, rfl, hblocks'⟩, hmax, halign⟩ := alloc_eq_ok h
  refine ⟨fun x => ?_, hmax, halign⟩
  -- the block is the taken front and what is left of it
  obtain ⟨front, n⟩ := block
  have hcut := Span.coverage_join (s := ⟨front, alignedOffset size a.alignment⟩)
    (t := ⟨front + alignedOffset size a.alignment, n - alignedOffset size a.alignment⟩) rfl x
  simp only [Nat.add_sub_of_le hsize] at hcut
  simp only [free, hblocks, hblocks', Span.coverage_append, Span.coverage_cons ⟨front, n⟩ after]
  split_ifs with hempty
  · rw [hempty, Span.coverage_size_zero] at hcut
    rw [Span.coverage_nil]
    omega
  · omega

lemma coverage_mergeBlock {offset size : ℕ} {before blocks merged : List Span}
    (h : mergeBlock offset size before blocks = some merged) (x : ℕ) :
    Span.coverage merged x = Span.coverage before x + Span.coverage blocks x +
      Span.coverage [⟨offset, size⟩] x := by
  induction blocks generalizing before with
  | nil => simp [mergeBlock] at h
  | cons block after ih =>
    unfold mergeBlock at h
    split_ifs at h with hend hstart
    · have hjoin := Span.coverage_join (t := ⟨offset, size⟩) hend x
      simp only at hjoin
      cases after with
      | nil =>
        obtain rfl := Option.some.inj h
        rw [Span.coverage_append, Span.coverage_reverse]
        omega
      | cons next after' =>
        simp only at h
        rw [Span.coverage_cons block, Span.coverage_cons next]
        split_ifs at h with hnext
        · have hnextJoin :=
            Span.coverage_join (s := ⟨block.offset, block.size + size⟩) hnext x
          simp only at hnextJoin
          obtain rfl := Option.some.inj h
          rw [Span.coverage_append, Span.coverage_reverse, Span.coverage_cons _ after']
          omega
        · obtain rfl := Option.some.inj h
          rw [Span.coverage_append, Span.coverage_reverse, Span.coverage_cons _ (next :: after'),
            Span.coverage_cons next]
          omega
    · have hjoin := Span.coverage_join (s := ⟨offset, size⟩) hstart x
      simp only [Nat.add_comm size] at hjoin
      rw [Span.coverage_cons block]
      cases before with
      | nil =>
        obtain rfl := Option.some.inj h
        rw [Span.coverage_cons _ after, Span.coverage_nil]
        omega
      | cons prev before' =>
        simp only at h
        rw [Span.coverage_cons prev]
        split_ifs at h with hprev
        · have hprevJoin :=
            Span.coverage_join (t := ⟨offset, block.size + size⟩) hprev x
          simp only at hprevJoin
          obtain rfl := Option.some.inj h
          rw [Span.coverage_append, Span.coverage_reverse, Span.coverage_cons _ after]
          omega
        · obtain rfl := Option.some.inj h
          rw [Span.coverage_append, Span.coverage_reverse, Span.coverage_cons _ after,
            Span.coverage_cons prev]
          omega
    · have hrest := ih h
      rw [Span.coverage_cons block before] at hrest
      rw [Span.coverage_cons block after]
      omega

lemma coverage_insertBlock (offset size : ℕ) (blocks : List Span) (x : ℕ) :
    Span.coverage (insertBlock offset size blocks) x =
      Span.coverage blocks x + Span.coverage [⟨offset, size⟩] x := by
  conv_rhs => rw [← List.takeWhile_append_dropWhile (p := (·.offset < offset)) (l := blocks)]
  rw [insertBlock, Span.coverage_append, Span.coverage_append,
    Span.coverage_cons _ (List.dropWhile _ _)]
  omega

lemma givesBack_freeTensor {a a' : DynTallocr} {offset size : ℕ}
    (h : a.freeTensor offset size = .ok a') :
    a.GivesBack ⟨offset, alignedOffset size a.alignment⟩ a' := by
  simp only [freeTensor] at h
  split at h
  case h_1 merged hmerged =>
    obtain rfl := Except.ok.inj h
    exact ⟨fun x => by simpa [free] using coverage_mergeBlock hmerged x, rfl, rfl⟩
  case h_2 =>
    split_ifs at h with hroom
    obtain rfl := Except.ok.inj h
    exact ⟨fun x => coverage_insertBlock _ _ _ x, rfl, rfl⟩

end DynTallocr

end IFairy.Alloc
