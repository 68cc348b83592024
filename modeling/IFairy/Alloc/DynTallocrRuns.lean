import IFairy.Alloc.DynTallocr
import IFairy.Framework.Runs
import Mathlib.Data.List.Perm.Basic
import Mathlib.Data.List.TakeWhile

/-!
# Runs of the dynamic tensor allocator

In every run of allocations and frees the free blocks and the live blocks tile the address space,
every block is aligned, and `max_size` covers every block.  The free blocks stay sorted with gaps
between them as long as no empty block is freed away from the free blocks (`tiled_of_reaches`).
Such a block is put into the list by itself, and a live block around it that is freed later comes
behind it (`not_tiled`).  Otherwise the free blocks are a function of the blocks in use
(`freeBlocks_eq_of_reaches`).
-/

namespace IFairy.Alloc

/-! ## Sorted free blocks -/

/-- The free blocks are sorted, do not meet and are not empty. -/
structure Gapped (blocks : List Span) : Prop where
  sorted : blocks.Pairwise fun s t => s.offset + s.size < t.offset
  pos : ∀ b ∈ blocks, 0 < b.size

namespace Gapped

variable {before after blocks : List Span} {block : Span}

lemma sublist (h : Gapped blocks) (hsub : after.Sublist blocks) : Gapped after :=
  ⟨h.sorted.sublist hsub, fun b hb => h.pos b (hsub.subset hb)⟩

lemma erase (h : Gapped (before ++ block :: after)) : Gapped (before ++ after) :=
  h.sublist ((List.Sublist.refl before).append (List.sublist_cons_self block after))

lemma before_lt (h : Gapped (before ++ block :: after)) {s : Span} (hs : s ∈ before) :
    s.offset + s.size < block.offset :=
  (List.pairwise_append.1 h.sorted).2.2 s hs block List.mem_cons_self

lemma lt_after (h : Gapped (before ++ block :: after)) {t : Span} (ht : t ∈ after) :
    block.offset + block.size < t.offset :=
  (List.pairwise_cons.1 (List.pairwise_append.1 h.sorted).2.1).1 t ht

lemma insert (h : Gapped (before ++ after)) (hpos : 0 < block.size)
    (hbefore : ∀ s ∈ before, s.offset + s.size < block.offset)
    (hafter : ∀ t ∈ after, block.offset + block.size < t.offset) :
    Gapped (before ++ block :: after) where
  sorted := by
    obtain ⟨hleft, hright, hcross⟩ := List.pairwise_append.1 h.sorted
    refine List.pairwise_append.2 ⟨hleft, List.pairwise_cons.2 ⟨hafter, hright⟩,
      fun s hs t ht => ?_⟩
    rcases List.mem_cons.1 ht with rfl | ht
    · exact hbefore s hs
    · exact hcross s hs t ht
  pos b hb := by
    rcases List.mem_append.1 hb with hb | hb
    · exact h.pos b (List.mem_append_left _ hb)
    · rcases List.mem_cons.1 hb with rfl | hb
      · exact hpos
      · exact h.pos b (List.mem_append_right _ hb)

variable {blocks' : List Span} {b c : Span}

/-- Where the lists cover the same, an address of the one is in a block of the other. -/
lemma exists_covers (heq : ∀ x, Span.coverage blocks x = Span.coverage blocks' x) (hc : c ∈ blocks')
    {x : ℕ} (hx : c.Covers x) : ∃ s ∈ blocks, s.Covers x := by
  have hpos : 0 < Span.coverage blocks x := by
    rw [heq, Span.coverage, List.countP_pos_iff]
    exact ⟨c, hc, decide_eq_true hx⟩
  rw [Span.coverage, List.countP_pos_iff] at hpos
  obtain ⟨s, hs, hcovers⟩ := hpos
  exact ⟨s, hs, of_decide_eq_true hcovers⟩

/-- The first block begins at the first address that is covered. -/
lemma offset_le (h : Gapped (b :: blocks)) (h' : Gapped (c :: blocks'))
    (heq : ∀ x, Span.coverage (b :: blocks) x = Span.coverage (c :: blocks') x) :
    b.offset ≤ c.offset := by
  obtain ⟨s, hs, hcovers⟩ := exists_covers heq List.mem_cons_self
    (⟨le_rfl, Nat.lt_add_of_pos_right (h'.pos c List.mem_cons_self)⟩ : c.Covers c.offset)
  rcases List.mem_cons.1 hs with rfl | hs
  · exact hcovers.1
  · have hlt := (List.pairwise_cons.1 h.sorted).1 s hs
    exact (Nat.le_add_right _ _).trans (hlt.le.trans hcovers.1)

/-- It ends before the first address that is not covered behind it. -/
lemma size_le (h : Gapped (b :: blocks))
    (heq : ∀ x, Span.coverage (b :: blocks) x = Span.coverage (c :: blocks') x)
    (hoffset : b.offset = c.offset) : c.size ≤ b.size := by
  by_contra! hlt
  obtain ⟨s, hs, hcovers⟩ := exists_covers heq List.mem_cons_self
    (⟨by omega, by omega⟩ : c.Covers (b.offset + b.size))
  rcases List.mem_cons.1 hs with rfl | hs
  · exact hcovers.2.false
  · exact ((List.pairwise_cons.1 h.sorted).1 s hs).not_ge hcovers.1

/-- Lists with gaps are the same when they cover the same addresses. -/
lemma eq_of_coverage (h : Gapped blocks) (h' : Gapped blocks')
    (heq : ∀ x, Span.coverage blocks x = Span.coverage blocks' x) : blocks = blocks' := by
  induction blocks generalizing blocks' with
  | nil =>
    cases blocks' with
    | nil => rfl
    | cons c blocks' =>
      obtain ⟨s, hs, -⟩ := exists_covers heq List.mem_cons_self
        (⟨le_rfl, Nat.lt_add_of_pos_right (h'.pos c List.mem_cons_self)⟩ : c.Covers c.offset)
      exact absurd hs List.not_mem_nil
  | cons b blocks ih =>
    cases blocks' with
    | nil =>
      obtain ⟨s, hs, -⟩ := exists_covers (fun x => (heq x).symm) List.mem_cons_self
        (⟨le_rfl, Nat.lt_add_of_pos_right (h.pos b List.mem_cons_self)⟩ : b.Covers b.offset)
      exact absurd hs List.not_mem_nil
    | cons c blocks' =>
      have hsymm := fun x => (heq x).symm
      have hoffset := (h.offset_le h' heq).antisymm (h'.offset_le h hsymm)
      have hsize := (h'.size_le hsymm hoffset.symm).antisymm (h.size_le heq hoffset)
      obtain rfl : b = c := by
        cases b
        cases c
        exact congrArg₂ Span.mk hoffset hsize
      rw [ih (h.sublist (List.sublist_cons_self ..)) (h'.sublist (List.sublist_cons_self ..))
        fun x => ?_]
      have hcons := heq x
      rw [Span.coverage_cons, Span.coverage_cons b blocks'] at hcons
      exact Nat.add_right_cancel hcons

end Gapped

namespace DynTallocr

variable {a a' : DynTallocr} {blocks before after merged : List Span} {block : Span}
  {size offset : ℕ}

lemma gapped_alloc (hgapped : Gapped a.freeBlocks) (h : a.alloc size = .ok (offset, a')) :
    Gapped a'.freeBlocks := by
  obtain ⟨⟨before, block, after, hblocks, hsize, rfl, hblocks'⟩, -⟩ := alloc_eq_ok h
  rw [hblocks] at hgapped
  rw [hblocks']
  split_ifs with hzero
  · rw [List.append_nil]
    exact hgapped.erase
  · rw [List.append_assoc, List.singleton_append]
    refine hgapped.erase.insert (Nat.pos_of_ne_zero hzero) (fun s hs => ?_) fun t ht => ?_
    · exact (hgapped.before_lt hs).trans_le (Nat.le_add_right _ _)
    · have hlt := hgapped.lt_after ht
      dsimp only
      omega

/-- A block is behind the freed addresses or before them. -/
def Clear (offset size : ℕ) (b : Span) : Prop :=
  b.offset + b.size ≤ offset ∨ offset + size ≤ b.offset

lemma gapped_mergeBlock (hgapped : Gapped (before.reverse ++ blocks))
    (hclear : ∀ b ∈ before.reverse ++ blocks, Clear offset size b)
    (h : mergeBlock offset size before blocks = some merged) : Gapped merged := by
  induction blocks generalizing before with
  | nil => cases h
  | cons block after ih =>
    have hpos {b : Span} (hb : b ∈ before.reverse ++ block :: after) := hgapped.pos b hb
    rw [mergeBlock] at h
    split_ifs at h with hend hstart
    · -- the freed addresses begin where the block ends
      have hbehind {t : Span} (ht : t ∈ after) : offset + size ≤ t.offset := by
        have hlt := hgapped.lt_after ht
        rcases hclear t (by simp [ht]) with hc | hc
        · omega
        · exact hc
      have hblock := hpos (b := block) (by simp)
      cases after with
      | nil =>
        obtain rfl := Option.some.inj h
        exact hgapped.erase.insert (Nat.add_pos_left hblock _)
          (fun s hs => hgapped.before_lt hs) fun t ht => absurd ht List.not_mem_nil
      | cons next after' =>
        have hgapped' : Gapped ((before.reverse ++ [block]) ++ next :: after') := by
          rwa [List.append_assoc, List.singleton_append]
        have hnext := hpos (b := next) (by simp)
        dsimp only at h
        split_ifs at h with hmeet
        · obtain rfl := Option.some.inj h
          refine hgapped.erase.erase.insert (by dsimp only; omega)
            (fun s hs => hgapped.before_lt hs) fun t ht => ?_
          have hlt := hgapped'.lt_after ht
          dsimp only
          omega
        · obtain rfl := Option.some.inj h
          refine hgapped.erase.insert (by dsimp only; omega) (fun s hs => hgapped.before_lt hs)
            fun t ht => ?_
          have hle := hbehind List.mem_cons_self
          dsimp only
          rcases List.mem_cons.1 ht with rfl | ht
          · omega
          · have hlt := hgapped'.lt_after ht
            omega
    · -- the freed addresses end where the block begins
      have hbehind {t : Span} (ht : t ∈ before) : t.offset + t.size ≤ offset := by
        have hlt := hgapped.before_lt (List.mem_reverse.2 ht)
        have ht' := hpos (b := t) (by simp [ht])
        rcases hclear t (by simp [ht]) with hc | hc
        · exact hc
        · omega
      have hblock := hpos (b := block) (by simp)
      cases before with
      | nil =>
        obtain rfl := Option.some.inj h
        refine @Gapped.insert [] _ _ hgapped.erase (by dsimp only; omega)
          (fun s hs => absurd hs List.not_mem_nil) fun t ht => ?_
        have hlt := hgapped.lt_after ht
        dsimp only
        omega
      | cons prev before' =>
        have hgapped' : Gapped (before'.reverse ++ prev :: block :: after) := by
          rwa [List.reverse_cons, List.append_assoc, List.singleton_append] at hgapped
        have hprev := hpos (b := prev) (by simp)
        dsimp only at h
        split_ifs at h with hmeet
        · obtain rfl := Option.some.inj h
          refine hgapped'.erase.erase.insert (by dsimp only; omega)
            (fun s hs => hgapped'.before_lt hs) fun t ht => ?_
          have hlt := hgapped.lt_after ht
          dsimp only
          omega
        · obtain rfl := Option.some.inj h
          refine hgapped.erase.insert (by dsimp only; omega) (fun s hs => ?_) fun t ht => ?_
          · have hle := hbehind List.mem_cons_self
            rcases List.mem_cons.1 (List.mem_reverse.1 hs) with rfl | hs
            · dsimp only
              omega
            · have hlt := hgapped'.before_lt (List.mem_reverse.2 hs)
              dsimp only
              omega
          · have hlt := hgapped.lt_after ht
            dsimp only
            omega
    · refine ih ?_ ?_ h
      · rwa [List.reverse_cons, List.append_assoc, List.singleton_append]
      · rwa [List.reverse_cons, List.append_assoc, List.singleton_append]

/-- A block ends or begins where the freed addresses begin or end. -/
def Meets (offset size : ℕ) (b : Span) : Prop :=
  b.offset + b.size = offset ∨ offset + size = b.offset

lemma not_meets_of_mergeBlock (h : mergeBlock offset size before blocks = none) :
    ∀ b ∈ blocks, ¬ Meets offset size b := by
  induction blocks generalizing before with
  | nil => exact fun b hb => absurd hb List.not_mem_nil
  | cons block after ih =>
    rw [mergeBlock] at h
    split_ifs at h with hend hstart
    · cases after with
      | nil => cases h
      | cons next after' =>
        dsimp only at h
        split_ifs at h
    · cases before with
      | nil => cases h
      | cons prev before' =>
        dsimp only at h
        split_ifs at h
    · exact List.forall_mem_cons.2 ⟨not_or.2 ⟨hend, hstart⟩, ih h⟩

lemma clear_of_meets (hgapped : Gapped blocks) {b : Span} (hb : b ∈ blocks)
    (hmeets : Meets offset 0 b) : ∀ c ∈ blocks, Clear offset 0 c := by
  obtain ⟨before, after, rfl⟩ := List.append_of_mem hb
  intro c hc
  rw [Clear]
  rcases List.mem_append.1 hc with hc | hc
  · have hlt := hgapped.before_lt hc
    rcases hmeets with hm | hm <;> omega
  · rcases List.mem_cons.1 hc with rfl | hc
    · rcases hmeets with hm | hm <;> omega
    · have hlt := hgapped.lt_after hc
      rcases hmeets with hm | hm <;> omega

lemma clear_of_coverage (hgapped : Gapped blocks) (hsize : 0 < size)
    (hfree : ∀ x, Span.Covers ⟨offset, size⟩ x → Span.coverage blocks x = 0) :
    ∀ b ∈ blocks, Clear offset size b := by
  intro b hb
  have hpos := hgapped.pos b hb
  by_contra hnot
  rw [Clear, not_or, not_le, not_le] at hnot
  have hcovered : b.Covers (max offset b.offset) := by
    rw [Span.Covers]
    omega
  have hzero := hfree (max offset b.offset) (by rw [Span.Covers]; dsimp only; omega)
  rw [Span.coverage, List.countP_eq_zero] at hzero
  exact hzero b hb (decide_eq_true hcovered)

lemma gapped_insertBlock (hgapped : Gapped blocks) (hsize : 0 < size)
    (hclear : ∀ b ∈ blocks, Clear offset size b) (hmeets : ∀ b ∈ blocks, ¬ Meets offset size b) :
    Gapped (insertBlock offset size blocks) := by
  have happart : ∀ b ∈ blocks, b.offset + b.size < offset ∨ offset + size < b.offset := by
    intro b hb
    have hm := hmeets b hb
    rw [Meets, not_or] at hm
    rcases hclear b hb with hc | hc <;> omega
  have hsplit := List.takeWhile_append_dropWhile (p := (·.offset < offset)) (l := blocks)
  rw [insertBlock]
  refine Gapped.insert (by rwa [hsplit]) hsize (fun s hs => ?_) fun t ht => ?_
  · have hlt : s.offset < offset := by
      simpa using List.mem_takeWhile_imp hs
    have hmem : s ∈ blocks := hsplit ▸ List.mem_append_left _ hs
    rcases happart s hmem with hc | hc <;> omega
  · -- the first of the blocks behind is not before the addresses, and the others follow it
    have hmem : t ∈ blocks := hsplit ▸ List.mem_append_right _ ht
    cases hdrop : blocks.dropWhile (·.offset < offset) with
    | nil =>
      rw [hdrop] at ht
      cases ht
    | cons first rest =>
      have hfirst : ¬ first.offset < offset := by
        have hhead := List.head_dropWhile_not (fun b : Span => decide (b.offset < offset))
          (by rw [hdrop]; exact List.cons_ne_nil _ _)
        simpa [hdrop] using hhead
      have hle : first.offset ≤ t.offset := by
        rw [hdrop] at ht hsplit
        rcases List.mem_cons.1 ht with rfl | ht
        · exact le_rfl
        · have hlt := (hsplit.symm ▸ hgapped : Gapped _).lt_after ht
          omega
      rcases happart t hmem with hc | hc <;> dsimp only <;> omega

/-- Freed addresses go back to the free blocks with gaps between them, unless there are none of
them and no block is met. -/
lemma gapped_freeTensor (hgapped : Gapped a.freeBlocks)
    (hfree : ∀ x, Span.Covers ⟨offset, alignedOffset size a.alignment⟩ x → a.free x = 0)
    (hmeets : alignedOffset size a.alignment = 0 → ∃ b ∈ a.freeBlocks, Meets offset 0 b)
    (h : a.freeTensor offset size = .ok a') : Gapped a'.freeBlocks := by
  have hclear : ∀ b ∈ a.freeBlocks, Clear offset (alignedOffset size a.alignment) b := by
    rcases Nat.eq_zero_or_pos (alignedOffset size a.alignment) with hzero | hpos
    · obtain ⟨b, hb, hm⟩ := hmeets hzero
      rw [hzero]
      exact clear_of_meets hgapped hb hm
    · exact clear_of_coverage hgapped hpos hfree
  rw [freeTensor] at h
  cases hmerge : mergeBlock offset (alignedOffset size a.alignment) [] a.freeBlocks with
  | some merged =>
    rw [hmerge] at h
    obtain rfl := Except.ok.inj h
    exact @gapped_mergeBlock _ [] _ _ _ hgapped hclear hmerge
  | none =>
    rw [hmerge] at h
    dsimp only at h
    split_ifs at h with hroom
    obtain rfl := Except.ok.inj h
    have hnot := not_meets_of_mergeBlock hmerge
    refine gapped_insertBlock hgapped (Nat.pos_of_ne_zero fun hzero => ?_) hclear hnot
    obtain ⟨b, hb, hm⟩ := hmeets hzero
    exact hnot b hb (hzero ▸ hm)

lemma dvd_alignedOffset {k : ℕ} (hk : k ≤ 64) (size : ℕ) :
    2 ^ k ∣ alignedOffset size (2 ^ k) := by
  rw [alignedOffset, Nat.dvd_mod_iff (Nat.pow_dvd_pow 2 hk)]
  have hmod := Nat.mod_lt size (Nat.two_pow_pos k)
  have hdiv := Nat.div_add_mod size (2 ^ k)
  rcases Nat.eq_zero_or_pos (size % 2 ^ k) with hzero | hpos
  · rw [hzero, Nat.sub_zero, Nat.mod_self, Nat.add_zero]
    exact Nat.dvd_of_mod_eq_zero hzero
  · rw [Nat.mod_eq_of_lt (Nat.sub_lt (Nat.two_pow_pos k) hpos)]
    refine ⟨size / 2 ^ k + 1, ?_⟩
    rw [Nat.mul_succ]
    omega

lemma aligned_alloc {k : ℕ} (hk : k ≤ 64) (halign : a.alignment = 2 ^ k)
    (h : ∀ b ∈ a.freeBlocks, a.alignment ∣ b.offset) (halloc : a.alloc size = .ok (offset, a')) :
    a.alignment ∣ offset ∧ ∀ b ∈ a'.freeBlocks, a.alignment ∣ b.offset := by
  obtain ⟨⟨before, block, after, hblocks, hsize, rfl, hblocks'⟩, -⟩ := alloc_eq_ok halloc
  rw [hblocks] at h
  have hblock := h block (by simp)
  refine ⟨hblock, fun b hb => ?_⟩
  rw [hblocks'] at hb
  rcases List.mem_append.1 hb with hb | hb
  · rcases List.mem_append.1 hb with hb | hb
    · exact h b (List.mem_append_left _ hb)
    · split_ifs at hb
      · cases hb
      · rw [List.mem_singleton.1 hb]
        dsimp only
        rw [halign] at hblock ⊢
        exact Nat.dvd_add hblock (dvd_alignedOffset hk size)
  · exact h b (List.mem_append_right _ (List.mem_cons_of_mem _ hb))

lemma offset_mergeBlock (h : mergeBlock offset size before blocks = some merged) :
    ∀ b ∈ merged, b.offset = offset ∨ ∃ c ∈ before ++ blocks, b.offset = c.offset := by
  induction blocks generalizing before with
  | nil => cases h
  | cons block after ih =>
    -- a block in a row of old ones that begins at the freed addresses or like an old one
    have hrow {front back : List Span} {new : Span} (hmerged : merged = front ++ new :: back)
        (hfront : ∀ c ∈ front, c ∈ before ++ block :: after) (hback : ∀ c ∈ back, c ∈ after)
        (hnew : new.offset = offset ∨ ∃ c ∈ before ++ block :: after, new.offset = c.offset) :
        ∀ b ∈ merged, b.offset = offset ∨ ∃ c ∈ before ++ block :: after, b.offset = c.offset := by
      intro b hb
      rw [hmerged] at hb
      rcases List.mem_append.1 hb with hb | hb
      · exact .inr ⟨b, hfront b hb, rfl⟩
      · rcases List.mem_cons.1 hb with rfl | hb
        · exact hnew
        · exact .inr ⟨b, by simp [hback b hb], rfl⟩
    have hbefore : ∀ c ∈ before.reverse, c ∈ before ++ block :: after := fun c hc =>
      List.mem_append_left _ (List.mem_reverse.1 hc)
    rw [mergeBlock] at h
    split_ifs at h with hend hstart
    · have hblock : ∃ c ∈ before ++ block :: after, block.offset = c.offset :=
        ⟨block, by simp, rfl⟩
      cases after with
      | nil =>
        obtain rfl := Option.some.inj h
        exact hrow rfl hbefore (fun c hc => hc) (.inr hblock)
      | cons next after' =>
        dsimp only at h
        split_ifs at h
        · obtain rfl := Option.some.inj h
          exact hrow rfl hbefore (fun c hc => List.mem_cons_of_mem _ hc) (.inr hblock)
        · obtain rfl := Option.some.inj h
          exact hrow rfl hbefore (fun c hc => hc) (.inr hblock)
    · cases before with
      | nil =>
        obtain rfl := Option.some.inj h
        exact @hrow [] _ _ rfl (fun c hc => absurd hc List.not_mem_nil) (fun c hc => hc)
          (.inl rfl)
      | cons prev before' =>
        dsimp only at h
        split_ifs at h
        · obtain rfl := Option.some.inj h
          exact hrow rfl (fun c hc => by simp [List.mem_reverse.1 hc]) (fun c hc => hc)
            (.inr ⟨prev, by simp, rfl⟩)
        · obtain rfl := Option.some.inj h
          exact hrow rfl hbefore (fun c hc => hc) (.inl rfl)
    · intro b hb
      rcases ih h b hb with heq | ⟨c, hc, heq⟩
      · exact .inl heq
      · exact .inr ⟨c, by simpa [or_assoc, or_left_comm] using hc, heq⟩

lemma aligned_freeTensor (h : ∀ b ∈ a.freeBlocks, a.alignment ∣ b.offset)
    (hoffset : a.alignment ∣ offset) (hfree : a.freeTensor offset size = .ok a') :
    ∀ b ∈ a'.freeBlocks, a.alignment ∣ b.offset := by
  rw [freeTensor] at hfree
  intro b hb
  cases hmerge : mergeBlock offset (alignedOffset size a.alignment) [] a.freeBlocks with
  | some merged =>
    rw [hmerge] at hfree
    obtain rfl := Except.ok.inj hfree
    rcases offset_mergeBlock hmerge b hb with heq | ⟨c, hc, heq⟩
    · rwa [heq]
    · rw [heq]
      exact h c hc
  | none =>
    rw [hmerge] at hfree
    dsimp only at hfree
    split_ifs at hfree
    obtain rfl := Except.ok.inj hfree
    rcases List.mem_append.1 hb with hb | hb
    · exact h b ((List.takeWhile_sublist _).subset hb)
    · rcases List.mem_cons.1 hb with rfl | hb
      · exact hoffset
      · exact h b ((List.dropWhile_sublist _).subset hb)

end DynTallocr

/-! ## Runs -/

/-- An allocator, the blocks in use with the sizes that were asked for, and all blocks that were
ever allocated. -/
structure TallocrRun where
  alloc : DynTallocr
  live : List Span
  allocated : List Span

/-- A call; a free is of one of the blocks in use. -/
inductive TallocrCall
  | alloc (size : ℕ)
  | free (i : ℕ)

namespace TallocrRun

/-- The addresses of a block whose size was asked for. -/
def padded (s : TallocrRun) (b : Span) : Span := ⟨b.offset, alignedOffset b.size s.alloc.alignment⟩

/-- What a call does; it aborts where the code does. -/
def step (s : TallocrRun) : TallocrCall → Option TallocrRun
  | .alloc size => (s.alloc.alloc size).toOption.map fun x =>
    let b : Span := ⟨x.1, size⟩
    ⟨x.2, s.live ++ [b], s.allocated ++ [s.padded b]⟩
  | .free i => s.live[i]?.bind fun b =>
    (s.alloc.freeTensor b.offset b.size).toOption.map fun a =>
      ⟨a, s.live.eraseIdx i, s.allocated⟩

/-- `ggml_dyn_tallocr_new`. -/
def start (alignment : ℕ) : TallocrRun := ⟨.new alignment, [], []⟩

/-- A block without addresses is only freed where it meets a free block. -/
def FreesMeet (s : TallocrRun) : TallocrCall → Prop
  | .alloc _ => True
  | .free i => ∀ b, s.live[i]? = some b → (s.padded b).size = 0 →
    ∃ f ∈ s.alloc.freeBlocks, DynTallocr.Meets b.offset 0 f

/-- The free blocks are sorted, without overlaps and apart from each other, they tile the addresses
together with the blocks in use, and all blocks are aligned and covered by `max_size`. -/
structure Tiled (s : TallocrRun) : Prop where
  sorted : s.alloc.freeBlocks.Pairwise fun b c => b.offset + b.size < c.offset
  tiles : ∀ x, Span.coverage s.alloc.freeBlocks x + Span.coverage (s.live.map s.padded) x =
    if x < sizeMax / 2 then 1 else 0
  aligned : ∀ b ∈ s.allocated, s.alloc.alignment ∣ b.offset
  maxSize : ∀ b ∈ s.allocated, b.offset + b.size ≤ s.alloc.maxSize

/-- What every call keeps. -/
structure Inv (k : ℕ) (s : TallocrRun) : Prop where
  alignment : s.alloc.alignment = 2 ^ k
  gapped : Gapped s.alloc.freeBlocks
  tiles : ∀ x, Span.coverage s.alloc.freeBlocks x + Span.coverage (s.live.map s.padded) x =
    if x < sizeMax / 2 then 1 else 0
  free_aligned : ∀ b ∈ s.alloc.freeBlocks, s.alloc.alignment ∣ b.offset
  live_aligned : ∀ b ∈ s.live, s.alloc.alignment ∣ b.offset
  aligned : ∀ b ∈ s.allocated, s.alloc.alignment ∣ b.offset
  maxSize : ∀ b ∈ s.allocated, b.offset + b.size ≤ s.alloc.maxSize

variable {k : ℕ} {s s' : TallocrRun}

lemma inv_start (k : ℕ) : Inv k (start (2 ^ k)) where
  alignment := rfl
  gapped := ⟨List.pairwise_singleton _ _, fun b hb => by
    rw [List.mem_singleton.1 hb]
    exact Nat.div_pos (by rw [sizeMax]; omega) Nat.two_pos⟩
  tiles x := by
    rw [show Span.coverage ((start (2 ^ k)).live.map (start (2 ^ k)).padded) x = 0 from rfl,
      Nat.add_zero]
    refine (Span.coverage_singleton _ _).trans (if_congr ?_ rfl rfl)
    rw [Span.Covers]
    dsimp only
    rw [Nat.zero_add]
    exact ⟨fun h => h.2, fun h => ⟨Nat.zero_le x, h⟩⟩
  free_aligned b hb := by
    rw [List.mem_singleton.1 hb]
    exact Nat.dvd_zero _
  live_aligned _ hb := absurd hb List.not_mem_nil
  aligned _ hb := absurd hb List.not_mem_nil
  maxSize _ hb := absurd hb List.not_mem_nil

lemma Inv.alloc (h : Inv k s) (hk : k ≤ 64) {size : ℕ} (hstep : s.step (.alloc size) = some s') :
    Inv k s' := by
  obtain ⟨⟨offset, a'⟩, halloc, rfl⟩ := Option.map_eq_some_iff.1 hstep
  have halloc : s.alloc.alloc size = .ok (offset, a') := by
    cases hresult : s.alloc.alloc size with
    | error e => rw [hresult] at halloc; cases halloc
    | ok x => rw [hresult] at halloc; rw [Option.some.inj halloc]
  obtain ⟨hfree, hmax, halign⟩ := DynTallocr.takes_alloc halloc
  obtain ⟨hoffset, hblocks⟩ := DynTallocr.aligned_alloc hk h.alignment h.free_aligned halloc
  have hpadded (b : Span) : padded ⟨a', s.live ++ [⟨offset, size⟩],
      s.allocated ++ [s.padded ⟨offset, size⟩]⟩ b = s.padded b := by
    simp only [padded, halign]
  refine ⟨halign.trans h.alignment, DynTallocr.gapped_alloc h.gapped halloc, fun x => ?_,
    fun b hb => halign ▸ hblocks b hb, fun b hb => ?_, fun b hb => ?_, fun b hb => ?_⟩
  · have htiles := h.tiles x
    have hfree := hfree x
    rw [DynTallocr.free, DynTallocr.free] at hfree
    dsimp only
    rw [funext hpadded, List.map_append, Span.coverage_append, List.map_singleton, padded]
    dsimp only
    omega
  · rw [halign]
    rcases List.mem_append.1 hb with hb | hb
    · exact h.live_aligned b hb
    · rwa [List.mem_singleton.1 hb]
  · rw [halign]
    rcases List.mem_append.1 hb with hb | hb
    · exact h.aligned b hb
    · rwa [List.mem_singleton.1 hb]
  · rw [hmax]
    rcases List.mem_append.1 hb with hb | hb
    · exact (h.maxSize b hb).trans (le_max_left _ _)
    · rw [List.mem_singleton.1 hb]
      exact le_max_right _ _

lemma Inv.free (h : Inv k s) {i : ℕ} (hmeet : s.FreesMeet (.free i))
    (hstep : s.step (.free i) = some s') : Inv k s' := by
  obtain ⟨b, hb, hstep⟩ := Option.bind_eq_some_iff.1 hstep
  obtain ⟨a', hfree, rfl⟩ := Option.map_eq_some_iff.1 hstep
  have hfree : s.alloc.freeTensor b.offset b.size = .ok a' := by
    cases hresult : s.alloc.freeTensor b.offset b.size with
    | error e => rw [hresult] at hfree; cases hfree
    | ok x => rw [hresult] at hfree; rw [Option.some.inj hfree]
  obtain ⟨hgives, hmax, halign⟩ := DynTallocr.givesBack_freeTensor hfree
  obtain ⟨hi, hget⟩ := List.getElem?_eq_some_iff.1 hb
  have hmem : b ∈ s.live := List.mem_of_getElem? hb
  have hpadded (c : Span) : padded ⟨a', s.live.eraseIdx i, s.allocated⟩ c = s.padded c := by
    simp only [padded, halign]
  -- the freed block and the others are the blocks in use
  have hlive (x : ℕ) : Span.coverage (s.live.map s.padded) x =
      Span.coverage ((s.live.eraseIdx i).map s.padded) x + Span.coverage [s.padded b] x := by
    have hperm := (List.getElem_cons_eraseIdx_perm hi).map s.padded
    rw [hget] at hperm
    rw [← Span.coverage_perm hperm x, List.map_cons, Span.coverage_cons]
  refine ⟨halign.trans h.alignment, DynTallocr.gapped_freeTensor h.gapped (fun x hx => ?_)
      (hmeet b hb) hfree, fun x => ?_, fun c hc => ?_, fun c hc => ?_, fun c hc => ?_,
    fun c hc => ?_⟩
  · have htiles := h.tiles x
    have hcovered : Span.coverage [s.padded b] x = 1 := Span.coverage_singleton_of_covers hx
    rw [hlive x, hcovered] at htiles
    rw [DynTallocr.free]
    split_ifs at htiles
    omega
  · have htiles := h.tiles x
    have hgives := hgives x
    rw [DynTallocr.free, DynTallocr.free] at hgives
    rw [hlive x, padded] at htiles
    dsimp only
    rw [funext hpadded]
    omega
  · rw [halign]
    exact DynTallocr.aligned_freeTensor h.free_aligned (h.live_aligned b hmem) hfree c hc
  · rw [halign]
    exact h.live_aligned c (List.mem_of_mem_eraseIdx hc)
  · rw [halign]
    exact h.aligned c hc
  · rw [hmax]
    exact h.maxSize c hc

/-- In every run that frees blocks without addresses only where they meet a free block, the free
blocks are sorted with gaps between them and tile the address space together with the blocks in
use, all blocks are aligned, and `max_size` covers them. -/
theorem tiled_of_reaches (hk : k ≤ 64) (h : Reaches step FreesMeet (start (2 ^ k)) s) :
    s.Tiled := by
  have hinv : Inv k s := h.invariant (inv_start k) fun s a s' h hok hstep => by
    cases a with
    | alloc size => exact h.alloc hk hstep
    | free i => exact h.free hok hstep
  exact ⟨hinv.gapped.sorted, hinv.tiles, hinv.aligned, hinv.maxSize⟩

/-- Two blocks, of which the first one is freed. -/
theorem tiled_of_reaches_freed : ∃ s, Reaches step FreesMeet (start (2 ^ 5)) s ∧
    s.alloc.freeBlocks = [⟨0, 64⟩, ⟨96, sizeMax / 2 - 96⟩] ∧ s.Tiled := by
  obtain ⟨s, hs, hblocks⟩ : ∃ s, Reaches step FreesMeet (start (2 ^ 5)) s ∧
      s.alloc.freeBlocks = [⟨0, 64⟩, ⟨96, sizeMax / 2 - 96⟩] := by
    refine ⟨_, .snoc (.free 0) (.snoc (.alloc 32) (.snoc (.alloc 50) .start trivial rfl) trivial rfl)
      (fun b hb hzero => ?_) rfl, rfl⟩
    obtain rfl := Option.some.inj hb
    exact absurd hzero (by decide)
  exact ⟨s, hs, hblocks, tiled_of_reaches (by decide) hs⟩

/-- A block without addresses is freed inside another one, which is freed after it. -/
theorem not_tiled : ∃ s, Reaches step (fun _ _ => True) (start (2 ^ 5)) s ∧
    s.alloc.freeBlocks = [⟨64, 0⟩, ⟨0, sizeMax / 2⟩] ∧ ¬ s.Tiled := by
  obtain ⟨s, hs, hblocks⟩ : ∃ s, Reaches step (fun _ _ => True) (start (2 ^ 5)) s ∧
      s.alloc.freeBlocks = [⟨64, 0⟩, ⟨0, sizeMax / 2⟩] :=
    exists_reached_of_perform (show (perform step (start (2 ^ 5)) [.alloc 64, .alloc 0, .free 0,
      .alloc 128, .free 0, .free 0]).map (fun s => s.alloc.freeBlocks) =
        some [⟨64, 0⟩, ⟨0, sizeMax / 2⟩] by decide)
  refine ⟨s, hs, hblocks, fun htiled => ?_⟩
  have hsorted := htiled.sorted
  rw [hblocks, List.pairwise_pair] at hsorted
  exact absurd hsorted (by decide)

lemma inv_of_reaches (hk : k ≤ 64) (h : Reaches step FreesMeet (start (2 ^ k)) s) : Inv k s :=
  h.invariant (inv_start k) fun s a s' h hok hstep => by
    cases a with
    | alloc size => exact h.alloc hk hstep
    | free i => exact h.free hok hstep

/-- The free blocks are a function of the blocks in use: however the run went, they are the gaps
between these.  With no block in use there is one free block again. -/
theorem freeBlocks_eq_of_reaches (hk : k ≤ 64) (h : Reaches step FreesMeet (start (2 ^ k)) s)
    (h' : Reaches step FreesMeet (start (2 ^ k)) s') (hlive : s.live.Perm s'.live) :
    s.alloc.freeBlocks = s'.alloc.freeBlocks := by
  have hinv := inv_of_reaches hk h
  have hinv' := inv_of_reaches hk h'
  have hpadded (b : Span) : s.padded b = s'.padded b := by
    simp only [padded, hinv.alignment, hinv'.alignment]
  refine hinv.gapped.eq_of_coverage hinv'.gapped fun x => ?_
  have hused := Span.coverage_perm (hlive.map s.padded) x
  have htiles := hinv.tiles x
  have htiles' := hinv'.tiles x
  rw [← funext hpadded] at htiles'
  omega

/-- Two blocks are freed in the order in which they were allocated. -/
theorem freeBlocks_eq_of_reaches_drained : ∃ s, Reaches step FreesMeet (start (2 ^ 5)) s ∧
    s.allocated = [⟨0, 64⟩, ⟨64, 32⟩] ∧ s.alloc.freeBlocks = [⟨0, sizeMax / 2⟩] := by
  obtain ⟨s, hs, hblocks, hlive⟩ : ∃ s, Reaches step FreesMeet (start (2 ^ 5)) s ∧
      s.allocated = [⟨0, 64⟩, ⟨64, 32⟩] ∧ s.live = [] := by
    refine ⟨_, .snoc (.free 0) (.snoc (.free 0) (.snoc (.alloc 32) (.snoc (.alloc 50) .start
      trivial rfl) trivial rfl) (fun b hb hzero => ?_) rfl) (fun b hb hzero => ?_) rfl, rfl, rfl⟩
    · obtain rfl := Option.some.inj hb
      exact absurd hzero (by decide)
    · obtain rfl := Option.some.inj hb
      exact absurd hzero (by decide)
  have hperm : s.live.Perm (start (2 ^ 5)).live := hlive ▸ .nil
  exact ⟨s, hs, hblocks, freeBlocks_eq_of_reaches (by decide) hs .start hperm⟩

end TallocrRun

end IFairy.Alloc
