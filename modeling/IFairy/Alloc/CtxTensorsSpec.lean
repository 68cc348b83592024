import IFairy.Alloc.CtxTensors
import Mathlib.Algebra.BigOperators.Ring.Finset
import Mathlib.Algebra.Order.BigOperators.Group.Finset
import Mathlib.Data.List.GetD

/-!
# What the tensors of a context get

Both passes agree on the sizes: a tensor of a chunk is placed at the sum of the padded sizes of the
fresh tensors before it, and the buffer has room for all of them (`allocTensorRange_spec`).  No
assertion fails.  The last chunk is only placed when its size is not zero, and a single tensor
whose padding exceeds the maximum size closes its chunk at the next tensor.  So views and empty
tensors at the end of the context can be left out (`allocatesAll_iff`).
-/

namespace IFairy.CtxTensors

section

variable (ctx : Ctx) (buft : BufferType)

/-! ## Regions -/

def Fresh (t : ℕ) : Prop := ctx.viewSrc t = none ∧ ctx.initial.data t = none

/-- A view that has to be initialised. -/
def PendingView (t : ℕ) : Prop := ctx.viewSrc t ≠ none ∧ ctx.initial.buffer t = none

def NeedsWork (t : ℕ) : Prop := Fresh ctx t ∨ PendingView ctx t

instance (t : ℕ) : Decidable (Fresh ctx t) := inferInstanceAs (Decidable (_ ∧ _))

/-- The padded size of a tensor that needs memory, zero for the others. -/
def paddedSize (t : ℕ) : ℕ := if Fresh ctx t then ggmlPad (ctx.allocSize t) buft.alignment else 0

/-- The padded sizes of the tensors from `a` to before `b`. -/
def sizeSum (a b : ℕ) : ℕ := ∑ t ∈ Finset.Ico a b, paddedSize ctx buft t

/-- A view has the memory of its source, at its offset. -/
def ViewOf (p : Placement) (t : ℕ) : Prop :=
  ∃ src buffer data, ctx.viewSrc t = some src ∧ p.buffer src = some buffer ∧
    p.data src = some data ∧ p.buffer t = some buffer ∧ p.data t = some (data + ctx.viewOffs t)

/-- The tensors before `start m` are placed, those from `start k` to before `start (k + 1)` in
buffer `k`, one after the other. -/
structure Placed (start : ℕ → ℕ) (m : ℕ) (p : Placement) : Prop where
  fresh : ∀ k < m, ∀ t, start k ≤ t → t < start (k + 1) → Fresh ctx t →
    p.buffer t = some (.own k) ∧ p.data t = some (buft.base k + sizeSum ctx buft (start k) t)
  view : ∀ t < start m, PendingView ctx t → ViewOf ctx p t
  rest : ∀ t, start m ≤ t ∨ ¬ NeedsWork ctx t →
    p.buffer t = ctx.initial.buffer t ∧ p.data t = ctx.initial.data t

/-- The boundaries of `m` chunks. -/
structure Chunks (start : ℕ → ℕ) (m : ℕ) : Prop where
  start_zero : start 0 = 0
  mono : ∀ k < m, start k ≤ start (k + 1)

end

variable {ctx : Ctx} {buft : BufferType}

lemma le_ggmlPad (x : ℕ) {n : ℕ} (hn : 0 < n) : x ≤ ggmlPad x n := by
  have hdiv := Nat.div_add_mod (x + n - 1) n
  have hmod := Nat.mod_lt (x + n - 1) hn
  rw [ggmlPad, Nat.mul_comm]
  omega

lemma dvd_ggmlPad (x n : ℕ) : n ∣ ggmlPad x n := Dvd.intro_left _ rfl

lemma alignment_pos (buft : BufferType) : 0 < buft.alignment := Nat.two_pow_pos _

lemma alignedOffset_zero {base alignment : ℕ} (h : alignment ∣ base) :
    alignedOffset base 0 alignment = 0 := by
  rw [alignedOffset, Nat.add_zero, Nat.mod_eq_zero_of_dvd h, Nat.sub_zero, Nat.mod_self]

lemma dvd_sizeSum (a b : ℕ) : buft.alignment ∣ sizeSum ctx buft a b := by
  refine Finset.dvd_sum fun t _ => ?_
  rw [paddedSize]
  split_ifs
  · exact dvd_ggmlPad _ _
  · exact Nat.dvd_zero _

variable (ctx buft) in
@[simp] lemma sizeSum_self (a : ℕ) : sizeSum ctx buft a a = 0 := by
  rw [sizeSum, Finset.Ico_self, Finset.sum_empty]

variable (ctx buft) in
lemma sizeSum_succ {a b : ℕ} (h : a ≤ b) :
    sizeSum ctx buft a (b + 1) = sizeSum ctx buft a b + paddedSize ctx buft b :=
  Finset.sum_Ico_succ_top h _

variable (ctx buft) in
lemma sizeSum_mono (a : ℕ) {b c : ℕ} (h : b ≤ c) : sizeSum ctx buft a b ≤ sizeSum ctx buft a c :=
  Finset.sum_le_sum_of_subset (Finset.Ico_subset_Ico_right h)

lemma sizeSum_eq_zero_iff {a b : ℕ} :
    sizeSum ctx buft a b = 0 ↔ ∀ t, a ≤ t → t < b → paddedSize ctx buft t = 0 := by
  rw [sizeSum, Finset.sum_eq_zero_iff]
  exact forall_congr' fun t => by rw [Finset.mem_Ico, and_imp]

variable (ctx buft) in
lemma paddedSize_le_sizeSum {a b t : ℕ} (ha : a ≤ t) (hb : t < b) :
    paddedSize ctx buft t ≤ sizeSum ctx buft a b :=
  Finset.single_le_sum (f := paddedSize ctx buft) (fun _ _ => Nat.zero_le _)
    (Finset.mem_Ico.2 ⟨ha, hb⟩)

namespace Chunks

variable {start : ℕ → ℕ} {m : ℕ}

lemma le_of_le (h : Chunks start m) {i j : ℕ} (hij : i ≤ j) (hj : j ≤ m) : start i ≤ start j := by
  induction j with
  | zero => rw [Nat.le_zero.1 hij]
  | succ j ih =>
    rcases Nat.le_succ_iff_eq_or_le.1 hij with rfl | hle
    · exact le_rfl
    · exact (ih hle (Nat.le_of_succ_le hj)).trans (h.mono j hj)

lemma exists_chunk (h : Chunks start m) {t : ℕ} (ht : t < start m) :
    ∃ k < m, start k ≤ t ∧ t < start (k + 1) := by
  induction m with
  | zero =>
    rw [h.start_zero] at ht
    exact absurd ht (Nat.not_lt_zero t)
  | succ m ih =>
    rcases lt_or_ge t (start m) with hlt | hge
    · obtain ⟨k, hk, hchunk⟩ := ih ⟨h.start_zero, fun k hk => h.mono k (Nat.lt_succ_of_lt hk)⟩ hlt
      exact ⟨k, Nat.lt_succ_of_lt hk, hchunk⟩
    · exact ⟨m, Nat.lt_succ_self m, hge, ht⟩

lemma extend (h : Chunks start m) {last : ℕ} (hlast : start m ≤ last) :
    Chunks (Function.update start (m + 1) last) (m + 1) := by
  refine ⟨?_, fun k hk => ?_⟩
  · rw [Function.update_of_ne (Nat.succ_ne_zero m).symm, h.start_zero]
  · rw [Function.update_of_ne hk.ne]
    rcases Nat.lt_succ_iff_lt_or_eq.1 hk with hlt | rfl
    · rw [Function.update_of_ne (Nat.succ_lt_succ hlt).ne]
      exact h.mono k hlt
    · rwa [Function.update_self]

end Chunks

/-! ## Placing -/

variable {start : ℕ → ℕ} {m : ℕ}

lemma Placed.open_chunk {p : Placement} (h : Placed ctx buft start m p) :
    Placed ctx buft (Function.update start (m + 1) (start m)) (m + 1) p := by
  refine ⟨fun k hk t hle hlt => ?_, ?_, ?_⟩
  · rw [Function.update_of_ne hk.ne] at hle ⊢
    rcases Nat.lt_succ_iff_lt_or_eq.1 hk with hk | rfl
    · rw [Function.update_of_ne (Nat.succ_lt_succ hk).ne] at hlt
      exact h.fresh k hk t hle hlt
    · rw [Function.update_self] at hlt
      exact absurd hlt (not_lt.2 hle)
  · rw [Function.update_self]
    exact h.view
  · rw [Function.update_self]
    exact h.rest

lemma Placed.source {p : Placement} {t : ℕ} (h : Placed ctx buft start m p) (hchunks : Chunks start m)
    (ht : t < ctx.n) (hstart : start m = t) (hview : PendingView ctx t) :
    ∃ src buffer data, ctx.viewSrc t = some src ∧ src ≠ t ∧ p.buffer src = some buffer ∧
      p.data src = some data := by
  obtain ⟨src, hsrc⟩ := Option.ne_none_iff_exists'.1 hview.1
  have hnone := ctx.source_no_view t ht src hsrc
  have hne : src ≠ t := by
    rintro rfl
    rw [hnone] at hsrc
    cases hsrc
  suffices hmem : p.buffer src ≠ none ∧ p.data src ≠ none by
    obtain ⟨buffer, hbuffer⟩ := Option.ne_none_iff_exists'.1 hmem.1
    obtain ⟨data, hdata⟩ := Option.ne_none_iff_exists'.1 hmem.2
    exact ⟨src, buffer, data, hsrc, hne, hbuffer, hdata⟩
  rcases ctx.source_first t ht src hsrc hview.2 with hlt | ⟨hle, hbuffer, hdata⟩
  · by_cases hfresh : ctx.initial.data src = none
    · obtain ⟨k, hk, hlow, hhigh⟩ := hchunks.exists_chunk (hstart.symm ▸ hlt)
      obtain ⟨hbuffer, hdata⟩ := h.fresh k hk src hlow hhigh ⟨hnone, hfresh⟩
      rw [hbuffer, hdata]
      exact ⟨Option.some_ne_none _, Option.some_ne_none _⟩
    · have hnot : ¬ NeedsWork ctx src := by
        rintro (hf | hv)
        · exact hfresh hf.2
        · exact hv.1 hnone
      obtain ⟨hbuffer, hdata⟩ := h.rest src (.inr hnot)
      rw [hbuffer, hdata]
      exact ⟨fun hb => hfresh ((ctx.fresh_buffer src (hlt.trans ht) hnone).1 hb), hfresh⟩
  · obtain ⟨hbuffer', hdata'⟩ := h.rest src (.inl (hstart.le.trans (ht.le.trans hle)))
    rw [hbuffer', hdata']
    exact ⟨hbuffer, hdata⟩

lemma Placed.advance {p p' : Placement} {t : ℕ}
    (h : Placed ctx buft (Function.update start (m + 1) t) (m + 1) p) (hchunks : Chunks start m)
    (hle : start m ≤ t) (ht : t < ctx.n)
    (hframe : ∀ u, u ≠ t → p'.buffer u = p.buffer u ∧ p'.data u = p.data u)
    (hfresh : Fresh ctx t → p'.buffer t = some (.own m) ∧
      p'.data t = some (buft.base m + sizeSum ctx buft (start m) t))
    (hview : PendingView ctx t → ViewOf ctx p' t)
    (hrest : ¬ NeedsWork ctx t →
      p'.buffer t = ctx.initial.buffer t ∧ p'.data t = ctx.initial.data t) :
    Placed ctx buft (Function.update start (m + 1) (t + 1)) (m + 1) p' := by
  refine ⟨fun k hk u hlow hhigh hu => ?_, fun u hu hpending => ?_, fun u hu => ?_⟩
  · by_cases hut : u = t
    · subst hut
      rw [Function.update_of_ne hk.ne] at hlow ⊢
      rcases Nat.lt_succ_iff_lt_or_eq.1 hk with hk | rfl
      · rw [Function.update_of_ne (Nat.succ_lt_succ hk).ne] at hhigh
        exact absurd (hhigh.trans_le (hchunks.le_of_le hk le_rfl)) (not_lt.2 hle)
      · exact hfresh hu
    · rw [(hframe u hut).1, (hframe u hut).2]
      rw [Function.update_of_ne hk.ne] at hlow ⊢
      have hplaced := h.fresh k hk u
      rw [Function.update_of_ne hk.ne] at hplaced
      refine hplaced hlow ?_ hu
      rcases Nat.lt_succ_iff_lt_or_eq.1 hk with hk | rfl
      · rwa [Function.update_of_ne (Nat.succ_lt_succ hk).ne] at hhigh ⊢
      · rw [Function.update_self] at hhigh ⊢
        omega
  · rw [Function.update_self] at hu
    by_cases hut : u = t
    · exact hut ▸ hview (hut ▸ hpending)
    · have hut' : u < t := by omega
      have hview' := h.view u
      rw [Function.update_self] at hview'
      obtain ⟨src, buffer, data, hsrc, hbuffer, hdata, hb, hd⟩ := hview' hut' hpending
      have hne : src ≠ t := by
        rintro rfl
        rcases ctx.source_first u (hut'.trans ht) src hsrc hpending.2 with hlt | ⟨hge, -⟩
        · omega
        · omega
      refine ⟨src, buffer, data, hsrc, ?_⟩
      rw [(hframe src hne).1, (hframe src hne).2, (hframe u hut).1, (hframe u hut).2]
      exact ⟨hbuffer, hdata, hb, hd⟩
  · rw [Function.update_self] at hu
    have hrest' := h.rest u
    rw [Function.update_self] at hrest'
    by_cases hut : u = t
    · subst hut
      rcases hu with hu | hu
      · omega
      · exact hrest hu
    · rw [(hframe u hut).1, (hframe u hut).2]
      exact hrest' (hu.imp_left fun hu => Nat.le_of_succ_le hu)

/-- What a round of the loop of `alloc_tensor_range` does where the buffer has room. -/
lemma placeTensor_spec {s : State} {t : ℕ}
    (h : Placed ctx buft (Function.update start (m + 1) t) (m + 1) s.placement)
    (hchunks : Chunks start m) (hle : start m ≤ t) (ht : t < ctx.n)
    (hroom : sizeSum ctx buft (start m) (t + 1) ≤ s.sizes.getD m 0) :
    ∃ s', placeTensor ctx buft ⟨m, sizeSum ctx buft (start m) t⟩ t s =
        some (⟨m, sizeSum ctx buft (start m) (t + 1)⟩, s') ∧
      s'.sizes = s.sizes ∧
      Placed ctx buft (Function.update start (m + 1) (t + 1)) (m + 1) s'.placement := by
  have hunchanged := h.rest t
  rw [Function.update_self] at hunchanged
  obtain ⟨hbuffer, hdata⟩ := hunchanged (.inl le_rfl)
  have hsum := sizeSum_succ ctx buft hle
  have hframe (b : BufferRef) (addr : ℕ) (u : ℕ) (hu : u ≠ t) :
      (s.assign t b addr).placement.buffer u = s.placement.buffer u ∧
        (s.assign t b addr).placement.data u = s.placement.data u :=
    ⟨Function.update_of_ne hu _ _, Function.update_of_ne hu _ _⟩
  by_cases hfresh : Fresh ctx t
  · -- a fresh tensor: the allocator has room for its padded size
    have hsize : paddedSize ctx buft t = ggmlPad (ctx.allocSize t) buft.alignment := if_pos hfresh
    have hpad := le_ggmlPad (ctx.allocSize t) (alignment_pos buft)
    have hnone : s.placement.buffer t = none := by
      rw [hbuffer]
      exact (ctx.fresh_buffer t ht hfresh.1).2 hfresh.2
    have hnull : s.placement.data t = none := hdata.trans hfresh.2
    have hassert : s.placement.buffer t = none ∧ s.placement.data t = none ∧ ctx.viewSrc t = none ∧
        buft.base m ≤ buft.base m + sizeSum ctx buft (start m) t ∧
        buft.base m + sizeSum ctx buft (start m) t + ctx.allocSize t ≤
          buft.base m + s.sizes.getD m 0 := ⟨hnone, hnull, hfresh.1, by omega, by omega⟩
    refine ⟨s.assign t (.own m) (buft.base m + sizeSum ctx buft (start m) t), ?_, rfl, ?_⟩
    · rw [placeTensor, if_pos hnull, if_pos hfresh.1, tallocrAlloc]
      dsimp only
      rw [if_neg (by omega), tensorAlloc, if_pos hassert, Option.map_some, hsum, hsize]
    · refine h.advance hchunks hle ht (hframe _ _) (fun _ => ?_) (fun hview => ?_) fun hnot => ?_
      · exact ⟨Function.update_self _ _ _, Function.update_self _ _ _⟩
      · exact absurd hfresh.1 hview.1
      · exact absurd (.inl hfresh) hnot
  have hzero : paddedSize ctx buft t = 0 := if_neg hfresh
  rw [hsum, hzero, Nat.add_zero]
  by_cases hview : PendingView ctx t
  · -- a view: its source has memory
    obtain ⟨src, buffer, data, hsrc, hne, hb, hd⟩ :=
      h.source (hchunks.extend hle) ht (Function.update_self _ _ _) hview
    have hinit : viewInit ctx t s = some (s.assign t buffer (data + ctx.viewOffs t)) := by
      rw [viewInit, hsrc]
      dsimp only
      rw [if_pos (hbuffer.trans hview.2), hb, hd]
    refine ⟨s.assign t buffer (data + ctx.viewOffs t), ?_, rfl, ?_⟩
    · by_cases hnull : s.placement.data t = none
      · rw [placeTensor, if_pos hnull, if_neg hview.1, if_pos (hbuffer.trans hview.2), hinit,
          Option.map_some]
      · rw [placeTensor, if_neg hnull, if_pos ⟨hview.1, hbuffer.trans hview.2⟩, hinit,
          Option.map_some]
    · refine h.advance hchunks hle ht (hframe _ _) (fun hf => absurd hf hfresh) (fun _ => ?_)
        fun hnot => absurd (.inr hview) hnot
      refine ⟨src, buffer, data, hsrc, ?_, ?_, Function.update_self _ _ _, Function.update_self _ _ _⟩
      · exact (Function.update_of_ne hne _ _).trans hb
      · exact (Function.update_of_ne hne _ _).trans hd
  · -- nothing to do
    refine ⟨s, ?_, rfl, ?_⟩
    · rw [placeTensor]
      split_ifs with hnull hsrc hnone hpending
      · exact absurd ⟨hsrc, hdata ▸ hnull⟩ hfresh
      · exact absurd ⟨hsrc, hbuffer ▸ hnone⟩ hview
      · rfl
      · exact absurd ⟨hpending.1, hbuffer ▸ hpending.2⟩ hview
      · rfl
    · refine h.advance hchunks hle ht (fun u _ => ⟨rfl, rfl⟩) (fun hf => absurd hf hfresh)
        (fun hv => absurd hv hview) fun _ => ⟨hbuffer, hdata⟩

/-- The loop of `alloc_tensor_range` where the buffer has room for all its tensors. -/
lemma placeTensors_spec (count : ℕ) {s : State} {t : ℕ}
    (h : Placed ctx buft (Function.update start (m + 1) t) (m + 1) s.placement)
    (hchunks : Chunks start m) (hle : start m ≤ t) (ht : t + count ≤ ctx.n)
    (hroom : sizeSum ctx buft (start m) (t + count) ≤ s.sizes.getD m 0) :
    ∃ s', placeTensors ctx buft count t ⟨m, sizeSum ctx buft (start m) t⟩ s = some s' ∧
      s'.sizes = s.sizes ∧
      Placed ctx buft (Function.update start (m + 1) (t + count)) (m + 1) s'.placement := by
  induction count generalizing s t with
  | zero => exact ⟨s, rfl, rfl, h⟩
  | succ count ih =>
    have hassoc : t + (count + 1) = t + 1 + count := by omega
    rw [hassoc] at ht hroom ⊢
    obtain ⟨s₁, hstep, hsizes₁, hplaced₁⟩ := placeTensor_spec h hchunks hle (by omega)
      ((sizeSum_mono ctx buft _ (Nat.le_add_right _ _)).trans hroom)
    obtain ⟨s₂, hrun, hsizes₂, hplaced₂⟩ := ih hplaced₁ (hle.trans (Nat.le_succ t)) ht
      (hsizes₁.symm ▸ hroom)
    refine ⟨s₂, ?_, hsizes₂.trans hsizes₁, hplaced₂⟩
    rw [placeTensors, hstep, Option.bind_some]
    exact hrun

theorem allocTensorRange_spec {s : State} {last : ℕ} (h : Placed ctx buft start m s.placement)
    (hchunks : Chunks start m) (hm : s.sizes.length = m) (hle : start m ≤ last) (hlast : last ≤ ctx.n) :
    ∃ s', allocTensorRange ctx buft (start m) last (sizeSum ctx buft (start m) last) s = some s' ∧
      s'.sizes = s.sizes ++ [sizeSum ctx buft (start m) last] ∧
      Placed ctx buft (Function.update start (m + 1) last) (m + 1) s'.placement := by
  have hcount : start m + (last - start m) = last := Nat.add_sub_cancel' hle
  have hsize : (s.sizes ++ [sizeSum ctx buft (start m) last]).getD m 0 =
      sizeSum ctx buft (start m) last := by
    rw [List.getD_append_right _ _ _ _ hm.le, hm, Nat.sub_self]
    rfl
  obtain ⟨s', hrun, hsizes, hplaced⟩ := placeTensors_spec (last - start m)
    (s := { s with sizes := s.sizes ++ [sizeSum ctx buft (start m) last] }) (t := start m)
    h.open_chunk hchunks le_rfl (hcount.le.trans hlast) (by rw [hcount]; exact hsize.ge)
  rw [hcount] at hplaced
  refine ⟨s', ?_, hsizes, hplaced⟩
  rw [allocTensorRange, hm, alignedOffset_zero (show buft.alignment ∣ buft.base m from buft.base_aligned m),
    ← sizeSum_self ctx buft (start m)]
  exact hrun

/-! ## The sizing loop -/

/-- After `i` tensors: the tensors before `first` are placed and the current size is that of the
tensors since.  A size above the maximum is that of the last tensor alone, and a chunk begins at a
tensor with a size or after such a tensor. -/
structure SizingInv (ctx : Ctx) (buft : BufferType) (start : ℕ → ℕ) (m i : ℕ) (z : Sizing) : Prop where
  placed : Placed ctx buft start m z.state.placement
  chunks : Chunks start m
  sizes : z.state.sizes = (List.range m).map fun k => sizeSum ctx buft (start k) (start (k + 1))
  first_eq : z.first = start m
  first_le : start m ≤ i
  cur_eq : z.curBufSize = sizeSum ctx buft (start m) i
  overflow : buft.maxSize < z.curBufSize → start m < i ∧ z.curBufSize = paddedSize ctx buft (i - 1)
  border : 0 < start m → start m < i ∧ (paddedSize ctx buft (start m) ≠ 0 ∨
    buft.maxSize < paddedSize ctx buft (start m - 1))

lemma thisSize_eq {s : State} (h : Placed ctx buft start m s.placement) {t : ℕ} (ht : start m ≤ t) :
    thisSize ctx buft s t = paddedSize ctx buft t := by
  rw [thisSize, paddedSize, (h.rest t (.inl ht)).2]
  exact if_congr and_comm rfl rfl

lemma sizes_extend {sizes : List ℕ} {last : ℕ}
    (h : sizes = (List.range m).map fun k => sizeSum ctx buft (start k) (start (k + 1))) :
    sizes ++ [sizeSum ctx buft (start m) last] = (List.range (m + 1)).map fun k =>
      sizeSum ctx buft (Function.update start (m + 1) last k)
        (Function.update start (m + 1) last (k + 1)) := by
  rw [List.range_succ, List.map_append, List.map_singleton, h, Function.update_self,
    Function.update_of_ne (Nat.lt_succ_self m).ne]
  refine congrArg₂ _ (List.map_congr_left fun k hk => ?_) rfl
  have hk := List.mem_range.1 hk
  rw [Function.update_of_ne (hk.trans (Nat.lt_succ_self m)).ne,
    Function.update_of_ne (Nat.succ_lt_succ hk).ne]

lemma sizeTensor_spec {i : ℕ} {z : Sizing} (h : SizingInv ctx buft start m i z)
    (hi : i < ctx.n) :
    ∃ start' m' z', sizeTensor ctx buft i z = some z' ∧
      SizingInv ctx buft start' m' (i + 1) z' := by
  have hsize := thisSize_eq h.placed h.first_le
  have hlength : z.state.sizes.length = m := by rw [h.sizes, List.length_map, List.length_range]
  by_cases hflush : 0 < z.curBufSize ∧ buft.maxSize < z.curBufSize + paddedSize ctx buft i
  · -- the tensors so far get a buffer, and this one begins the next chunk
    obtain ⟨s', hrun, hsizes, hplaced⟩ :=
      allocTensorRange_spec h.placed h.chunks hlength h.first_le hi.le
    refine ⟨Function.update start (m + 1) i, m + 1, ⟨i, paddedSize ctx buft i, s'⟩, ?_, ?_⟩
    · rw [sizeTensor, hsize, if_pos hflush, h.first_eq, h.cur_eq, hrun, Option.map_some]
    · have hlast : Function.update start (m + 1) i (m + 1) = i := Function.update_self _ _ _
      refine ⟨hplaced, h.chunks.extend h.first_le, ?_, hlast.symm, ?_, ?_, ?_, ?_⟩
      · exact hsizes.trans (sizes_extend h.sizes)
      · exact hlast.le.trans (Nat.le_succ i)
      · rw [hlast, sizeSum_succ ctx buft le_rfl, sizeSum_self, Nat.zero_add]
      · intro _
        rw [hlast]
        exact ⟨Nat.lt_succ_self i, rfl⟩
      · intro _
        rw [hlast]
        refine ⟨Nat.lt_succ_self i, ?_⟩
        by_cases hzero : paddedSize ctx buft i = 0
        · rw [hzero, Nat.add_zero] at hflush
          exact .inr ((h.overflow hflush.2).2 ▸ hflush.2)
        · exact .inl hzero
  · refine ⟨start, m, ⟨z.first, z.curBufSize + paddedSize ctx buft i, z.state⟩, ?_, ?_⟩
    · rw [sizeTensor, hsize, if_neg hflush]
    · refine ⟨h.placed, h.chunks, h.sizes, h.first_eq, h.first_le.trans (Nat.le_succ i), ?_, ?_, ?_⟩
      · rw [sizeSum_succ ctx buft h.first_le, h.cur_eq]
      · intro hover
        have hzero : z.curBufSize = 0 := by
          by_contra hne
          exact hflush ⟨Nat.pos_of_ne_zero hne, hover⟩
        refine ⟨Nat.lt_succ_of_le h.first_le, ?_⟩
        dsimp only
        rw [hzero, Nat.zero_add, Nat.add_sub_cancel]
      · intro hpos
        obtain ⟨hlt, hborder⟩ := h.border hpos
        exact ⟨Nat.lt_succ_of_lt hlt, hborder⟩

variable (ctx buft) in
lemma sizeTensors_spec {i : ℕ} (hi : i ≤ ctx.n) :
    ∃ start m z, sizeTensors ctx buft i = some z ∧
      SizingInv ctx buft start m i z := by
  induction i with
  | zero =>
    refine ⟨fun _ => 0, 0, ⟨0, 0, ⟨ctx.initial, []⟩⟩, rfl, ?_, ⟨rfl, fun k hk => le_rfl⟩, rfl, rfl, le_rfl,
      (sizeSum_self ctx buft 0).symm, fun h => absurd h (Nat.not_lt_zero _), fun h => absurd h (lt_irrefl 0)⟩
    exact ⟨fun k hk => absurd hk (Nat.not_lt_zero k), fun t ht => absurd ht (Nat.not_lt_zero t),
      fun t _ => ⟨rfl, rfl⟩⟩
  | succ i ih =>
    obtain ⟨start, m, z, hrun, hinv⟩ := ih (Nat.le_of_succ_le hi)
    obtain ⟨start', m', z', hstep, hinv'⟩ := sizeTensor_spec hinv hi
    refine ⟨start', m', z', ?_, hinv'⟩
    rw [sizeTensors, hrun, Option.bind_some, hstep]

/-! ## The whole call -/

section

variable (ctx : Ctx) (buft : BufferType)

/-- What the claim says of the state that the call leaves. -/
structure AllAllocated (s : State) : Prop where
  region : ∀ t < ctx.n, Fresh ctx t → ∃ k offset, k < s.sizes.length ∧
    s.placement.buffer t = some (.own k) ∧ s.placement.data t = some (buft.base k + offset) ∧
    buft.alignment ∣ buft.base k + offset ∧ offset + ctx.allocSize t ≤ s.sizes.getD k 0
  disjoint : ∀ t < ctx.n, ∀ t' < ctx.n, t < t' → Fresh ctx t → Fresh ctx t' → ∀ k d d',
    s.placement.buffer t = some (.own k) → s.placement.buffer t' = some (.own k) →
    s.placement.data t = some d → s.placement.data t' = some d' → d + ctx.allocSize t ≤ d'
  consecutive : ∀ t < ctx.n, ∀ t' < ctx.n, t < t' → Fresh ctx t → Fresh ctx t' → ∀ k k',
    s.placement.buffer t = some (.own k) → s.placement.buffer t' = some (.own k') → k ≤ k'
  view : ∀ t < ctx.n, PendingView ctx t → ViewOf ctx s.placement t
  kept : ∀ t, ¬ NeedsWork ctx t → s.placement.buffer t = ctx.initial.buffer t ∧
    s.placement.data t = ctx.initial.data t

/-- The claim: no assertion fails, and every tensor gets its memory. -/
def AllocatesAll : Prop :=
  ∃ s, allocCtxTensorsFromBuft ctx buft = some s ∧ AllAllocated ctx buft s

/-- A tensor with work to do after the last one with a size, which is larger than the maximum, or
there is none with a size. -/
def LeftOut (t : ℕ) : Prop :=
  t < ctx.n ∧ NeedsWork ctx t ∧ (∀ u, t ≤ u → u < ctx.n → paddedSize ctx buft u = 0) ∧
    ∀ z < t, paddedSize ctx buft z ≠ 0 → (∀ u, z < u → u < t → paddedSize ctx buft u = 0) →
      buft.maxSize < paddedSize ctx buft z

end

lemma Placed.allAllocated {s : State} (h : Placed ctx buft start m s.placement)
    (hchunks : Chunks start m)
    (hsizes : s.sizes = (List.range m).map fun k => sizeSum ctx buft (start k) (start (k + 1)))
    (hn : ∀ t < ctx.n, NeedsWork ctx t → t < start m) : AllAllocated ctx buft s := by
  have hpad (t : ℕ) (ht : Fresh ctx t) : ctx.allocSize t ≤ paddedSize ctx buft t :=
    (le_ggmlPad _ (alignment_pos buft)).trans (if_pos ht).ge
  have hchunk (t : ℕ) (ht : t < ctx.n) (hfresh : Fresh ctx t) :
      ∃ k < m, (start k ≤ t ∧ t < start (k + 1)) ∧ s.placement.buffer t = some (.own k) ∧
        s.placement.data t = some (buft.base k + sizeSum ctx buft (start k) t) := by
    obtain ⟨k, hk, hlow, hhigh⟩ := hchunks.exists_chunk (hn t ht (.inl hfresh))
    exact ⟨k, hk, ⟨hlow, hhigh⟩, h.fresh k hk t hlow hhigh hfresh⟩
  refine ⟨fun t ht hfresh => ?_, ?_, ?_, fun t ht hview => h.view t (hn t ht (.inr hview)) hview,
    fun t hnot => h.rest t (.inr hnot)⟩
  · obtain ⟨k, hk, ⟨hlow, hhigh⟩, hbuffer, hdata⟩ := hchunk t ht hfresh
    refine ⟨k, _, ?_, hbuffer, hdata, ?_, ?_⟩
    · rwa [hsizes, List.length_map, List.length_range]
    · exact (Nat.dvd_add_right (buft.base_aligned k)).2 (dvd_sizeSum _ _)
    · have hget : s.sizes.getD k 0 = sizeSum ctx buft (start k) (start (k + 1)) := by
        rw [hsizes, List.getD_eq_getElem?_getD, List.getElem?_map, List.getElem?_range hk]
        rfl
      rw [hget]
      have hle := sizeSum_mono ctx buft (start k) (Nat.succ_le_of_lt hhigh)
      rw [Nat.succ_eq_add_one, sizeSum_succ ctx buft hlow] at hle
      have := hpad t hfresh
      omega
  · intro t ht t' ht' hlt hfresh hfresh' k d d' hb hb' hd hd'
    obtain ⟨k₁, hk₁, ⟨hlow, hhigh⟩, hbuffer, hdata⟩ := hchunk t ht hfresh
    obtain ⟨k₂, hk₂, ⟨hlow', hhigh'⟩, hbuffer', hdata'⟩ := hchunk t' ht' hfresh'
    rw [hbuffer] at hb
    rw [hbuffer'] at hb'
    cases hb
    cases hb'
    rw [hdata, Option.some_inj] at hd
    rw [hdata', Option.some_inj] at hd'
    have hle := sizeSum_mono ctx buft (start k) (Nat.succ_le_of_lt hlt)
    rw [Nat.succ_eq_add_one, sizeSum_succ ctx buft hlow] at hle
    have := hpad t hfresh
    omega
  · intro t ht t' ht' hlt hfresh hfresh' k k' hb hb'
    obtain ⟨k₁, hk₁, ⟨hlow, hhigh⟩, hbuffer, hdata⟩ := hchunk t ht hfresh
    obtain ⟨k₂, hk₂, ⟨hlow', hhigh'⟩, hbuffer', hdata'⟩ := hchunk t' ht' hfresh'
    rw [hbuffer] at hb
    rw [hbuffer'] at hb'
    cases hb
    cases hb'
    by_contra hgt
    have hle := hchunks.le_of_le (Nat.succ_le_of_lt (not_le.1 hgt)) hk₁.le
    rw [Nat.succ_eq_add_one] at hle
    omega

lemma exists_last_size {a b : ℕ} (h : sizeSum ctx buft a b ≠ 0) :
    ∃ z, a ≤ z ∧ z < b ∧ paddedSize ctx buft z ≠ 0 ∧
      ∀ u, z < u → u < b → paddedSize ctx buft u = 0 := by
  induction b with
  | zero =>
    rw [sizeSum, Finset.Ico_eq_empty (by omega), Finset.sum_empty] at h
    exact absurd rfl h
  | succ b ih =>
    rcases lt_or_ge b a with hlt | hle
    · rw [sizeSum, Finset.Ico_eq_empty (by omega), Finset.sum_empty] at h
      exact absurd rfl h
    · by_cases hzero : paddedSize ctx buft b = 0
      · rw [sizeSum_succ ctx buft hle, hzero, Nat.add_zero] at h
        obtain ⟨z, hlow, hhigh, hz, hafter⟩ := ih h
        refine ⟨z, hlow, Nat.lt_succ_of_lt hhigh, hz, fun u hzu hu => ?_⟩
        rcases Nat.lt_succ_iff_lt_or_eq.1 hu with hu | rfl
        · exact hafter u hzu hu
        · exact hzero
      · exact ⟨b, hle, Nat.lt_succ_self b, hzero, fun u hbu hu => absurd hu (by omega)⟩

/-- No assertion fails, and every tensor gets its memory exactly when there is none with work to do
at the end of the context, behind a tensor larger than the maximum or without any tensor with a
size. -/
theorem allocatesAll_iff (ctx : Ctx) (buft : BufferType) :
    (∃ s, allocCtxTensorsFromBuft ctx buft = some s) ∧
      (AllocatesAll ctx buft ↔ ∀ t, ¬ LeftOut ctx buft t) := by
  obtain ⟨start, m, z, hrun, hinv⟩ := sizeTensors_spec ctx buft le_rfl
  have hlength : z.state.sizes.length = m := by
    rw [hinv.sizes, List.length_map, List.length_range]
  rcases Nat.eq_zero_or_pos z.curBufSize with hcur | hcur
  · -- nothing is left to place
    have hend : allocCtxTensorsFromBuft ctx buft = some z.state := by
      rw [allocCtxTensorsFromBuft, hrun, Option.bind_some, if_neg (by omega)]
    have hzero := sizeSum_eq_zero_iff.1 (hinv.cur_eq.symm.trans hcur)
    have hleft {t : ℕ} (ht : t < ctx.n) (hwork : NeedsWork ctx t) (hle : start m ≤ t) :
        LeftOut ctx buft t := by
      refine ⟨ht, hwork, fun u hu hun => hzero u (hle.trans hu) hun, fun y hy hsize hbetween => ?_⟩
      have hbefore : y < start m := by
        by_contra hge
        exact hsize (hzero y (not_lt.1 hge) (hy.trans ht))
      obtain ⟨hlt, hfirst | hbig⟩ := hinv.border (by omega)
      · exact absurd (hzero _ le_rfl hlt) hfirst
      · have hlast : y = start m - 1 := by
          by_contra hne
          rw [hbetween (start m - 1) (by omega) (by omega)] at hbig
          exact absurd hbig (Nat.not_lt_zero _)
        rwa [hlast]
    refine ⟨⟨_, hend⟩, fun ⟨s, hs, hall⟩ t hskip => ?_, fun hno => ⟨_, hend, ?_⟩⟩
    · rw [hend, Option.some_inj] at hs
      subst hs
      obtain ⟨ht, hwork, hafter, -⟩ := hskip
      have hle : start m ≤ t := by
        by_contra hlt
        obtain ⟨hfirst, hsize | hbig⟩ := hinv.border (by omega)
        · exact hsize (hafter _ (by omega) hfirst)
        · rw [hafter (start m - 1) (by omega) (by omega)] at hbig
          exact absurd hbig (Nat.not_lt_zero _)
      have hsame := hinv.placed.rest t (.inl hle)
      rcases hwork with hfresh | hview
      · obtain ⟨k, offset, -, -, hdata, -⟩ := hall.region t ht hfresh
        rw [hsame.2, hfresh.2] at hdata
        cases hdata
      · obtain ⟨src, buffer, data, -, -, -, hbuffer, -⟩ := hall.view t ht hview
        rw [hsame.1, hview.2] at hbuffer
        cases hbuffer
    · refine hinv.placed.allAllocated hinv.chunks hinv.sizes fun t ht hwork => ?_
      by_contra hge
      exact hno t (hleft ht hwork (not_lt.1 hge))
  · -- the last chunk ends with the context
    obtain ⟨s', hlast, hsizes, hplaced⟩ :=
      allocTensorRange_spec hinv.placed hinv.chunks hlength hinv.first_le le_rfl
    have hend : allocCtxTensorsFromBuft ctx buft = some s' := by
      rw [allocCtxTensorsFromBuft, hrun, Option.bind_some, if_pos hcur, hinv.first_eq, hinv.cur_eq,
        hlast]
    have hall : AllAllocated ctx buft s' := by
      refine hplaced.allAllocated (hinv.chunks.extend hinv.first_le)
        (hsizes.trans (sizes_extend hinv.sizes)) fun t ht _ => ?_
      rwa [Function.update_self]
    refine ⟨⟨_, hend⟩, fun _ t hskip => ?_, fun _ => ⟨_, hend, hall⟩⟩
    obtain ⟨ht, -, hafter, hbig⟩ := hskip
    obtain ⟨y, hlow, hhigh, hsize, hbetween⟩ := exists_last_size (hinv.cur_eq ▸ hcur.ne')
    have hy : y < t := by
      by_contra hge
      exact hsize (hafter y (not_lt.1 hge) hhigh)
    have hlarge := hbig y hy hsize fun u hyu hut => hbetween u hyu (hut.trans ht)
    have hle := paddedSize_le_sizeSum ctx buft hlow hhigh
    obtain ⟨hfirst, hcurrent⟩ := hinv.overflow (by rw [hinv.cur_eq]; omega)
    rw [hafter (ctx.n - 1) (by omega) (by omega)] at hcurrent
    omega

/-- A tensor of 40 bytes, which are padded to 64, and a view of it. -/
def paddedView : Ctx where
  n := 2
  allocSize _ := 40
  viewSrc t := if t = 1 then some 0 else none
  viewOffs _ := 0
  initial := ⟨fun _ => none, fun _ => none⟩
  buffer_old _ b h := absurd h (Option.some_ne_none b).symm
  fresh_buffer _ _ _ := iff_of_true rfl rfl
  source_no_view t _ s h := by
    split_ifs at h with ht
    obtain rfl := Option.some_inj.1 h
    rfl
  source_first t ht s h _ := by
    split_ifs at h with ht
    obtain rfl := Option.some_inj.1 h
    exact .inl (ht ▸ Nat.one_pos)

/-- A buffer type with the alignment 32 that allows buffers of up to 40 bytes. -/
def smallBuffers : BufferType := ⟨5, 40, fun _ => 0, fun _ => Nat.dvd_zero _⟩

/-- No tensor is larger than the maximum size, and the view is not initialised. -/
theorem not_allocatesAll_paddedView :
    ¬ ((∀ t < paddedView.n, paddedView.allocSize t ≤ smallBuffers.maxSize) →
      AllocatesAll paddedView smallBuffers) := by
  intro h
  obtain ⟨s, hs, hall⟩ := h fun t _ => Nat.le_refl 40
  obtain ⟨src, buffer, data, -, -, -, hbuffer, -⟩ := hall.view 1 Nat.one_lt_two ⟨Option.some_ne_none 0, rfl⟩
  cases hs
  cases hbuffer

end IFairy.CtxTensors
