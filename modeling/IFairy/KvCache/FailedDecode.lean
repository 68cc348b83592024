import IFairy.KvCache.MachineInv

/-!
# After a failed computation

When the computation of an ubatch fails, `decode` removes, for every sequence that is the first one
of a token of this ubatch, all positions from the smallest such position on
(`removeFailed_cell`).  A retry needs more: no cell of a sequence may be left at or beyond the first
position that the sequence has in the failed ubatch or in those after it (`CleanedUp`).  The two
agree exactly when each such cell lies in the stream of its sequence, at or beyond a position for
which the sequence is the first one of a token of the failed ubatch (`cleanedUp_iff`).
-/

namespace IFairy

lemma Cell.keepOnly_pos {x : Cell} {P : SeqId → Prop} [DecidablePred P] {s : SeqId}
    (hs : s ∈ (x.keepOnly P).seq) : (x.keepOnly P).pos = x.pos := by
  unfold keepOnly at hs ⊢
  split
  · rename_i hempty
    rw [if_pos hempty] at hs
    exact absurd hs (Finset.notMem_empty s)
  · rfl

namespace KvCache

variable {cfg : KvConfig} {k : KvCache} {u : UBatch} {t j : ℕ}

/-! ## The clean-up -/

/-- `seq_rm` of one sequence, as a choice among the sequences of the cell. -/
lemma seqRm_some_keepOnly (h : k.Sized cfg) (s : SeqId) (p0 p1 : ℤ) :
    (k.seqRm cfg (some s) p0 p1).cell t j = (k.cell t j).keepOnly fun s' =>
      ¬ (s' = s ∧ (t = cfg.seqToStream s ∧ j < cfg.kvSize) ∧
        (k.cell t j).PosIn (clampP0 p0) (clampP1 p1)) := by
  have hkeep : ¬ ((t = cfg.seqToStream s ∧ j < cfg.kvSize) ∧
      (k.cell t j).PosIn (clampP0 p0) (clampP1 p1) ∧ s ∈ (k.cell t j).seq) →
      k.cell t j = (k.cell t j).keepOnly fun s' =>
        ¬ (s' = s ∧ (t = cfg.seqToStream s ∧ j < cfg.kvSize) ∧
          (k.cell t j).PosIn (clampP0 p0) (clampP1 p1)) := by
    intro hnot
    symm
    apply Cell.keepOnly_of_forall
    rintro s' hs' ⟨rfl, hst, hpos⟩
    exact hnot ⟨hst, hpos, hs'⟩
  rw [seqRm_some_cell h]
  by_cases hst : t = cfg.seqToStream s ∧ j < cfg.kvSize
  · rw [if_pos hst]
    unfold Cell.onSeq
    by_cases hin : (k.cell t j).PosIn (clampP0 p0) (clampP1 p1) ∧ s ∈ (k.cell t j).seq
    · rw [if_pos hin]
      change (k.cell t j).rmSeq s = _
      rw [Cell.rmSeq_eq_keepOnly hin.2]
      apply Cell.keepOnly_congr
      exact fun s' _ => ⟨fun hne hc => hne hc.1, fun hno hs => hno ⟨hs, hst, hin.1⟩⟩
    · rw [if_neg hin]
      exact hkeep fun hc => hin hc.2
  · rw [if_neg hst]
    exact hkeep fun hc => hst hc.1

/-- The loop that removes the positions from `lo s` on of every sequence with `lo s ≠ posMax`. -/
lemma removeFrom_foldl_cell (lo : SeqId → ℤ) : ∀ (L : List SeqId) (k : KvCache), k.Sized cfg →
    ∀ t j, (L.foldl (fun k s => if lo s = posMax then k else k.seqRm cfg (some s) (lo s) (-1))
        k).cell t j =
      (k.cell t j).keepOnly fun s =>
        ¬ (s ∈ L ∧ lo s ≠ posMax ∧ (t = cfg.seqToStream s ∧ j < cfg.kvSize) ∧
          (k.cell t j).PosIn (clampP0 (lo s)) posMax) := by
  intro L
  induction L with
  | nil =>
    intro k _ t j
    symm
    apply Cell.keepOnly_of_forall
    exact fun s _ hc => List.not_mem_nil hc.1
  | cons s L ih =>
    intro k h t j
    rw [List.foldl_cons]
    by_cases hlo : lo s = posMax
    · rw [if_pos hlo, ih k h]
      refine Cell.keepOnly_congr fun s' _ => not_congr ?_
      rw [List.mem_cons]
      constructor
      · exact fun hc => ⟨.inr hc.1, hc.2⟩
      · rintro ⟨rfl | hs', hc⟩
        · exact absurd hlo hc.1
        · exact ⟨hs', hc⟩
    · rw [if_neg hlo, ih _ (h.seqRm (some s) _ _)]
      have h1 := seqRm_some_keepOnly h s (lo s) (-1) (t := t) (j := j)
      have hclamp : clampP1 (-1) = posMax := rfl
      rw [hclamp] at h1
      -- a cell that keeps a sequence keeps its position
      rw [Cell.keepOnly_congr (Q := fun s' =>
        ¬ (s' ∈ L ∧ lo s' ≠ posMax ∧ (t = cfg.seqToStream s' ∧ j < cfg.kvSize) ∧
          (k.cell t j).PosIn (clampP0 (lo s')) posMax)) fun s' hs' => by
          have hpos : ((k.seqRm cfg (some s) (lo s) (-1)).cell t j).pos = (k.cell t j).pos := by
            rw [h1] at hs' ⊢
            exact Cell.keepOnly_pos hs'
          unfold Cell.PosIn
          rw [hpos], h1, Cell.keepOnly_keepOnly]
      refine Cell.keepOnly_congr fun s' _ => ?_
      rw [List.mem_cons]
      by_cases hs : s' = s
      · subst hs
        tauto
      · tauto

lemma foldl_min_le (f : ℕ → ℤ) (l : List ℕ) (m : ℤ) :
    ∀ p, l.foldl (fun m i => min m (f i)) m ≤ p ↔ m ≤ p ∨ ∃ i ∈ l, f i ≤ p := by
  induction l generalizing m with
  | nil => simp
  | cons i l ih =>
    intro p
    rw [List.foldl_cons, ih, min_le_iff]
    simp only [List.mem_cons, exists_eq_or_imp]
    tauto

lemma failedPosMin_le {s : SeqId} {p : ℤ} (hp : p < posMax) :
    failedPosMin u s ≤ p ↔ ∃ i < u.nTokens, (u.seqId i).head = s ∧ u.pos i ≤ p := by
  unfold failedPosMin
  rw [foldl_min_le, or_iff_right (not_le.2 hp)]
  simp only [List.mem_filter, List.mem_range, decide_eq_true_eq, and_assoc]

/-- A sequence leaves a cell of its stream when it is the first one of a token of the ubatch at or
before the position of the cell. -/
def Removes (cfg : KvConfig) (u : UBatch) (s : SeqId) (t j : ℕ) (p : ℤ) : Prop :=
  (t = cfg.seqToStream s ∧ j < cfg.kvSize) ∧ (0 ≤ p ∧ p < posMax) ∧
    ∃ i, i < u.nTokens ∧ (u.seqId i).head = s ∧ u.pos i ≤ p

instance (cfg : KvConfig) (u : UBatch) (s : SeqId) (t j : ℕ) (p : ℤ) :
    Decidable (Removes cfg u s t j p) := inferInstanceAs (Decidable (_ ∧ _ ∧ ∃ i, i < _ ∧ _))

/-- The clean-up of `decode`. -/
theorem removeFailed_cell (h : k.Sized cfg) (u : UBatch) (t j : ℕ) :
    (k.removeFailed cfg u).cell t j = (k.cell t j).keepOnly fun s =>
      ¬ Removes cfg u s t j (k.cell t j).pos := by
  unfold removeFailed
  rw [removeFrom_foldl_cell (failedPosMin u) _ k h t j]
  refine Cell.keepOnly_congr fun s _ => not_congr ?_
  unfold Removes Cell.PosIn
  rw [and_iff_right (List.mem_finRange s)]
  constructor
  · rintro ⟨-, hst, hle, hlt⟩
    have hnn : 0 ≤ (k.cell t j).pos ∧ failedPosMin u s ≤ (k.cell t j).pos := by
      unfold clampP0 at hle
      split at hle <;> omega
    exact ⟨hst, ⟨hnn.1, hlt⟩, (failedPosMin_le hlt).1 hnn.2⟩
  · rintro ⟨hst, ⟨hnn, hlt⟩, htok⟩
    have hle := (failedPosMin_le hlt).2 htok
    refine ⟨by omega, hst, ?_, hlt⟩
    unfold clampP0
    split <;> omega

/-! ## What a retry needs -/

/-- The positions that sequence `s` has in the ubatches. -/
def tokenPositions (us : List UBatch) (s : SeqId) : Set ℤ :=
  {p | ∃ u ∈ us, ∃ i < u.nTokens, s ∈ u.seqSet i ∧ u.pos i = p}

/-- No cell of a sequence is at or beyond its first position in the ubatches. -/
def CleanedUp (cfg : KvConfig) (k : KvCache) (us : List UBatch) : Prop :=
  ∀ s p, IsLeast (tokenPositions us s) p → ∀ t < cfg.nStream, ∀ j < cfg.kvSize,
    s ∈ (k.cell t j).seq → (k.cell t j).pos < p

/-- Every cell of a sequence at or beyond its first position in the ubatches is one from which the
clean-up of `u` removes the sequence. -/
def AllRemoved (cfg : KvConfig) (k : KvCache) (u : UBatch) (us : List UBatch) : Prop :=
  ∀ s p, IsLeast (tokenPositions us s) p → ∀ t < cfg.nStream, ∀ j < cfg.kvSize,
    s ∈ (k.cell t j).seq → p ≤ (k.cell t j).pos → Removes cfg u s t j (k.cell t j).pos

lemma cleanedUp_iff (h : k.Sized cfg) (u : UBatch) (us : List UBatch) :
    CleanedUp cfg (k.removeFailed cfg u) us ↔ AllRemoved cfg k u us := by
  refine forall₂_congr fun s p => imp_congr_right fun _ => forall₂_congr fun t _ =>
    forall₂_congr fun j _ => ?_
  have hseq : s ∈ ((k.removeFailed cfg u).cell t j).seq ↔
      s ∈ (k.cell t j).seq ∧ ¬ Removes cfg u s t j (k.cell t j).pos := by
    rw [removeFailed_cell h, Cell.keepOnly_seq, Finset.mem_filter]
  have hpos : s ∈ ((k.removeFailed cfg u).cell t j).seq →
      ((k.removeFailed cfg u).cell t j).pos = (k.cell t j).pos := by
    rw [removeFailed_cell h]
    exact Cell.keepOnly_pos
  constructor
  · intro hclean hs hle
    by_contra hno
    have hmem := hseq.2 ⟨hs, hno⟩
    have hlt := hclean hmem
    rw [hpos hmem] at hlt
    exact absurd hle (not_le.2 hlt)
  · intro hall hmem
    rw [hpos hmem]
    obtain ⟨hs, hno⟩ := hseq.1 hmem
    exact not_le.1 fun hle => hno (hall hs hle)

end KvCache

namespace KvMachine

open KvCache

variable {cfg : KvConfig} {m : KvMachine} {rope : KvLayer → ℤ → (ℕ → UInt8) → ℕ → UInt8}
  {ok : KvMachine → KvOp → Prop} {si : SlotInfo} {u : UBatch} {rest : List (SlotInfo × UBatch)}

/-- After the failed computation of the next ubatch the caller can retry exactly when every cell
that would be in the way is removed. -/
theorem cleanedUp_iff_allRemoved (h : Reaches (step rope cfg) ok (start cfg) m)
    (htodo : m.todo = (si, u) :: rest) (data : KvData) :
    ∃ m', m.step rope cfg (.apply data false) = some m' ∧
      (CleanedUp cfg m'.cache (u :: rest.map Prod.snd) ↔
        AllRemoved cfg (m.cache.applyUbatch cfg si u) u (u :: rest.map Prod.snd)) := by
  have hsize := applyUbatch_sized (sound_of_reaches h).sized si u
  have hstep : m.step rope cfg (.apply data false)
      = some ⟨(m.cache.computed cfg si u data).removeFailed cfg u, []⟩ := by
    change m.apply cfg data false = _
    rw [apply, htodo]
    rfl
  have hsame : (m.cache.computed cfg si u data).cell = (m.cache.applyUbatch cfg si u).cell := rfl
  have hiff := cleanedUp_iff (k := m.cache.computed cfg si u data) (hsize.of_cells rfl) u
    (u :: rest.map Prod.snd)
  unfold AllRemoved at hiff
  rw [hsame] at hiff
  generalize (m.cache.computed cfg si u data).removeFailed cfg u = k' at hstep hiff
  exact ⟨⟨k', []⟩, hstep, hiff⟩

theorem cleanedUp_oneToken : ∃ m m',
    Reaches (step noRope oneStream) (fun _ _ => True) (start oneStream) m ∧
      m.todo.length = 1 ∧ m.step noRope oneStream (.apply .zero false) = some m' ∧
        CleanedUp oneStream m'.cache (m.todo.map Prod.snd) := by
  obtain ⟨m, hreach, hread⟩ := exists_reached_of_perform (by decide +kernel :
    (perform (step noRope oneStream) (start oneStream) [.decode (oneToken.firstDecode .simple 1)]).map
      (fun m => decide (m.todo.length = 1 ∧ ∀ e ∈ m.todo, ∀ t, t < oneStream.nStream →
        ∀ j, j < oneStream.kvSize → ∀ s, s ∈ ((m.cache.applyUbatch oneStream e.1 e.2).cell t j).seq →
          Removes oneStream e.2 s t j ((m.cache.applyUbatch oneStream e.1 e.2).cell t j).pos))
        = some true)
  obtain ⟨hlen, hall⟩ := of_decide_eq_true hread
  obtain ⟨e, htodo⟩ := List.length_eq_one_iff.1 hlen
  obtain ⟨m', hstep, hiff⟩ := cleanedUp_iff_allRemoved hreach htodo .zero
  refine ⟨m, m', hreach, hlen, hstep, ?_⟩
  rw [htodo]
  exact hiff.2 fun s p _ t ht j hj hs _ => hall e (htodo ▸ List.mem_cons_self) t ht j hj s hs

/-- One token that sequences `0` and `1` share. -/
def sharedToken : BatchInp := { oneToken with seqId := some fun _ => ⟨0, [1]⟩ }

/-- The token stays in the cache for the sequence that it lists second. -/
theorem not_cleanedUp_sharedToken : ∃ m m',
    Reaches (step noRope oneStream) (fun _ _ => True) (start oneStream) m ∧ m.todo.length = 1 ∧
      m.step noRope oneStream (.apply .zero false) = some m' ∧
        ¬ CleanedUp oneStream m'.cache (m.todo.map Prod.snd) := by
  obtain ⟨m, hreach, hread⟩ := exists_reached_of_perform (by decide +kernel :
    (perform (step noRope oneStream) (start oneStream)
      [.decode (sharedToken.firstDecode .simple 1)]).map (fun m =>
        (decide (m.todo.length = 1 ∧ ∀ e ∈ m.todo, e.2.nTokens = 1 ∧ 1 ∈ e.2.seqSet 0 ∧
          e.2.pos 0 = 0), (m.step noRope oneStream (.apply .zero false)).map fun m' =>
            decide (1 ∈ (m'.cache.cell 0 0).seq ∧ (m'.cache.cell 0 0).pos = 0)))
        = some (true, some true))
  obtain ⟨htok, hleft⟩ := Prod.mk.inj hread
  obtain ⟨hlen, htok⟩ := of_decide_eq_true htok
  obtain ⟨e, htodo⟩ := List.length_eq_one_iff.1 hlen
  obtain ⟨hone, hseq, hpos⟩ := htok e (htodo ▸ List.mem_cons_self)
  obtain ⟨m', hstep, hcell⟩ := Option.map_eq_some_iff.1 hleft
  obtain ⟨hmem, hzero⟩ := of_decide_eq_true hcell
  refine ⟨m, m', hreach, hlen, hstep, fun hclean => ?_⟩
  have hleast : IsLeast (tokenPositions (m.todo.map Prod.snd) 1) 0 := by
    rw [htodo]
    refine ⟨⟨e.2, List.mem_cons_self, 0, hone ▸ Nat.one_pos, hseq, hpos⟩, ?_⟩
    rintro p ⟨u, hu, i, hi, -, rfl⟩
    obtain rfl := List.mem_singleton.1 hu
    obtain rfl : i = 0 := by omega
    exact hpos.ge
  have hlt := hclean 1 0 hleast 0 (by decide) 0 (by decide) hmem
  omega

end KvMachine

end IFairy
