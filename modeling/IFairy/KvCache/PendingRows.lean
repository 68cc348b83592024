import IFairy.KvCache.MachineInv
import IFairy.KvCache.ReadBack

/-!
# The rows of pending ubatches

In every run the slot of an ubatch that is still to be applied names streams of the cache
(`KvMachine.Placed`).  So the indices that `set_input_k_idxs` computes for it are rows of the K
tensors, and no two tokens share one (`KvMachine.rows_of_reaches`).
-/

namespace IFairy

namespace KvCache

variable {cfg : KvConfig}

lemma prepare_inStreams {us : List UBatch}
    (hus : ∀ u ∈ us, ∀ s ∈ u.seqIdUnq, s.val < cfg.batchSeqMax) {k : KvCache}
    {sis : List SlotInfo} (h : (k.prepare cfg us).2 = some sis) :
    ∀ e ∈ sis.zip us, e.1.InStreams cfg.nStream := by
  induction us generalizing k sis with
  | nil => simp
  | cons u us ih =>
    obtain ⟨hu, hus⟩ := List.forall_mem_cons.1 hus
    rw [prepare_cons] at h
    cases hslot : findSlot cfg k u false with
    | none =>
      rw [hslot] at h
      cases h
    | some si =>
      rw [hslot] at h
      obtain ⟨rest, hrest, rfl⟩ := Option.map_eq_some_iff.1 h
      exact List.forall_mem_cons.2 ⟨findSlot_inStreams hu hslot, ih hus hrest⟩

end KvCache

namespace KvMachine

open KvCache

variable {cfg : KvConfig} {m m' : KvMachine} {op : KvOp}
  {rope : KvLayer → ℤ → (ℕ → UInt8) → ℕ → UInt8}

/-- The slots of the pending ubatches name streams of the cache. -/
def Placed (cfg : KvConfig) (m : KvMachine) : Prop := ∀ e ∈ m.todo, e.1.InStreams cfg.nStream

lemma Placed.step (hm : m.Placed cfg) (h : m.step rope cfg op = some m') : m'.Placed cfg := by
  refine step_cases (P := fun _ m' => m'.Placed cfg) (fun d m' htodo hd => ?_)
    (fun data si u rest htodo e he => hm e (htodo ▸ List.mem_cons_of_mem _ he))
    (fun _ _ _ _ _ _ he => absurd he List.not_mem_nil) (fun _ he => absurd he List.not_mem_nil)
    (fun _ _ _ _ => hm) h
  rcases decode_cases hd with rfl | ⟨b, -, rfl | ⟨us, hus, -, -, hrest | ⟨sis, hsis, hrest⟩⟩⟩
  · exact hm
  · exact hm
  · intro e he
    rw [hrest] at he
    exact absurd he List.not_mem_nil
  · intro e he
    rw [hrest] at he
    exact prepare_inStreams (fun u hu s hs => ((splitBatch_of hus u hu).mem_seqIdUnq s |>.1 hs).1)
      hsis e he

/-- In every run, the K rows of a pending ubatch are rows of the K tensor, each for one token. -/
theorem rows_of_reaches {ok : KvMachine → KvOp → Prop} {d : LayerDims}
    (hsize : d.kvSize = cfg.kvSize) (hstreams : d.nStream = cfg.nStream) (h : Reaches (step rope cfg) ok (start cfg) m) :
    ∀ e ∈ m.todo, ∃ idxs, d.setInputKIdxs e.2 e.1 = some idxs ∧
      (∀ tok < e.2.nTokens, ∃ row < d.kvSize * d.nStream, idxs.val tok = (row : ℤ)) ∧
      Set.InjOn idxs.val (Set.Iio e.2.nTokens) := by
  have hplaced : m.Placed cfg := h.invariant (fun _ he => absurd he List.not_mem_nil)
    fun _ _ _ hm _ hstep => hm.step hstep
  intro e he
  have hfit : SlotFits d.kvSize e.1 e.2 := hsize ▸ (sound_of_reaches h).fits e he
  have hin : e.1.InStreams d.nStream := hstreams ▸ hplaced e he
  refine ⟨⟨e.2.nTokens, d.rowIdxs e.1⟩, ?_, fun tok htok => ?_, fun tok htok tok' htok' heq => ?_⟩
  · exact if_pos (hfit.tokens.symm.trans (Nat.mul_comm _ _))
  · exact ⟨d.rowOf e.1 tok, LayerDims.rowOf_lt hfit hin htok,
      LayerDims.rowIdxs_apply hfit hin htok⟩
  · dsimp only at heq
    rw [LayerDims.rowIdxs_apply hfit hin htok, LayerDims.rowIdxs_apply hfit hin htok'] at heq
    exact LayerDims.rowOf_inj hfit htok htok' (Int.ofNat.inj heq)

/-- A layer of a cache with one stream of four cells. -/
def fourCells : LayerDims :=
  { LayerDims.twoStreams with
    kvSize := 4
    nStream := 1
    nStream_pos := Nat.one_pos
    offset_lt := of_decide_eq_true rfl }

theorem rows_of_reaches_oneToken : ∃ m,
    perform (step noRope oneStream) (start oneStream) [.decode (oneToken.firstDecode .simple 1)] =
        some m ∧ m.todo.length = 1 ∧
      ∀ e ∈ m.todo, ∃ idxs, fourCells.setInputKIdxs e.2 e.1 = some idxs ∧
        (∀ tok < e.2.nTokens, ∃ row : ℕ, row < 4 ∧ idxs.val tok = (row : ℤ)) ∧
        Set.InjOn idxs.val (Set.Iio e.2.nTokens) := by
  have hrun : (perform (step noRope oneStream) (start oneStream)
      [.decode (oneToken.firstDecode .simple 1)]).map (fun m => m.todo.length) = some 1 := by
    decide +kernel
  obtain ⟨m, hm, htodo⟩ := Option.map_eq_some_iff.1 hrun
  exact ⟨m, hm, htodo, rows_of_reaches rfl rfl
    (Reaches.perform (fun _ _ _ => trivial : ∀ a ∈ _, ∀ _, (fun _ _ => True) _ a) .start hm)⟩

end KvMachine

end IFairy
