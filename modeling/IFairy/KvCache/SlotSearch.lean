import IFairy.KvCache.PrepareRestore

/-!
# The search of `find_slot` ends, and finds what there is

`SlotReturns` says that the `while (true)` of `find_slot` ends with a result; it has no fuel.
`slotReturns_slotLoop` shows that it always does, and with the result of `slotLoop`: two rounds
advance the count of tested cells.

For continuous slots the search restarts behind a cell that it cannot use.  The first lap tries all
runs from the start head to the end of the usable part, the second one those before the start head
(`SearchState`); so it finds a run of usable cells or there is none (`SlotReturns.run_or_none`).
-/

namespace IFairy

namespace KvCache

section Search

variable {canUse : ℕ → Prop} [DecidablePred canUse] {cont : Bool} {usable n : ℕ}

/-! ## The search ends -/

/-- The loop of `find_slot`, from a head, a number of tested cells and the cells found so far, ends
with this result. -/
inductive SlotReturns (canUse : ℕ → Prop) [DecidablePred canUse] (cont : Bool) (usable n : ℕ) :
    ℕ → ℕ → List ℕ → Option (List ℕ) → Prop
  | wrap {head tested : ℕ} {idxs : List ℕ} {r : Option (List ℕ)}
      (hwrap : usable < head + if cont then n else 1)
      (hrest : SlotReturns canUse cont usable n 0 (tested + (usable - head)) idxs r) :
      SlotReturns canUse cont usable n head tested idxs r
  | found {head tested head' tested' : ℕ} {idxs idxs' : List ℕ}
      (hfit : head + (if cont then n else 1) ≤ usable)
      (htest : testRun canUse cont (if cont then n else 1) head tested idxs = (head', tested', idxs'))
      (hfound : idxs'.length = n) :
      SlotReturns canUse cont usable n head tested idxs (some idxs')
  | exhausted {head tested head' tested' : ℕ} {idxs idxs' : List ℕ}
      (hfit : head + (if cont then n else 1) ≤ usable)
      (htest : testRun canUse cont (if cont then n else 1) head tested idxs = (head', tested', idxs'))
      (hshort : idxs'.length ≠ n) (hall : usable ≤ tested') :
      SlotReturns canUse cont usable n head tested idxs none
  | again {head tested head' tested' : ℕ} {idxs idxs' : List ℕ} {r : Option (List ℕ)}
      (hfit : head + (if cont then n else 1) ≤ usable)
      (htest : testRun canUse cont (if cont then n else 1) head tested idxs = (head', tested', idxs'))
      (hshort : idxs'.length ≠ n) (hleft : tested' < usable)
      (hrest : SlotReturns canUse cont usable n head' tested' (if cont then [] else idxs') r) :
      SlotReturns canUse cont usable n head tested idxs r

lemma lt_tested_testRun (m head tested : ℕ) (idxs : List ℕ) :
    tested < (testRun canUse cont (m + 1) head tested idxs).2.1 := by
  induction m generalizing head tested idxs with
  | zero =>
    rw [testRun]
    split_ifs <;> simp only [testRun] <;> omega
  | succ m ih =>
    rw [testRun]
    split_ifs
    · exact (Nat.lt_succ_self tested).trans (ih _ _ _)
    · exact Nat.lt_succ_self tested
    · exact (Nat.lt_succ_self tested).trans (ih _ _ _)

/-- With enough fuel `slotLoop` runs to the end of the loop. -/
lemma slotReturns_slotLoop_of_fuel (hn : 0 < n) (hfits : n ≤ usable) (fuel : ℕ) :
    ∀ (head tested : ℕ) (idxs : List ℕ),
      2 * (usable - tested) + (if usable < head + (if cont then n else 1) then 2 else 1) ≤ fuel →
      SlotReturns canUse cont usable n head tested idxs
        (slotLoop canUse cont usable n fuel head tested idxs) := by
  obtain ⟨m, hm⟩ : ∃ m, (if cont then n else 1) = m + 1 := by
    cases cont
    · exact ⟨0, rfl⟩
    · exact ⟨n - 1, by simp only [if_true]; omega⟩
  have hle : (if cont then n else 1) ≤ usable := by
    cases cont
    · exact Nat.one_le_iff_ne_zero.mpr (by omega)
    · exact hfits
  induction fuel with
  | zero =>
    intro head tested idxs hfuel
    split_ifs at hfuel <;> omega
  | succ fuel ih =>
    intro head tested idxs hfuel
    rw [slotLoop]
    by_cases hwrap : usable < head + if cont then n else 1
    · rw [if_pos hwrap] at hfuel ⊢
      refine .wrap hwrap (ih _ _ _ ?_)
      rw [if_neg (by omega)]
      omega
    · rw [if_neg hwrap] at hfuel ⊢
      have htested : tested < (testRun canUse cont (m + 1) head tested idxs).2.1 :=
        lt_tested_testRun m head tested idxs
      rw [← hm] at htested
      dsimp only
      generalize htest : testRun canUse cont (if cont then n else 1) head tested idxs = r at htested ⊢
      obtain ⟨head', tested', idxs'⟩ := r
      dsimp only at htested ⊢
      by_cases hfound : idxs'.length = n
      · rw [if_pos hfound]
        exact .found (not_lt.mp hwrap) htest hfound
      · rw [if_neg hfound]
        by_cases hall : usable ≤ tested'
        · rw [if_pos hall]
          exact .exhausted (not_lt.mp hwrap) htest hfound hall
        · rw [if_neg hall]
          refine .again (not_lt.mp hwrap) htest hfound (not_le.mp hall) (ih _ _ _ ?_)
          split_ifs <;> omega

/-- The search of `find_slot` ends, with the result of `slotLoop`. -/
theorem slotReturns_slotLoop (hn : 0 < n) (hfits : n ≤ usable) (head : ℕ) :
    SlotReturns canUse cont usable n head 0 []
      (slotLoop canUse cont usable n (2 * usable + 2) head 0 []) := by
  apply slotReturns_slotLoop_of_fuel hn hfits
  split_ifs <;> omega

/-! ## Continuous slots -/

/-- The `n` cells from `a` on can be used. -/
def IsRun (canUse : ℕ → Prop) (n a : ℕ) : Prop := ∀ i < n, canUse (a + i)

lemma testRun_cont (canUse : ℕ → Prop) [DecidablePred canUse] (m head tested : ℕ) (idxs : List ℕ) :
    (IsRun canUse m head ∧
      testRun canUse true m head tested idxs =
        (head + m, tested + m, idxs ++ List.range' head m)) ∨
    ∃ j < m, ¬ canUse (head + j) ∧
      testRun canUse true m head tested idxs =
        (head + j + 1, tested + j + 1, idxs ++ List.range' head j) := by
  induction m generalizing head tested idxs with
  | zero =>
    refine Or.inl ⟨fun i hi => absurd hi (Nat.not_lt_zero i), ?_⟩
    rw [testRun, List.range'_zero, List.append_nil]
    rfl
  | succ m ih =>
    by_cases hhead : canUse head
    · have hcons : ∀ j, idxs ++ [head] ++ List.range' (head + 1) j =
          idxs ++ List.range' head (j + 1) := fun j => by
        rw [List.range'_succ, List.append_assoc]
        rfl
      rw [testRun, if_pos hhead]
      rcases ih (head + 1) (tested + 1) (idxs ++ [head]) with ⟨hrun, heq⟩ | ⟨j, hj, hnot, heq⟩
      · refine Or.inl ⟨fun i hi => ?_, ?_⟩
        · cases i with
          | zero => exact hhead
          | succ i =>
            have := hrun i (by omega)
            rwa [Nat.add_assoc, Nat.add_comm 1 i] at this
        · rw [heq, hcons m, Nat.add_assoc, Nat.add_assoc, Nat.add_comm 1 m]
      · refine Or.inr ⟨j + 1, by omega, ?_, ?_⟩
        · rwa [Nat.add_assoc, Nat.add_comm 1 j] at hnot
        · rw [heq, hcons j, Nat.add_assoc head, Nat.add_assoc tested, Nat.add_comm 1 j]
    · refine Or.inr ⟨0, Nat.succ_pos m, hhead, ?_⟩
      rw [testRun, if_neg hhead, if_pos rfl, List.range'_zero, List.append_nil]

end Search

/-! ## Runs -/

section Runs

variable {canUse : ℕ → Prop} {usable n : ℕ}

/-- Where the search for a run that started at `m` stands: in the first lap, in the second one, or
with nothing left to find. -/
inductive SearchState (canUse : ℕ → Prop) (usable n m head tested : ℕ) : Prop
  | first (hm : m ≤ head) (hhead : head ≤ usable) (htested : tested + m = head)
      (hno : ∀ a, m ≤ a → a < head → ¬ IsRun canUse n a)
  | second (htested : tested + m = usable + head)
      (hafter : ∀ a, m ≤ a → a + n ≤ usable → ¬ IsRun canUse n a)
      (hbefore : ∀ a < head, ¬ IsRun canUse n a)
  | none (hno : ∀ a, a + n ≤ usable → ¬ IsRun canUse n a)

lemma SearchState.wrap {m head tested : ℕ} (h : SearchState canUse usable n m head tested)
    (hwrap : usable < head + n) : SearchState canUse usable n m 0 (tested + (usable - head)) := by
  cases h with
  | first hm hhead htested hno =>
    refine .second (by omega) (fun a hma ha => hno a hma (by omega)) fun a ha => ?_
    exact absurd ha (Nat.not_lt_zero a)
  | second htested hafter hbefore =>
    exact .none fun a ha => hbefore a (by omega)
  | none hno => exact .none hno

lemma SearchState.skip {m head tested j : ℕ} (h : SearchState canUse usable n m head tested)
    (hfit : head + n ≤ usable) (hj : j < n) (hnot : ¬ canUse (head + j)) :
    SearchState canUse usable n m (head + j + 1) (tested + j + 1) := by
  have hskip : ∀ a, head ≤ a → a < head + j + 1 → ¬ IsRun canUse n a := by
    intro a ha haj hrun
    have := hrun (head + j - a) (by omega)
    rw [show a + (head + j - a) = head + j by omega] at this
    exact hnot this
  cases h with
  | first hm hhead htested hno =>
    refine .first (by omega) (by omega) (by omega) fun a hma ha => ?_
    by_cases hlt : a < head
    · exact hno a hma hlt
    · exact hskip a (not_lt.mp hlt) ha
  | second htested hafter hbefore =>
    refine .second (by omega) hafter fun a ha => ?_
    by_cases hlt : a < head
    · exact hbefore a hlt
    · exact hskip a (not_lt.mp hlt) ha
  | none hno => exact .none hno

lemma SearchState.no_run {m head tested : ℕ} (h : SearchState canUse usable n m head tested)
    (hn : 0 < n) (hall : usable ≤ tested) {a : ℕ} (ha : a + n ≤ usable) : ¬ IsRun canUse n a := by
  cases h with
  | first hm hhead htested hno => exact hno a (by omega) (by omega)
  | second htested hafter hbefore =>
    by_cases hlt : a < m
    · exact hbefore a (by omega)
    · exact hafter a (not_lt.mp hlt) ha
  | none hno => exact hno a ha

end Runs

section Continuous

variable {canUse : ℕ → Prop} [DecidablePred canUse] {usable n : ℕ}

/-- The search for a continuous slot finds a run of usable cells, or there is none. -/
theorem SlotReturns.run_or_none (hn : 0 < n) {m head tested : ℕ} {idxs : List ℕ}
    {r : Option (List ℕ)} (h : SlotReturns canUse true usable n head tested idxs r) :
    idxs = [] → SearchState canUse usable n m head tested →
      (∃ a, a + n ≤ usable ∧ IsRun canUse n a ∧ r = some (List.range' a n)) ∨
      (r = none ∧ ∀ a, a + n ≤ usable → ¬ IsRun canUse n a) := by
  induction h with
  | wrap hwrap _ ih => exact fun hidxs hstate => ih hidxs (hstate.wrap hwrap)
  | found hfit htest hfound =>
    rintro rfl -
    rcases testRun_cont canUse n _ _ [] with ⟨hrun, heq⟩ | ⟨j, hj, -, heq⟩
    · rw [if_pos rfl, heq] at htest
      obtain ⟨-, -, rfl⟩ : _ ∧ _ ∧ _ := by simpa only [Prod.mk.injEq] using htest
      exact Or.inl ⟨_, hfit, hrun, by rw [List.nil_append]⟩
    · rw [if_pos rfl, heq] at htest
      obtain ⟨-, -, rfl⟩ : _ ∧ _ ∧ _ := by simpa only [Prod.mk.injEq] using htest
      rw [List.nil_append, List.length_range'] at hfound
      omega
  | exhausted hfit htest hshort hall =>
    rintro rfl hstate
    rcases testRun_cont canUse n _ _ [] with ⟨hrun, heq⟩ | ⟨j, hj, hnot, heq⟩
    · rw [if_pos rfl, heq] at htest
      obtain ⟨-, -, rfl⟩ : _ ∧ _ ∧ _ := by simpa only [Prod.mk.injEq] using htest
      rw [List.nil_append, List.length_range'] at hshort
      exact absurd rfl hshort
    · rw [if_pos rfl, heq] at htest
      obtain ⟨-, rfl, -⟩ : _ ∧ _ ∧ _ := by simpa only [Prod.mk.injEq] using htest
      exact Or.inr ⟨rfl, fun a ha => (hstate.skip hfit hj hnot).no_run hn hall ha⟩
  | again hfit htest hshort _ _ ih =>
    rintro rfl hstate
    rcases testRun_cont canUse n _ _ [] with ⟨hrun, heq⟩ | ⟨j, hj, hnot, heq⟩
    · rw [if_pos rfl, heq] at htest
      obtain ⟨-, -, rfl⟩ : _ ∧ _ ∧ _ := by simpa only [Prod.mk.injEq] using htest
      rw [List.nil_append, List.length_range'] at hshort
      exact absurd rfl hshort
    · rw [if_pos rfl, heq] at htest
      obtain ⟨rfl, rfl, -⟩ : _ ∧ _ ∧ _ := by simpa only [Prod.mk.injEq] using htest
      exact ih (if_pos rfl) (hstate.skip hfit hj hnot)

end Continuous

/-! ## The slot of an ubatch -/

section Slot

variable {cfg : KvConfig} {k : KvCache} {u : UBatch} {cont : Bool} {n s : ℕ}

/-- The cell from which the search for the `s`-th sequence starts. -/
def searchHead (cfg : KvConfig) (k : KvCache) (u : UBatch) (n s : ℕ) : ℕ :=
  startHead (k.heads (cfg.seqToStream (u.seqIdUnq.getD s 0)))
    (k.usableSize cfg (u.seqIdUnq.getD s 0))
    (k.cells (cfg.seqToStream (u.seqIdUnq.getD s 0))).getUsed n

/-- The prefix boundary of the `s`-th sequence is set, if boundaries are in use. -/
def BoundarySet (cfg : KvConfig) (k : KvCache) (u : UBatch) (s : ℕ) : Prop :=
  cfg.PrefixSliding → 0 ≤ k.prefixEnd (u.seqIdUnq.getD s 0)

lemma findSeqSlot_eq_slotLoop (hset : BoundarySet cfg k u s)
    (hfits : n ≤ k.usableSize cfg (u.seqIdUnq.getD s 0)) :
    findSeqSlot cfg k u cont n s =
      slotLoop (SeqCanUse cfg k u n s) cont (k.usableSize cfg (u.seqIdUnq.getD s 0)) n
        (2 * k.usableSize cfg (u.seqIdUnq.getD s 0) + 2) (searchHead cfg k u n s) 0 [] := by
  have hno : ¬ (cfg.PrefixSliding ∧
      (if cfg.PrefixSliding then k.prefixEnd (u.seqIdUnq.getD s 0) else -1) < 0) := by
    rintro ⟨hp, hneg⟩
    rw [if_pos hp] at hneg
    exact absurd (hset hp) (not_le.mpr hneg)
  exact (if_neg hno).trans (if_neg (not_lt.mpr hfits))

lemma boundarySet_of_findSeqSlot {l : List ℕ} (h : findSeqSlot cfg k u cont n s = some l) :
    BoundarySet cfg k u s ∧ n ≤ k.usableSize cfg (u.seqIdUnq.getD s 0) := by
  obtain ⟨hno, h⟩ := Option.ite_none_left_eq_some.1 h
  obtain ⟨hfits, -⟩ := Option.ite_none_left_eq_some.1 h
  refine ⟨fun hp => not_lt.mp fun hneg => hno ⟨hp, ?_⟩, not_lt.mp hfits⟩
  rw [if_pos hp]
  exact hneg

lemma findSeqSlot_cont (hn : 0 < n) (hset : BoundarySet cfg k u s)
    (hfits : n ≤ k.usableSize cfg (u.seqIdUnq.getD s 0)) :
    (∃ a, a + n ≤ k.usableSize cfg (u.seqIdUnq.getD s 0) ∧ IsRun (SeqCanUse cfg k u n s) n a ∧
      findSeqSlot cfg k u true n s = some (List.range' a n)) ∨
    (findSeqSlot cfg k u true n s = none ∧
      ∀ a, a + n ≤ k.usableSize cfg (u.seqIdUnq.getD s 0) →
        ¬ IsRun (SeqCanUse cfg k u n s) n a) := by
  rw [findSeqSlot_eq_slotLoop hset hfits]
  have hhead : searchHead cfg k u n s < k.usableSize cfg (u.seqIdUnq.getD s 0) :=
    startHead_lt (hn.trans_le hfits) _ _ _
  refine (slotReturns_slotLoop hn hfits _).run_or_none hn rfl
    (.first (m := searchHead cfg k u n s) le_rfl hhead.le (Nat.zero_add _) fun a hle hlt => ?_)
  exact absurd hlt (not_lt.mpr hle)

lemma findSeqSlot_spec (hn : 0 < n) {l : List ℕ} (h : findSeqSlot cfg k u cont n s = some l) :
    FoundSeq cfg k u n s l ∧ (cont = true → ∃ a, l = List.range' a n) := by
  cases cont with
  | false => exact ⟨findSeqSlot_found hn h, fun hcont => absurd hcont Bool.false_ne_true⟩
  | true =>
    obtain ⟨hset, hfits⟩ := boundarySet_of_findSeqSlot h
    rcases findSeqSlot_cont hn hset hfits with ⟨a, ha, hrun, heq⟩ | ⟨hnone, -⟩
    · obtain rfl := Option.some.inj (h.symm.trans heq)
      have hmem : ∀ x ∈ List.range' a n, ∃ i < n, x = a + i := fun x hx => by
        rw [List.mem_range'_1] at hx
        exact ⟨x - a, by omega, by omega⟩
      refine ⟨⟨List.length_range', List.nodup_range', fun x hx => ?_, fun x hx => ?_, hset⟩,
        fun _ => ⟨a, rfl⟩⟩
      · obtain ⟨i, hi, rfl⟩ := hmem x hx
        omega
      · obtain ⟨i, hi, rfl⟩ := hmem x hx
        exact hrun i hi
    · exact absurd (h.symm.trans hnone) (Option.some_ne_none l)

lemma findSeqSlot_none (hn : 0 < n) (hset : BoundarySet cfg k u s)
    (h : findSeqSlot cfg k u cont n s = none) :
    ((Finset.range (k.usableSize cfg (u.seqIdUnq.getD s 0))).filter
        (SeqCanUse cfg k u n s)).card < n ∨
      cont = true ∧ ∀ a, a + n ≤ k.usableSize cfg (u.seqIdUnq.getD s 0) →
        ¬ IsRun (SeqCanUse cfg k u n s) n a := by
  by_cases hfits : n ≤ k.usableSize cfg (u.seqIdUnq.getD s 0)
  · cases cont with
    | false =>
      rw [findSeqSlot_eq hn, if_neg (not_or.2 ⟨fun hp => not_lt.mpr (hset hp.1) hp.2,
        not_lt.mpr hfits⟩)] at h
      have hshort : ((seqScan cfg k u n s).filter (SeqCanUse cfg k u n s)).length < n :=
        not_le.mp fun hle => Option.some_ne_none _ ((if_pos hle).symm.trans h)
      left
      refine lt_of_le_of_lt ?_ hshort
      have hnodup : ((seqScan cfg k u n s).filter (SeqCanUse cfg k u n s)).Nodup :=
        (nodup_scanOrder _ _).filter _
      rw [← List.toFinset_card_of_nodup hnodup]
      refine Finset.card_le_card fun x hx => ?_
      obtain ⟨hlt, huse⟩ := Finset.mem_filter.mp hx
      have hhead := startHead_lt (hn.trans_le hfits)
        (k.heads (cfg.seqToStream (u.seqIdUnq.getD s 0)))
        (k.cells (cfg.seqToStream (u.seqIdUnq.getD s 0))).getUsed n
      exact List.mem_toFinset.mpr (List.mem_filter.mpr
        ⟨(mem_scanOrder hhead.le).mpr (Finset.mem_range.mp hlt), decide_eq_true huse⟩)
    | true =>
      rcases findSeqSlot_cont hn hset hfits with ⟨a, -, -, heq⟩ | ⟨-, hno⟩
      · exact absurd (heq.symm.trans h) (Option.some_ne_none _)
      · exact Or.inr ⟨rfl, hno⟩
  · left
    calc _ ≤ (Finset.range (k.usableSize cfg (u.seqIdUnq.getD s 0))).card :=
          Finset.card_filter_le _ _
      _ < n := by
        rw [Finset.card_range]
        exact not_le.mp hfits

lemma findSlot_eq_some_parts {si : SlotInfo} (h : findSlot cfg k u cont = some si) :
    si.nStream = slotSeqs cfg u ∧ ∀ s < slotSeqs cfg u,
      si.stream s = cfg.seqToStream (u.seqIdUnq.getD s 0) ∧
      findSeqSlot cfg k u cont (slotTokens cfg u) s = some (si.cellIdxs s) := by
  obtain ⟨idxs, hidxs, rfl⟩ := Option.map_eq_some_iff.1 h
  refine ⟨by simp [SlotInfo.nStream], fun s hs => ⟨?_, (mapM_range_getD hidxs).2 s hs []⟩⟩
  simp only [SlotInfo.stream]
  rw [List.getD_eq_getElem _ _ (by simpa using hs), List.getElem_map, List.getElem_range]

lemma exists_findSeqSlot_none (h : findSlot cfg k u cont = none) :
    ∃ s < slotSeqs cfg u, findSeqSlot cfg k u cont (slotTokens cfg u) s = none := by
  by_contra hnot
  push Not at hnot
  have hall : ∀ s ∈ List.range (slotSeqs cfg u), findSeqSlot cfg k u cont (slotTokens cfg u) s =
      some ((findSeqSlot cfg k u cont (slotTokens cfg u) s).getD []) := by
    intro s hs
    obtain ⟨l, hl⟩ := Option.ne_none_iff_exists'.mp (hnot s (List.mem_range.mp hs))
    rw [hl, Option.getD_some]
  have hmap := mapM_eq_some_iff.2 ((List.map_congr_left hall).trans (List.map_map ..).symm)
  rw [findSlot, hmap] at h
  exact absurd h (Option.some_ne_none _)

end Slot

end KvCache

open KvCache KvMachine

/-- For every cache and ubatch, continuous or not: the searches of `find_slot` end; a slot that it
returns has for each stream one different index per token, all of usable cells below the usable
size, in a row if asked for; and if it returns none although the boundaries are set, then some
stream has fewer usable cells than tokens or, for a continuous slot, no run of usable cells. -/
theorem findSlot_search (cfg : KvConfig) (k : KvCache) (u : UBatch) (cont : Bool)
    (hn : 0 < u.nTokens) (hassert : SlotAsserts cfg u) :
    (∀ s < slotSeqs cfg u, BoundarySet cfg k u s →
      slotTokens cfg u ≤ k.usableSize cfg (u.seqIdUnq.getD s 0) →
      SlotReturns (SeqCanUse cfg k u (slotTokens cfg u) s) cont
        (k.usableSize cfg (u.seqIdUnq.getD s 0)) (slotTokens cfg u)
        (searchHead cfg k u (slotTokens cfg u) s) 0 []
        (findSeqSlot cfg k u cont (slotTokens cfg u) s)) ∧
    (∀ si, findSlot cfg k u cont = some si → si.nStream = slotSeqs cfg u ∧
      ∀ s < slotSeqs cfg u, si.stream s = cfg.seqToStream (u.seqIdUnq.getD s 0) ∧
        (si.cellIdxs s).length = slotTokens cfg u ∧ (si.cellIdxs s).Nodup ∧
        (∀ x ∈ si.cellIdxs s, x < k.usableSize cfg (u.seqIdUnq.getD s 0) ∧
          SeqCanUse cfg k u (slotTokens cfg u) s x) ∧
        (cont = true → ∃ a, si.cellIdxs s = List.range' a (slotTokens cfg u))) ∧
    (findSlot cfg k u cont = none → (∀ s < slotSeqs cfg u, BoundarySet cfg k u s) →
      ∃ s < slotSeqs cfg u,
        ((Finset.range (k.usableSize cfg (u.seqIdUnq.getD s 0))).filter
          (SeqCanUse cfg k u (slotTokens cfg u) s)).card < slotTokens cfg u ∨
        cont = true ∧ ∀ a, a + slotTokens cfg u ≤ k.usableSize cfg (u.seqIdUnq.getD s 0) →
          ¬ IsRun (SeqCanUse cfg k u (slotTokens cfg u) s) (slotTokens cfg u) a) := by
  obtain ⟨htokens, -, -⟩ := slotTokens_pos hn hassert
  refine ⟨fun s _ hset hfits => ?_, fun si h => ?_, fun h hset => ?_⟩
  · rw [findSeqSlot_eq_slotLoop hset hfits]
    exact slotReturns_slotLoop htokens hfits _
  · obtain ⟨hcount, hparts⟩ := findSlot_eq_some_parts h
    refine ⟨hcount, fun s hs => ?_⟩
    obtain ⟨hstream, hslot⟩ := hparts s hs
    obtain ⟨hfound, hrow⟩ := findSeqSlot_spec htokens hslot
    exact ⟨hstream, hfound.length, hfound.nodup, fun x hx => ⟨hfound.lt x hx, hfound.canUse x hx⟩,
      hrow⟩
  · obtain ⟨s, hs, hnone⟩ := exists_findSeqSlot_none h
    exact ⟨s, hs, findSeqSlot_none htokens (hset s hs) hnone⟩

/-- The search finds the first cell of an empty cache. -/
theorem findSlot_search_tokenAt :
    findSlot oneStream (.new oneStream) (tokenAt 0) true = some ⟨0, 0, [0], [[0]]⟩ ∧
      (∃ a, [0] = List.range' a 1) ∧
      SlotReturns (SeqCanUse oneStream (.new oneStream) (tokenAt 0) 1 0) true 4 1 0 0 []
        (some [0]) := by
  have hslot : findSlot oneStream (.new oneStream) (tokenAt 0) true =
      some ⟨0, 0, [0], [[0]]⟩ := by decide
  obtain ⟨hends, hfound, -⟩ := findSlot_search oneStream (.new oneStream) (tokenAt 0) true
    Nat.one_pos fun hmany => absurd hmany (lt_irrefl 1)
  obtain ⟨-, hparts⟩ := hfound _ hslot
  exact ⟨hslot, (hparts 0 Nat.one_pos).2.2.2.2 rfl,
    hends 0 Nat.one_pos (fun hp => absurd hp (by decide)) (by decide)⟩

end IFairy
