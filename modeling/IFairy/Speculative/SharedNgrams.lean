import IFairy.Speculative.Drafting
import IFairy.Speculative.NgramMapSafe
import Mathlib.Algebra.BigOperators.Group.Finset.Piecewise

/-!
# One n-gram table for several sequences: `common_speculative_impl_ngram_mod`

All sequences learn into one table, while `i_last` says for each of them how far its history has
been learned.  Two calls reset the table: a `begin` that leaves it too full, and an `accept` that
ends a streak of bad drafts.  Both set back the `i_last` of the sequence that is called, and not
those of the others.  The record of what was learned stays right exactly when no other sequence has
learned anything at a reset (`KeepsRecord`).

The run carries, beside the state of the source, the history of each sequence and the windows that
were added to the table since its last reset.  No call reads them.
-/

namespace IFairy.Speculative

/-- The `n`-gram at `i` with its next token. -/
def window (n : ℕ) (tokens : List Token) (i : ℕ) : List Token := (tokens.drop i).take (n + 1)

/-- The table and the records, with the tokens last passed for each sequence and the windows added
since the last reset. -/
structure ModRun (nSeq : ℕ) where
  mod : NgramMod
  sinfos : Fin nSeq → SeqInfo
  history : Fin nSeq → List Token
  added : List (List Token)

/-- A call of `common_speculative_impl_ngram_mod`. -/
inductive ModCall (nSeq : ℕ)
  | begin (seq : Fin nSeq) (prompt : List Token)
  | draft (seq : Fin nSeq) (dp : DraftParams)
  | accept (seq : Fin nSeq) (nAccepted : ℕ)

def ModCall.seq {nSeq : ℕ} : ModCall nSeq → Fin nSeq
  | begin seq _ | draft seq _ | accept seq _ => seq

namespace ModRun

variable {nSeq : ℕ}

def adds (s : ModRun nSeq) : ModCall nSeq → List (List Token)
  | .begin _ prompt => (List.range (prompt.length - s.mod.n)).map (window s.mod.n prompt)
  | .draft seq dp =>
    dp.prompt.elim [] fun prompt =>
      let iLast := (s.sinfos seq).iLast
      if dp.hasResult = true ∧ s.mod.n ≤ prompt.length ∧ iLast + 32 < prompt.length then
        (List.range' iLast (prompt.length - s.mod.n - iLast)).map (window s.mod.n prompt)
      else []
  | .accept _ _ => []

/-- The call resets the table: more than a quarter of it is used with the windows of the prompt, or
the draft is the fifth in a row of which less than a quarter was accepted. -/
def resets (s : ModRun nSeq) : ModCall nSeq → Bool
  | .begin _ prompt =>
    s.mod.n ≤ prompt.length ∧
      ((List.range (prompt.length - s.mod.n)).foldlM (NgramMod.add prompt) s.mod).toOption.any
        fun mod => s.mod.size < 4 * mod.used
  | .draft _ _ => false
  | .accept seq nAccepted =>
    let sinfo := s.sinfos seq
    0 < sinfo.nDraftLast ∧ 4 * nAccepted < sinfo.nDraftLast ∧ 5 ≤ sinfo.nLow + 1

/-- The windows added since the last reset, after a call. -/
def addedAfter (s : ModRun nSeq) (a : ModCall nSeq) : List (List Token) :=
  if s.resets a = true then [] else s.added ++ s.adds a

/-- What a call does: `begin`, `draft` and `accept`. -/
def call (params : ModParams) (s : ModRun nSeq) (a : ModCall nSeq) :
    Except MapError (ModRun nSeq) :=
  match a with
  | .begin seq prompt => do
    let (mod, sinfo) ← modBegin s.mod (s.sinfos seq) prompt
    .ok ⟨mod, Function.update s.sinfos seq sinfo, Function.update s.history seq prompt,
      s.addedAfter a⟩
  | .draft seq dp =>
    match dp.prompt with
    | none => .ok s
    | some prompt =>
      if dp.hasResult = false then .ok { s with history := Function.update s.history seq prompt }
      else do
        let (mod, sinfo, _) ← modDraft params s.mod (s.sinfos seq) dp prompt
        .ok ⟨mod, Function.update s.sinfos seq sinfo, Function.update s.history seq prompt,
          s.addedAfter a⟩
  | .accept seq nAccepted =>
    let (mod, sinfo) := modAccept s.mod (s.sinfos seq) nAccepted
    .ok ⟨mod, Function.update s.sinfos seq sinfo, s.history, s.addedAfter a⟩

/-- A step of a run is a call that returns. -/
def step (params : ModParams) (s : ModRun nSeq) (a : ModCall nSeq) : Option (ModRun nSeq) :=
  (s.call params a).toOption

/-- A new object, with a table of `4*1024*1024` entries. -/
def start (n : ℕ) : ModRun nSeq :=
  ⟨{ n, size := 4 * 1024 * 1024 }, fun _ => {}, fun _ => [], []⟩

/-- A history only grows between two `begin`s. -/
def Grows (s : ModRun nSeq) : ModCall nSeq → Prop
  | .draft seq dp => ∀ prompt ∈ dp.prompt, s.history seq <+: prompt
  | _ => True

/-- The number of entries that are not empty. -/
def occupied (mod : NgramMod) : ℕ := ((Finset.range mod.size).filter (mod.entries · ≠ -1)).card

/-- Every n-gram of the history of a sequence before its `i_last` is in the table with its next
token since the last reset, and `used` counts the entries that are not empty. -/
structure Learned (s : ModRun nSeq) : Prop where
  added : ∀ seq tokens, s.history seq <+: tokens → ∀ i < (s.sinfos seq).iLast,
    i + s.mod.n < tokens.length ∧ window s.mod.n tokens i ∈ s.added
  used : s.mod.used = occupied s.mod

/-- A call that resets the table comes when no other sequence has learned anything, and any other
call adds no n-gram whose next token is the mark of an empty entry. -/
def KeepsRecord (s : ModRun nSeq) (a : ModCall nSeq) : Prop :=
  if s.resets a = true then ∀ t, t ≠ a.seq → (s.sinfos t).iLast = 0
  else ∀ w ∈ s.adds a, w.getLast? ≠ some (-1)

end ModRun

/-! ## The table -/

section Table

variable {mod mod' : NgramMod} {tokens : List Token}

lemma window_of_isPrefix {n i : ℕ} {prompt : List Token} (h : prompt <+: tokens)
    (hi : i + n < prompt.length) : window n tokens i = window n prompt i := by
  obtain ⟨rest, rfl⟩ := h
  rw [window, List.drop_append_of_le_length (by omega), List.take_append_of_le_length]
  · rfl
  · rw [List.length_drop]
    omega

lemma getLast?_window {n i : ℕ} (hi : i + n < tokens.length) :
    (window n tokens i).getLast? = some tokens[i + n] := by
  have hlength : (window n tokens i).length = n + 1 := by
    rw [window, List.length_take, List.length_drop]
    omega
  rw [List.getLast?_eq_getElem?, hlength, Nat.add_sub_cancel, window,
    List.getElem?_take_of_lt n.lt_succ_self, List.getElem?_drop, List.getElem?_eq_getElem hi]

lemma NgramMod.exists_idx (hsize : 0 < mod.size) {start : ℕ}
    (hstart : start + mod.n ≤ tokens.length) :
    ∃ i < mod.size, mod.idx tokens start = .ok i := by
  have hread : ∀ i ∈ List.range mod.n, ∀ res : ℕ, ∃ res', (do
      let token ← readAt tokens (start + i)
      .ok ((res * 6364136223846793005 + token) % 2 ^ 64).toNat : Except MapError ℕ) =
        .ok res' := by
    intro i hi res
    have hlt : start + i < tokens.length := by
      have := List.mem_range.1 hi
      omega
    rw [readAt_eq_ok hlt]
    exact ⟨_, rfl⟩
  obtain ⟨res, hres⟩ := exists_foldlM hread 0
  exact ⟨res % mod.size, Nat.mod_lt _ hsize, bind_eq_ok.2 ⟨res, hres, rfl⟩⟩

lemma ModRun.occupied_reset : ModRun.occupied mod.reset = 0 :=
  Finset.card_eq_zero.2 (Finset.filter_eq_empty_iff.2 fun _ _ h => h rfl)

lemma ModRun.occupied_update {i : ℕ} (hi : i < mod.size) (used : ℕ) (token : Token) :
    occupied { mod with used, entries := Function.update mod.entries i token } +
        (if mod.entries i ≠ -1 then 1 else 0) =
      occupied mod + if token ≠ -1 then 1 else 0 := by
  have hmem : i ∈ Finset.range mod.size := Finset.mem_range.2 hi
  have hrest : (∑ j ∈ (Finset.range mod.size).erase i,
      if Function.update mod.entries i token j ≠ -1 then 1 else 0) =
      ∑ j ∈ (Finset.range mod.size).erase i, if mod.entries j ≠ -1 then 1 else 0 :=
    Finset.sum_congr rfl fun j hj => by
      rw [Function.update_of_ne (Finset.ne_of_mem_erase hj)]
  rw [occupied, occupied, Finset.card_filter, Finset.card_filter,
    ← Finset.add_sum_erase _ _ hmem, ← Finset.add_sum_erase _ _ hmem, hrest]
  simp only [Function.update_self]
  omega

/-- What adding windows does to a table: what `used` counts too much are the windows whose next
token marks an empty entry. -/
structure Adds (mod mod' : NgramMod) (ws : List (List Token)) : Prop where
  n_eq : mod'.n = mod.n
  size_eq : mod'.size = mod.size
  used_eq : mod'.used + ModRun.occupied mod =
    mod.used + ModRun.occupied mod' + ws.countP fun w => w.getLast? = some (-1)

lemma Adds.refl (mod : NgramMod) : Adds mod mod [] := ⟨rfl, rfl, rfl⟩

lemma Adds.used_eq_iff {ws : List (List Token)} (h : Adds mod mod' ws)
    (hused : mod.used = ModRun.occupied mod) :
    mod'.used = ModRun.occupied mod' ↔ ∀ w ∈ ws, w.getLast? ≠ some (-1) := by
  have hzero : mod'.used = ModRun.occupied mod' ↔
      (ws.countP fun w => w.getLast? = some (-1)) = 0 := by
    have := h.used_eq
    omega
  rw [hzero, List.countP_eq_zero]
  simp only [decide_eq_true_eq]

lemma exists_add (hsize : 0 < mod.size) {start : ℕ} (hstart : start + mod.n < tokens.length) :
    ∃ mod', mod.add tokens start = .ok mod' ∧ Adds mod mod' [window mod.n tokens start] := by
  obtain ⟨i, hi, hidx⟩ := NgramMod.exists_idx hsize hstart.le
  refine ⟨_, bind_eq_ok.2 ⟨i, hidx, bind_eq_ok.2 ⟨_, readAt_eq_ok hstart, rfl⟩⟩, rfl, rfl, ?_⟩
  have hcount := ModRun.occupied_update hi
    (if mod.entries i = -1 then mod.used + 1 else mod.used) tokens[start + mod.n]
  rw [List.countP_singleton, getLast?_window hstart]
  split_ifs at hcount ⊢ <;> grind

variable (tokens) in
lemma exists_foldlM_add (starts : List ℕ) (hsize : 0 < mod.size)
    (hstarts : ∀ start ∈ starts, start + mod.n < tokens.length) :
    ∃ mod', starts.foldlM (NgramMod.add tokens) mod = .ok mod' ∧
      Adds mod mod' (starts.map (window mod.n tokens)) := by
  induction starts generalizing mod with
  | nil => exact ⟨mod, rfl, .refl mod⟩
  | cons start starts ih =>
    obtain ⟨hstart, hrest⟩ := List.forall_mem_cons.1 hstarts
    obtain ⟨mid, hmid, hadds⟩ := exists_add hsize hstart
    obtain ⟨mod', hmod', hadds'⟩ := ih (hadds.size_eq ▸ hsize) (hadds.n_eq ▸ hrest)
    refine ⟨mod', foldlM_cons_eq_ok.2 ⟨mid, hmid, hmod'⟩, hadds'.n_eq.trans hadds.n_eq,
      hadds'.size_eq.trans hadds.size_eq, ?_⟩
    have hhead := hadds.used_eq
    have htail := hadds'.used_eq
    rw [hadds.n_eq] at htail
    rw [List.map_cons, List.countP_cons]
    rw [List.countP_singleton] at hhead
    omega

/-! ## The calls -/

variable {sinfo : SeqInfo}

lemma modBegin_of_lt (h : tokens.length < mod.n) :
    modBegin mod sinfo tokens = .ok (mod, { sinfo with iLast := 0, nDraftLast := 0 }) :=
  if_pos h

lemma modBegin_of_le (h : mod.n ≤ tokens.length)
    (hadd : (List.range (tokens.length - mod.n)).foldlM (NgramMod.add tokens) mod = .ok mod')
    (hn : mod'.n = mod.n) :
    modBegin mod sinfo tokens = .ok (if mod'.size < 4 * mod'.used
      then (mod'.reset, { sinfo with iLast := 0, nDraftLast := 0 })
      else (mod', { sinfo with iLast := tokens.length - mod.n, nDraftLast := 0 })) := by
  rw [modBegin, if_neg (not_lt.2 h), hadd, ← hn]
  change (if mod'.size < 4 * mod'.used then _ else _) = _
  split_ifs <;> rfl

/-- What follows the learning in a draft changes neither the table nor `i_last`. -/
lemma draftRest_spec (sinfo : SeqInfo) {params : ModParams} {dp : DraftParams} {mid : NgramMod}
    {iEnd : ℕ} {sinfo' : SeqInfo} {result : List Token}
    (h : (if dp.draftMax params.nMax ≤ 0 then .ok (mid, sinfo, [])
      else if mod.n = 0 then .error .outOfBounds
      else do
        let last ← (List.range (mod.n - 1)).mapM fun i => readAt tokens (iEnd + 1 + i)
        let result ← modLoop params mid 0 (dp.draftMax params.nMax).toNat (last ++ [dp.idLast])
        .ok (mid, { sinfo with nDraftLast := (result.drop mod.n).length }, result.drop mod.n)) =
      (.ok (mod', sinfo', result) : Except MapError (NgramMod × SeqInfo × List Token))) :
    mod' = mid ∧ sinfo'.iLast = sinfo.iLast := by
  split_ifs at h
  · cases h
    exact ⟨rfl, rfl⟩
  · obtain ⟨last, -, hrest⟩ := bind_eq_ok.1 h
    obtain ⟨drafted, -, hend⟩ := bind_eq_ok.1 hrest
    cases hend
    exact ⟨rfl, rfl⟩

lemma modDraft_spec {params : ModParams} {dp : DraftParams} {sinfo' : SeqInfo}
    {result : List Token} (hsize : 0 < mod.size)
    (h : modDraft params mod sinfo dp tokens = .ok (mod', sinfo', result)) :
    if mod.n ≤ tokens.length ∧ sinfo.iLast + 32 < tokens.length then
      Adds mod mod' ((List.range' sinfo.iLast (tokens.length - mod.n - sinfo.iLast)).map
        (window mod.n tokens)) ∧ sinfo'.iLast = tokens.length - mod.n
    else mod' = mod ∧ sinfo'.iLast = sinfo.iLast := by
  rw [modDraft] at h
  rcases Nat.lt_or_ge tokens.length mod.n with hlen | hlen
  · rw [if_pos hlen] at h
    cases h
    rw [if_neg fun hle => absurd hlen (not_lt.2 hle.1)]
    exact ⟨rfl, rfl⟩
  rw [if_neg (not_lt.2 hlen)] at h
  by_cases hnew : sinfo.iLast + 32 < tokens.length
  · rw [if_pos ⟨hlen, hnew⟩]
    obtain ⟨mid, hmid, hadds⟩ := exists_foldlM_add tokens
      (List.range' sinfo.iLast (tokens.length - mod.n - sinfo.iLast)) hsize fun start hstart => by
        have := List.mem_range'_1.1 hstart
        omega
    simp only [if_pos hnew, hmid] at h
    obtain ⟨rfl, hlast⟩ :=
      draftRest_spec ⟨tokens.length - mod.n, 0, sinfo.nLow⟩ h
    exact ⟨hadds, hlast⟩
  · rw [if_neg fun hle => hnew hle.2]
    simp only [if_neg hnew] at h
    exact draftRest_spec ⟨sinfo.iLast, 0, sinfo.nLow⟩ h

end Table

/-! ## Runs -/

namespace ModRun

variable {nSeq n : ℕ} {params : ModParams} {s s' : ModRun nSeq} {a : ModCall nSeq}

/-- What a call does: the sequences that are not called keep their record, a reset empties the table
and the record of the sequence, and otherwise the record covers windows that the call has added and
windows that it covered before. -/
structure Effect (s s' : ModRun nSeq) (a : ModCall nSeq) : Prop where
  n_eq : s'.mod.n = s.mod.n
  size_eq : s'.mod.size = s.mod.size
  added_eq : s'.added = s.addedAfter a
  others : ∀ t, t ≠ a.seq → s'.sinfos t = s.sinfos t ∧ s'.history t = s.history t
  reset : s.resets a = true →
    s'.mod.used = 0 ∧ occupied s'.mod = 0 ∧ (s'.sinfos a.seq).iLast = 0
  adds : s.resets a = false → Adds s.mod s'.mod (s.adds a)
  covers : s.resets a = false → ∀ i < (s'.sinfos a.seq).iLast,
    i + s.mod.n < (s'.history a.seq).length ∧
        window s.mod.n (s'.history a.seq) i ∈ s.adds a ∨
      i < (s.sinfos a.seq).iLast ∧ s.history a.seq <+: s'.history a.seq

lemma Effect.of_update {mod' : NgramMod} {sinfo' : SeqInfo} {prompt : List Token}
    (n_eq : mod'.n = s.mod.n) (size_eq : mod'.size = s.mod.size)
    (reset : s.resets a = true → mod'.used = 0 ∧ occupied mod' = 0 ∧ sinfo'.iLast = 0)
    (adds : s.resets a = false → Adds s.mod mod' (s.adds a))
    (covers : s.resets a = false → ∀ i < sinfo'.iLast,
      i + s.mod.n < prompt.length ∧ window s.mod.n prompt i ∈ s.adds a ∨
        i < (s.sinfos a.seq).iLast ∧ s.history a.seq <+: prompt) :
    s.Effect ⟨mod', Function.update s.sinfos a.seq sinfo', Function.update s.history a.seq prompt,
      s.addedAfter a⟩ a where
  n_eq := n_eq
  size_eq := size_eq
  added_eq := rfl
  others t ht := ⟨Function.update_of_ne ht .., Function.update_of_ne ht ..⟩
  reset h := by simpa only [Function.update_self] using reset h
  adds := adds
  covers h := by simpa only [Function.update_self] using covers h

lemma effect_begin (hsize : 0 < s.mod.size) {seq : Fin nSeq} {prompt : List Token}
    (h : s.call params (.begin seq prompt) = .ok s') : s.Effect s' (.begin seq prompt) := by
  obtain ⟨⟨mod', sinfo'⟩, hbegin, hend⟩ := bind_eq_ok.1 h
  cases hend
  rcases Nat.lt_or_ge prompt.length s.mod.n with hlen | hlen
  · rw [modBegin_of_lt hlen] at hbegin
    cases hbegin
    have hresets : s.resets (.begin seq prompt) = false :=
      decide_eq_false fun hle => absurd hlen (not_lt.2 hle.1)
    have hadds : s.adds (.begin seq prompt) = [] := by
      rw [adds, Nat.sub_eq_zero_of_le hlen.le, List.range_zero, List.map_nil]
    refine .of_update (a := .begin seq prompt) rfl rfl (fun hreset => ?_)
      (fun _ => hadds ▸ .refl _) fun _ i hi => absurd hi (Nat.not_lt_zero i)
    rw [hresets] at hreset
    cases hreset
  obtain ⟨mid, hmid, hadds⟩ := exists_foldlM_add prompt (List.range (prompt.length - s.mod.n))
    hsize fun start hstart => by
      have := List.mem_range.1 hstart
      omega
  rw [modBegin_of_le hlen hmid hadds.n_eq] at hbegin
  have hresets : s.resets (.begin seq prompt) = decide (mid.size < 4 * mid.used) := by
    simp only [resets, hmid, hadds.size_eq, hlen, true_and, Except.toOption, Option.any_some,
      decide_eq_true_eq]
  by_cases hfull : mid.size < 4 * mid.used
  · rw [if_pos hfull] at hbegin
    cases hbegin
    refine .of_update (a := .begin seq prompt) hadds.n_eq hadds.size_eq
      (fun _ => ⟨rfl, occupied_reset, rfl⟩) (fun hreset => ?_) fun _ i hi =>
        absurd hi (Nat.not_lt_zero i)
    rw [hresets, decide_eq_true hfull] at hreset
    cases hreset
  · rw [if_neg hfull] at hbegin
    cases hbegin
    refine .of_update (a := .begin seq prompt) hadds.n_eq hadds.size_eq (fun hreset => ?_)
      (fun _ => hadds) fun _ i (hi : i < prompt.length - s.mod.n) =>
        .inl ⟨by omega, List.mem_map_of_mem (List.mem_range.2 hi)⟩
    rw [hresets, decide_eq_false hfull] at hreset
    cases hreset

lemma effect_draft (hsize : 0 < s.mod.size) {seq : Fin nSeq} {dp : DraftParams}
    (hgrows : s.Grows (.draft seq dp)) (h : s.call params (.draft seq dp) = .ok s') :
    s.Effect s' (.draft seq dp) := by
  have hadded (hadds : s.adds (.draft seq dp) = []) : s.addedAfter (.draft seq dp) = s.added := by
    rw [addedAfter, if_neg (by simp [resets]), hadds, List.append_nil]
  have hreset {P : Prop} (hreset : s.resets (.draft seq dp) = true) : P := by cases hreset
  rw [call] at h
  split at h
  case h_1 hprompt =>
    cases h
    have hadds : s.adds (.draft seq dp) = [] := by rw [adds, hprompt, Option.elim_none]
    exact ⟨rfl, rfl, (hadded hadds).symm, fun _ _ => ⟨rfl, rfl⟩, hreset, fun _ => hadds ▸ .refl _,
      fun _ i hi => .inr ⟨hi, List.prefix_rfl⟩⟩
  case h_2 prompt hprompt =>
    have hgrow : s.history seq <+: prompt := hgrows prompt hprompt
    split_ifs at h with hresult
    · cases h
      have hadds : s.adds (.draft seq dp) = [] := by
        rw [adds, hprompt, Option.elim_some, if_neg fun hcond => by simp [hresult] at hcond]
      refine ⟨rfl, rfl, (hadded hadds).symm, fun t ht => ⟨rfl, Function.update_of_ne ht ..⟩,
        hreset, fun _ => hadds ▸ .refl _, fun _ i hi => .inr ⟨hi, ?_⟩⟩
      change s.history seq <+: Function.update s.history seq prompt seq
      rwa [Function.update_self]
    · obtain ⟨⟨mod', sinfo', result⟩, hdraft, hend⟩ := bind_eq_ok.1 h
      cases hend
      have hspec := modDraft_spec hsize hdraft
      have hadds : s.adds (.draft seq dp) =
          if s.mod.n ≤ prompt.length ∧ (s.sinfos seq).iLast + 32 < prompt.length then
            (List.range' (s.sinfos seq).iLast (prompt.length - s.mod.n - (s.sinfos seq).iLast)).map
              (window s.mod.n prompt)
          else [] := by
        simp only [adds, hprompt, Option.elim_some, Bool.not_eq_false .. ▸ hresult, true_and]
      split_ifs at hspec hadds with hnew
      · obtain ⟨hmod, hlast⟩ := hspec
        refine .of_update (a := .draft seq dp) hmod.n_eq hmod.size_eq hreset
          (fun _ => hadds ▸ hmod) fun _ i hi => ?_
        rw [hlast] at hi
        rcases Nat.lt_or_ge i (s.sinfos seq).iLast with hold | hold
        · exact .inr ⟨hold, hgrow⟩
        · rw [hadds]
          exact .inl ⟨by omega, List.mem_map_of_mem (List.mem_range'_1.2 (by omega))⟩
      · obtain ⟨rfl, hlast⟩ := hspec
        exact .of_update (a := .draft seq dp) rfl rfl hreset (fun _ => hadds ▸ .refl _)
          fun _ i hi => .inr ⟨hlast ▸ hi, hgrow⟩

lemma effect_accept {seq : Fin nSeq} {nAccepted : ℕ}
    (h : s.call params (.accept seq nAccepted) = .ok s') : s.Effect s' (.accept seq nAccepted) := by
  have hresets : s.resets (.accept seq nAccepted) = decide (0 < (s.sinfos seq).nDraftLast ∧
      4 * nAccepted < (s.sinfos seq).nDraftLast ∧ 5 ≤ (s.sinfos seq).nLow + 1) := rfl
  have hsame {mod' : NgramMod} {sinfo' : SeqInfo}
      (hout : modAccept s.mod (s.sinfos seq) nAccepted = (mod', sinfo')) :
      s' = ⟨mod', Function.update s.sinfos seq sinfo',
        Function.update s.history seq (s.history seq), s.addedAfter (.accept seq nAccepted)⟩ := by
    rw [call, hout] at h
    cases h
    rw [Function.update_eq_self]
  have hkeep (sinfo' : SeqInfo) (hreset : s.resets (.accept seq nAccepted) = false)
      (hlast : sinfo'.iLast = (s.sinfos seq).iLast)
      (hout : modAccept s.mod (s.sinfos seq) nAccepted = (s.mod, sinfo')) :
      s.Effect s' (.accept seq nAccepted) := by
    rw [hsame hout]
    refine .of_update (a := .accept seq nAccepted) rfl rfl (fun htrue => ?_) (fun _ => .refl _)
      fun _ i hi => .inr ⟨hlast ▸ hi, List.prefix_rfl⟩
    rw [hreset] at htrue
    cases htrue
  by_cases hdraft : 0 < (s.sinfos seq).nDraftLast
  · by_cases hlow : 4 * nAccepted < (s.sinfos seq).nDraftLast
    · by_cases hstreak : 5 ≤ (s.sinfos seq).nLow + 1
      · rw [hsame (by rw [modAccept, if_pos hdraft, if_pos hlow, if_pos hstreak])]
        refine .of_update (a := .accept seq nAccepted) rfl rfl
          (fun _ => ⟨rfl, occupied_reset, rfl⟩) (fun hreset => ?_) fun _ i hi =>
            absurd hi (Nat.not_lt_zero i)
        rw [hresets, decide_eq_true ⟨hdraft, hlow, hstreak⟩] at hreset
        cases hreset
      · exact hkeep { s.sinfos seq with nLow := (s.sinfos seq).nLow + 1 }
          (hresets.trans (decide_eq_false fun hall => hstreak hall.2.2)) rfl
          (by rw [modAccept, if_pos hdraft, if_pos hlow, if_neg hstreak])
    · exact hkeep { s.sinfos seq with nLow := 0 }
        (hresets.trans (decide_eq_false fun hall => hlow hall.2.1)) rfl
        (by rw [modAccept, if_pos hdraft, if_neg hlow])
  · exact hkeep (s.sinfos seq) (hresets.trans (decide_eq_false fun hall => hdraft hall.1)) rfl
      (by rw [modAccept, if_neg hdraft])

lemma effect_of_call (hsize : 0 < s.mod.size) (hgrows : s.Grows a)
    (h : s.call params a = .ok s') : s.Effect s' a := by
  cases a with
  | begin seq prompt => exact effect_begin hsize h
  | draft seq dp => exact effect_draft hsize hgrows h
  | accept seq nAccepted => exact effect_accept h

lemma Effect.learned_iff (h : s.Effect s' a) (hs : s.Learned) : s'.Learned ↔ s.KeepsRecord a := by
  rw [KeepsRecord]
  cases hreset : s.resets a with
  | true =>
    have hempty : s'.added = [] := h.added_eq.trans (if_pos hreset)
    obtain ⟨hused, hoccupied, hlast⟩ := h.reset hreset
    rw [if_pos rfl]
    refine ⟨fun hs' t ht => ?_, fun hothers => ⟨fun seq tokens _ i hi => ?_, ?_⟩⟩
    · rw [← (h.others t ht).1]
      by_contra hne
      have hmem := (hs'.added t _ List.prefix_rfl 0 (Nat.pos_of_ne_zero hne)).2
      rw [hempty] at hmem
      exact List.not_mem_nil hmem
    · have hzero : (s'.sinfos seq).iLast = 0 := by
        by_cases hseq : seq = a.seq
        · rw [hseq, hlast]
        · rw [(h.others seq hseq).1, hothers seq hseq]
      omega
    · rw [hused, hoccupied]
  | false =>
    have hadds := h.adds hreset
    have hadded : s'.added = s.added ++ s.adds a :=
      h.added_eq.trans (if_neg (Bool.eq_false_iff.1 hreset))
    rw [if_neg Bool.false_ne_true, ← hadds.used_eq_iff hs.used]
    refine ⟨Learned.used, fun hused => ⟨fun seq tokens hprefix i hi => ?_, hused⟩⟩
    rw [h.n_eq, hadded, List.mem_append]
    by_cases hseq : seq = a.seq
    · subst hseq
      rcases h.covers hreset i hi with ⟨hlt, hmem⟩ | ⟨hold, hgrow⟩
      · exact ⟨hlt.trans_le hprefix.length_le, .inr (window_of_isPrefix hprefix hlt ▸ hmem)⟩
      · obtain ⟨hlt, hmem⟩ := hs.added a.seq tokens (hgrow.trans hprefix) i hold
        exact ⟨hlt, .inl hmem⟩
    · obtain ⟨hsinfo, hhistory⟩ := h.others seq hseq
      obtain ⟨hlt, hmem⟩ := hs.added seq tokens (hhistory ▸ hprefix) i (hsinfo ▸ hi)
      exact ⟨hlt, .inl hmem⟩

/-- What the calls keep: the record is right, and the table is not empty. -/
structure LearnedInv (s : ModRun nSeq) : Prop extends s.Learned where
  size_pos : 0 < s.mod.size

lemma learnedInv_start : (start n : ModRun nSeq).LearnedInv where
  added _ _ _ i hi := absurd hi (Nat.not_lt_zero i)
  used := (Finset.card_eq_zero.2 (Finset.filter_eq_empty_iff.2 fun _ _ h => h rfl)).symm
  size_pos := (by decide : 0 < 4 * 1024 * 1024)

lemma step_eq_some : s.step params a = some s' ↔ s.call params a = .ok s' := by
  rw [step]
  cases s.call params a <;> simp [Except.toOption]

/-- In every run whose calls meet the condition, every window before an `i_last` has been learned
since the last reset, and the next call keeps it so exactly when it meets the condition. -/
theorem learned_of_reaches
    (hs : Reaches (step params) (fun s a => s.Grows a ∧ s.KeepsRecord a) (start n) s) :
    s.Learned ∧ ∀ a s', s.Grows a → s.step params a = some s' →
      (s'.Learned ↔ s.KeepsRecord a) := by
  have hinv : s.LearnedInv := by
    refine hs.invariant learnedInv_start fun s a s' hinv hok hstep => ?_
    have heffect := effect_of_call hinv.size_pos hok.1 (step_eq_some.1 hstep)
    exact ⟨(heffect.learned_iff hinv.toLearned).2 hok.2, heffect.size_eq ▸ hinv.size_pos⟩
  refine ⟨hinv.toLearned, fun a s' hgrows hstep => ?_⟩
  exact (effect_of_call hinv.size_pos hgrows (step_eq_some.1 hstep)).learned_iff hinv.toLearned

instance (s : ModRun nSeq) (a : ModCall nSeq) : Decidable (s.Grows a) :=
  match a with
  | .begin _ _ | .accept _ _ => inferInstanceAs (Decidable True)
  | .draft seq dp => inferInstanceAs (Decidable (∀ prompt ∈ dp.prompt, s.history seq <+: prompt))

instance (s : ModRun nSeq) (a : ModCall nSeq) : Decidable (s.KeepsRecord a) :=
  inferInstanceAs (Decidable (if s.resets a = true then ∀ t, t ≠ a.seq → (s.sinfos t).iLast = 0
    else ∀ w ∈ s.adds a, w.getLast? ≠ some (-1)))

/-- Both sequences learn, and a draft of the second is rejected. -/
theorem learned_of_reaches_rejected :
    ∃ s : ModRun 2, (s.sinfos 0).iLast = 1 ∧ (s.sinfos 1).nLow = 1 ∧ s.Learned ∧
      ∀ a s', s.Grows a → s.step ⟨1, 0⟩ a = some s' → (s'.Learned ↔ s.KeepsRecord a) := by
  obtain ⟨s, hs, hread⟩ := exists_reached_of_admitted (step ⟨1, 0⟩)
    (fun (s : ModRun 2) a => s.Grows a ∧ s.KeepsRecord a) (start 1)
    [.begin 0 [1, 2], .begin 1 [1, 2], .draft 1 ⟨true, -1, 1, some [1, 2], true⟩, .accept 1 0]
    (fun s => decide ((s.sinfos 0).iLast = 1 ∧ (s.sinfos 1).nLow = 1)) (v := true)
    (by decide +kernel)
  obtain ⟨hlast, hlow⟩ := of_decide_eq_true hread
  exact ⟨s, hlast, hlow, learned_of_reaches hs⟩

local instance neZero_two : NeZero 2 := ⟨two_ne_zero⟩

/-- One sequence has learned that `2` follows `1`, and the drafts of the other one are rejected. -/
def rejectedDrafts : List (ModCall 2) :=
  [.begin 0 [1, 2], .begin 1 [3]] ++
    (List.replicate 5 [.draft 1 ⟨true, -1, 1, some [3], true⟩, .accept 1 0]).flatten

/-- The fifth rejected draft of the second sequence resets the table, and the first one takes its
history for learned. -/
theorem not_learned :
    ¬ ∀ (params : ModParams) (s : ModRun 2), Reaches (step params) Grows (start 1) s →
      s.Learned := by
  intro h
  obtain ⟨s, hs, hread⟩ := exists_reached_of_admitted (step ⟨1, 0⟩) Grows (start 1) rejectedDrafts
    (fun s => decide ((s.sinfos 0).iLast = 1 ∧ s.added = [])) (v := true) (by decide +kernel)
  obtain ⟨hlast, hadded⟩ := of_decide_eq_true hread
  have hpos : 0 < (s.sinfos 0).iLast := by rw [hlast]; exact Nat.one_pos
  have hmem := ((h ⟨1, 0⟩ s hs).added 0 _ List.prefix_rfl 0 hpos).2
  rw [hadded] at hmem
  exact List.not_mem_nil hmem

end ModRun

end IFairy.Speculative
