import IFairy.Framework.Runs
import IFairy.Sampling.Candidates
import Mathlib.Data.List.Count

/-!
# The penalties sampler

The sampler counts the tokens of a window, the last ones that it accepted, and keeps the window in
a ring buffer.  In every run of accepts, resets and clones the counts are those of the window, and
a clone is as good as the original, as long as only samplers with an empty window are cloned
(`window_right`): a clone takes over the window, but not the counts (`not_window_right`).
-/

namespace IFairy.Sampling

/-! ## The sampler -/

/-- `llama_sampler_penalties`; `token_count` is a function to the counts that the map has. -/
structure Penalties (F : Type) where
  penaltyLastN : ℕ
  penaltyRepeat : F
  penaltyFreq : F
  penaltyPresent : F
  prev : RingBuffer LlamaToken
  tokenCount : LlamaToken → Option ℤ

namespace Penalties

variable {F : Type}

/-- `llama_sampler_init_penalties`. -/
def init (penaltyLastN : ℤ) (penaltyRepeat penaltyFreq penaltyPresent : F) : Penalties F where
  penaltyLastN := penaltyLastN.toNat
  penaltyRepeat := penaltyRepeat
  penaltyFreq := penaltyFreq
  penaltyPresent := penaltyPresent
  prev := .ofCapacity penaltyLastN.toNat
  tokenCount := fun _ => none

/-- `token_count[token]++`. -/
def inc (tokenCount : LlamaToken → Option ℤ) (token : LlamaToken) : LlamaToken → Option ℤ :=
  Function.update tokenCount token (some ((tokenCount token).getD 0 + 1))

/-- `token_count[old]--`, and the token is erased at zero. -/
def dec (tokenCount : LlamaToken → Option ℤ) (old : LlamaToken) : LlamaToken → Option ℤ :=
  let count := (tokenCount old).getD 0 - 1
  Function.update tokenCount old (if count = 0 then none else some count)

/-- `llama_sampler_penalties_accept`. -/
def accept (s : Penalties F) (token : LlamaToken) : Option (Penalties F) :=
  if s.penaltyLastN = 0 then some s
  else
    let tokenCount := inc s.tokenCount token
    (if s.penaltyLastN ≤ s.prev.sz then s.prev.front.map (dec tokenCount)
      else some tokenCount).bind fun tokenCount =>
        (s.prev.pushBack token).map fun prev => { s with prev, tokenCount }

/-- `llama_sampler_penalties_reset`. -/
def reset (s : Penalties F) : Penalties F :=
  { s with prev := s.prev.clear, tokenCount := fun _ => none }

/-- `llama_sampler_penalties_clone`. -/
def clone (s : Penalties F) : Penalties F :=
  let result := init s.penaltyLastN s.penaltyRepeat s.penaltyFreq s.penaltyPresent
  { result with prev := s.prev }

section Apply

variable [Mul F] [Div F] [Sub F] [Add F] [Zero F] [One F] [IntCast F] [BEq F] [LE F] [DecidableLE F]

/-- The logit of a token that occurs so often. -/
def penalize (s : Penalties F) (count : ℤ) (logit : F) : F :=
  let logit := if logit ≤ 0 then logit * s.penaltyRepeat else logit / s.penaltyRepeat
  logit - ((count : F) * s.penaltyFreq + (if 0 < count then 1 else 0) * s.penaltyPresent)

def isNeutral (s : Penalties F) : Bool :=
  s.penaltyLastN == 0 || s.penaltyRepeat == 1 && s.penaltyFreq == 0 && s.penaltyPresent == 0

/-- `llama_sampler_penalties_apply`. -/
def apply (s : Penalties F) (cur : TokenDataArray F) : TokenDataArray F :=
  if s.isNeutral then cur
  else
    { data := cur.data.map fun c => (s.tokenCount c.id).elim c fun count =>
        { c with logit := s.penalize count c.logit }
      sorted := false }

end Apply

/-! ## The window -/

/-- A map with the counts of a list. -/
def countsOf (l : List LlamaToken) (t : LlamaToken) : Option ℤ :=
  if l.count t = 0 then none else some (l.count t)

/-- The window has the last tokens that were accepted, and their counts. -/
structure Right (s : Penalties F) (accepted : List LlamaToken) : Prop where
  prev : s.prev.toVector = accepted.drop (accepted.length - s.penaltyLastN)
  tokenCount : s.tokenCount = countsOf s.prev.toVector

/-- The ring buffer has room for the window. -/
structure Fits (s : Penalties F) : Prop where
  valid : s.prev.Valid
  capacity : s.prev.capacity = s.penaltyLastN

variable {s s' : Penalties F} {accepted : List LlamaToken}

lemma getD_countsOf (l : List LlamaToken) (t : LlamaToken) : (countsOf l t).getD 0 = l.count t := by
  rw [countsOf]
  split_ifs with h
  · rw [h]
    rfl
  · rfl

lemma inc_countsOf (l : List LlamaToken) (t : LlamaToken) :
    inc (countsOf l) t = countsOf (l ++ [t]) := by
  funext u
  rw [inc, getD_countsOf, countsOf, List.count_append]
  by_cases hu : u = t
  · subst hu
    rw [Function.update_self, List.count_singleton_self, if_neg (Nat.succ_ne_zero _)]
    rfl
  · have hnot : ¬ (t == u) = true := fun heq => hu (beq_iff_eq.1 heq).symm
    rw [Function.update_of_ne hu, List.count_singleton, if_neg hnot, Nat.add_zero]
    rfl

lemma dec_countsOf (l : List LlamaToken) (t : LlamaToken) :
    dec (countsOf (t :: l)) t = countsOf l := by
  funext u
  rw [dec, getD_countsOf]
  by_cases hu : u = t
  · subst hu
    have hcast : ((l.count u + 1 : ℕ) : ℤ) - 1 = l.count u := by omega
    rw [Function.update_self, List.count_cons_self, hcast, countsOf]
    exact if_congr Int.natCast_eq_zero rfl rfl
  · rw [Function.update_of_ne hu, countsOf, countsOf, List.count_cons_of_ne (Ne.symm hu)]

lemma init_right (penaltyLastN : ℤ) (r f p : F) :
    (init penaltyLastN r f p).Right [] ∧ (init penaltyLastN r f p).Fits :=
  ⟨⟨List.drop_nil.symm, rfl⟩, RingBuffer.valid_ofCapacity _, rfl⟩

lemma reset_right (h : s.Fits) : s.reset.Right [] ∧ s.reset.Fits :=
  ⟨⟨List.drop_nil.symm, rfl⟩, RingBuffer.valid_clear _, h.capacity⟩

lemma accept_right (h : s.Right accepted) (hfits : s.Fits) (token : LlamaToken) :
    ∃ s', s.accept token = some s' ∧ s'.Right (accepted ++ [token]) ∧ s'.Fits := by
  have hprev := h.prev
  have hsz : s.prev.sz = accepted.length - (accepted.length - s.penaltyLastN) := by
    rw [← RingBuffer.length_toVector, hprev, List.length_drop]
  rw [accept]
  by_cases hzero : s.penaltyLastN = 0
  · rw [if_pos hzero]
    refine ⟨s, rfl, ⟨?_, h.tokenCount⟩, hfits⟩
    rw [hprev, hzero, Nat.sub_zero, Nat.sub_zero, List.drop_length, List.drop_length]
  have hcap : 0 < s.prev.capacity := by
    rw [hfits.capacity]
    exact Nat.pos_of_ne_zero hzero
  obtain ⟨prev, hpush, hvalid, hcapacity, hvector⟩ := hfits.valid.pushBack hcap token
  rw [if_neg hzero, h.tokenCount, inc_countsOf, hpush]
  rw [hfits.capacity] at hvector hcapacity
  dsimp only
  -- the window with the new token, and without the oldest one where it was full
  have hwindow : prev.toVector =
      (accepted ++ [token]).drop ((accepted ++ [token]).length - s.penaltyLastN) := by
    rw [hvector, hprev, ← List.drop_append_of_le_length (Nat.sub_le _ _), List.drop_drop,
      List.length_append, List.length_singleton]
    congr 1
    omega
  by_cases hfull : s.penaltyLastN ≤ s.prev.sz
  · obtain ⟨old, rest, hold⟩ : ∃ old rest, s.prev.toVector = old :: rest :=
      List.exists_cons_of_length_pos (by rw [RingBuffer.length_toVector]; omega)
    have hfront : s.prev.front = some old := by
      rw [hfits.valid.front_eq (by omega), hold]
      rfl
    have hrest : prev.toVector = rest ++ [token] := by
      rw [hvector, hold, show s.prev.sz + 1 - s.penaltyLastN = 1 by omega]
      rfl
    rw [if_pos hfull, hfront, hold]
    refine ⟨_, rfl, ⟨hwindow, ?_⟩, hvalid, hcapacity⟩
    dsimp only
    rw [hrest]
    exact dec_countsOf _ _
  · have hall : prev.toVector = s.prev.toVector ++ [token] := by
      rw [hvector, show s.prev.sz + 1 - s.penaltyLastN = 0 by omega, List.drop_zero]
    rw [if_neg hfull]
    refine ⟨_, rfl, ⟨hwindow, ?_⟩, hvalid, hcapacity⟩
    dsimp only
    rw [hall]

lemma clone_right (h : s.Right accepted) :
    (s.clone.Right accepted ↔ s.prev.toVector = []) ∧ (s.prev.toVector = [] → s.clone = s) := by
  have hclone : s.prev.toVector = [] → s.clone = s := fun hempty => by
    have hcount : s.tokenCount = fun _ => none := by
      rw [h.tokenCount, hempty]
      rfl
    rw [clone, init, Int.toNat_natCast, ← hcount]
  refine ⟨⟨fun hright => ?_, fun hempty => (hclone hempty).symm ▸ h⟩, hclone⟩
  by_contra hne
  obtain ⟨t, ht⟩ := List.exists_mem_of_ne_nil _ hne
  have hcount := congrFun hright.tokenCount t
  have hpos : s.prev.toVector.count t ≠ 0 := (List.count_pos_iff.2 ht).ne'
  rw [show s.clone.prev = s.prev from rfl, countsOf, if_neg hpos] at hcount
  cases hcount

section Apply

variable [Mul F] [Div F] [Sub F] [Add F] [Zero F] [One F] [IntCast F] [BEq F] [LE F] [DecidableLE F]

lemma Right.apply_eq (h : s.Right accepted) (cur : TokenDataArray F) :
    s.apply cur = if s.isNeutral then cur else
      { data := cur.data.map fun c =>
          if s.prev.toVector.count c.id = 0 then c
          else { c with logit := s.penalize (s.prev.toVector.count c.id) c.logit }
        sorted := false } := by
  rw [apply]
  refine if_congr Iff.rfl rfl ?_
  congr 1
  refine List.map_congr_left fun c _ => ?_
  rw [h.tokenCount, countsOf]
  split_ifs <;> rfl

end Apply

end Penalties

/-! ## Runs -/

/-- What is done with the samplers. -/
inductive PenaltiesCall (F : Type)
  | init (penaltyLastN : ℤ) (penaltyRepeat penaltyFreq penaltyPresent : F)
  | accept (i : ℕ) (token : LlamaToken)
  | reset (i : ℕ)
  | clone (i : ℕ)

/-- A sampler, and the tokens that it has accepted since its last reset. -/
structure Recorded (F : Type) where
  sampler : Penalties F
  accepted : List LlamaToken

namespace Recorded

variable {F : Type}

/-- A step of a run; nothing is done with a sampler that there is not. -/
def step (run : List (Recorded F)) : PenaltiesCall F → Option (List (Recorded F))
  | .init n r f p => some (run ++ [⟨.init n r f p, []⟩])
  | .accept i token => run[i]?.bind fun x =>
    (x.sampler.accept token).map fun sampler => run.set i ⟨sampler, x.accepted ++ [token]⟩
  | .reset i => run[i]?.map fun x => run.set i ⟨x.sampler.reset, []⟩
  | .clone i => run[i]?.map fun x => run ++ [⟨x.sampler.clone, x.accepted⟩]

/-- Only a sampler with an empty window is cloned. -/
def ClonesEmpty (run : List (Recorded F)) : PenaltiesCall F → Prop
  | .clone i => ∀ x, run[i]? = some x → x.sampler.prev.toVector = []
  | _ => True

/-- What holds of every sampler. -/
structure AllRight (run : List (Recorded F)) : Prop where
  right : ∀ x ∈ run, x.sampler.Right x.accepted ∧ x.sampler.Fits

lemma allRight_nil : AllRight ([] : List (Recorded F)) := ⟨fun _ hx => absurd hx List.not_mem_nil⟩

variable {run run' : List (Recorded F)} {x : Recorded F}

lemma AllRight.append (h : AllRight run) (hx : x.sampler.Right x.accepted ∧ x.sampler.Fits) :
    AllRight (run ++ [x]) where
  right y hy := by
    rcases List.mem_append.1 hy with hold | hnew
    · exact h.right y hold
    · rw [List.mem_singleton.1 hnew]
      exact hx

lemma AllRight.set (h : AllRight run) (i : ℕ)
    (hx : x.sampler.Right x.accepted ∧ x.sampler.Fits) : AllRight (run.set i x) where
  right y hy := by
    rcases List.mem_or_eq_of_mem_set hy with hold | rfl
    · exact h.right y hold
    · exact hx

lemma AllRight.step (h : AllRight run) {a : PenaltiesCall F} (hok : ClonesEmpty run a)
    (hstep : step run a = some run') : AllRight run' := by
  cases a with
  | init n r f p =>
    obtain rfl := Option.some.inj hstep
    exact h.append (Penalties.init_right n r f p)
  | accept i token =>
    obtain ⟨x, hx, hstep⟩ := Option.bind_eq_some_iff.1 hstep
    obtain ⟨hright, hfits⟩ := h.right x (List.mem_of_getElem? hx)
    obtain ⟨sampler, haccept, hright', hfits'⟩ := Penalties.accept_right hright hfits token
    rw [haccept] at hstep
    obtain rfl := Option.some.inj hstep
    exact h.set i ⟨hright', hfits'⟩
  | reset i =>
    obtain ⟨x, hx, rfl⟩ := Option.map_eq_some_iff.1 hstep
    exact h.set i (Penalties.reset_right (h.right x (List.mem_of_getElem? hx)).2)
  | clone i =>
    obtain ⟨x, hx, rfl⟩ := Option.map_eq_some_iff.1 hstep
    obtain ⟨hright, hfits⟩ := h.right x (List.mem_of_getElem? hx)
    have hclone := (Penalties.clone_right hright).2 (hok x hx)
    exact h.append (x := ⟨x.sampler.clone, x.accepted⟩) (by rw [hclone]; exact ⟨hright, hfits⟩)

section

variable [Mul F] [Div F] [Sub F] [Add F] [Zero F] [One F] [IntCast F] [BEq F] [LE F] [DecidableLE F]

/-- In every run that clones only samplers with an empty window, each sampler has the window of the
last accepted tokens and their counts, accepts without an exception and penalises by these counts.
A clone then has the right counts only of a sampler with an empty window, and is the same as that
sampler. -/
theorem window_right (h : Reaches step ClonesEmpty ([] : List (Recorded F)) run) :
    ∀ x ∈ run, x.sampler.Right x.accepted ∧ (∀ token, (x.sampler.accept token).isSome) ∧
      (∀ cur, x.sampler.apply cur = if x.sampler.isNeutral then cur else
        { data := cur.data.map fun c =>
            if x.sampler.prev.toVector.count c.id = 0 then c
            else { c with
              logit := x.sampler.penalize (x.sampler.prev.toVector.count c.id) c.logit }
          sorted := false }) ∧
      (x.sampler.clone.Right x.accepted ↔ x.sampler.prev.toVector = []) ∧
      (x.sampler.prev.toVector = [] → x.sampler.clone = x.sampler) := by
  intro x hx
  obtain ⟨hright, hfits⟩ := (h.invariant allRight_nil fun _ _ _ hall hok hstep =>
    hall.step hok hstep).right x hx
  refine ⟨hright, fun token => ?_, hright.apply_eq, Penalties.clone_right hright⟩
  obtain ⟨s', haccept, -⟩ := Penalties.accept_right hright hfits token
  rw [haccept]
  rfl

end

/-- A sampler that accepts three tokens with a window of two. -/
theorem window_right_wraps : ∃ run : List (Recorded ℤ), ∃ x ∈ run,
    x.accepted = [7, 8, 8] ∧ x.sampler.Right x.accepted := by
  obtain ⟨run, hrun, hvalue⟩ : ∃ run, Reaches step ClonesEmpty ([] : List (Recorded ℤ)) run ∧
      run.map accepted = [[7, 8, 8]] :=
    ⟨_, .snoc (.accept 0 8) (.snoc (.accept 0 8) (.snoc (.accept 0 7)
      (.snoc (.init 2 1 0 0) .start trivial rfl) trivial rfl) trivial rfl) trivial rfl, rfl⟩
  obtain ⟨x, rfl, hx⟩ := List.map_eq_singleton_iff.1 hvalue
  exact ⟨[x], x, List.mem_singleton_self x, hx, (window_right hrun x (List.mem_singleton_self x)).1⟩

/-- A clone of a sampler that has accepted a token has the token in its window and does not count
it. -/
theorem not_window_right : ∃ run : List (Recorded ℤ), Reaches step (fun _ _ => True) [] run ∧
    ∃ x ∈ run, x.accepted = [7] ∧ x.sampler.prev.toVector = [7] ∧
      x.sampler.tokenCount 7 = none ∧ ¬ x.sampler.Right x.accepted := by
  obtain ⟨run, hrun, hvalue⟩ : ∃ run, Reaches step (fun _ _ => True) ([] : List (Recorded ℤ)) run ∧
      run[1]?.map (fun x => (x.accepted, x.sampler.prev.toVector, x.sampler.tokenCount 7)) =
        some ([7], [7], none) :=
    ⟨_, .snoc (.clone 0) (.snoc (.accept 0 7) (.snoc (.init 2 1 0 0) .start trivial rfl) trivial rfl)
      trivial rfl, rfl⟩
  obtain ⟨x, hx, hvalue⟩ := Option.map_eq_some_iff.1 hvalue
  obtain ⟨haccepted, hvalue⟩ := Prod.mk.inj hvalue
  obtain ⟨hprev, hcount⟩ := Prod.mk.inj hvalue
  refine ⟨run, hrun, x, List.mem_of_getElem? hx, haccepted, hprev, hcount, fun hright => ?_⟩
  have hnone := congrFun hright.tokenCount 7
  rw [hcount, hprev] at hnone
  cases hnone

end Recorded

end IFairy.Sampling
