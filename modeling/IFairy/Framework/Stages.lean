import IFairy.Framework.Phases

/-!
# Stages of workers that draw their stores

Between two barriers the workers may draw their stores from a pool, or from several pools that
each of them visits in order.  A stage is the set of orders in which its stores may come about;
when every order holds the same stores and no store reads a target of the stage, the outcome of
the stages is one (`StageRuns.eq_foldl`).  A team of pools is such a stage: each pool of it runs
like a pool of its own (`TeamReachable.pool`).
-/

namespace IFairy

section Stages

variable {L : Type*} {V : L → Type*} {nth : ℕ}

/-- The orders in which the stores between two barriers may be done. -/
abbrev Stage (L : Type*) (V : L → Type*) := Set (List (Store L V))

/-- A stage in which the workers draw jobs from a pool. -/
def Dispenser.stage {σ : Type*} (d : Dispenser nth σ) (body : ℕ → List (Store L V)) : Stage L V :=
  {log | ∃ s, PoolReachable d body s ∧ s.Done ∧ s.log = log}

/-- Stages with barriers between them. -/
inductive StageRuns [DecidableEq L] : List (Stage L V) → (∀ l, V l) → (∀ l, V l) → Prop
  | nil (m : ∀ l, V l) : StageRuns [] m m
  | cons {S : Stage L V} {Ss : List (Stage L V)} {m m' : ∀ l, V l} {log : List (Store L V)}
      (hlog : log ∈ S) (hrest : StageRuns Ss (runStores m log) m') : StageRuns (S :: Ss) m m'

/-- In every order the stage does the stores `all`, each once and none reading another's target. -/
structure Stage.Does (S : Stage L V) (all : List (Store L V)) : Prop where
  nonempty : S.Nonempty
  perm : ∀ log ∈ S, log.Perm all
  nodup : (all.map Store.target).Nodup
  reads : ∀ s ∈ all, s.ReadsOutside (targets all)

theorem StageRuns.eq_foldl [DecidableEq L] {Ss : List (Stage L V)}
    {alls : List (List (Store L V))} (hdoes : List.Forall₂ Stage.Does Ss alls) {m m' : ∀ l, V l}
    (h : StageRuns Ss m m') : m' = alls.foldl runStores m := by
  induction hdoes generalizing m with
  | nil =>
    cases h
    rfl
  | cons hS _ ih =>
    cases h with
    | cons hlog hrest =>
      rw [ih hrest, List.foldl_cons, runStores_perm (hS.perm _ hlog) hS.nodup hS.reads]

theorem exists_stageRuns [DecidableEq L] {Ss : List (Stage L V)}
    {alls : List (List (Store L V))} (hdoes : List.Forall₂ Stage.Does Ss alls) (m : ∀ l, V l) :
    ∃ m', StageRuns Ss m m' := by
  induction hdoes generalizing m with
  | nil => exact ⟨m, .nil m⟩
  | cons hS _ ih =>
    obtain ⟨log, hlog⟩ := hS.nonempty
    obtain ⟨m', hm'⟩ := ih (runStores m log)
    exact ⟨m', .cons hlog hm'⟩

lemma Dispenser.Law.perm_of_mem_stage {σ : Type*} {d : Dispenser nth σ} {jobs : ℕ}
    (law : d.Law jobs) {body : ℕ → List (Store L V)} {log : List (Store L V)}
    (hlog : log ∈ d.stage body) : log.Perm ((List.range jobs).flatMap body) := by
  obtain ⟨s, hs, hdone, rfl⟩ := hlog
  rw [← Multiset.coe_eq_coe, hs.log_eq law hdone, sum_range_coe_eq_flatMap]

lemma Dispenser.Law.stage_nonempty {σ : Type*} {d : Dispenser nth σ} {jobs : ℕ}
    (law : d.Law jobs) (body : ℕ → List (Store L V)) : (d.stage body).Nonempty := by
  obtain ⟨s, hs, hdone⟩ := PoolReachable.exists_done law (poolReachable_start d body)
  exact ⟨s.log, s, hs, hdone, rfl⟩

end Stages

/-! ## Teams of pools -/

section Team

variable {nth n : ℕ} {σ W : Type*}

/-- Pools and the writes that were done in all of them, in the order of time. -/
structure TeamState (nth : ℕ) (σ W : Type*) where
  pool : ℕ → PoolState nth σ W
  log : List W

/-- Pool `a` goes on to `p`. -/
def TeamState.move (s : TeamState nth σ W) (a : ℕ) (p : PoolState nth σ W) : TeamState nth σ W :=
  ⟨Function.update s.pool a p, s.log ++ p.log.drop (s.pool a).log.length⟩

@[simp] lemma TeamState.pool_move (s : TeamState nth σ W) (a : ℕ) (p : PoolState nth σ W) :
    (s.move a p).pool = Function.update s.pool a p := rfl

@[simp] lemma TeamState.log_move (s : TeamState nth σ W) (a : ℕ) (p : PoolState nth σ W) :
    (s.move a p).log = s.log ++ p.log.drop (s.pool a).log.length := rfl

variable (n) (d : ℕ → Dispenser nth σ) (body : ℕ → ℕ → List W)

/-- A worker moves in pool `a` once it has stopped in the pools before. -/
inductive TeamStep (s : TeamState nth σ W) : TeamState nth σ W → Prop
  | move {a : ℕ} {p : PoolState nth σ W} (ha : a < n) (hp : PoolStep (d a) (body a) (s.pool a) p)
      (hturn : ∀ t, p.worker t ≠ (s.pool a).worker t → ∀ b < a, (s.pool b).worker t = .stopped) :
      TeamStep s (s.move a p)

/-- The states of all runs of a team. -/
def TeamReachable (s : TeamState nth σ W) : Prop :=
  Relation.ReflTransGen (TeamStep n d body) ⟨fun a => (d a).start, []⟩ s

/-- All workers have left all pools. -/
def TeamState.Done (s : TeamState nth σ W) : Prop := ∀ a < n, (s.pool a).Done

variable {n d body}

lemma TeamReachable.pool {s : TeamState nth σ W} (h : TeamReachable n d body s) (a : ℕ) :
    PoolReachable (d a) (body a) (s.pool a) := by
  induction h with
  | refl => exact .refl
  | tail _ hstep ih =>
    cases hstep with
    | @move b p _ hp _ =>
      by_cases hab : a = b
      · subst hab
        rw [TeamState.pool_move, Function.update_self]
        exact ih.tail hp
      · rw [TeamState.pool_move, Function.update_of_ne hab]
        exact ih

lemma TeamReachable.log_eq_sum {s : TeamState nth σ W} (h : TeamReachable n d body s) :
    (s.log : Multiset W) = ∑ a ∈ Finset.range n, ((s.pool a).log : Multiset W) := by
  induction h with
  | refl => exact (Finset.sum_eq_zero fun _ _ => rfl).symm
  | @tail s _ _ hstep ih =>
    cases hstep with
    | @move a p ha hp _ =>
      have hmem := Finset.mem_range.2 ha
      have hprefix := log_prefix_of_steps (.single hp)
      have hlog : (p.log : Multiset W) =
          (s.pool a).log + p.log.drop (s.pool a).log.length := by
        rw [Multiset.coe_add, List.prefix_iff_eq_append.1 hprefix]
      have hrest : ∑ b ∈ (Finset.range n).erase a,
          ((Function.update s.pool a p b).log : Multiset W) =
            ∑ b ∈ (Finset.range n).erase a, ((s.pool b).log : Multiset W) :=
        Finset.sum_congr rfl fun b hb => by rw [Function.update_of_ne (Finset.ne_of_mem_erase hb)]
      rw [← Finset.add_sum_erase _ _ hmem] at ih
      rw [TeamState.pool_move, TeamState.log_move, ← Finset.add_sum_erase _ _ hmem, hrest,
        Function.update_self, hlog, ← Multiset.coe_add, ih]
      abel

/-- When all workers are through, the writes are those of the jobs of all pools. -/
theorem TeamReachable.log_perm {jobs : ℕ → ℕ} (law : ∀ a, (d a).Law (jobs a))
    {s : TeamState nth σ W} (h : TeamReachable n d body s) (hdone : s.Done n) :
    s.log.Perm ((List.range n).flatMap fun a => (List.range (jobs a)).flatMap (body a)) := by
  rw [← Multiset.coe_eq_coe, h.log_eq_sum, ← sum_range_coe_eq_flatMap]
  refine Finset.sum_congr rfl fun a ha => ?_
  rw [(h.pool a).log_eq (law a) (hdone a (Finset.mem_range.1 ha)), sum_range_coe_eq_flatMap]

lemma exists_teamStep {s : TeamState nth σ W} (hdone : ¬s.Done n) :
    ∃ s', TeamStep n d body s s' := by
  classical
  simp only [TeamState.Done, PoolState.Done, not_forall] at hdone
  obtain ⟨a, ha, t, ht⟩ := hdone
  -- the worker's next move is in the first pool that it has not left
  have hfirst : ∃ a, (s.pool a).worker t ≠ .stopped := ⟨a, ht⟩
  obtain ⟨p, hp, honly⟩ := exists_poolStep_of_worker (d := d (Nat.find hfirst))
    (Nat.find_spec hfirst)
  refine ⟨_, .move ((Nat.find_min' hfirst ht).trans_lt ha) hp fun u hu b hb => ?_⟩
  rw [honly u hu]
  exact not_not.1 (Nat.find_min hfirst hb)

/-- From every state of every run a team can only go on to a state where all are through. -/
theorem TeamReachable.exists_done {jobs : ℕ → ℕ} (law : ∀ a, (d a).Law (jobs a))
    {s : TeamState nth σ W} (h : TeamReachable n d body s) :
    ∃ s', TeamReachable n d body s' ∧ s'.Done n := by
  induction hm : ∑ a ∈ Finset.range n, poolMeasure (law a) (body a) (s.pool a)
    using Nat.strong_induction_on generalizing s with
  | _ m ih =>
    by_cases hdone : s.Done n
    · exact ⟨s, h, hdone⟩
    · obtain ⟨s', hstep⟩ := exists_teamStep (d := d) hdone
      refine ih _ ?_ (h.tail hstep) rfl
      cases hstep with
      | @move a p ha hp _ =>
        rw [← hm]
        refine Finset.sum_lt_sum (fun b _ => ?_) ⟨a, Finset.mem_range.2 ha, ?_⟩
        · by_cases hab : b = a
          · subst hab
            rw [TeamState.pool_move, Function.update_self]
            exact (hp.measure_lt (law b) (h.pool b)).le
          · rw [TeamState.pool_move, Function.update_of_ne hab]
        · rw [TeamState.pool_move, Function.update_self]
          exact hp.measure_lt (law a) (h.pool a)

end Team

section TeamStage

variable {L : Type*} {V : L → Type*} {nth n : ℕ} {σ : Type*}

/-- A stage in which the workers visit `n` pools in order. -/
def teamStage (n : ℕ) (d : ℕ → Dispenser nth σ) (body : ℕ → ℕ → List (Store L V)) : Stage L V :=
  {log | ∃ s, TeamReachable n d body s ∧ s.Done n ∧ s.log = log}

variable {d : ℕ → Dispenser nth σ} {jobs : ℕ → ℕ} (law : ∀ a, (d a).Law (jobs a))
  {body : ℕ → ℕ → List (Store L V)}

include law in
lemma perm_of_mem_teamStage {log : List (Store L V)} (hlog : log ∈ teamStage n d body) :
    log.Perm ((List.range n).flatMap fun a => (List.range (jobs a)).flatMap (body a)) := by
  obtain ⟨s, hs, hdone, rfl⟩ := hlog
  exact hs.log_perm law hdone

include law in
lemma teamStage_nonempty (n : ℕ) : (teamStage n d body).Nonempty := by
  obtain ⟨s, hs, hdone⟩ := TeamReachable.exists_done law (n := n) .refl
  exact ⟨s.log, s, hs, hdone, rfl⟩

end TeamStage

end IFairy
