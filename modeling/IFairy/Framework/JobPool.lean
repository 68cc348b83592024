import Mathlib.Algebra.Order.BigOperators.Group.Finset
import Mathlib.Data.Fintype.BigOperators
import Mathlib.Tactic.Abel

/-!
# Pools of workers that draw numbered jobs

`nth` workers repeat: draw a job number, perform the job's writes one at a time, draw again; a
worker stops when its draw returns no job.  Nothing is assumed about the order in which the
workers move: a step is one draw or one write of any worker.

A `Dispenser` says how numbers are drawn (one shared counter, one private counter per worker) and
a `Dispenser.Law` is the bookkeeping that makes it a work distribution: no job is handed out
twice, and when every worker has been refused every job has been handed out.  From the law alone:

* `PoolStep.measure_lt`: every step makes progress, so every run ends;
* `Reachable.log_le`: at any time the writes performed are among the writes of all jobs;
* `Reachable.log_eq`: when all workers have stopped they are exactly those, each as often as the
  jobs contain it.
-/

namespace IFairy

/-- How `nth` workers draw job numbers from a shared state. -/
structure Dispenser (nth : ℕ) (σ : Type*) where
  init : σ
  draw : Fin nth → σ → Option ℕ × σ

/-- A worker between draws, inside a job with the writes still to do, or out of its loop. -/
inductive Worker (W : Type*)
  | ready
  | running (rest : List W)
  | stopped

/-- The writes a worker still has to perform. -/
def Worker.pending {W : Type*} : Worker W → Multiset W
  | .running rest => rest
  | _ => 0

@[simp] lemma Worker.pending_ready {W : Type*} : (Worker.ready : Worker W).pending = 0 := rfl

@[simp] lemma Worker.pending_stopped {W : Type*} : (Worker.stopped : Worker W).pending = 0 := rfl

@[simp] lemma Worker.pending_running {W : Type*} (rest : List W) :
    (Worker.running rest).pending = rest := rfl

/-- A pool: the dispenser's state, the workers, and the writes performed so far. -/
structure PoolState (nth : ℕ) (σ W : Type*) where
  counter : σ
  worker : Fin nth → Worker W
  log : List W

namespace Dispenser

variable {nth : ℕ} {σ W : Type*}

/-- All workers are about to draw. -/
def start (d : Dispenser nth σ) : PoolState nth σ W := ⟨d.init, fun _ => .ready, []⟩

/-- What makes a dispenser a distribution of the jobs `0, …, jobs - 1`. -/
structure Law (d : Dispenser nth σ) (jobs : ℕ) where
  /-- Holds of every state the dispenser passes through. -/
  Valid : σ → Prop
  /-- The jobs handed out so far. -/
  handed : σ → Finset ℕ
  /-- The worker has been refused. -/
  Refused : σ → Fin nth → Prop
  valid_init : Valid d.init
  handed_init : handed d.init = ∅
  valid_draw : ∀ {s t}, Valid s → Valid (d.draw t s).2
  draw_some : ∀ {s t j s'}, Valid s → d.draw t s = (some j, s') →
    j < jobs ∧ j ∉ handed s ∧ handed s' = insert j (handed s)
  draw_none : ∀ {s t s'}, Valid s → d.draw t s = (none, s') → handed s' = handed s ∧ Refused s' t
  refused_draw : ∀ {s t u}, Valid s → Refused s u → Refused (d.draw t s).2 u
  complete : ∀ {s}, Valid s → (∀ t, Refused s t) → handed s = Finset.range jobs

end Dispenser

section Pool

variable {nth : ℕ} {σ W : Type*} (d : Dispenser nth σ) (body : ℕ → List W)

/-- Worker `t` becomes `w`, the counter `c`, and `written` is added to the log. -/
def PoolState.move (s : PoolState nth σ W) (t : Fin nth) (w : Worker W) (c : σ)
    (written : List W) : PoolState nth σ W :=
  ⟨c, Function.update s.worker t w, s.log ++ written⟩

@[simp] lemma PoolState.counter_move (s : PoolState nth σ W) (t : Fin nth) (w : Worker W) (c : σ)
    (written : List W) : (s.move t w c written).counter = c := rfl

@[simp] lemma PoolState.log_move (s : PoolState nth σ W) (t : Fin nth) (w : Worker W) (c : σ)
    (written : List W) : (s.move t w c written).log = s.log ++ written := rfl

@[simp] lemma PoolState.worker_move (s : PoolState nth σ W) (t : Fin nth) (w : Worker W) (c : σ)
    (written : List W) : (s.move t w c written).worker = Function.update s.worker t w := rfl

/-- One move of one worker. -/
inductive PoolStep (s : PoolState nth σ W) : PoolState nth σ W → Prop
  | draw {t : Fin nth} {j : ℕ} {c : σ} (ht : s.worker t = .ready)
      (hd : d.draw t s.counter = (some j, c)) : PoolStep s (s.move t (.running (body j)) c [])
  | stop {t : Fin nth} {c : σ} (ht : s.worker t = .ready)
      (hd : d.draw t s.counter = (none, c)) : PoolStep s (s.move t .stopped c [])
  | write {t : Fin nth} {w : W} {rest : List W} (ht : s.worker t = .running (w :: rest)) :
      PoolStep s (s.move t (.running rest) s.counter [w])
  | finish {t : Fin nth} (ht : s.worker t = .running []) :
      PoolStep s (s.move t .ready s.counter [])

def PoolReachable (s : PoolState nth σ W) : Prop :=
  Relation.ReflTransGen (PoolStep d body) d.start s

lemma poolReachable_start : PoolReachable d body d.start := .refl

/-- All workers have left their loop. -/
def PoolState.Done (s : PoolState nth σ W) : Prop := ∀ t, s.worker t = .stopped

/-- The writes that workers still have to perform. -/
def PoolState.pending (s : PoolState nth σ W) : Multiset W := ∑ t, (s.worker t).pending

lemma sum_worker_move {M : Type*} [AddCommMonoid M] (f : Worker W → M) (s : PoolState nth σ W)
    (t : Fin nth) (w : Worker W) (c : σ) (written : List W) :
    ∑ u, f ((s.move t w c written).worker u) + f (s.worker t) =
      ∑ u, f (s.worker u) + f w := by
  have hrest : ∀ v : Fin nth → Worker W,
      ∑ u, f (v u) = f (v t) + ∑ u ∈ Finset.univ.erase t, f (v u) := fun v =>
    (Finset.add_sum_erase _ _ (Finset.mem_univ t)).symm
  have hsame : ∑ u ∈ Finset.univ.erase t, f (Function.update s.worker t w u) =
      ∑ u ∈ Finset.univ.erase t, f (s.worker u) :=
    Finset.sum_congr rfl fun u hu => by rw [Function.update_of_ne (Finset.ne_of_mem_erase hu)]
  rw [PoolState.worker_move, hrest, hrest s.worker, hsame, Function.update_self]
  abel

variable {d body} {jobs : ℕ} (law : d.Law jobs)

/-- What every step keeps: performed and pending writes are those of the jobs handed out. -/
structure PoolInv (body : ℕ → List W) (s : PoolState nth σ W) : Prop where
  valid : law.Valid s.counter
  refused : ∀ t, s.worker t = .stopped → law.Refused s.counter t
  writes : (s.log : Multiset W) + s.pending = ∑ j ∈ law.handed s.counter, (body j : Multiset W)

lemma poolInv_start : PoolInv law body (d.start (W := W)) where
  valid := law.valid_init
  refused := fun t ht => nomatch ht
  writes := by simp [Dispenser.start, PoolState.pending, Worker.pending, law.handed_init]

lemma refused_move {s : PoolState nth σ W} {t : Fin nth} {w : Worker W} {c : σ}
    {written : List W} (hw : w = .stopped → law.Refused c t)
    (hkeep : ∀ u, law.Refused s.counter u → law.Refused c u)
    (hs : ∀ u, s.worker u = .stopped → law.Refused s.counter u) (u : Fin nth)
    (hu : (s.move t w c written).worker u = .stopped) : law.Refused c u := by
  by_cases hut : u = t
  · subst hut
    exact hw (by simpa [PoolState.move] using hu)
  · exact hkeep u (hs u (by simpa [PoolState.move, hut] using hu))

lemma poolInv_step {s s' : PoolState nth σ W} (hs : PoolInv law body s)
    (hstep : PoolStep d body s s') : PoolInv law body s' := by
  obtain ⟨hvalid, hrefused, hwrites⟩ := hs
  cases hstep with
  | @draw t j c ht hd =>
    obtain ⟨-, hnew, hhanded⟩ := law.draw_some hvalid hd
    have hc : (d.draw t s.counter).2 = c := by rw [hd]
    have hpending := sum_worker_move Worker.pending s t (.running (body j)) c []
    rw [ht, Worker.pending_ready, add_zero, Worker.pending_running] at hpending
    refine ⟨hc ▸ law.valid_draw hvalid, refused_move law (fun h => nomatch h)
      (fun u hu => hc ▸ law.refused_draw hvalid hu) hrefused, ?_⟩
    rw [PoolState.counter_move, PoolState.log_move, hhanded, Finset.sum_insert hnew, ← hwrites, PoolState.pending, hpending, List.append_nil,
      PoolState.pending]
    abel
  | @stop t c ht hd =>
    obtain ⟨hhanded, hrefusedt⟩ := law.draw_none hvalid hd
    have hc : (d.draw t s.counter).2 = c := by rw [hd]
    have hpending := sum_worker_move Worker.pending s t .stopped c []
    rw [ht, Worker.pending_ready, add_zero, Worker.pending_stopped, add_zero] at hpending
    refine ⟨hc ▸ law.valid_draw hvalid, refused_move law (fun _ => hrefusedt)
      (fun u hu => hc ▸ law.refused_draw hvalid hu) hrefused, ?_⟩
    rw [PoolState.counter_move, PoolState.log_move, hhanded, ← hwrites, PoolState.pending, hpending, List.append_nil, PoolState.pending]
  | @write t w rest ht =>
    have hpending := sum_worker_move Worker.pending s t (.running rest) s.counter [w]
    have hcons : ((w :: rest : List W) : Multiset W) = {w} + (rest : Multiset W) := rfl
    rw [ht, Worker.pending_running, Worker.pending_running, hcons, ← add_assoc] at hpending
    have hcancel := add_right_cancel hpending
    refine ⟨hvalid, refused_move law (fun h => nomatch h) (fun _ hu => hu) hrefused, ?_⟩
    rw [PoolState.counter_move, PoolState.log_move, ← hwrites, PoolState.pending, PoolState.pending, ← hcancel, ← Multiset.coe_add,
      Multiset.coe_singleton]
    abel
  | @finish t ht =>
    have hpending := sum_worker_move Worker.pending s t .ready s.counter []
    rw [ht, Worker.pending_running, Multiset.coe_nil, add_zero, Worker.pending_ready,
      add_zero] at hpending
    refine ⟨hvalid, refused_move law (fun h => nomatch h) (fun _ hu => hu) hrefused, ?_⟩
    rw [PoolState.counter_move, PoolState.log_move, ← hwrites, PoolState.pending, hpending, List.append_nil, PoolState.pending]

lemma PoolReachable.inv {s : PoolState nth σ W} (h : PoolReachable d body s) :
    PoolInv law body s := by
  induction h with
  | refl => exact poolInv_start law
  | tail _ hstep ih => exact poolInv_step law ih hstep

/-! ## The writes of a run -/

lemma handed_subset {s : PoolState nth σ W} (h : PoolReachable d body s) :
    law.handed s.counter ⊆ Finset.range jobs := by
  induction h with
  | refl => simp [Dispenser.start, law.handed_init]
  | tail hreach hstep ih =>
    have hvalid := (PoolReachable.inv law hreach).valid
    cases hstep with
    | draw ht hd =>
      obtain ⟨hj, -, hhanded⟩ := law.draw_some hvalid hd
      rw [PoolState.counter_move, hhanded]
      exact Finset.insert_subset (Finset.mem_range.mpr hj) ih
    | stop ht hd =>
      rw [PoolState.counter_move, (law.draw_none hvalid hd).1]
      exact ih
    | write ht => exact ih
    | finish ht => exact ih

include law in
theorem PoolReachable.log_le {s : PoolState nth σ W} (h : PoolReachable d body s) :
    (s.log : Multiset W) ≤ ∑ j ∈ Finset.range jobs, (body j : Multiset W) := by
  calc (s.log : Multiset W) ≤ s.log + s.pending := Multiset.le_add_right _ _
    _ = ∑ j ∈ law.handed s.counter, (body j : Multiset W) := (PoolReachable.inv law h).writes
    _ ≤ ∑ j ∈ Finset.range jobs, (body j : Multiset W) :=
      Finset.sum_le_sum_of_subset (handed_subset law h)

include law in
/-- When all workers have stopped, the writes performed are those of the jobs. -/
theorem PoolReachable.log_eq {s : PoolState nth σ W} (h : PoolReachable d body s)
    (hdone : s.Done) : (s.log : Multiset W) = ∑ j ∈ Finset.range jobs, (body j : Multiset W) := by
  obtain ⟨hvalid, hrefused, hwrites⟩ := PoolReachable.inv law h
  have hpending : s.pending = 0 := Finset.sum_eq_zero fun t _ => by
    rw [hdone t, Worker.pending_stopped]
  rw [← law.complete hvalid fun t => hrefused t (hdone t), ← hwrites, hpending, add_zero]

/-! ## Every run ends -/

/-- Steps left to a worker outside the draws it still makes. -/
def Worker.weight : Worker W → ℕ
  | .ready => 1
  | .running rest => rest.length + 2
  | .stopped => 0

def poolMeasure (law : d.Law jobs) (body : ℕ → List W) (s : PoolState nth σ W) : ℕ :=
  ∑ j ∈ Finset.range jobs \ law.handed s.counter, ((body j).length + 2) +
    ∑ t, (s.worker t).weight

lemma PoolStep.measure_lt {s s' : PoolState nth σ W} (h : PoolReachable d body s)
    (hstep : PoolStep d body s s') : poolMeasure law body s' < poolMeasure law body s := by
  have hvalid := (PoolReachable.inv law h).valid
  cases hstep with
  | @draw t j c ht hd =>
    obtain ⟨hj, hnew, hhanded⟩ := law.draw_some hvalid hd
    have hmem : j ∈ Finset.range jobs \ law.handed s.counter :=
      Finset.mem_sdiff.mpr ⟨Finset.mem_range.mpr hj, hnew⟩
    have hsum := Finset.add_sum_erase _ (fun i => (body i).length + 2) hmem
    have hweight := sum_worker_move Worker.weight s t (.running (body j)) c []
    rw [ht, Worker.weight, Worker.weight] at hweight
    change ∑ i ∈ Finset.range jobs \ law.handed c, ((body i).length + 2) + _ < _
    rw [hhanded, Finset.sdiff_insert, poolMeasure]
    omega
  | @stop t c ht hd =>
    have hweight := sum_worker_move Worker.weight s t .stopped c []
    rw [ht, Worker.weight, Worker.weight] at hweight
    change ∑ i ∈ Finset.range jobs \ law.handed c, ((body i).length + 2) + _ < _
    rw [(law.draw_none hvalid hd).1, poolMeasure]
    omega
  | @write t w rest ht =>
    have hweight := sum_worker_move Worker.weight s t (.running rest) s.counter [w]
    rw [ht, Worker.weight, Worker.weight, List.length_cons] at hweight
    change ∑ i ∈ Finset.range jobs \ law.handed s.counter, ((body i).length + 2) + _ < _
    rw [poolMeasure]
    omega
  | @finish t ht =>
    have hweight := sum_worker_move Worker.weight s t .ready s.counter []
    rw [ht, Worker.weight, Worker.weight, List.length_nil] at hweight
    change ∑ i ∈ Finset.range jobs \ law.handed s.counter, ((body i).length + 2) + _ < _
    rw [poolMeasure]
    omega

lemma exists_poolStep_of_worker {s : PoolState nth σ W} {t : Fin nth} (ht : s.worker t ≠ .stopped) :
    ∃ s', PoolStep d body s s' ∧ ∀ u, s'.worker u ≠ s.worker u → u = t := by
  have honly : ∀ w c written u, (s.move t w c written).worker u ≠ s.worker u → u = t := by
    intro w c written u hu
    by_contra hne
    exact hu (by rw [PoolState.worker_move, Function.update_of_ne hne])
  cases hworker : s.worker t with
  | ready =>
    rcases hdraw : d.draw t s.counter with ⟨_ | j, c⟩
    · exact ⟨_, .stop hworker hdraw, honly _ _ _⟩
    · exact ⟨_, .draw hworker hdraw, honly _ _ _⟩
  | running rest =>
    cases rest with
    | nil => exact ⟨_, .finish hworker, honly _ _ _⟩
    | cons w rest => exact ⟨_, .write hworker, honly _ _ _⟩
  | stopped => exact absurd hworker ht

lemma exists_poolStep {s : PoolState nth σ W} (hdone : ¬ s.Done) : ∃ s', PoolStep d body s s' := by
  obtain ⟨t, ht⟩ := not_forall.mp hdone
  obtain ⟨s', hstep, -⟩ := exists_poolStep_of_worker (d := d) ht
  exact ⟨s', hstep⟩

include law in
/-- From every state of every run the pool can only go on to a state where all have stopped. -/
theorem PoolReachable.exists_done {s : PoolState nth σ W} (h : PoolReachable d body s) :
    ∃ s', Relation.ReflTransGen (PoolStep d body) s s' ∧ s'.Done := by
  induction hn : poolMeasure law body s using Nat.strong_induction_on generalizing s with
  | _ n ih =>
    by_cases hdone : s.Done
    · exact ⟨s, .refl, hdone⟩
    · obtain ⟨s', hstep⟩ : ∃ s', PoolStep d body s s' := exists_poolStep hdone
      obtain ⟨s'', hrun, hdone''⟩ :=
        ih _ (hn ▸ hstep.measure_lt law h) (h.tail hstep) rfl
      exact ⟨s'', .head hstep hrun, hdone''⟩

lemma log_prefix_of_steps {s s' : PoolState nth σ W}
    (h : Relation.ReflTransGen (PoolStep d body) s s') : s.log <+: s'.log := by
  induction h with
  | refl => exact List.prefix_rfl
  | tail _ hstep ih =>
    refine ih.trans ?_
    cases hstep <;> exact List.prefix_append _ _

lemma sum_range_coe_eq_flatMap (body : ℕ → List W) (n : ℕ) :
    ∑ j ∈ Finset.range n, (body j : Multiset W) = ((List.range n).flatMap body : List W) := by
  induction n with
  | zero => rfl
  | succ n ih =>
    rw [Finset.sum_range_succ, ih, List.range_succ, List.flatMap_append, ← Multiset.coe_add,
      List.flatMap_singleton]

end Pool

end IFairy
