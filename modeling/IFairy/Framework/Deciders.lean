import IFairy.Framework.Phases
import Mathlib.Algebra.BigOperators.Fin

/-!
# Workers that decide alone

Workers that share a memory each read what they need of it, take a decision, and do their stores
up to the next barrier by that decision, in any interleaving and with nothing between them that
would hand a decision on.  When no worker stores where the decision is read, all of them decide
alike, whatever the others have stored by then (`DeciderReachable.decision`); when all are through,
the stores done are those of the one decision (`DeciderReachable.log_perm`), and every run gets
there (`DeciderReachable.exists_done`).
-/

namespace IFairy

/-! ## Decision procedures -/

section Probes

variable {L : Type*} {V : L → Type*} {D : Type*}

/-- A decision procedure: it reads places one after the other, then decides. -/
inductive Probe (L : Type*) (V : L → Type*) (D : Type*)
  | decided (d : D)
  | read (l : L) (next : V l → Probe L V D)

def Probe.eval (m : ∀ l, V l) : Probe L V D → D
  | .decided d => d
  | .read l next => (next (m l)).eval m

/-- The number of reads in a memory. -/
def Probe.reads (m : ∀ l, V l) : Probe L V D → ℕ
  | .decided _ => 0
  | .read l next => (next (m l)).reads m + 1

/-- The procedure reads none of the places `T`. -/
inductive Probe.Avoids (T : Set L) : Probe L V D → Prop
  | decided (d : D) : Avoids T (.decided d)
  | read {l : L} {next : V l → Probe L V D} (hl : l ∉ T) (hnext : ∀ v, Avoids T (next v)) :
      Avoids T (.read l next)

end Probes

/-! ## Runs up to the barrier -/

section Deciders

variable {L : Type*} {V : L → Type*} {D : Type*} {nth : ℕ} [DecidableEq L]

/-- A worker: what is left of its decision, or its decision and the stores that are left. -/
inductive Decider (L : Type*) (V : L → Type*) (D : Type*)
  | probing (p : Probe L V D)
  | working (d : D) (rest : List (Store L V))

/-- The memory, the workers, and the stores done so far. -/
structure DeciderState (nth : ℕ) (L : Type*) (V : L → Type*) (D : Type*) where
  mem : ∀ l, V l
  worker : Fin nth → Decider L V D
  log : List (Store L V)

variable (work : ℕ → D → List (Store L V))

/-- A worker reads, decides, or does its next store. -/
inductive DeciderStep (s : DeciderState nth L V D) : DeciderState nth L V D → Prop
  | read {t : Fin nth} {l : L} {next : V l → Probe L V D}
      (ht : s.worker t = .probing (.read l next)) :
      DeciderStep s
        ⟨s.mem, Function.update s.worker t (.probing (next (s.mem l))), s.log⟩
  | decide {t : Fin nth} {d : D} (ht : s.worker t = .probing (.decided d)) :
      DeciderStep s ⟨s.mem, Function.update s.worker t (.working d (work t d)), s.log⟩
  | store {t : Fin nth} {d : D} {x : Store L V} {rest : List (Store L V)}
      (ht : s.worker t = .working d (x :: rest)) :
      DeciderStep s ⟨Function.update s.mem x.target (x.value s.mem),
        Function.update s.worker t (.working d rest), s.log ++ [x]⟩

/-- The states before the barrier, of all runs from a memory. -/
def DeciderReachable (p : Probe L V D) (m : ∀ l, V l) (s : DeciderState nth L V D) : Prop :=
  Relation.ReflTransGen (DeciderStep work) ⟨m, fun _ => .probing p, []⟩ s

/-- All workers are at the barrier. -/
def DeciderState.Done (s : DeciderState nth L V D) : Prop :=
  ∀ t, ∃ d, s.worker t = .working d []

/-- The stores a worker has still to do, if it decides for `d`. -/
def Decider.todo (work : List (Store L V)) : Decider L V D → List (Store L V)
  | .probing _ => work
  | .working _ rest => rest

/-- The steps a worker has still to do in a memory. -/
def Decider.steps (m : ∀ l, V l) (work : List (Store L V)) : Decider L V D → ℕ
  | .probing p => p.reads m + 1 + work.length
  | .working _ rest => rest.length

variable {work} {p : Probe L V D} {T : Set L} {m : ∀ l, V l} {s : DeciderState nth L V D}

/-- What holds up to the barrier: the places that are read are as they were, and every worker has
taken, or will take, the decision of the first memory. -/
structure DeciderInv (work : ℕ → D → List (Store L V)) (p : Probe L V D) (T : Set L)
    (m : ∀ l, V l) (s : DeciderState nth L V D) : Prop where
  mem_eq : s.mem = runStores m s.log
  kept : ∀ l ∉ T, s.mem l = m l
  probing : ∀ t q, s.worker t = .probing q → q.Avoids T ∧ q.eval m = p.eval m
  working : ∀ t d rest, s.worker t = .working d rest →
    d = p.eval m ∧ ∀ x ∈ rest, x.target ∈ T
  stores : (s.log : Multiset (Store L V)) +
      ∑ t : Fin nth, ((s.worker t).todo (work t (p.eval m)) : Multiset (Store L V)) =
    ∑ t : Fin nth, (work t (p.eval m) : Multiset (Store L V))

omit [DecidableEq L] in
lemma sum_update_worker {M : Type*} [AddCommMonoid M] (f : Fin nth → Decider L V D → M)
    (w : Fin nth → Decider L V D) (t : Fin nth) (x : Decider L V D) :
    f t (w t) + ∑ u, f u (Function.update w t x u) = f t x + ∑ u, f u (w u) := by
  have hrest : ∑ u ∈ Finset.univ.erase t, f u (Function.update w t x u) =
      ∑ u ∈ Finset.univ.erase t, f u (w u) :=
    Finset.sum_congr rfl fun u hu => by rw [Function.update_of_ne (Finset.ne_of_mem_erase hu)]
  rw [← Finset.add_sum_erase _ (fun u => f u (Function.update w t x u)) (Finset.mem_univ t),
    ← Finset.add_sum_erase _ (fun u => f u (w u)) (Finset.mem_univ t), Function.update_self, hrest]
  exact add_left_comm _ _ _

lemma DeciderStep.inv (hT : ∀ t d, ∀ x ∈ work t d, x.target ∈ T) {s' : DeciderState nth L V D}
    (h : DeciderStep work s s') (hi : DeciderInv work p T m s) : DeciderInv work p T m s' := by
  have hworker : ∀ {t u : Fin nth} {x y : Decider L V D},
      Function.update s.worker t x u = y → (u = t ∧ x = y) ∨ (u ≠ t ∧ s.worker u = y) := by
    intro t u x y hu
    by_cases hut : u = t
    · subst hut
      exact .inl ⟨rfl, by rwa [Function.update_self] at hu⟩
    · exact .inr ⟨hut, by rwa [Function.update_of_ne hut] at hu⟩
  have hsum := fun (t : Fin nth) (x : Decider L V D) =>
    sum_update_worker (fun u w => (w.todo (work u (p.eval m)) : Multiset (Store L V)))
      s.worker t x
  cases h with
  | @read t l next ht =>
    obtain ⟨havoids, heval⟩ := hi.probing t _ ht
    cases havoids with
    | read hl hnext =>
      refine ⟨hi.mem_eq, hi.kept, fun u q hu => ?_, fun u d rest hu => ?_, ?_⟩
      · rcases hworker hu with ⟨-, hq⟩ | ⟨-, hq⟩
        · cases hq
          refine ⟨hnext _, ?_⟩
          rw [hi.kept l hl]
          exact heval
        · exact hi.probing u q hq
      · rcases hworker hu with ⟨-, hq⟩ | ⟨-, hq⟩
        · cases hq
        · exact hi.working u d rest hq
      · have h := hsum t (.probing (next (s.mem l)))
        rw [ht] at h
        rw [← hi.stores]
        exact congrArg _ (add_left_cancel h)
  | @decide t d ht =>
    obtain ⟨-, heval⟩ := hi.probing t _ ht
    change d = p.eval m at heval
    refine ⟨hi.mem_eq, hi.kept, fun u q hu => ?_, fun u d' rest hu => ?_, ?_⟩
    · rcases hworker hu with ⟨-, hq⟩ | ⟨-, hq⟩
      · cases hq
      · exact hi.probing u q hq
    · rcases hworker hu with ⟨rfl, hq⟩ | ⟨-, hq⟩
      · cases hq
        exact ⟨heval, hT _ _⟩
      · exact hi.working u d' rest hq
    · have h := hsum t (.working d (work t d))
      rw [ht] at h
      subst heval
      rw [← hi.stores]
      exact congrArg _ (add_left_cancel h)
  | @store t d x rest ht =>
    obtain ⟨hd, hrest⟩ := hi.working t d _ ht
    have hx := hrest x List.mem_cons_self
    refine ⟨?_, fun l hl => ?_, fun u q hu => ?_, fun u d' rest' hu => ?_, ?_⟩
    · have happend : runStores m (s.log ++ [x]) = runStores (runStores m s.log) [x] :=
        List.foldl_append
      exact (hi.mem_eq ▸ happend).symm
    · have hne : l ≠ x.target := fun h => hl (h ▸ hx)
      exact (Function.update_of_ne hne _ _).trans (hi.kept l hl)
    · rcases hworker hu with ⟨-, hq⟩ | ⟨-, hq⟩
      · cases hq
      · exact hi.probing u q hq
    · rcases hworker hu with ⟨-, hq⟩ | ⟨-, hq⟩
      · cases hq
        exact ⟨hd, fun y hy => hrest y (List.mem_cons_of_mem _ hy)⟩
      · exact hi.working u d' rest' hq
    · have h := hsum t (.working d rest)
      rw [ht] at h
      have htodo : ((Decider.working d (x :: rest)).todo (work t (p.eval m)) :
          Multiset (Store L V)) = (rest : Multiset (Store L V)) + {x} :=
        (Multiset.singleton_add x (rest : Multiset (Store L V))).symm.trans (add_comm _ _)
      rw [htodo, add_assoc] at h
      rw [← hi.stores, ← Multiset.coe_add, Multiset.coe_singleton, add_assoc]
      exact congrArg _ (add_left_cancel h)

lemma DeciderReachable.inv (hT : ∀ t d, ∀ x ∈ work t d, x.target ∈ T) (hp : p.Avoids T)
    (h : DeciderReachable work p m s) : DeciderInv work p T m s := by
  induction h with
  | refl =>
    refine ⟨rfl, fun _ _ => rfl, fun t q ht => ?_, fun t d rest ht => ?_, ?_⟩
    · cases ht
      exact ⟨hp, rfl⟩
    · cases ht
    · exact zero_add _
  | tail _ hstep ih => exact hstep.inv hT ih

theorem DeciderReachable.log_perm (hT : ∀ t d, ∀ x ∈ work t d, x.target ∈ T) (hp : p.Avoids T)
    (h : DeciderReachable work p m s) (hdone : s.Done) :
    s.log.Perm ((List.range nth).flatMap fun t => work t (p.eval m)) := by
  have hi := h.inv hT hp
  have hzero : ∑ t : Fin nth, ((s.worker t).todo (work t (p.eval m)) : Multiset (Store L V)) = 0 :=
    Finset.sum_eq_zero fun t _ => by
      obtain ⟨d, ht⟩ := hdone t
      rw [ht]
      rfl
  have hstores := hi.stores
  rw [hzero, add_zero] at hstores
  rw [← Multiset.coe_eq_coe, hstores, ← sum_range_coe_eq_flatMap]
  exact (Finset.sum_range fun t => (work t (p.eval m) : Multiset (Store L V))).symm

/-! ## Every run ends -/

lemma DeciderStep.steps_lt {s' : DeciderState nth L V D} (h : DeciderStep work s s')
    (hi : DeciderInv work p T m s) :
    ∑ t, (s'.worker t).steps m (work t (p.eval m)) <
      ∑ t, (s.worker t).steps m (work t (p.eval m)) := by
  have hsum := fun (t : Fin nth) (x : Decider L V D) =>
    sum_update_worker (fun u w => w.steps m (work u (p.eval m))) s.worker t x
  cases h with
  | @read t l next ht =>
    have h := hsum t (.probing (next (s.mem l)))
    obtain ⟨havoids, -⟩ := hi.probing t _ ht
    cases havoids with
    | read hl _ =>
      rw [ht, hi.kept l hl] at h
      simp only [Decider.steps, Probe.reads] at h
      simp only [hi.kept l hl, Decider.steps]
      omega
  | @decide t d ht =>
    have h := hsum t (.working d (work t d))
    obtain ⟨-, heval⟩ := hi.probing t _ ht
    change d = p.eval m at heval
    subst heval
    rw [ht] at h
    simp only [Decider.steps, Probe.reads] at h
    simp only [Decider.steps]
    omega
  | @store t d x rest ht =>
    have h := hsum t (.working d rest)
    rw [ht] at h
    simp only [Decider.steps, List.length_cons] at h
    simp only [Decider.steps]
    omega

lemma exists_deciderStep (hdone : ¬ s.Done) : ∃ s', DeciderStep work s s' := by
  simp only [DeciderState.Done, not_forall, not_exists] at hdone
  obtain ⟨t, ht⟩ := hdone
  cases hw : s.worker t with
  | probing q =>
    cases q with
    | decided d => exact ⟨_, .decide hw⟩
    | read l next => exact ⟨_, .read hw⟩
  | working d rest =>
    cases rest with
    | nil => exact absurd hw (ht d)
    | cons x rest => exact ⟨_, .store hw⟩

theorem DeciderReachable.exists_done (hT : ∀ t d, ∀ x ∈ work t d, x.target ∈ T)
    (hp : p.Avoids T) (h : DeciderReachable work p m s) :
    ∃ s', Relation.ReflTransGen (DeciderStep work) s s' ∧ s'.Done := by
  induction hn : ∑ t, (s.worker t).steps m (work t (p.eval m)) using Nat.strong_induction_on
    generalizing s with
  | _ n ih =>
    by_cases hdone : s.Done
    · exact ⟨s, .refl, hdone⟩
    · obtain ⟨s₁, hstep⟩ := exists_deciderStep hdone
      obtain ⟨s', hs', hdone'⟩ := ih _ (hn ▸ hstep.steps_lt (h.inv hT hp)) (h.tail hstep) rfl
      exact ⟨s', .head hstep hs', hdone'⟩

end Deciders

/-! ## A part of the memory -/

section Along

variable {L L' : Type*} {V : L' → Type*}

/-- A store to the part of a memory that `f` picks out. -/
def Store.along (f : L → L') (s : Store L fun l => V (f l)) : Store L' V :=
  ⟨f s.target, fun m => s.value fun l => m (f l)⟩

lemma Store.ReadsOutside.along {f : L → L'} {s : Store L fun l => V (f l)}
    {all : List (Store L fun l => V (f l))} (hf : Function.Injective f)
    (h : s.ReadsOutside (targets all)) :
    (s.along f).ReadsOutside (targets (all.map (Store.along f))) := by
  intro m m' hsame
  refine h _ _ fun l hl => hsame (f l) fun hfl => hl ?_
  simp only [targets, List.map_map, Set.mem_ofPred_eq, List.mem_map] at hfl ⊢
  obtain ⟨s', hs', htarget⟩ := hfl
  exact ⟨s', hs', hf htarget⟩

end Along

end IFairy
