import IFairy.Framework.Loops
import IFairy.Framework.Schedules

/-!
# Phases between barriers

Workers that share a memory run in phases: in a phase every worker does its own stores in its own
order, interleaved with the others in any way, and a barrier ends it.  A store computes its value
from the memory it finds.  When the stores of a phase have different targets and read no target of
the phase, nothing depends on the interleaving (`runStores_perm`); when besides the workers
together do the stores that one worker alone would do, the memory ends as that one leaves it
(`Runs.eq_of_shared`).
-/

namespace IFairy

/-! ## Stores -/

section Stores

variable {L : Type*} {V : L → Type*}

/-- A store: its target, and its value from the memory it finds. -/
structure Store (L : Type*) (V : L → Type*) where
  target : L
  value : (∀ l, V l) → V target

/-- The value does not depend on what is kept at the places `T`. -/
def Store.ReadsOutside (s : Store L V) (T : Set L) : Prop :=
  ∀ m m' : ∀ l, V l, (∀ l ∉ T, m l = m' l) → s.value m = s.value m'

/-- The places a list of stores writes. -/
def targets (ss : List (Store L V)) : Set L := {l | l ∈ ss.map Store.target}

variable [DecidableEq L]

/-- The memory after stores done one after the other. -/
def runStores (m : ∀ l, V l) (ss : List (Store L V)) : ∀ l, V l :=
  ss.foldl (fun m s => Function.update m s.target (s.value m)) m

lemma runStores_cons (m : ∀ l, V l) (s : Store L V) (ss : List (Store L V)) :
    runStores m (s :: ss) = runStores (Function.update m s.target (s.value m)) ss := rfl

lemma runStores_of_not_mem {m : ∀ l, V l} {ss : List (Store L V)} {l : L} (hl : l ∉ targets ss) :
    runStores m ss l = m l := by
  induction ss generalizing m with
  | nil => rfl
  | cons s ss ih =>
    obtain ⟨hne, hl⟩ : l ≠ s.target ∧ l ∉ targets ss := by simpa [targets] using hl
    rw [runStores_cons, ih hl, Function.update_of_ne hne]

/-- Stores with different targets that read none of them leave at each target the value from the
memory they started in. -/
lemma runStores_target {m : ∀ l, V l} {ss : List (Store L V)} {T : Set L}
    (hsub : targets ss ⊆ T) (hnodup : (ss.map Store.target).Nodup)
    (hread : ∀ s ∈ ss, s.ReadsOutside T) {s : Store L V} (hs : s ∈ ss) :
    runStores m ss s.target = s.value m := by
  induction ss generalizing m with
  | nil => exact absurd hs List.not_mem_nil
  | cons s₁ ss ih =>
    rw [List.map_cons, List.nodup_cons] at hnodup
    have hsame : ∀ l ∉ T, m l = Function.update m s₁.target (s₁.value m) l := by
      intro l hl
      have hne : l ≠ s₁.target := fun h => hl (h ▸ hsub (by simp [targets]))
      rw [Function.update_of_ne hne]
    rw [runStores_cons]
    rcases List.mem_cons.1 hs with rfl | hs
    · rw [runStores_of_not_mem hnodup.1, Function.update_self]
    · rw [ih (fun l hl => hsub (List.mem_cons_of_mem _ hl)) hnodup.2
        (fun s' hs' => hread s' (List.mem_cons_of_mem _ hs')) hs]
      exact (hread s (List.mem_cons_of_mem _ hs) _ _ hsame).symm

/-- Stores with different targets that read none of them may be done in any order. -/
theorem runStores_perm {m : ∀ l, V l} {ss ss' : List (Store L V)} (h : ss.Perm ss')
    (hnodup : (ss'.map Store.target).Nodup) (hread : ∀ s ∈ ss', s.ReadsOutside (targets ss')) :
    runStores m ss = runStores m ss' := by
  have hmem : ∀ l, l ∈ targets ss ↔ l ∈ targets ss' := fun l => (h.map _).mem_iff
  funext l
  by_cases hl : l ∈ targets ss'
  · obtain ⟨s, hs, rfl⟩ := List.mem_map.1 hl
    rw [runStores_target subset_rfl hnodup hread hs]
    exact runStores_target (fun l hl => (hmem l).1 hl) ((h.map _).nodup_iff.2 hnodup)
      (fun s' hs' => hread s' (h.mem_iff.1 hs')) (h.mem_iff.2 hs)
  · rw [runStores_of_not_mem hl, runStores_of_not_mem fun h' => hl ((hmem l).1 h')]

end Stores

/-! ## Phases -/

section Phases

variable {L : Type*} {V : L → Type*} {nth : ℕ}

/-- The stores of each worker between two barriers. -/
abbrev Phase (L : Type*) (V : L → Type*) := ℕ → List (Store L V)

/-- The stores of all workers of a phase. -/
def Phase.all (p : Phase L V) (nth : ℕ) : List (Store L V) := (List.range nth).flatMap p

/-- The runs of `nth` workers: in each phase every worker does its stores, in any interleaving,
and all of them are done when the next phase starts. -/
inductive Runs [DecidableEq L] (nth : ℕ) : List (Phase L V) → (∀ l, V l) → (∀ l, V l) → Prop
  | nil (m : ∀ l, V l) : Runs nth [] m m
  | cons {p : Phase L V} {ps : List (Phase L V)} {m m' : ∀ l, V l}
      {s : PoolState nth (Fin nth → ℕ) (Store L V)}
      (hs : PoolReachable (strided nth nth) p s) (hdone : s.Done)
      (hrest : Runs nth ps (runStores m s.log) m') : Runs nth (p :: ps) m m'

/-- The stores of a phase have different targets and read none of them. -/
structure Phase.RaceFree (p : Phase L V) (nth : ℕ) : Prop where
  nodup : ((p.all nth).map Store.target).Nodup
  reads : ∀ s ∈ p.all nth, s.ReadsOutside (targets (p.all nth))

lemma perm_log (hnth : 0 < nth) {p : Phase L V} {s : PoolState nth (Fin nth → ℕ) (Store L V)}
    (hs : PoolReachable (strided nth nth) p s) (hdone : s.Done) : s.log.Perm (p.all nth) := by
  rw [← Multiset.coe_eq_coe, hs.log_eq (stridedLaw hnth nth) hdone, sum_range_coe_eq_flatMap]
  rfl

lemma runStores_log [DecidableEq L] (hnth : 0 < nth) {p : Phase L V} (hp : p.RaceFree nth)
    {s : PoolState nth (Fin nth → ℕ) (Store L V)} (hs : PoolReachable (strided nth nth) p s)
    (hdone : s.Done) (m : ∀ l, V l) : runStores m s.log = runStores m (p.all nth) :=
  runStores_perm (perm_log hnth hs hdone) hp.nodup hp.reads

theorem exists_runs [DecidableEq L] (hnth : 0 < nth) (ps : List (Phase L V)) (m : ∀ l, V l) :
    ∃ m', Runs nth ps m m' := by
  induction ps generalizing m with
  | nil => exact ⟨m, .nil m⟩
  | cons p ps ih =>
    obtain ⟨s, hs, hdone⟩ :=
      PoolReachable.exists_done (stridedLaw hnth nth) (poolReachable_start _ p)
    obtain ⟨m', hm'⟩ := ih (runStores m s.log)
    exact ⟨m', .cons hs hdone hm'⟩

/-- A phase of `nth` workers does what the phase `single` of one worker does, each store once. -/
structure Phase.Shares (p single : Phase L V) (nth : ℕ) : Prop where
  perm : (p.all nth).Perm (single 0)
  nodup : ((single 0).map Store.target).Nodup
  reads : ∀ s ∈ single 0, s.ReadsOutside (targets (single 0))

lemma Phase.Shares.raceFree {p single : Phase L V} (h : p.Shares single nth) : p.RaceFree nth where
  nodup := (h.perm.map _).nodup_iff.2 h.nodup
  reads s hs := by
    have htargets : targets (p.all nth) = targets (single 0) :=
      Set.ext fun l => (h.perm.map _).mem_iff
    rw [htargets]
    exact h.reads s (h.perm.mem_iff.1 hs)

lemma Phase.all_one (p : Phase L V) : p.all 1 = p 0 := by simp [Phase.all, List.range_succ]

/-- Workers that share the stores of one worker leave the memory that one leaves. -/
theorem Runs.eq_of_shares [DecidableEq L] (hnth : 0 < nth) {ps singles : List (Phase L V)}
    (hps : List.Forall₂ (fun p single => p.Shares single nth) ps singles) {m m' m₁ : ∀ l, V l}
    (h : Runs nth ps m m') (h₁ : Runs 1 singles m m₁) : m' = m₁ := by
  induction hps generalizing m with
  | nil =>
    cases h
    cases h₁
    rfl
  | @cons p single ps singles hp _ ih =>
    cases h with
    | cons hs hdone hrest =>
      cases h₁ with
      | cons hs₁ hdone₁ hrest₁ =>
        have hself : single.Shares single 1 := ⟨by rw [Phase.all_one], hp.nodup, hp.reads⟩
        have hmid := runStores_log hnth hp.raceFree hs hdone m
        have hmid₁ := runStores_log Nat.one_pos hself.raceFree hs₁ hdone₁ m
        rw [runStores_perm hp.perm hp.nodup hp.reads] at hmid
        rw [Phase.all_one] at hmid₁
        rw [hmid] at hrest
        rw [hmid₁] at hrest₁
        exact ih hrest hrest₁

/-! ## Handing out work -/

/-- Work that no worker repeats, no two share, and that together is `all`. -/
lemma flatMap_perm_of_owner {α : Type*} {work : ℕ → List α} {all : List α} (hall : all.Nodup)
    (hwork : ∀ t < nth, (work t).Nodup)
    (howner : ∀ t < nth, ∀ u < nth, ∀ a, a ∈ work t → a ∈ work u → t = u)
    (hmem : ∀ a, a ∈ all ↔ ∃ t < nth, a ∈ work t) : ((List.range nth).flatMap work).Perm all := by
  have hnodup : ((List.range nth).flatMap work).Nodup := by
    rw [List.nodup_flatMap]
    refine ⟨fun t ht => hwork t (List.mem_range.1 ht),
      List.nodup_range.imp_of_mem fun {t u} ht hu hne => ?_⟩
    intro a ha ha'
    exact hne (howner t (List.mem_range.1 ht) u (List.mem_range.1 hu) a ha ha')
  rw [List.perm_ext_iff_of_nodup hnodup hall]
  intro a
  rw [hmem, List.mem_flatMap]
  simp only [List.mem_range]

lemma strided_perm (hnth : 0 < nth) (n : ℕ) :
    ((List.range nth).flatMap fun t => fromRange t n nth).Perm (List.range n) := by
  refine flatMap_perm_of_owner List.nodup_range (fun t _ => nodup_fromRange hnth) ?_ ?_
  · intro t ht u hu a hat hau
    exact (eq_mod_of_mem_fromRange ht hat).trans (eq_mod_of_mem_fromRange hu hau).symm
  · intro a
    rw [List.mem_range]
    constructor
    · exact fun ha => ⟨a % nth, Nat.mod_lt a hnth, mod_mem_fromRange hnth ha⟩
    · rintro ⟨t, -, ha⟩
      exact ((mem_fromRange hnth).1 ha).2.1

lemma strided_flatMap_perm {α : Type*} (hnth : 0 < nth) (n : ℕ) (f : ℕ → List α) :
    ((List.range nth).flatMap fun t => (fromRange t n nth).flatMap f).Perm
      ((List.range n).flatMap f) := by
  rw [← List.flatMap_assoc]
  exact (strided_perm hnth n).flatMap_right f

lemma flatMap_flatMap_perm {α β γ : Type*} (l : List α) (l' : List β) (f : α → β → List γ) :
    (l.flatMap fun a => l'.flatMap (f a)).Perm (l'.flatMap fun b => l.flatMap fun a => f a b) := by
  rw [← Multiset.coe_eq_coe, ← Multiset.coe_bind, ← Multiset.coe_bind]
  simp only [← Multiset.coe_bind]
  exact Multiset.bind_bind _ _

end Phases

end IFairy
