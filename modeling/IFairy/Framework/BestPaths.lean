import Mathlib.Algebra.BigOperators.Group.List.Basic
import Mathlib.Algebra.Order.Monoid.Defs
import Mathlib.Data.List.Pairwise

/-!
# Best paths

Edges with weights lead from smaller numbers to larger ones, and every number has an entry: the
best weight known so far of a path from `0`, with its last edge.  The edges are relaxed in the
order of their sources (`relaxAll`).  Afterwards no path has more weight than the entry of its end
(`weight_le_score`), and following the entries back gives a path with that weight
(`exists_traced`).
-/

namespace BestPaths

/-- An edge. -/
structure Edge (L K : Type*) where
  source : ℕ
  target : ℕ
  label : L
  weight : K

/-- The best path known so far: the label and the source of its last edge, and its weight. -/
structure Entry (L K : Type*) where
  label : L
  source : ℕ
  score : K

variable {L K : Type*}

/-- A path from `u` to `v`. -/
inductive Path (edges : List (Edge L K)) (u : ℕ) : List (Edge L K) → ℕ → Prop where
  | nil : Path edges u [] u
  | concat {path : List (Edge L K)} {e : Edge L K} (hpath : Path edges u path e.source)
    (he : e ∈ edges) : Path edges u (path ++ [e]) e.target

/-- The path that the entries tell. -/
inductive Traced (table : ℕ → Entry L K) (edges : List (Edge L K)) : List (Edge L K) → ℕ → Prop where
  | nil : Traced table edges [] 0
  | concat {path : List (Edge L K)} {e : Edge L K} (hpath : Traced table edges path e.source)
    (he : e ∈ edges) (hlabel : (table e.target).label = e.label)
    (hsource : (table e.target).source = e.source) : Traced table edges (path ++ [e]) e.target

variable [AddCommMonoid K]

def weight (path : List (Edge L K)) : K := (path.map Edge.weight).sum

@[simp] lemma weight_nil : weight ([] : List (Edge L K)) = 0 := rfl

@[simp] lemma weight_concat (path : List (Edge L K)) (e : Edge L K) :
    weight (path ++ [e]) = weight path + e.weight := by
  simp [weight]

variable [LinearOrder K]

/-- Take the edge if it leads to more weight. -/
def relax (table : ℕ → Entry L K) (e : Edge L K) : ℕ → Entry L K :=
  if (table e.target).score < (table e.source).score + e.weight then
    Function.update table e.target ⟨e.label, e.source, (table e.source).score + e.weight⟩
  else table

/-- All edges, one after the other. -/
def relaxAll (table : ℕ → Entry L K) (edges : List (Edge L K)) : ℕ → Entry L K :=
  edges.foldl relax table

/-- The edges are in the order of their sources and lead upwards, and no path from `0` has a
weight of at most `low`. -/
structure Ordered (low : K) (edges : List (Edge L K)) : Prop where
  sources : edges.Pairwise (·.source ≤ ·.source)
  upwards : ∀ e ∈ edges, e.source < e.target
  reached : ∀ e ∈ edges, ∃ path, Path edges 0 path e.source
  above : ∀ path v, Path edges 0 path v → low < weight path

/-! ## One edge -/

lemma relax_of_ne (table : ℕ → Entry L K) (e : Edge L K) {v : ℕ} (hv : v ≠ e.target) :
    relax table e v = table v := by
  unfold relax
  split_ifs
  · exact Function.update_of_ne hv _ _
  · rfl

lemma score_le_relax (table : ℕ → Entry L K) (e : Edge L K) (v : ℕ) :
    (table v).score ≤ (relax table e v).score := by
  by_cases hv : v = e.target
  · unfold relax
    split_ifs with hlt
    · rw [hv, Function.update_self]
      exact hlt.le
    · exact le_refl _
  · rw [relax_of_ne table e hv]

lemma add_le_relax (table : ℕ → Entry L K) (e : Edge L K) :
    (table e.source).score + e.weight ≤ (relax table e e.target).score := by
  unfold relax
  split_ifs with hlt
  · rw [Function.update_self]
  · exact not_lt.1 hlt

/-! ## All edges -/

lemma relaxAll_append (table : ℕ → Entry L K) (edges edges' : List (Edge L K)) :
    relaxAll table (edges ++ edges') = relaxAll (relaxAll table edges) edges' :=
  List.foldl_append

lemma relaxAll_of_ne (table : ℕ → Entry L K) {edges : List (Edge L K)} {v : ℕ}
    (hv : ∀ e ∈ edges, v ≠ e.target) : relaxAll table edges v = table v := by
  induction edges generalizing table with
  | nil => rfl
  | cons e edges ih =>
    obtain ⟨he, hedges⟩ := List.forall_mem_cons.1 hv
    exact (ih (relax table e) hedges).trans (relax_of_ne table e he)

lemma score_le_relaxAll (table : ℕ → Entry L K) (edges : List (Edge L K)) (v : ℕ) :
    (table v).score ≤ (relaxAll table edges v).score := by
  induction edges generalizing table with
  | nil => exact le_refl _
  | cons e edges ih => exact (score_le_relax table e v).trans (ih _)

lemma relaxAll_eq_or (table : ℕ → Entry L K) {edges : List (Edge L K)}
    (hsources : edges.Pairwise (·.source ≤ ·.source)) (hup : ∀ e ∈ edges, e.source < e.target)
    (v : ℕ) :
    relaxAll table edges v = table v ∨ ∃ e ∈ edges, e.target = v ∧
      relaxAll table edges v =
        ⟨e.label, e.source, (relaxAll table edges e.source).score + e.weight⟩ := by
  induction edges generalizing table with
  | nil => exact .inl rfl
  | cons e edges ih =>
    obtain ⟨hle, hsources⟩ := List.pairwise_cons.1 hsources
    obtain ⟨he, hup⟩ := List.forall_mem_cons.1 hup
    change relaxAll (relax table e) edges v = _ ∨ ∃ e' ∈ e :: edges, e'.target = v ∧
      relaxAll (relax table e) edges v =
        ⟨e'.label, e'.source, (relaxAll (relax table e) edges e'.source).score + e'.weight⟩
    rcases ih (relax table e) hsources hup with h | ⟨e', he', hv, h⟩
    · by_cases hv : v = e.target
      · subst hv
        unfold relax at h
        split_ifs at h with hlt
        · refine .inr ⟨e, List.mem_cons_self, rfl, ?_⟩
          rw [Function.update_self] at h
          -- no later edge leads to the source
          have hfinal : relaxAll (relax table e) edges e.source = table e.source :=
            (relaxAll_of_ne _ fun e' he' => ((hle e' he').trans_lt (hup e' he')).ne).trans
              (relax_of_ne table e he.ne)
          rw [hfinal]
          unfold relax
          rw [if_pos hlt]
          exact h
        · refine .inl ?_
          unfold relax
          rw [if_neg hlt]
          exact h
      · exact .inl (h.trans (relax_of_ne table e hv))
    · exact .inr ⟨e', List.mem_cons_of_mem e he', hv, h⟩

lemma add_le_relaxAll [IsOrderedAddMonoid K] (table : ℕ → Entry L K) {edges : List (Edge L K)}
    (hsources : edges.Pairwise (·.source ≤ ·.source)) (hup : ∀ e ∈ edges, e.source < e.target)
    {e : Edge L K} (he : e ∈ edges) :
    (relaxAll table edges e.source).score + e.weight ≤ (relaxAll table edges e.target).score := by
  induction edges generalizing table with
  | nil => cases he
  | cons e' edges ih =>
    obtain ⟨hle, hsources'⟩ := List.pairwise_cons.1 hsources
    obtain ⟨he', hup'⟩ := List.forall_mem_cons.1 hup
    rcases List.mem_cons.1 he with rfl | he
    · have hfinal : relaxAll (relax table e) edges e.source = table e.source :=
        (relaxAll_of_ne _ fun e' he' => ((hle e' he').trans_lt (hup' e' he')).ne).trans
          (relax_of_ne table e he'.ne)
      change (relaxAll (relax table e) edges e.source).score + _ ≤ _
      rw [hfinal]
      exact (add_le_relax table e).trans (score_le_relaxAll _ _ _)
    · exact ih (relax table e') hsources' hup' he

/-! ## Paths -/

section Paths

variable {low : K} {table : ℕ → Entry L K} {edges path : List (Edge L K)} {v : ℕ}

theorem weight_le_score [IsOrderedAddMonoid K] (h : Ordered low edges)
    (hzero : 0 ≤ (table 0).score) (hpath : Path edges 0 path v) :
    weight path ≤ (relaxAll table edges v).score := by
  induction hpath with
  | nil => exact hzero.trans (score_le_relaxAll _ _ _)
  | concat hpath he ih =>
    rw [weight_concat]
    exact (add_le_add_left ih _).trans (add_le_relaxAll table h.sources h.upwards he)

theorem exists_traced [IsOrderedAddMonoid K] (h : Ordered low edges) (hzero : (table 0).score = 0)
    (hlow : ∀ v ≠ 0, (table v).score ≤ low) (hpath : Path edges 0 path v) :
    ∃ best, Path edges 0 best v ∧ Traced (relaxAll table edges) edges best v ∧
      weight best = (relaxAll table edges v).score := by
  induction v using Nat.strong_induction_on generalizing path with
  | _ v ih =>
    by_cases hv : v = 0
    · subst hv
      refine ⟨[], .nil, .nil, ?_⟩
      rw [relaxAll_of_ne table fun e he => (Nat.zero_lt_of_lt (h.upwards e he)).ne, hzero, weight_nil]
    · rcases relaxAll_eq_or table h.sources h.upwards v with heq | ⟨e, he, rfl, heq⟩
      · -- the entry would not be above `low`
        have hle := weight_le_score h hzero.ge hpath
        rw [heq] at hle
        exact absurd (h.above path v hpath) (not_lt.2 (hle.trans (hlow v hv)))
      · obtain ⟨path', hpath'⟩ := h.reached e he
        obtain ⟨best, hbest, htraced, hweight⟩ := ih e.source (h.upwards e he) hpath'
        refine ⟨best ++ [e], .concat hbest he, .concat htraced he ?_ ?_, ?_⟩
        · rw [heq]
        · rw [heq]
        · rw [weight_concat, hweight, heq]

end Paths

end BestPaths
