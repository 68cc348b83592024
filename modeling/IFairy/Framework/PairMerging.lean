import Mathlib.Data.List.Basic
import Mathlib.Order.Lattice

/-!
# Merging the best pair

A list of pieces is merged by scanning all adjacent pairs, joining the pair with the greatest key
and scanning again, until no pair has a key.  Among pairs with the same key the leftmost is taken.
`IsBest` says which pair that is without a scan; joining it is the next step of the merging
(`merged_eq_of_isBest`).
-/

namespace IFairy.PairMerging

variable {α K : Type*}

section

variable (cand : α → α → Option K) (join : α → α → α)

/-- The pair at a position is joined. -/
def mergeAt : ℕ → List α → List α
  | 0, a :: b :: rest => join a b :: rest
  | i + 1, a :: rest => a :: mergeAt i rest
  | _, l => l

/-- The key of the pair at a position. -/
def keyAt (l : List α) (i : ℕ) : Option K := l[i]?.bind fun a => l[i + 1]?.bind (cand a)

end

section

variable {cand : α → α → Option K} {join : α → α → α} {l : List α} {i : ℕ} {k : K}

@[simp] lemma keyAt_succ {a : α} {rest : List α} :
    keyAt cand (a :: rest) (i + 1) = keyAt cand rest i := rfl

lemma length_mergeAt (join : α → α → α) (h : keyAt cand l i = some k) : (mergeAt join i l).length + 1 = l.length := by
  induction l generalizing i with
  | nil => cases h
  | cons a rest ih =>
    cases i with
    | zero =>
      cases rest with
      | nil => cases h
      | cons b rest => rfl
    | succ i => rw [mergeAt, List.length_cons, List.length_cons, ih h]

lemma keyAt_append {xs rest : List α} {a b : α} :
    keyAt cand (xs ++ a :: b :: rest) xs.length = cand a b := by
  induction xs with
  | nil => rfl
  | cons x xs ih => exact ih

lemma mergeAt_append {xs rest : List α} {a b : α} :
    mergeAt join xs.length (xs ++ a :: b :: rest) = xs ++ join a b :: rest := by
  induction xs with
  | nil => rfl
  | cons x xs ih => rw [List.length_cons, List.cons_append, mergeAt, ih, List.cons_append]

lemma exists_pair_of_keyAt (h : keyAt cand l i = some k) :
    ∃ xs a b rest, l = xs ++ a :: b :: rest ∧ xs.length = i ∧ cand a b = some k := by
  induction l generalizing i with
  | nil => cases h
  | cons c tail ih =>
    cases i with
    | zero =>
      cases tail with
      | nil => cases h
      | cons d tail => exact ⟨[], c, d, tail, rfl, rfl, h⟩
    | succ i =>
      obtain ⟨xs, a, b, rest, rfl, rfl, hkey⟩ := ih h
      exact ⟨c :: xs, a, b, rest, rfl, rfl, hkey⟩

end

variable [LinearOrder K]

/-- The better of a pair and one further right. -/
def better : Option (ℕ × K) → Option (ℕ × K) → Option (ℕ × K)
  | some x, some y => if x.2 < y.2 then some y else some x
  | some x, none => some x
  | none, y => y

section

variable (cand : α → α → Option K) (join : α → α → α)

/-- Position and key of the pair with the greatest key, the leftmost of them. -/
def bestPair : List α → Option (ℕ × K)
  | a :: b :: rest =>
    better ((cand a b).map fun k => (0, k)) ((bestPair (b :: rest)).map fun x => (x.1 + 1, x.2))
  | _ => none

def mergeAll : ℕ → List α → List α
  | 0, l => l
  | rounds + 1, l =>
    (bestPair cand l).elim l fun x => mergeAll rounds (mergeAt join x.1 l)

/-- All merges; each makes the list shorter. -/
def merged (l : List α) : List α := mergeAll cand join l.length l

/-- The pair at a position has a key, the greatest one, and greater than those further left. -/
structure IsBest (l : List α) (i : ℕ) (k : K) : Prop where
  key : keyAt cand l i = some k
  best : ∀ j k', keyAt cand l j = some k' → k' ≤ k ∧ (j < i → k' < k)

end

variable {cand : α → α → Option K} {join : α → α → α} {l : List α} {i : ℕ} {k : K}

lemma keyAt_of_bestPair (h : bestPair cand l = some (i, k)) : keyAt cand l i = some k := by
  induction l generalizing i k with
  | nil => cases h
  | cons a rest ih =>
    cases rest with
    | nil => cases h
    | cons b rest =>
      rw [bestPair] at h
      cases hhead : cand a b with
      | none =>
        rw [hhead, Option.map_none, better] at h
        obtain ⟨x, hx, heq⟩ := Option.map_eq_some_iff.1 h
        cases heq
        rw [keyAt_succ]
        exact ih hx
      | some k₀ =>
        cases htail : bestPair cand (b :: rest) with
        | none =>
          rw [hhead, htail] at h
          cases h
          exact hhead
        | some x =>
          rw [hhead, htail, Option.map_some, Option.map_some, better] at h
          split_ifs at h
          · cases h
            rw [keyAt_succ]
            exact ih htail
          · cases h
            exact hhead

lemma bestPair_eq_none (h : ∀ j, keyAt cand l j = none) : bestPair cand l = none := by
  cases hbest : bestPair cand l with
  | none => rfl
  | some x =>
    have hkey := keyAt_of_bestPair (i := x.1) (k := x.2) hbest
    rw [h] at hkey
    cases hkey

lemma IsBest.bestPair_eq (h : IsBest cand l i k) : bestPair cand l = some (i, k) := by
  induction l generalizing i with
  | nil => cases h.key
  | cons a rest ih =>
    cases rest with
    | nil =>
      have hkey := h.key
      cases i <;> cases hkey
    | cons b rest =>
      rw [bestPair]
      cases i with
      | zero =>
        have hhead : cand a b = some k := h.key
        rw [hhead, Option.map_some]
        cases htail : bestPair cand (b :: rest) with
        | none => rfl
        | some x =>
          have hle := (h.best (x.1 + 1) x.2 (keyAt_succ.trans (keyAt_of_bestPair htail))).1
          rw [Option.map_some, better, if_neg (not_lt.2 hle)]
      | succ i =>
        have htail : IsBest cand (b :: rest) i k :=
          ⟨h.key, fun j k' hj => ⟨(h.best (j + 1) k' hj).1, fun hlt =>
            (h.best (j + 1) k' hj).2 (Nat.succ_lt_succ hlt)⟩⟩
        rw [ih htail, Option.map_some]
        cases hhead : cand a b with
        | none => rfl
        | some k₀ => rw [Option.map_some, better, if_pos ((h.best 0 k₀ hhead).2 (Nat.succ_pos i))]

theorem merged_eq_of_isBest (h : IsBest cand l i k) :
    merged cand join l = merged cand join (mergeAt join i l) := by
  rw [merged, ← length_mergeAt join h.key, mergeAll, h.bestPair_eq, Option.elim_some,
    merged]

theorem merged_eq_self (h : ∀ j, keyAt cand l j = none) : merged cand join l = l := by
  rw [merged]
  cases l.length with
  | zero => rfl
  | succ n => rw [mergeAll, bestPair_eq_none h, Option.elim_none]

end IFairy.PairMerging
