import IFairy.Framework.Regex

/-!
# Sequences of repeated symbols

A flat regular expression is a sequence of classes of symbols, each with a repetition (`Step`).  What
it matches is a language (`Matched`), and so is what the beginnings of its matches are
(`exists_matched_append_iff`).

An engine that backtracks does not find the longest match first in general.  It does when its
matches are listed so that a longer one comes before the first occurrence of a shorter one
(`LongestFirst`), which a step keeps (`LongestFirst.step`).
-/

namespace IFairy

/-! ## Longest matches first -/

/-- A number that occurs behind a smaller one occurs before it, too. -/
def LongestFirst (l : List ℕ) : Prop :=
  ∀ front k back, l = front ++ k :: back → ∀ n ∈ back, k < n → n ∈ front

lemma LongestFirst.head {k : ℕ} {l : List ℕ} (h : LongestFirst (k :: l)) : ∀ n ∈ k :: l, n ≤ k := by
  intro n hn
  rcases List.mem_cons.1 hn with rfl | hn
  · exact le_rfl
  · exact not_lt.1 fun hlt => List.not_mem_nil (h [] k l rfl n hn hlt)

lemma LongestFirst.flatMap {l : List ℕ} {f : ℕ → List ℕ}
    (hdesc : ∀ a ∈ l, (f a).Pairwise (· > ·)) (hl : LongestFirst l)
    (hjoin : ∀ a ∈ l, ∀ b ∈ l, b ≤ a → ∀ k ∈ f a, ∀ n ∈ f b, k < n → n ∈ f a) :
    LongestFirst (l.flatMap f) := by
  intro front k back hsplit n hn hlt
  -- the number of the list that `k` comes from, and what is listed before it
  obtain ⟨before, a, after, front', back', rfl, rfl, ha, hback⟩ :
      ∃ before a after front' back', l = before ++ a :: after ∧
        front = before.flatMap f ++ front' ∧ f a = front' ++ k :: back' ∧
        back = back' ++ after.flatMap f := by
    clear hdesc hl hjoin hn
    induction l generalizing front with
    | nil => exact absurd hsplit.symm (List.append_ne_nil_of_right_ne_nil _ (List.cons_ne_nil _ _))
    | cons a l ih =>
      rw [List.flatMap_cons, List.append_eq_append_iff] at hsplit
      rcases hsplit with ⟨x, rfl, hx⟩ | ⟨x, hfa, hx⟩
      · obtain ⟨before, b, after, front', back', rfl, rfl, hb, hback⟩ := ih x hx
        exact ⟨a :: before, b, after, front', back', rfl,
          by rw [List.flatMap_cons, List.append_assoc], hb, hback⟩
      · rcases x with - | ⟨y, x⟩
        · obtain ⟨before, b, after, front', back', rfl, hfront, hb, hback⟩ :=
            ih [] hx.symm
          refine ⟨a :: before, b, after, front', back', rfl, ?_, hb, hback⟩
          rw [List.flatMap_cons, List.append_assoc, ← hfront, hfa, List.append_nil, List.append_nil]
        · obtain ⟨rfl, rfl⟩ := List.cons.inj hx
          exact ⟨[], a, l, front, x, rfl, rfl, hfa, rfl⟩
  have hmem : a ∈ before ++ a :: after := List.mem_append_right _ List.mem_cons_self
  have hpair := hdesc a hmem
  rw [ha, List.pairwise_append] at hpair
  have hlater := (List.pairwise_cons.1 hpair.2.1).1
  rw [hback, List.mem_append] at hn
  rcases hn with hn | hn
  · exact absurd (hlater n hn) (Nat.not_lt.2 hlt.le)
  · obtain ⟨b, hb, hnb⟩ := List.mem_flatMap.1 hn
    by_cases hab : a < b
    · exact List.mem_append_left _
        (List.mem_flatMap.2 ⟨b, hl before a after rfl b hb hab, hnb⟩)
    · have hk : k ∈ f a := by
        rw [ha]
        exact List.mem_append_right _ List.mem_cons_self
      have hna := hjoin a hmem b (List.mem_append_right _ (List.mem_cons_of_mem _ hb))
        (not_lt.1 hab) k hk n hnb hlt
      rw [ha, List.mem_append, List.mem_cons] at hna
      rcases hna with hna | rfl | hna
      · exact List.mem_append_right _ hna
      · exact absurd hlt (lt_irrefl _)
      · exact absurd (hlater n hna) (Nat.not_lt.2 hlt.le)

/-! ## Steps -/

/-- How often a symbol may be repeated. -/
inductive Repetition where
  | one
  | opt
  | star
  | plus
  deriving DecidableEq

namespace Repetition

/-- The numbers of rounds that a repetition allows. -/
def Allows : Repetition → ℕ → Prop
  | one, n => n = 1
  | opt, n => n ≤ 1
  | star, _ => True
  | plus, n => 1 ≤ n

/-- The repetition of a regular expression. -/
def regex {α : Type*} : Repetition → Regex α → Regex α
  | one, r => r
  | opt, r => .opt r
  | star, r => .star r
  | plus, r => .plus r

lemma Allows.of_le {rep : Repetition} {m n : ℕ} (h : rep.Allows n) (hpos : 0 < m) (hle : m ≤ n) :
    rep.Allows m := by
  cases rep
  · exact le_antisymm (hle.trans h.le) hpos
  · exact hle.trans h
  · trivial
  · exact hpos

end Repetition

/-- A class of symbols and its repetition. -/
structure Step (α : Type*) where
  cls : α → Bool
  rep : Repetition

namespace Step

variable {α : Type*}

/-- The regular expression of a step. -/
def regex (f : Step α) : Regex α := f.rep.regex (.symbol f.cls)

variable {f : Step α} {s : List α} {k : ℕ}

lemma ends_symbol (p : α → Bool) (s : List α) :
    Regex.ends (.symbol p) s = if 0 < Regex.run p s then [1] else [] := by
  cases s with
  | nil => rfl
  | cons c s =>
    rw [Regex.ends, Regex.run_cons]
    by_cases h : p c = true
    · rw [if_pos h, if_pos h, if_pos (Nat.succ_pos _)]
    · rw [if_neg h, if_neg h, if_neg (lt_irrefl 0)]

lemma mem_ends_iff : k ∈ f.regex.ends s ↔ k ≤ Regex.run f.cls s ∧ f.rep.Allows k := by
  obtain ⟨p, rep⟩ := f
  cases rep with
  | one =>
    change k ∈ Regex.ends (.symbol p) s ↔ k ≤ Regex.run p s ∧ k = 1
    rw [ends_symbol]
    split_ifs with h
    · rw [List.mem_singleton]
      omega
    · simp only [List.not_mem_nil, false_iff]
      omega
  | opt =>
    change k ∈ Regex.ends (.symbol p) s ++ [0] ↔ k ≤ Regex.run p s ∧ k ≤ 1
    rw [ends_symbol, List.mem_append, List.mem_singleton]
    split_ifs with h
    · rw [List.mem_singleton]
      omega
    · simp only [List.not_mem_nil, false_or]
      omega
  | star =>
    change k ∈ Regex.ends (.star (.symbol p)) s ↔ k ≤ Regex.run p s ∧ True
    rw [Regex.ends_star_symbol, List.mem_reverse, List.mem_range, and_true]
    exact Nat.lt_succ_iff
  | plus =>
    change k ∈ Regex.ends (.plus (.symbol p)) s ↔ k ≤ Regex.run p s ∧ 1 ≤ k
    rw [Regex.ends_plus_symbol, List.mem_reverse, List.mem_map]
    constructor
    · rintro ⟨n, hn, rfl⟩
      rw [List.mem_range] at hn
      omega
    · rintro ⟨hle, hpos⟩
      exact ⟨k - 1, List.mem_range.2 (by omega), by omega⟩

lemma pairwise_ends : (f.regex.ends s).Pairwise (· > ·) := by
  obtain ⟨p, rep⟩ := f
  cases rep with
  | one =>
    change (Regex.ends (.symbol p) s).Pairwise (· > ·)
    rw [ends_symbol]
    split_ifs with h
    · exact List.pairwise_singleton _ _
    · exact List.Pairwise.nil
  | opt =>
    change (Regex.ends (.symbol p) s ++ [0]).Pairwise (· > ·)
    rw [ends_symbol]
    split_ifs with h
    · exact List.pairwise_pair.2 Nat.one_pos
    · exact List.pairwise_singleton _ _
  | star =>
    change (Regex.ends (.star (.symbol p)) s).Pairwise (· > ·)
    rw [Regex.ends_star_symbol, List.pairwise_reverse]
    exact List.pairwise_lt_range
  | plus =>
    change (Regex.ends (.plus (.symbol p)) s).Pairwise (· > ·)
    rw [Regex.ends_plus_symbol, List.pairwise_reverse, List.pairwise_map]
    exact List.pairwise_lt_range.imp fun h => Nat.succ_lt_succ h

end Step

variable {α : Type*}

lemma LongestFirst.step {l : List ℕ} (h : LongestFirst l) (f : Step α) (s : List α) :
    LongestFirst (l.flatMap fun k => (f.regex.ends (s.drop k)).map (k + ·)) := by
  refine LongestFirst.flatMap (fun a _ => ?_) h fun a _ b _ hab k hk n hn hlt => ?_
  · refine List.pairwise_map.2 (Step.pairwise_ends.imp fun hgt => ?_)
    exact Nat.add_lt_add_left hgt a
  · obtain ⟨i, hi, rfl⟩ := List.mem_map.1 hk
    obtain ⟨j, hj, rfl⟩ := List.mem_map.1 hn
    obtain ⟨hrun, hallows⟩ := Step.mem_ends_iff.1 hj
    -- the run from `b` goes on at `a`
    have hsplit := Regex.run_eq_add_run_drop (p := f.cls) (s := s.drop b) (i := a - b) (by omega)
    rw [List.drop_drop, Nat.add_sub_cancel' hab] at hsplit
    refine List.mem_map.2 ⟨b + j - a, Step.mem_ends_iff.2 ⟨by omega, ?_⟩, by omega⟩
    exact hallows.of_le (by omega) (by omega)

/-! ## What a sequence matches -/

/-- The words that a sequence of steps matches. -/
def Matched : List (Step α) → List α → Prop
  | [], w => w = []
  | f :: steps, w => ∃ u v, w = u ++ v ∧ (∀ c ∈ u, f.cls c = true) ∧ f.rep.Allows u.length ∧
    Matched steps v

lemma matched_append {steps steps' : List (Step α)} {w w' : List α} (h : Matched steps w)
    (h' : Matched steps' w') : Matched (steps ++ steps') (w ++ w') := by
  induction steps generalizing w with
  | nil =>
    rw [Matched] at h
    rw [h]
    exact h'
  | cons f steps ih =>
    obtain ⟨u, v, rfl, hu, hallows, hv⟩ := h
    exact ⟨u, v ++ w', List.append_assoc _ _ _, hu, hallows, ih hv⟩

lemma exists_of_matched_append {steps steps' : List (Step α)} {w : List α}
    (h : Matched (steps ++ steps') w) :
    ∃ u v, w = u ++ v ∧ Matched steps u ∧ Matched steps' v := by
  induction steps generalizing w with
  | nil => exact ⟨[], w, rfl, rfl, h⟩
  | cons f steps ih =>
    obtain ⟨u, v, rfl, hu, hallows, hv⟩ := h
    obtain ⟨v', w', rfl, hv', hw'⟩ := ih hv
    exact ⟨u ++ v', w', (List.append_assoc _ _ _).symm, ⟨u, v', rfl, hu, hallows, hv'⟩, hw'⟩

namespace Regex

def empty : Regex α := notAhead fun _ => false

def sequence : List (Regex α) → Regex α
  | [] => empty
  | r :: rs => seq r (sequence rs)

/-- The last ones, each optional where a further one is missing, read from the back. -/
def backward : List (Regex α) → Regex α
  | [] => empty
  | [r] => r
  | r :: r' :: rs => seq (opt (backward (r' :: rs))) r

end Regex

/-- A regular expression matches what the steps match. -/
def MatchesSteps (r : Regex α) (steps : List (Step α)) : Prop :=
  ∀ s k, k ∈ r.ends s ↔ k ≤ s.length ∧ Matched steps (s.take k)

lemma MatchesSteps.seq {r t : Regex α} {steps steps' : List (Step α)} (hr : MatchesSteps r steps)
    (ht : MatchesSteps t steps') : MatchesSteps (.seq r t) (steps ++ steps') := by
  intro s k
  rw [Regex.ends, List.mem_flatMap]
  constructor
  · rintro ⟨i, hi, hk⟩
    obtain ⟨j, hj, rfl⟩ := List.mem_map.1 hk
    obtain ⟨hle, hmatched⟩ := (hr s i).1 hi
    obtain ⟨hle', hmatched'⟩ := (ht _ j).1 hj
    rw [List.length_drop] at hle'
    rw [List.take_add]
    exact ⟨by omega, matched_append hmatched hmatched'⟩
  · rintro ⟨hle, hmatched⟩
    obtain ⟨u, v, huv, hu, hv⟩ := exists_of_matched_append hmatched
    have hlength := congrArg List.length huv
    rw [List.length_take, List.length_append, min_eq_left hle] at hlength
    have htake : s.take u.length = u := by
      have htake := congrArg (List.take u.length) huv
      rwa [List.take_take, min_eq_left (by omega), List.take_left] at htake
    have hdrop : (s.drop u.length).take v.length = v := by
      have hdrop := congrArg (List.drop u.length) huv
      rwa [List.drop_take, List.drop_left, show k - u.length = v.length by omega] at hdrop
    refine ⟨u.length, (hr s _).2 ⟨by omega, htake.symm ▸ hu⟩, List.mem_map.2 ⟨v.length, ?_, by omega⟩⟩
    refine (ht _ _).2 ⟨?_, hdrop.symm ▸ hv⟩
    rw [List.length_drop]
    omega

end IFairy
