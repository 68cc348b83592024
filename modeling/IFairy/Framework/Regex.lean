import Mathlib.Data.List.TakeWhile

/-!
# Regular expressions with backtracking

A regular expression is read as an engine that backtracks reads it: `ends` lists the lengths of the
matches at the front of a text in the order in which they are tried, so the first alternative comes
first and a repetition prefers more rounds.  `Splits` cuts a text into the leftmost matches, each
the one that is tried first, and what lies between them.

Runs of symbols of one class are described by `run`; the first match of the usual combinations of
runs is a number computed from it.
-/

namespace IFairy

/-- Regular expressions over symbols of type `α`, with repetitions that are greedy. -/
inductive Regex (α : Type*)
  | symbol (p : α → Bool)
  | seq (r t : Regex α)
  | alt (r t : Regex α)
  | opt (r : Regex α)
  | star (r : Regex α)
  | notAhead (p : α → Bool)

namespace Regex

variable {α : Type*}

/-- `r+`. -/
def plus (r : Regex α) : Regex α := seq r (star r)

/-- `r{1,n+1}`. -/
def upTo (r : Regex α) : ℕ → Regex α
  | 0 => r
  | n + 1 => seq r (opt (upTo r n))

/-! ## Matches -/

/-- The matches of a repetition of what matches as `m` says; a round that takes nothing is not
tried. -/
def starEnds (m : List α → List ℕ) : ℕ → List α → List ℕ
  | 0, _ => [0]
  | fuel + 1, s =>
    ((m s).filter (0 < ·)).flatMap (fun k => (starEnds m fuel (s.drop k)).map (k + ·)) ++ [0]

/-- The lengths of the matches at the front of a text, in the order in which they are tried. -/
def ends : Regex α → List α → List ℕ
  | symbol _, [] => []
  | symbol p, c :: _ => if p c then [1] else []
  | seq r t, s => (ends r s).flatMap fun k => (ends t (s.drop k)).map (k + ·)
  | alt r t, s => ends r s ++ ends t s
  | opt r, s => ends r s ++ [0]
  | star r, s => starEnds (ends r) s.length s
  | notAhead p, s => if s.head?.any p then [] else [0]

/-- The match at the front that is tried first. -/
def firstEnd (r : Regex α) (s : List α) : Option ℕ := (ends r s).head?

/-- Where the leftmost match starts, and its length. -/
def search (r : Regex α) : List α → Option (ℕ × ℕ)
  | [] => (firstEnd r []).map fun k => (0, k)
  | c :: s =>
    match firstEnd r (c :: s) with
    | some k => some (0, k)
    | none => (search r s).map fun (i, k) => (i + 1, k)

/-- A piece of a text, unless it is empty. -/
def piece (n : ℕ) : List ℕ := if n = 0 then [] else [n]

/-- A text is cut into the matches found one after the other and what lies between them. -/
inductive Splits (r : Regex α) : List α → List ℕ → Prop
  | done {s : List α} : search r s = none → Splits r s (piece s.length)
  | step {s : List α} {i k : ℕ} {lengths : List ℕ} : search r s = some (i, k) → 0 < k →
      Splits r (s.drop (i + k)) lengths → Splits r s (piece i ++ k :: lengths)

theorem Splits.unique {r : Regex α} {s : List α} {lengths lengths' : List ℕ}
    (h : Splits r s lengths) (h' : Splits r s lengths') : lengths = lengths' := by
  induction h generalizing lengths' with
  | done hnone =>
    cases h' with
    | done _ => rfl
    | step hsome _ _ => rw [hnone] at hsome; cases hsome
  | step hsome hk _ ih =>
    cases h' with
    | done hnone => rw [hnone] at hsome; cases hsome
    | step hsome' hk' hrest =>
      obtain ⟨rfl, rfl⟩ := Prod.mk.inj (Option.some.inj (hsome.symm.trans hsome'))
      rw [ih hrest]

/-! ## The first match -/

variable {r t : Regex α} {p q : α → Bool} {s : List α}

lemma firstEnd_alt : firstEnd (alt r t) s = (firstEnd r s).or (firstEnd t s) :=
  List.head?_append

lemma firstEnd_seq : firstEnd (seq r t) s =
    (ends r s).findSome? fun k => (firstEnd t (s.drop k)).map (k + ·) := by
  rw [firstEnd, ends, List.head?_flatMap]
  simp only [List.head?_map]
  rfl

lemma le_length_of_mem_starEnds {m : List α → List ℕ} (hm : ∀ s, ∀ k ∈ m s, k ≤ s.length)
    {fuel k : ℕ} (hk : k ∈ starEnds m fuel s) : k ≤ s.length := by
  induction fuel generalizing s k with
  | zero =>
    rw [List.mem_singleton.1 hk]
    exact Nat.zero_le _
  | succ fuel ih =>
    rw [starEnds, List.mem_append] at hk
    rcases hk with hk | hk
    · obtain ⟨i, hi, hrest⟩ := List.mem_flatMap.1 hk
      obtain ⟨j, hj, rfl⟩ := List.mem_map.1 hrest
      have hle := hm s i (List.mem_filter.1 hi).1
      have hrest := ih hj
      rw [List.length_drop] at hrest
      omega
    · rw [List.mem_singleton.1 hk]
      exact Nat.zero_le _

lemma le_length_of_mem_ends {k : ℕ} (hk : k ∈ ends r s) : k ≤ s.length := by
  induction r generalizing s k with
  | symbol p =>
    cases s with
    | nil => cases hk
    | cons c s =>
      rw [ends] at hk
      split_ifs at hk
      · rw [List.mem_singleton.1 hk]
        exact Nat.le_add_left 1 _
      · cases hk
  | seq r t ihr iht =>
    obtain ⟨i, hi, hrest⟩ := List.mem_flatMap.1 hk
    obtain ⟨j, hj, rfl⟩ := List.mem_map.1 hrest
    have hle := ihr hi
    have hrest := iht hj
    rw [List.length_drop] at hrest
    omega
  | alt r t ihr iht => exact (List.mem_append.1 hk).elim ihr iht
  | opt r ih =>
    refine (List.mem_append.1 hk).elim ih fun hzero => ?_
    rw [List.mem_singleton.1 hzero]
    exact Nat.zero_le _
  | star r ih => exact le_length_of_mem_starEnds (fun _ _ => ih) hk
  | notAhead p =>
    rw [ends] at hk
    split_ifs at hk
    · cases hk
    · rw [List.mem_singleton.1 hk]
      exact Nat.zero_le _

lemma le_length_of_firstEnd {k : ℕ} (h : firstEnd r s = some k) : k ≤ s.length :=
  le_length_of_mem_ends (List.mem_of_mem_head? h)

/-! ## Runs -/

/-- How many symbols of a class a text starts with. -/
def run (p : α → Bool) (s : List α) : ℕ := (s.takeWhile p).length

@[simp] lemma run_nil : run p [] = 0 := rfl

lemma run_cons {c : α} : run p (c :: s) = if p c then run p s + 1 else 0 := by
  rw [run, List.takeWhile_cons]
  split <;> rfl

lemma run_le : run p s ≤ s.length := (List.takeWhile_prefix p).length_le

lemma run_pos_iff : 0 < run p s ↔ s.head?.any p = true := by
  cases s with
  | nil => simp
  | cons c s =>
    rw [run_cons]
    cases h : p c <;> simp [h]

lemma head?_drop_run : (s.drop (run p s)).head?.any p = false := by
  induction s with
  | nil => rfl
  | cons c s ih =>
    rw [run_cons]
    split_ifs with h
    · exact ih
    · exact Bool.eq_false_iff.2 h

lemma run_eq_add_run_drop {i : ℕ} (hi : i ≤ run p s) : run p s = i + run p (s.drop i) := by
  induction i generalizing s with
  | zero => rw [List.drop_zero, Nat.zero_add]
  | succ i ih =>
    cases s with
    | nil => exact absurd hi (Nat.not_succ_le_zero i)
    | cons c s =>
      rw [run_cons] at hi ⊢
      split_ifs at hi ⊢
      · rw [List.drop_succ_cons, ih (Nat.le_of_succ_le_succ hi)]
        omega
      · exact absurd hi (Nat.not_succ_le_zero i)

lemma any_getElem?_of_lt_run {i : ℕ} (hi : i < run p s) : s[i]?.any p = true := by
  induction s generalizing i with
  | nil => exact absurd hi (Nat.not_lt_zero i)
  | cons c s ih =>
    rw [run_cons] at hi
    split_ifs at hi with h
    · cases i with
      | zero => exact h
      | succ i => exact ih (Nat.lt_of_succ_lt_succ hi)
    · exact absurd hi (Nat.not_lt_zero i)

lemma ends_star_symbol : ends (star (symbol p)) s = (List.range (run p s + 1)).reverse := by
  have hfuel : ∀ fuel (s : List α), s.length ≤ fuel →
      starEnds (ends (symbol p)) fuel s = (List.range (run p s + 1)).reverse := by
    intro fuel
    induction fuel with
    | zero =>
      intro s hs
      rw [List.length_eq_zero_iff.1 (Nat.le_zero.1 hs)]
      rfl
    | succ fuel ih =>
      intro s hs
      cases s with
      | nil => rfl
      | cons c s =>
        rw [starEnds, ends, run_cons]
        split_ifs with h
        · have hone : [1].filter (fun k => decide (0 < k)) = [1] := rfl
          rw [hone, List.flatMap_singleton, List.drop_succ_cons, List.drop_zero,
            ih s (Nat.le_of_succ_le_succ hs), List.range_succ_eq_map (n := run p s + 1),
            List.reverse_cons, ← List.map_reverse]
          simp only [Nat.add_comm 1]
        · rfl
  exact hfuel _ _ le_rfl

lemma ends_plus_symbol :
    ends (plus (symbol p)) s = ((List.range (run p s)).map (· + 1)).reverse := by
  cases s with
  | nil => rfl
  | cons c s =>
    rw [plus, ends, ends, run_cons]
    split_ifs with h
    · rw [List.flatMap_singleton, List.drop_succ_cons, List.drop_zero, ends_star_symbol,
        ← List.map_reverse]
      simp only [Nat.add_comm 1]
    · rfl

def positive (n : ℕ) : Option ℕ := if 0 < n then some n else none

lemma positive_zero : positive 0 = none := rfl

lemma positive_of_pos {n : ℕ} (h : 0 < n) : positive n = some n := if_pos h

lemma firstEnd_plus_symbol : firstEnd (plus (symbol p)) s = positive (run p s) := by
  rw [firstEnd, ends_plus_symbol, positive]
  cases run p s with
  | zero => rfl
  | succ n =>
    rw [List.range_succ, List.map_append, List.reverse_append, if_pos n.succ_pos]
    rfl

lemma firstEnd_upTo_symbol {n : ℕ} :
    firstEnd (upTo (symbol p) n) s = positive (min (n + 1) (run p s)) := by
  induction n generalizing s with
  | zero =>
    cases s with
    | nil => rfl
    | cons c s =>
      rw [upTo, firstEnd, ends, run_cons]
      split_ifs with h
      · rw [Nat.min_eq_left (Nat.le_add_left 1 _)]
        rfl
      · rfl
  | succ n ih =>
    cases s with
    | nil => rfl
    | cons c s =>
      rw [upTo, firstEnd_seq, ends, run_cons]
      split_ifs with h
      · have hopt : firstEnd (opt (upTo (symbol p) n)) s = some (min (n + 1) (run p s)) := by
          rw [firstEnd, ends, List.head?_append, ← firstEnd, ih, positive]
          split_ifs with hpos
          · rfl
          · rw [Nat.eq_zero_of_not_pos hpos]
            rfl
        rw [List.findSome?_singleton, List.drop_succ_cons, List.drop_zero, hopt, Option.map_some,
          positive, if_pos (by omega), Nat.add_comm 1, Nat.succ_min_succ]
      · rfl

/-- How many symbols an optional one of a class takes. -/
def lead (q : α → Bool) (s : List α) : ℕ := if s.head?.any q then 1 else 0

lemma firstEnd_lead_plus (hpq : ∀ c, q c = true → p c = false) :
    firstEnd (seq (opt (symbol q)) (plus (symbol p))) s =
      (positive (run p (s.drop (lead q s)))).map (lead q s + ·) := by
  cases s with
  | nil => rfl
  | cons c s =>
    rw [firstEnd_seq, ends, ends, lead, List.head?_cons, Option.any_some]
    split_ifs with h
    · have hzero : positive (run p (c :: s)) = none := by
        rw [run_cons, hpq c h]
        rfl
      rw [List.cons_append, List.nil_append, List.findSome?_cons, firstEnd_plus_symbol,
        List.findSome?_singleton, firstEnd_plus_symbol, List.drop_zero, hzero, Option.map_none]
      cases (positive (run p (List.drop 1 (c :: s)))).map (1 + ·) <;> rfl
    · rw [List.nil_append, List.findSome?_singleton, firstEnd_plus_symbol]

lemma firstEnd_seq_star : firstEnd (seq r (star (symbol p))) s =
    (firstEnd r s).map fun k => k + run p (s.drop k) := by
  have hstar (s : List α) : firstEnd (star (symbol p)) s = some (run p s) := by
    rw [firstEnd, ends_star_symbol, List.range_succ, List.reverse_append]
    rfl
  rw [firstEnd_seq, firstEnd]
  cases ends r s with
  | nil => rfl
  | cons k l => rw [List.findSome?_cons, hstar, Option.map_some, List.head?_cons, Option.map_some]

lemma any_of_imp {o : Option α} (hpq : ∀ c, p c = true → q c = true) (h : o.any q = false) :
    o.any p = false := by
  cases o with
  | none => rfl
  | some c =>
    cases hc : p c with
    | false => exact hc
    | true => rw [Option.any_some, hpq c hc] at h; cases h

lemma run_eq_zero (h : s.head?.any p = false) : run p s = 0 := by
  by_contra hne
  rw [run_pos_iff.1 (Nat.pos_of_ne_zero hne)] at h
  cases h

lemma run_drop_eq_one {i : ℕ} (hi : s[i]?.any p = true) (hnext : s[i + 1]?.any p = false) :
    run p (s.drop i) = 1 := by
  rw [← List.head?_drop] at hi hnext
  rw [← List.tail_drop] at hnext
  cases hs : s.drop i with
  | nil => rw [hs] at hi; cases hi
  | cons c rest =>
    rw [hs] at hi hnext
    rw [run_cons, if_pos (show p c = true from hi),
      run_eq_zero (show rest.head?.any p = false from hnext)]

lemma firstEnd_star_plus (hqp : ∀ c, q c = true → p c = true) :
    firstEnd (seq (star (symbol p)) (plus (symbol q))) s =
      ((List.range (run p s)).reverse.find? fun i => s[i]?.any q).map (· + 1) := by
  -- from the last place that is tried downwards, with no such symbol behind it
  have hdown : ∀ m, s[m]?.any q = false →
      ((List.range m).reverse.findSome? fun k => (positive (run q (s.drop k))).map (k + ·)) =
      ((List.range m).reverse.find? fun i => s[i]?.any q).map (· + 1) := by
    intro m
    induction m with
    | zero => exact fun _ => rfl
    | succ m ih =>
      intro hnext
      rw [List.range_succ, List.reverse_append, List.reverse_singleton, List.singleton_append,
        List.findSome?_cons, List.find?_cons]
      cases hm : s[m]?.any q with
      | false =>
        rw [run_eq_zero (List.head?_drop ▸ hm)]
        exact ih hm
      | true =>
        rw [run_drop_eq_one hm hnext]
        rfl
  have hend : (s.drop (run p s)).head?.any q = false := any_of_imp hqp head?_drop_run
  rw [firstEnd_seq, ends_star_symbol, List.range_succ, List.reverse_append,
    List.reverse_singleton, List.singleton_append, List.findSome?_cons]
  simp only [firstEnd_plus_symbol]
  rw [run_eq_zero hend]
  exact hdown _ (List.head?_drop ▸ hend)

/-- Of a run that must not be followed by a symbol of another class, all of it at the end of the
text, and all but one symbol elsewhere. -/
lemma firstEnd_plus_notAhead (hpq : ∀ c, q c = !p c) :
    firstEnd (seq (plus (symbol p)) (notAhead q)) s =
      positive (if s.drop (run p s) = [] then run p s else run p s - 1) := by
  have hahead (s : List α) : firstEnd (notAhead q) s = if s.head?.any q then none else some 0 := by
    rw [firstEnd, ends]
    split_ifs <;> rfl
  rw [firstEnd_seq, ends_plus_symbol]
  simp only [hahead]
  generalize hn : run p s = n
  cases n with
  | zero => split_ifs <;> rfl
  | succ n =>
    rw [List.range_succ, List.map_append, List.reverse_append, List.map_singleton,
      List.reverse_singleton, List.singleton_append, List.findSome?_cons]
    have hend : (s.drop (n + 1)).head?.any p = false := hn ▸ head?_drop_run
    cases hs : s.drop (n + 1) with
    | nil => rfl
    | cons c rest =>
      rw [hs] at hend
      have hc : q c = true := by rw [hpq, Bool.not_eq_true']; exact hend
      rw [List.head?_cons, Option.any_some, if_pos hc, if_neg (List.cons_ne_nil c rest)]
      cases n with
      | zero => rfl
      | succ n =>
        have hlast : (s.drop (n + 1)).head?.any q = false := by
          rw [List.head?_drop]
          have hin : s[n + 1]?.any p = true := any_getElem?_of_lt_run (by omega)
          cases ho : s[n + 1]? with
          | none => rfl
          | some c =>
            rw [ho, Option.any_some] at hin
            rw [Option.any_some, hpq, hin, Bool.not_true]
        rw [List.range_succ, List.map_append, List.reverse_append, List.map_singleton,
          List.reverse_singleton, List.singleton_append]
        rw [Option.map_none]
        dsimp only
        rw [List.findSome?_cons, hlast]
        rfl

/-! ## Cutting a text -/

lemma search_of_firstEnd {k : ℕ} (h : firstEnd r s = some k) : search r s = some (0, k) := by
  cases s with
  | nil => rw [search, h, Option.map_some]
  | cons c s => rw [search, h]

/-- A text starts with the matches of these lengths one after the other, up to a rest. -/
inductive Takes (r : Regex α) : List α → List ℕ → List α → Prop
  | nil {s : List α} : Takes r s [] s
  | cons {s rest : List α} {k : ℕ} {lengths : List ℕ} : firstEnd r s = some k → 0 < k →
      Takes r (s.drop k) lengths rest → Takes r s (k :: lengths) rest

lemma Takes.trans {s s' s'' : List α} {lengths lengths' : List ℕ} (h : Takes r s lengths s')
    (h' : Takes r s' lengths' s'') : Takes r s (lengths ++ lengths') s'' := by
  induction h with
  | nil => exact h'
  | cons hk hpos _ ih => exact .cons hk hpos (ih h')

lemma Takes.splits {lengths : List ℕ} (h : Takes r s lengths []) (hnil : firstEnd r [] = none) :
    Splits r s lengths := by
  generalize hrest : ([] : List α) = rest at h
  induction h with
  | nil =>
    subst hrest
    exact .done (by rw [search, hnil, Option.map_none])
  | cons hk hpos _ ih =>
    refine .step (i := 0) (search_of_firstEnd hk) hpos ?_
    rw [Nat.zero_add]
    exact ih hrest

end Regex

end IFairy
