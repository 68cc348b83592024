import Mathlib.Algebra.BigOperators.Group.List.Basic
import Mathlib.Algebra.Order.Monoid.Defs
import Mathlib.Data.List.Infix

/-!
# Best segmentations

A word is cut into pieces that each have a text and a cost.  From its end to its beginning the
least cost of every suffix is found from those of the shorter ones: by the cost of the best first
piece (`Solved`).  Then no segmentation costs less (`best_le_cost`), and the first pieces one after
the other are a segmentation with the least cost (`exists_followed`).

Which pieces a suffix begins with can be read off the longest of the known words that it begins
with (`LongestIn`), when the known words are closed under suffixes.  It is found from the one of the
next suffix (`LongestIn.cons`, `LongestIn.restart`).
-/

namespace Segmentations

variable {α P K : Type*}

/-- The pieces, all of which are valid, make up the word. -/
structure Segments (text : P → List α) (valid : P → Prop) (segs : List P) (word : List α) : Prop where
  valid : ∀ p ∈ segs, valid p
  flatMap_text : segs.flatMap text = word

/-- The segmentation that takes the chosen piece again and again. -/
inductive Followed (text : P → List α) (choice : List α → P) : List α → List P → Prop where
  | nil : Followed text choice [] []
  | cons {word rest : List α} {segs : List P} (hne : word ≠ [])
    (hword : word = text (choice word) ++ rest) (hrest : Followed text choice rest segs) :
    Followed text choice word (choice word :: segs)

def cost [AddCommMonoid K] (pieceCost : P → K) (segs : List P) : K := (segs.map pieceCost).sum

variable [AddCommMonoid K] [LinearOrder K] {text : P → List α}
  {valid : P → Prop} {pieceCost : P → K} {best : List α → K} {choice : List α → P}

/-- The costs of all suffixes of the word are those of the best first pieces. -/
structure Solved (text : P → List α) (valid : P → Prop) (pieceCost : P → K) (best : List α → K)
    (choice : List α → P) (word : List α) : Prop where
  nil : best [] = 0
  ne_nil : ∀ p, valid p → text p ≠ []
  exists_choice : ∀ u, u <:+ word → u ≠ [] → valid (choice u) ∧
    ∃ rest, u = text (choice u) ++ rest ∧ best u = pieceCost (choice u) + best rest
  le : ∀ p rest, valid p → text p ++ rest <:+ word →
    best (text p ++ rest) ≤ pieceCost p + best rest

lemma best_le_cost [IsOrderedAddMonoid K] {word : List α} (h : Solved text valid pieceCost best choice word)
    {segs : List P} (hsegs : Segments text valid segs word) : best word ≤ cost pieceCost segs := by
  obtain ⟨hvalid, rfl⟩ := hsegs
  suffices hsuffix : ∀ segs', segs' <:+ segs →
      best (segs'.flatMap text) ≤ cost pieceCost segs' from hsuffix segs (List.suffix_refl _)
  intro segs' hsuffix
  induction segs' with
  | nil => exact h.nil.le
  | cons p segs' ih =>
    obtain ⟨front, rfl⟩ := hsuffix
    have hp := hvalid p (List.mem_append_right _ List.mem_cons_self)
    have hrest := ih ⟨front ++ [p], by rw [List.append_assoc, List.singleton_append]⟩
    rw [List.flatMap_append] at h
    calc best ((p :: segs').flatMap text)
        ≤ pieceCost p + best (segs'.flatMap text) := h.le p _ hp (List.suffix_append _ _)
      _ ≤ pieceCost p + cost pieceCost segs' := add_le_add_right hrest _
      _ = cost pieceCost (p :: segs') := (List.sum_cons (a := pieceCost p)).symm

lemma exists_followed {word : List α} (h : Solved text valid pieceCost best choice word) :
    ∃ segs, Followed text choice word segs ∧ Segments text valid segs word ∧
      cost pieceCost segs = best word := by
  suffices hsuffix : ∀ n u, u.length = n → u <:+ word → ∃ segs, Followed text choice u segs ∧
      Segments text valid segs u ∧ cost pieceCost segs = best u from
    hsuffix _ word rfl (List.suffix_refl _)
  intro n
  induction n using Nat.strongRecOn with
  | ind n ih =>
    intro u hn hu
    by_cases hne : u = []
    · subst hne
      exact ⟨[], .nil, ⟨fun p hp => absurd hp List.not_mem_nil, rfl⟩, h.nil.symm⟩
    obtain ⟨hvalid, rest, hrest, hbest⟩ := h.exists_choice u hu hne
    have hlength := congrArg List.length hrest
    have hpos := List.length_pos_iff.2 (h.ne_nil _ hvalid)
    rw [List.length_append] at hlength
    have hsuffix : rest <:+ u := ⟨_, hrest.symm⟩
    obtain ⟨segs, hfollowed, hsegs, hcost⟩ := ih rest.length (by omega) rest rfl
      (hsuffix.trans hu)
    refine ⟨choice u :: segs, .cons hne hrest hfollowed, ⟨?_, ?_⟩, ?_⟩
    · exact List.forall_mem_cons.2 ⟨hvalid, hsegs.valid⟩
    · rw [List.flatMap_cons, hsegs.flatMap_text]
      exact hrest.symm
    · rw [hbest, ← hcost]
      exact List.sum_cons

/-! ## Known words -/

/-- The longest of the known words that `u` begins with. -/
structure LongestIn (known : List α → Prop) (u s : List α) : Prop where
  mem : known s
  isPrefix : s <+: u
  longest : ∀ t, known t → t <+: u → t <+: s

variable {known : List α → Prop}

/-- A known word that begins with `c` goes on with a beginning of the longest one behind it. -/
lemma LongestIn.tail_isPrefix (hclosed : ∀ c t, known (c :: t) → known t) {c : α}
    {rest s t : List α} (h : LongestIn known rest s) (ht : known (c :: t))
    (hpre : c :: t <+: c :: rest) : t <+: s :=
  h.longest t (hclosed c t ht) ((List.cons_prefix_cons.1 hpre).2)

lemma LongestIn.cons (hclosed : ∀ c t, known (c :: t) → known t) {c : α} {rest s t : List α}
    (h : LongestIn known rest s) (ht : known (c :: t)) (hts : t <+: s)
    (hbest : ∀ q, q <+: s → known (c :: q) → q <+: t) : LongestIn known (c :: rest) (c :: t) where
  mem := ht
  isPrefix := List.cons_prefix_cons.2 ⟨rfl, hts.trans h.isPrefix⟩
  longest := by
    rintro (- | ⟨d, q⟩) hq hpre
    · exact List.nil_prefix
    · obtain rfl := (List.cons_prefix_cons.1 hpre).1
      exact List.cons_prefix_cons.2 ⟨rfl, hbest q (h.tail_isPrefix hclosed hq hpre) hq⟩

lemma LongestIn.restart (hclosed : ∀ c t, known (c :: t) → known t) (hnil : known []) {c : α}
    {rest s : List α} (h : LongestIn known rest s) (hnone : ∀ q, q <+: s → ¬known (c :: q)) :
    LongestIn known (c :: rest) [] where
  mem := hnil
  isPrefix := List.nil_prefix
  longest := by
    rintro (- | ⟨d, q⟩) hq hpre
    · exact List.nil_prefix
    · obtain rfl := (List.cons_prefix_cons.1 hpre).1
      exact absurd hq (hnone q (h.tail_isPrefix hclosed hq hpre))

end Segmentations
