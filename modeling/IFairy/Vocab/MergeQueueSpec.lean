import IFairy.Framework.PairMerging
import IFairy.Vocab.MergeQueue
import Mathlib.Data.List.Sort

/-!
# The queue finds the best pair

Both tokenizers come to the symbols that a scan over all neighbours comes to which merges the pair
with the greatest score or the smallest rank, the leftmost of them, and scans again
(`exists_mergeText`).  The invariant has three parts.  The living symbols are linked and cut
the text (`Linked`).  An entry whose symbols both live is about neighbours, and the left one has not
changed since (`Sound`): it can only grow by taking in the right one.  And every pair of neighbours
that may be merged has an entry (`Covered`).
-/

namespace IFairy.MergeQueue

open PairMerging

/-! ## Living symbols -/

/-- The symbols in a list are linked in its order and cut the text from an offset on. -/
def Chain (symbols : ℕ → LlmSymbol) (stop : ℕ) : Option ℕ → ℕ → List ℕ → Prop
  | _, offs, [] => offs = stop
  | prev, offs, i :: rest =>
    (symbols i).offs = offs ∧ 0 < (symbols i).n ∧ (symbols i).prev = prev ∧
      (symbols i).next = rest.head? ∧ Chain symbols stop (some i) (offs + (symbols i).n) rest

/-- The living symbols are linked in a row from the first one on, and the others are empty. -/
structure Linked (symbols : ℕ → LlmSymbol) (stop count : ℕ) (alive : List ℕ) : Prop where
  chain : Chain symbols stop none 0 alive
  sorted : alive.Pairwise (· < ·)
  lt_count : ∀ i ∈ alive, i < count
  head : 0 < count → alive.head? = some 0
  dead : ∀ i, i ∉ alive → (symbols i).n = 0

/-- The texts of the living symbols. -/
def texts (text : List UInt8) (symbols : ℕ → LlmSymbol) (alive : List ℕ) : List (List UInt8) :=
  alive.map fun i => (symbols i).toSpan.bytes text

variable {symbols symbols' : ℕ → LlmSymbol} {text : List UInt8} {stop count offs : ℕ}
  {prev : Option ℕ} {alive xs ys : List ℕ} {l r : ℕ}

lemma Chain.offs_le (h : Chain symbols stop prev offs alive) : offs ≤ stop := by
  induction alive generalizing prev offs with
  | nil => exact Nat.le_of_eq h
  | cons i rest ih => exact (Nat.le_add_right _ _).trans (ih h.2.2.2.2)

lemma Chain.congr (h : Chain symbols stop prev offs alive)
    (hsame : ∀ i ∈ alive, symbols' i = symbols i) : Chain symbols' stop prev offs alive := by
  induction alive generalizing prev offs with
  | nil => exact h
  | cons i rest ih =>
    rw [List.forall_mem_cons] at hsame
    obtain ⟨hoffs, hn, hprev, hnext, hrest⟩ := h
    rw [Chain, hsame.1]
    exact ⟨hoffs, hn, hprev, hnext, ih hrest hsame.2⟩

lemma Chain.n_pos (h : Chain symbols stop prev offs alive) {i : ℕ} (hi : i ∈ alive) :
    0 < (symbols i).n := by
  induction alive generalizing prev offs with
  | nil => cases hi
  | cons j rest ih =>
    rcases List.mem_cons.1 hi with rfl | hmem
    · exact h.2.1
    · exact ih h.2.2.2.2 hmem

lemma Chain.neighbours (h : Chain symbols stop prev offs (xs ++ l :: r :: ys)) :
    (symbols l).offs + (symbols l).n = (symbols r).offs ∧
      (symbols r).offs + (symbols r).n ≤ stop ∧ (symbols l).next = some r ∧
      (symbols r).next = ys.head? ∧
      (symbols l).prev = (if xs = [] then prev else xs.getLast?) := by
  induction xs generalizing prev offs with
  | nil =>
    obtain ⟨hoffs, -, hprev, hnext, hoffs', -, -, hnext', hrest⟩ := h
    refine ⟨by rw [hoffs, hoffs'], ?_, hnext, hnext', hprev⟩
    rw [hoffs']
    exact hrest.offs_le
  | cons x xs ih =>
    obtain ⟨hadj, hle, hnext, hnext', hprev⟩ := ih h.2.2.2.2
    refine ⟨hadj, hle, hnext, hnext', ?_⟩
    rw [hprev, if_neg (List.cons_ne_nil x xs), List.getLast?_cons]
    cases xs with
    | nil => rfl
    | cons y xs => rw [if_neg (List.cons_ne_nil y xs)]; rfl

lemma Chain.flatten_texts (h : Chain symbols text.length prev offs alive) :
    (texts text symbols alive).flatten = text.drop offs := by
  induction alive generalizing prev offs with
  | nil =>
    rw [show offs = text.length from h, List.drop_length]
    rfl
  | cons i rest ih =>
    obtain ⟨hoffs, -, -, -, hrest⟩ := h
    have htail := ih hrest
    rw [texts] at htail ⊢
    rw [List.map_cons, List.flatten_cons, htail, Span.bytes, hoffs, ← List.drop_drop,
      List.take_append_drop]

lemma Chain.walk_eq (h : Chain symbols stop prev offs alive) {rounds : ℕ}
    (hrounds : alive.length ≤ rounds) :
    walk text symbols rounds alive.head? = texts text symbols alive := by
  induction alive generalizing prev offs rounds with
  | nil => cases rounds <;> rfl
  | cons i rest ih =>
    cases rounds with
    | zero => exact absurd hrounds (Nat.not_succ_le_zero _)
    | succ rounds =>
      obtain ⟨-, -, -, hnext, hrest⟩ := h
      rw [List.head?_cons, walk, Option.elim_some, hnext, ih hrest (Nat.le_of_succ_le_succ hrounds)]
      rfl

/-! ## Merging two neighbours -/

lemma mergeSymbols_of_ne {i : ℕ} (hl : i ≠ l) (hr : i ≠ r) (hq : (symbols r).next ≠ some i) :
    mergeSymbols l r symbols i = symbols i := by
  rw [mergeSymbols]
  cases hnext : (symbols r).next with
  | none => rw [Option.elim_none, Function.update_of_ne hr, Function.update_of_ne hl]
  | some q =>
    have hne : i ≠ q := fun heq => hq (hnext.trans (congrArg some heq.symm))
    rw [Option.elim_some, Function.update_of_ne hne, Function.update_of_ne hr,
      Function.update_of_ne hl]

lemma mergeSymbols_next {q : ℕ} (hl : q ≠ l) (hr : q ≠ r) (hq : (symbols r).next = some q) :
    mergeSymbols l r symbols q = { symbols q with prev := some l } := by
  rw [mergeSymbols]
  simp only [hq, Option.elim_some]
  rw [Function.update_self, Function.update_of_ne hr, Function.update_of_ne hl]

variable (symbols) in
lemma mergeSymbols_left (hne : l ≠ r) (hq : (symbols r).next ≠ some l) :
    mergeSymbols l r symbols l =
      { symbols l with n := (symbols l).n + (symbols r).n, next := (symbols r).next } := by
  rw [mergeSymbols]
  cases hnext : (symbols r).next with
  | none => rw [Option.elim_none, Function.update_of_ne hne, Function.update_self]
  | some q =>
    have hlq : l ≠ q := fun heq => hq (hnext.trans (congrArg some heq.symm))
    rw [Option.elim_some, Function.update_of_ne hlq, Function.update_of_ne hne,
      Function.update_self]

lemma mergeSymbols_right_n : (mergeSymbols l r symbols r).n = 0 := by
  rw [mergeSymbols]
  cases (symbols r).next with
  | none => rw [Option.elim_none, Function.update_self]
  | some q =>
    rw [Option.elim_some]
    by_cases hq : r = q
    · subst hq
      rw [Function.update_self, Function.update_self]
    · rw [Function.update_of_ne hq, Function.update_self]

lemma Chain.relink {i j : ℕ} {zs : List ℕ} (h : Chain symbols stop (some i) offs zs)
    (hhead : ∀ q, zs.head? = some q → symbols' q = { symbols q with prev := some j })
    (htail : ∀ q ∈ zs.tail, symbols' q = symbols q) : Chain symbols' stop (some j) offs zs := by
  cases zs with
  | nil => exact h
  | cons q zs =>
    obtain ⟨hoffs, hn, -, hnext, hrest⟩ := h
    rw [Chain, hhead q rfl]
    exact ⟨hoffs, hn, rfl, hnext, hrest.congr htail⟩

lemma Chain.merge (h : Chain symbols stop prev offs (xs ++ l :: r :: ys))
    (hsorted : (xs ++ l :: r :: ys).Pairwise (· < ·)) :
    Chain (mergeSymbols l r symbols) stop prev offs (xs ++ l :: ys) := by
  have hnext := h.neighbours.2.2.2.1
  induction xs generalizing prev offs with
  | nil =>
    obtain ⟨hoffs, hn, hprev, -, hoffs', hn', -, -, hrest⟩ := h
    rw [List.nil_append, List.pairwise_cons, List.pairwise_cons] at hsorted
    obtain ⟨hl, hr, hys⟩ := hsorted
    have hlr : l < r := hl r List.mem_cons_self
    have hly : ∀ y ∈ ys, l < y := fun y hy => hl y (List.mem_cons_of_mem r hy)
    have hleft := mergeSymbols_left symbols hlr.ne fun hq => by
      rw [hnext] at hq
      exact (hly l (List.mem_of_mem_head? hq)).ne rfl
    rw [List.nil_append, Chain, hleft]
    refine ⟨hoffs, Nat.add_pos_left hn _, hprev, hnext, ?_⟩
    dsimp only
    rw [← Nat.add_assoc]
    refine hrest.relink (fun q hq => ?_) fun q hq => ?_
    · have hmem := List.mem_of_mem_head? hq
      exact mergeSymbols_next (hly q hmem).ne' (hr q hmem).ne' (hnext.trans hq)
    · have hmem := List.mem_of_mem_tail hq
      refine mergeSymbols_of_ne (hly q hmem).ne' (hr q hmem).ne' fun heq => ?_
      rw [hnext] at heq
      cases ys with
      | nil => cases heq
      | cons y ys =>
        rw [List.head?_cons, Option.some_inj] at heq
        exact ((List.pairwise_cons.1 hys).1 q hq).ne heq
  | cons x xs ih =>
    obtain ⟨hoffs, hn, hprev, hnext', hrest⟩ := h
    rw [List.cons_append, List.pairwise_cons] at hsorted
    have hxl : x < l := hsorted.1 l (by simp)
    have hxr : x < r := hsorted.1 r (by simp)
    have hsame : mergeSymbols l r symbols x = symbols x :=
      mergeSymbols_of_ne hxl.ne hxr.ne fun heq => by
        rw [hnext] at heq
        have hmem := List.mem_of_mem_head? heq
        exact (hsorted.1 x (by simp [hmem])).ne rfl
    rw [List.cons_append, Chain, hsame]
    refine ⟨hoffs, hn, hprev, ?_, ih hrest hsorted.2⟩
    rw [hnext']
    cases xs <;> rfl

lemma toSpan_mergeSymbols {i : ℕ} (hl : i ≠ l) (hr : i ≠ r) :
    (mergeSymbols l r symbols i).toSpan = (symbols i).toSpan := by
  by_cases hq : (symbols r).next = some i
  · rw [mergeSymbols_next hl hr hq]
  · rw [mergeSymbols_of_ne hl hr hq]

lemma next_mergeSymbols {i : ℕ} (hl : i ≠ l) (hr : i ≠ r) :
    (mergeSymbols l r symbols i).next = (symbols i).next := by
  by_cases hq : (symbols r).next = some i
  · rw [mergeSymbols_next hl hr hq]
  · rw [mergeSymbols_of_ne hl hr hq]

lemma Span.bytes_add (s : Span) (n : ℕ) :
    Span.bytes text ⟨s.offs, s.n + n⟩ = s.bytes text ++ Span.bytes text ⟨s.offs + s.n, n⟩ := by
  rw [bytes, bytes, bytes, List.take_add, List.drop_drop]

namespace Linked

variable (h : Linked symbols stop count (xs ++ l :: r :: ys))

include h

lemma ne_of_mem : l ≠ r ∧ (∀ i ∈ xs, i ≠ l ∧ i ≠ r) ∧ ∀ i ∈ ys, i ≠ l ∧ i ≠ r := by
  obtain ⟨-, hpair, hcross⟩ := List.pairwise_append.1 h.sorted
  rw [List.pairwise_cons, List.pairwise_cons] at hpair
  refine ⟨(hpair.1 r List.mem_cons_self).ne, fun i hi => ⟨?_, ?_⟩, fun i hi => ⟨?_, ?_⟩⟩
  · exact (hcross i hi l List.mem_cons_self).ne
  · exact (hcross i hi r (List.mem_cons_of_mem l List.mem_cons_self)).ne
  · exact (hpair.1 i (List.mem_cons_of_mem r hi)).ne'
  · exact (hpair.2.1 i hi).ne'

lemma mem_of_merged {i : ℕ} (hi : i ∈ xs ++ l :: ys) : i ∈ xs ++ l :: r :: ys ∧ i ≠ r := by
  obtain ⟨hlr, hxs, hys⟩ := h.ne_of_mem
  rcases List.mem_append.1 hi with hx | hy
  · exact ⟨List.mem_append_left _ hx, (hxs i hx).2⟩
  · rcases List.mem_cons.1 hy with rfl | hy
    · exact ⟨by simp, hlr⟩
    · exact ⟨by simp [hy], (hys i hy).2⟩

lemma next_right : (symbols r).next = ys.head? := h.chain.neighbours.2.2.2.1

lemma left_eq : mergeSymbols l r symbols l =
    { symbols l with n := (symbols l).n + (symbols r).n, next := ys.head? } := by
  rw [← h.next_right]
  refine mergeSymbols_left symbols h.ne_of_mem.1 fun hq => ?_
  rw [h.next_right] at hq
  exact (h.ne_of_mem.2.2 l (List.mem_of_mem_head? hq)).1 rfl

lemma merge : Linked (mergeSymbols l r symbols) stop count (xs ++ l :: ys) where
  chain := h.chain.merge h.sorted
  sorted := h.sorted.sublist ((List.Sublist.refl xs).append
    ((List.sublist_cons_self r ys).cons_cons l))
  lt_count i hi := h.lt_count i (h.mem_of_merged hi).1
  head hcount := by
    have hhead := h.head hcount
    cases xs <;> exact hhead
  dead i hi := by
    by_cases hr : i = r
    · rw [hr, mergeSymbols_right_n]
    · have hl : i ≠ l := fun heq => hi (heq ▸ by simp)
      rw [toSpan_mergeSymbols hl hr]
      refine h.dead i fun hmem => hi ?_
      rcases List.mem_append.1 hmem with hx | hy
      · exact List.mem_append_left _ hx
      · rcases List.mem_cons.1 hy with rfl | hy
        · simp
        · rcases List.mem_cons.1 hy with rfl | hy
          · exact absurd rfl hr
          · simp [hy]

lemma texts_merge : texts text (mergeSymbols l r symbols) (xs ++ l :: ys) =
    mergeAt (· ++ ·) xs.length (texts text symbols (xs ++ l :: r :: ys)) := by
  obtain ⟨hlr, hxs, hys⟩ := h.ne_of_mem
  have hspan : (mergeSymbols l r symbols l).toSpan.bytes text =
      (symbols l).toSpan.bytes text ++ (symbols r).toSpan.bytes text := by
    rw [h.left_eq]
    refine (Span.bytes_add _ _).trans ?_
    rw [h.chain.neighbours.1]
  have hothers (zs : List ℕ) (hzs : ∀ i ∈ zs, i ≠ l ∧ i ≠ r) :
      texts text (mergeSymbols l r symbols) zs = texts text symbols zs :=
    List.map_congr_left fun i hi => by rw [toSpan_mergeSymbols (hzs i hi).1 (hzs i hi).2]
  have happend (symbols : ℕ → LlmSymbol) (zs : List ℕ) :
      texts text symbols (xs ++ zs) = texts text symbols xs ++ texts text symbols zs :=
    List.map_append
  have hcons (symbols : ℕ → LlmSymbol) (i : ℕ) (zs : List ℕ) :
      texts text symbols (i :: zs) = (symbols i).toSpan.bytes text :: texts text symbols zs := rfl
  have hlength : (texts text symbols xs).length = xs.length := List.length_map ..
  rw [happend, happend, hcons, hcons, hcons, hspan, hothers xs hxs, hothers ys hys, ← hlength,
    mergeAt_append]

end Linked

/-! ## Neighbours by their links -/

lemma Chain.next_of_mem (h : Chain symbols stop prev offs alive) {p q : ℕ} (hp : p ∈ alive)
    (hnext : (symbols p).next = some q) :
    (∃ xs ys, alive = xs ++ p :: q :: ys) ∧ q ∈ alive ∧ (symbols q).prev = some p := by
  induction alive generalizing prev offs with
  | nil => cases hp
  | cons i rest ih =>
    obtain ⟨-, -, -, hnext', hrest⟩ := h
    rcases List.mem_cons.1 hp with rfl | hmem
    · rw [hnext] at hnext'
      cases rest with
      | nil => cases hnext'
      | cons j rest =>
        obtain rfl := Option.some.inj hnext'
        exact ⟨⟨[], rest, rfl⟩, by simp, hrest.2.2.1⟩
    · obtain ⟨⟨xs, ys, heq⟩, hq, hprev⟩ := ih hrest hmem
      exact ⟨⟨i :: xs, ys, by rw [heq]; rfl⟩, List.mem_cons_of_mem i hq, hprev⟩

lemma Chain.prev_of_mem (h : Chain symbols stop prev offs alive) {p q : ℕ} (hq : q ∈ alive)
    (hprev : (symbols q).prev = some p) :
    alive.head? = some q ∧ prev = some p ∨ p ∈ alive ∧ (symbols p).next = some q := by
  induction alive generalizing prev offs with
  | nil => cases hq
  | cons i rest ih =>
    obtain ⟨-, -, hprev', hnext', hrest⟩ := h
    rcases List.mem_cons.1 hq with rfl | hmem
    · exact .inl ⟨rfl, hprev'.symm.trans hprev⟩
    · rcases ih hrest hmem with ⟨hhead, hi⟩ | ⟨hp, hnext⟩
      · obtain rfl := Option.some.inj hi
        exact .inr ⟨List.mem_cons_self, hnext'.trans hhead⟩
      · exact .inr ⟨List.mem_cons_of_mem i hp, hnext⟩

/-! ## The queue -/

section Queue

variable {K T : Type} {rule : MergeRule K T}
  {cand : List UInt8 → List UInt8 → Option K} {s : MergeState K T} {b : LlmBigram K T}
  {P : ℕ → ℕ → Prop}

/-- The rule looks up the two texts, and the tag tells whether the right symbol has grown. -/
structure RuleFits (rule : MergeRule K T) (text : List UInt8)
    (cand : List UInt8 → List UInt8 → Option K) : Prop where
  key_eq : ∀ l r : Span, l.offs + l.n = r.offs → r.offs + r.n ≤ text.length →
    rule.key text l r = cand (l.bytes text) (r.bytes text)
  tag_inj : ∀ (l : Span) (offs n n' : ℕ), offs + n' ≤ text.length → n ≤ n' →
    rule.tag text l ⟨offs, n⟩ = rule.tag text l ⟨offs, n'⟩ → n = n'

/-- An entry whose symbols live is about neighbours, of which only the right one may have grown. -/
def Sound (rule : MergeRule K T) (text : List UInt8) (symbols : ℕ → LlmSymbol) (alive : List ℕ)
    (b : LlmBigram K T) : Prop :=
  b.left ∈ alive → b.right ∈ alive → (symbols b.left).next = some b.right ∧
    ∃ n ≤ (symbols b.right).n,
      b.tag = rule.tag text (symbols b.left).toSpan ⟨(symbols b.right).offs, n⟩ ∧
      rule.key text (symbols b.left).toSpan ⟨(symbols b.right).offs, n⟩ = some b.key

/-- A pair that may be merged has an entry. -/
def Covered (rule : MergeRule K T) (text : List UInt8) (s : MergeState K T) (l r : ℕ) : Prop :=
  ∀ key, rule.key text (s.symbols l).toSpan (s.symbols r).toSpan = some key →
    ⟨l, r, key, rule.tag text (s.symbols l).toSpan (s.symbols r).toSpan⟩ ∈ s.workQueue

/-- The invariant, with entries for those neighbours that are in `P`. -/
structure QueueInv (rule : MergeRule K T) (text : List UInt8) (count : ℕ) (P : ℕ → ℕ → Prop)
    (s : MergeState K T) (alive : List ℕ) : Prop where
  linked : Linked s.symbols text.length count alive
  sound : ∀ b ∈ s.workQueue, Sound rule text s.symbols alive b
  covered : ∀ l ∈ alive, ∀ r, (s.symbols l).next = some r → P l r → Covered rule text s l r

@[simp] lemma tryAddBigram_symbols {left right : Option ℕ} :
    (tryAddBigram rule text left right s).symbols = s.symbols := by
  rw [tryAddBigram]
  cases left with
  | none => rfl
  | some l =>
    cases right with
    | none => rfl
    | some r =>
      rw [Option.elim_some, Option.elim_some]
      dsimp only
      cases rule.key text (s.symbols l).toSpan (s.symbols r).toSpan <;> rfl

lemma workQueue_tryAddBigram (rule : MergeRule K T) (text : List UInt8) (s : MergeState K T)
    (left right : Option ℕ) :
    (tryAddBigram rule text left right s).workQueue = s.workQueue ∨
      ∃ l r key, left = some l ∧ right = some r ∧
        rule.key text (s.symbols l).toSpan (s.symbols r).toSpan = some key ∧
        (tryAddBigram rule text left right s).workQueue =
          ⟨l, r, key, rule.tag text (s.symbols l).toSpan (s.symbols r).toSpan⟩ :: s.workQueue := by
  cases left with
  | none => exact .inl rfl
  | some l =>
    cases right with
    | none => exact .inl rfl
    | some r =>
      rw [tryAddBigram, Option.elim_some, Option.elim_some]
      dsimp only
      cases hkey : rule.key text (s.symbols l).toSpan (s.symbols r).toSpan with
      | none => exact .inl rfl
      | some key => exact .inr ⟨l, r, key, rfl, rfl, hkey, rfl⟩

lemma length_tryAddBigram {left right : Option ℕ} :
    (tryAddBigram rule text left right s).workQueue.length ≤ s.workQueue.length + 1 := by
  rcases workQueue_tryAddBigram rule text s left right with heq | ⟨_, _, _, _, _, _, heq⟩
  · rw [heq]
    exact Nat.le_succ _
  · rw [heq]
    exact Nat.le_refl _

lemma covered_tryAddBigram : Covered rule text (tryAddBigram rule text (some l) (some r) s) l r := by
  intro key hkey
  rw [tryAddBigram_symbols] at hkey ⊢
  rw [tryAddBigram, Option.elim_some, Option.elim_some]
  dsimp only
  rw [hkey, Option.elim_some]
  exact List.mem_cons_self

lemma Covered.tryAddBigram {left right : Option ℕ} (h : Covered rule text s l r) :
    Covered rule text (tryAddBigram rule text left right s) l r := by
  intro key hkey
  rw [tryAddBigram_symbols] at hkey ⊢
  have hmem := h key hkey
  rcases workQueue_tryAddBigram rule text s left right with heq | ⟨_, _, _, _, _, _, heq⟩
  · rwa [heq]
  · rw [heq]
    exact List.mem_cons_of_mem _ hmem

lemma QueueInv.tryAddBigram (h : QueueInv rule text count P s alive) (left right : Option ℕ)
    (hnext : ∀ l r, left = some l → right = some r → (s.symbols l).next = some r) :
    QueueInv rule text count (fun l r => P l r ∨ left = some l ∧ right = some r)
      (tryAddBigram rule text left right s) alive where
  linked := by
    rw [tryAddBigram_symbols]
    exact h.linked
  sound b hb := by
    rw [tryAddBigram_symbols]
    rcases workQueue_tryAddBigram rule text s left right with heq | ⟨l, r, key, hl, hr, hkey, heq⟩
    · exact h.sound b (heq ▸ hb)
    · rcases List.mem_cons.1 (heq ▸ hb) with rfl | hmem
      · exact fun _ _ => ⟨hnext l r hl hr, _, Nat.le_refl _, rfl, hkey⟩
      · exact h.sound b hmem
  covered l hl r hlr hP := by
    rw [tryAddBigram_symbols] at hlr
    rcases hP with hP | ⟨rfl, rfl⟩
    · exact (h.covered l hl r hlr hP).tryAddBigram
    · exact covered_tryAddBigram

/-! ## One round -/

lemma queueInv_merge {q : List (LlmBigram K T)}
    (h : Linked s.symbols text.length count (xs ++ l :: r :: ys))
    (hsound : ∀ e ∈ q, Sound rule text s.symbols (xs ++ l :: r :: ys) e)
    (hcovered : ∀ l' ∈ xs ++ l :: r :: ys, ∀ r', (s.symbols l').next = some r' → l' ≠ l →
      Covered rule text ⟨s.symbols, q⟩ l' r') :
    QueueInv rule text count (fun l' r' => l' ≠ l ∧ r' ≠ l)
      ⟨mergeSymbols l r s.symbols, q⟩ (xs ++ l :: ys) where
  linked := h.merge
  sound e he hleft hright := by
    obtain ⟨hleft, hlr⟩ := h.mem_of_merged hleft
    obtain ⟨hright, hrr⟩ := h.mem_of_merged hright
    obtain ⟨hnext, n, hn, htag, hkey⟩ := hsound e he hleft hright
    -- the neighbour of the left symbol dies
    have hll : e.left ≠ l := fun heq => by
      rw [heq, h.chain.neighbours.2.2.1] at hnext
      exact hrr (Option.some.inj hnext).symm
    dsimp only
    rw [next_mergeSymbols hll hlr, toSpan_mergeSymbols hll hlr]
    refine ⟨hnext, n, ?_⟩
    by_cases hrl : e.right = l
    · rw [hrl] at hn htag hkey ⊢
      rw [h.left_eq]
      exact ⟨hn.trans (Nat.le_add_right _ _), htag, hkey⟩
    · rw [toSpan_mergeSymbols hrl hrr]
      exact ⟨hn, htag, hkey⟩
  covered l' hl' r' hnext hP := by
    have hr' := (h.merge.chain.next_of_mem hl' hnext).2.1
    obtain ⟨hl', hlr⟩ := h.mem_of_merged hl'
    have hrr := (h.mem_of_merged hr').2
    rw [next_mergeSymbols hP.1 hlr] at hnext
    intro key hkey
    dsimp only at hkey ⊢
    rw [toSpan_mergeSymbols hP.1 hlr, toSpan_mergeSymbols hP.2 hrr] at hkey ⊢
    exact hcovered l' hl' r' hnext hP.1 key hkey

lemma queueInv_tryBoth (h : QueueInv rule text count (fun l' r' => l' ≠ l ∧ r' ≠ l) s
    (xs ++ l :: ys)) :
    QueueInv rule text count (fun _ _ => True)
      (tryAddBigram rule text (some l) (s.symbols l).next
        (tryAddBigram rule text (s.symbols l).prev (some l) s)) (xs ++ l :: ys) := by
  have hmem : l ∈ xs ++ l :: ys := by simp
  have hfirst := h.tryAddBigram (s.symbols l).prev (some l) fun p q hp hq => by
    obtain rfl := Option.some.inj hq
    rcases h.linked.chain.prev_of_mem hmem hp with ⟨-, hnone⟩ | ⟨-, hnext⟩
    · cases hnone
    · exact hnext
  have hsecond := hfirst.tryAddBigram (some l) (s.symbols l).next
    fun p q hp hq => by
      obtain rfl := Option.some.inj hp
      rw [tryAddBigram_symbols]
      exact hq
  refine ⟨hsecond.linked, hsecond.sound, fun l' hl' r' hnext _ =>
    hsecond.covered l' hl' r' hnext ?_⟩
  rw [tryAddBigram_symbols, tryAddBigram_symbols] at hnext
  by_cases hl : l' = l
  · subst hl
    exact .inr ⟨rfl, hnext⟩
  · by_cases hr : r' = l
    · subst hr
      exact .inl (.inr ⟨(h.linked.chain.next_of_mem hl' hnext).2.2, rfl⟩)
    · exact .inl (.inl ⟨hl, hr⟩)

lemma Linked.key_eq (hfits : RuleFits rule text cand)
    (h : Linked symbols text.length count (xs ++ l :: r :: ys)) :
    keyAt cand (texts text symbols (xs ++ l :: r :: ys)) xs.length =
      rule.key text (symbols l).toSpan (symbols r).toSpan := by
  obtain ⟨hadj, hle, -⟩ := h.chain.neighbours
  rw [hfits.key_eq _ _ hadj hle, texts, List.map_append, List.map_cons, List.map_cons]
  have hlength : xs.length = (xs.map fun i => (symbols i).toSpan.bytes text).length :=
    (List.length_map ..).symm
  rw [hlength, keyAt_append]

lemma exists_neighbours (hfits : RuleFits rule text cand)
    (h : Linked symbols text.length count alive) {j : ℕ} {key : K}
    (hkey : keyAt cand (texts text symbols alive) j = some key) :
    ∃ xs l r ys, alive = xs ++ l :: r :: ys ∧ xs.length = j ∧
      rule.key text (symbols l).toSpan (symbols r).toSpan = some key := by
  obtain ⟨xs', a, c, rest, heq, hlength, -⟩ := exists_pair_of_keyAt hkey
  obtain ⟨xs, zs, rfl, hxs, hzs⟩ := List.map_eq_append_iff.1 heq
  obtain ⟨l, zs, rfl, -, hzs⟩ := List.map_eq_cons_iff.1 hzs
  obtain ⟨r, ys, rfl, -, -⟩ := List.map_eq_cons_iff.1 hzs
  have hj : xs.length = j := by rw [← hlength, ← hxs, List.length_map]
  exact ⟨xs, l, r, ys, rfl, hj, by rw [← h.key_eq hfits, hj, hkey]⟩

variable [LinearOrder K]

lemma isBest_of_max (hfits : RuleFits rule text cand)
    (h : QueueInv rule text count (fun _ _ => True) s (xs ++ b.left :: b.right :: ys))
    {rest : List (LlmBigram K T)} (hmem : ∀ e, e ∈ s.workQueue ↔ e ∈ b :: rest)
    (hmax : ∀ e ∈ rest, ¬ b.less e)
    (hkey : rule.key text (s.symbols b.left).toSpan (s.symbols b.right).toSpan = some b.key) :
    IsBest cand (texts text s.symbols (xs ++ b.left :: b.right :: ys)) xs.length b.key where
  key := (h.linked.key_eq hfits).trans hkey
  best j key hj := by
    obtain ⟨xs', l, r, ys', heq, rfl, hkey'⟩ := exists_neighbours hfits h.linked hj
    have hl : l ∈ xs ++ b.left :: b.right :: ys := by rw [heq]; simp
    have hnext : (s.symbols l).next = some r :=
      (heq ▸ h.linked.chain).neighbours.2.2.1
    have hentry := (hmem _).1 (h.covered l hl r hnext trivial key hkey')
    have hleft (hlt : xs'.length < xs.length) : l < b.left := by
      have hget (zs ws : List ℕ) (c : ℕ) : (zs ++ c :: ws)[zs.length]? = some c := by simp
      obtain ⟨hi, hvalue⟩ := List.getElem?_eq_some_iff.1 (heq ▸ hget xs' (r :: ys') l)
      obtain ⟨hi', hvalue'⟩ := List.getElem?_eq_some_iff.1 (hget xs (b.right :: ys) b.left)
      have hsorted := List.pairwise_iff_getElem.1 h.linked.sorted _ _ hi hi' hlt
      rwa [hvalue, hvalue'] at hsorted
    rcases List.mem_cons.1 hentry with hb | hrest
    · have hl : l = b.left := congrArg LlmBigram.left hb
      exact ⟨(congrArg LlmBigram.key hb).le, fun hlt => absurd hl (hleft hlt).ne⟩
    · have hle : key ≤ b.key := not_lt.1 fun hlt => hmax _ hrest (.inl hlt)
      refine ⟨hle, fun hlt => hle.lt_of_ne fun heq => hmax _ hrest (.inr ⟨heq.symm, hleft hlt⟩)⟩

lemma length_texts : (texts text symbols alive).length = alive.length := List.length_map ..

lemma QueueInv.merged_eq (hfits : RuleFits rule text cand)
    (h : QueueInv rule text count (fun _ _ => True) s alive) (hnil : s.workQueue = []) :
    PairMerging.merged cand (· ++ ·) (texts text s.symbols alive) = texts text s.symbols alive := by
  refine merged_eq_self fun j => ?_
  cases hkey : keyAt cand (texts text s.symbols alive) j with
  | none => rfl
  | some key =>
    obtain ⟨xs, l, r, ys, rfl, -, hkey⟩ := exists_neighbours hfits h.linked hkey
    have hentry := h.covered l (by simp) r h.linked.chain.neighbours.2.2.1 trivial key hkey
    rw [hnil] at hentry
    cases hentry

variable [DecidableEq T]

lemma exists_mergeStep (hfits : RuleFits rule text cand)
    (h : QueueInv rule text count (fun _ _ => True) s alive) {rest : List (LlmBigram K T)}
    (hperm : s.workQueue.Perm (b :: rest)) (hmax : ∀ e ∈ rest, ¬ b.less e) :
    ∃ alive', QueueInv rule text count (fun _ _ => True)
        (mergeStep rule text b { s with workQueue := rest }) alive' ∧
      PairMerging.merged cand (· ++ ·) (texts text s.symbols alive) =
        PairMerging.merged cand (· ++ ·)
        (texts text (mergeStep rule text b { s with workQueue := rest }).symbols alive') ∧
      (mergeStep rule text b { s with workQueue := rest }).workQueue.length + 2 * alive'.length <
        s.workQueue.length + 2 * alive.length := by
  have hmem (e : LlmBigram K T) : e ∈ s.workQueue ↔ e ∈ b :: rest := hperm.mem_iff
  have hlength : s.workQueue.length = rest.length + 1 := hperm.length_eq
  have hsound : ∀ e ∈ rest, Sound rule text s.symbols alive e := fun e he =>
    h.sound e ((hmem e).2 (List.mem_cons_of_mem b he))
  -- an entry of another pair than that of `b` is still there
  have hcovered {l r : ℕ} (hl : l ∈ alive) (hnext : (s.symbols l).next = some r)
      (hne : ∀ key, (⟨l, r, key, rule.tag text (s.symbols l).toSpan (s.symbols r).toSpan⟩ :
        LlmBigram K T) ≠ b) :
      Covered rule text ⟨s.symbols, rest⟩ l r := fun key hkey =>
    ((List.mem_cons.1 ((hmem _).1 (h.covered l hl r hnext trivial key hkey)))).resolve_left
      (hne key)
  rw [mergeStep]
  split_ifs with hstale
  · refine ⟨alive, ⟨h.linked, hsound, fun l hl r hnext _ => hcovered hl hnext fun key hb => ?_⟩,
      rfl, by dsimp only; omega⟩
    subst hb
    rcases hstale with hzero | hzero | htag
    · exact (h.linked.chain.n_pos hl).ne' hzero
    · exact (h.linked.chain.n_pos (h.linked.chain.next_of_mem hl hnext).2.1).ne' hzero
    · exact htag rfl
  · simp only [not_or, not_not] at hstale
    obtain ⟨hn, hn', htag⟩ := hstale
    have hleft : b.left ∈ alive := by
      by_contra hdead
      exact hn (h.linked.dead _ hdead)
    have hright : b.right ∈ alive := by
      by_contra hdead
      exact hn' (h.linked.dead _ hdead)
    obtain ⟨hnext, n, hle, htag', hkey⟩ := h.sound b ((hmem b).2 List.mem_cons_self) hleft hright
    obtain ⟨⟨xs, ys, rfl⟩, -⟩ := h.linked.chain.next_of_mem hleft hnext
    have hgrown : n = (s.symbols b.right).n :=
      hfits.tag_inj _ _ _ _ h.linked.chain.neighbours.2.1 hle (htag'.symm.trans htag.symm)
    rw [hgrown] at hkey
    have hbest := isBest_of_max hfits h hmem hmax hkey
    refine ⟨xs ++ b.left :: ys, queueInv_tryBoth (queueInv_merge h.linked hsound
      fun l hl r hnext hne => hcovered hl hnext fun key hb => hne (congrArg LlmBigram.left hb)),
      ?_, ?_⟩
    · rw [merged_eq_of_isBest hbest, tryAddBigram_symbols, tryAddBigram_symbols,
        h.linked.texts_merge]
    · refine (Nat.add_le_add_right ((length_tryAddBigram).trans
        (Nat.add_le_add_right length_tryAddBigram 1)) _).trans_lt ?_
      dsimp only
      rw [hlength, List.length_append, List.length_append, List.length_cons, List.length_cons,
        List.length_cons]
      omega

lemma exists_mergeLoop (hfits : RuleFits rule text cand) (queue : PriorityQueue K T)
    (h : QueueInv rule text count (fun _ _ => True) s alive) (rounds : ℕ)
    (hrounds : s.workQueue.length + 2 * alive.length ≤ rounds) :
    ∃ s' alive', mergeLoop rule queue text rounds s = some s' ∧
      Linked s'.symbols text.length count alive' ∧
      texts text s'.symbols alive' =
        PairMerging.merged cand (· ++ ·) (texts text s.symbols alive) := by
  induction rounds generalizing s alive with
  | zero =>
    have hnil : s.workQueue = [] := List.length_eq_zero_iff.1 (by omega)
    exact ⟨s, alive, by rw [mergeLoop, hnil]; rfl, h.linked, (h.merged_eq hfits hnil).symm⟩
  | succ rounds ih =>
    rw [mergeLoop]
    cases hqueue : s.workQueue with
    | nil =>
      rw [queue.pop_nil, Option.elim_none]
      exact ⟨s, alive, rfl, h.linked, (h.merged_eq hfits hqueue).symm⟩
    | cons x q =>
      obtain ⟨b, rest, hpop, hperm, hmax⟩ := queue.pop_cons x q
      obtain ⟨alive₁, h₁, hmerged, hless⟩ := exists_mergeStep hfits h (hqueue ▸ hperm) hmax
      rw [hpop, Option.elim_some, hmerged]
      refine ih h₁ ?_
      dsimp only
      omega

end Queue

/-! ## The start -/

lemma chain_initSymbols {rounds j : ℕ} (hdrop : (spans text).drop j = spansFrom text rounds offs)
    (hrounds : text.length - offs ≤ rounds) (hoffs : offs ≤ text.length) :
    Chain (initSymbols text) text.length (if j = 0 then none else some (j - 1)) offs
      (List.range' j (spansFrom text rounds offs).length) := by
  induction rounds generalizing j offs with
  | zero =>
    have hend : offs = text.length := by omega
    exact hend
  | succ rounds ih =>
    by_cases hlt : offs < text.length
    · rw [spansFrom, if_pos hlt] at hdrop ⊢
      dsimp only at hdrop ⊢
      have hpos := unicodeLenUtf8_pos (text.getD offs 0)
      obtain ⟨n, hn⟩ : ∃ n, min (unicodeLenUtf8 (text.getD offs 0)) (text.length - offs) = n :=
        ⟨_, rfl⟩
      rw [hn] at hdrop ⊢
      have hspan : (spans text).getD j ⟨0, 0⟩ = ⟨offs, n⟩ := by
        rw [List.getD_eq_getElem?_getD, ← List.head?_drop, hdrop]
        rfl
      have hrest : (spans text).drop (j + 1) = spansFrom text rounds (offs + n) := by
        rw [← List.drop_drop, hdrop]
        rfl
      rw [List.length_cons, List.range'_succ, Chain, initSymbols]
      dsimp only
      rw [hspan]
      refine ⟨rfl, by dsimp only; omega, rfl, ?_, ?_⟩
      · dsimp only
        by_cases hlast : offs + n = text.length
        · have hnil : spansFrom text rounds (offs + n) = [] := by
            cases rounds with
            | zero => rfl
            | succ rounds => rw [spansFrom, if_neg (by omega)]
          rw [if_pos hlast, hnil]
          rfl
        · obtain ⟨rounds, rfl⟩ : ∃ k, rounds = k + 1 := ⟨rounds - 1, by omega⟩
          rw [if_neg hlast, spansFrom, if_pos (by omega)]
          rfl
      · have htail := ih hrest (by omega) (by omega)
        rwa [if_neg (Nat.succ_ne_zero j)] at htail
    · have hend : offs = text.length := by omega
      rw [spansFrom, if_neg hlt]
      exact hend

lemma linked_initSymbols :
    Linked (initSymbols text) text.length (spans text).length
      (List.range (spans text).length) where
  chain := by
    rw [List.range_eq_range']
    exact chain_initSymbols (j := 0) List.drop_zero (Nat.le_refl _) (Nat.zero_le _)
  sorted := List.pairwise_lt_range
  lt_count i hi := List.mem_range.1 hi
  head hcount := by
    obtain ⟨n, hn⟩ := Nat.exists_eq_succ_of_ne_zero hcount.ne'
    rw [hn, List.range_succ_eq_map]
    rfl
  dead i hi := by
    rw [List.mem_range, not_lt] at hi
    rw [initSymbols, List.getD_eq_getElem?_getD, List.getElem?_eq_none hi, Option.getD_none]

lemma texts_initSymbols : texts text (initSymbols text) (List.range (spans text).length) =
    (spans text).map (Span.bytes text) := by
  refine List.ext_getElem (by rw [length_texts, List.length_range, List.length_map]) fun i hi hi' => ?_
  rw [List.length_map] at hi'
  simp only [texts, List.getElem_map, List.getElem_range, initSymbols]
  rw [List.getD_eq_getElem?_getD, List.getElem?_eq_getElem hi', Option.getD_some]

variable {K T : Type} {rule : MergeRule K T}

lemma next_initSymbols {l r : ℕ} (h : (initSymbols text l).next = some r) : r = l + 1 := by
  rw [initSymbols] at h
  dsimp only at h
  split_ifs at h
  exact (Option.some.inj h).symm

lemma next_initSymbols_of_lt {i : ℕ} (hi : i + 1 < (spans text).length) :
    (initSymbols text i).next = some (i + 1) := by
  have hkey : keyAt (fun a b => some (a, b)) (List.range (spans text).length) i =
      some (i, i + 1) := by
    rw [keyAt, List.getElem?_range (Nat.lt_of_succ_lt hi), Option.bind_some,
      List.getElem?_range hi, Option.bind_some]
  obtain ⟨xs, a, b, rest, heq, -, hpair⟩ := exists_pair_of_keyAt hkey
  obtain ⟨rfl, rfl⟩ := Prod.mk.inj (Option.some.inj hpair)
  exact (heq ▸ linked_initSymbols.chain).neighbours.2.2.1

lemma queueInv_init (rule : MergeRule K T) {m : ℕ} (hm : m + 1 ≤ (spans text).length) :
    let s : MergeState K T := (List.range' 1 m).foldl
      (fun s i => tryAddBigram rule text (some (i - 1)) (some i) s) ⟨initSymbols text, []⟩
    s.symbols = initSymbols text ∧ s.workQueue.length ≤ m ∧
      QueueInv rule text (spans text).length (fun _ r => r ≤ m) s
        (List.range (spans text).length) := by
  induction m with
  | zero =>
    refine ⟨rfl, Nat.le_refl _, linked_initSymbols, fun b hb => absurd hb List.not_mem_nil,
      fun l _ r hnext hr => ?_⟩
    have heq := next_initSymbols hnext
    omega
  | succ m ih =>
    obtain ⟨hsymbols, hlength, hinv⟩ := ih (Nat.le_of_succ_le hm)
    dsimp only
    rw [List.range'_1_concat, List.foldl_append, List.foldl_cons, List.foldl_nil]
    have hadd := hinv.tryAddBigram (some (1 + m - 1)) (some (1 + m)) fun l r hl hr => by
      obtain rfl := Option.some.inj hl
      obtain rfl := Option.some.inj hr
      rw [hsymbols, Nat.add_sub_cancel_left, Nat.add_comm]
      exact next_initSymbols_of_lt (by omega)
    refine ⟨by rw [tryAddBigram_symbols, hsymbols],
      length_tryAddBigram.trans (Nat.add_le_add_right hlength 1), hadd.linked, hadd.sound,
      fun l hl r hnext hr => hadd.covered l hl r hnext ?_⟩
    rw [tryAddBigram_symbols, hsymbols] at hnext
    have heq := next_initSymbols hnext
    rcases Nat.lt_or_ge m r with hlt | hge
    · refine .inr ⟨congrArg some ?_, congrArg some ?_⟩ <;> omega
    · exact .inl hge

lemma exists_mergeText [LinearOrder K] [DecidableEq T] (text : List UInt8)
    {cand : List UInt8 → List UInt8 → Option K} (hfits : RuleFits rule text cand)
    (queue : PriorityQueue K T) :
    ∃ s alive, mergeText rule queue text = some s ∧
      Linked s.symbols text.length (spans text).length alive ∧
      texts text s.symbols alive =
        PairMerging.merged cand (· ++ ·) ((spans text).map (Span.bytes text)) := by
  obtain ⟨m, hm⟩ : ∃ m, (spans text).length - 1 = m := ⟨_, rfl⟩
  obtain ⟨s, hs⟩ : ∃ s : MergeState K T, (List.range' 1 m).foldl
      (fun s i => tryAddBigram rule text (some (i - 1)) (some i) s) ⟨initSymbols text, []⟩ = s :=
    ⟨_, rfl⟩
  have hstart : s.symbols = initSymbols text ∧ s.workQueue.length ≤ m ∧
      QueueInv rule text (spans text).length (fun _ _ => True) s
        (List.range (spans text).length) := by
    rcases Nat.eq_zero_or_pos (spans text).length with hzero | hpos
    · rw [← hm, hzero] at hs
      subst hs
      refine ⟨rfl, Nat.zero_le _, linked_initSymbols, fun b hb => absurd hb List.not_mem_nil,
        fun l hl => ?_⟩
      rw [hzero] at hl
      exact absurd hl List.not_mem_nil
    · obtain ⟨hsymbols, hlength, hinv⟩ := @queueInv_init text K T rule m (by omega)
      rw [hs] at hsymbols hlength hinv
      refine ⟨hsymbols, hlength, hinv.linked, hinv.sound, fun l hl r hnext _ =>
        hinv.covered l hl r hnext ?_⟩
      have hr := hinv.linked.lt_count r (hinv.linked.chain.next_of_mem hl hnext).2.1
      omega
  obtain ⟨hsymbols, hlength, hinv⟩ := hstart
  obtain ⟨s', alive, hloop, hlinked, htexts⟩ := exists_mergeLoop hfits queue hinv
    (3 * (spans text).length) (by rw [List.length_range]; omega)
  refine ⟨s', alive, ?_, hlinked, ?_⟩
  · rw [mergeText]
    rw [hm, hs, hloop]
  · rw [htexts, hsymbols, texts_initSymbols]

end IFairy.MergeQueue
