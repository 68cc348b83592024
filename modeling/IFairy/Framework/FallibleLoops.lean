import Mathlib.Data.List.Forall2
import Mathlib.Order.Lattice

/-!
# Loops that may fail

A loop over a list whose body may fail returns when all its rounds do.  The lemmas follow what a
run that returns does to a collection it extends round by round (`exists_mem_foldlM`), and give
the run when every round returns (`exists_foldlM`), also when each round needs its own amount of
a resource (`exists_bound_forall_mem`).
-/

namespace IFairy

universe u

variable {ε α : Type*} {β γ S : Type u}

lemma bind_eq_ok {x : Except ε γ} {f : γ → Except ε β} {b : β} :
    (x >>= f) = .ok b ↔ ∃ c, x = .ok c ∧ f c = .ok b := by
  cases x with
  | error e => simp [bind, Except.bind]
  | ok c => simp [bind, Except.bind]

lemma foldlM_nil_eq_ok {f : β → α → Except ε β} {b b' : β} :
    ([] : List α).foldlM f b = .ok b' ↔ b = b' := by
  simp [pure, Except.pure]

lemma foldlM_cons_eq_ok {f : β → α → Except ε β} {a : α} {l : List α} {b b' : β} :
    (a :: l).foldlM f b = .ok b' ↔ ∃ c, f b a = .ok c ∧ l.foldlM f c = .ok b' := by
  rw [List.foldlM_cons, bind_eq_ok]

/-- When every round adds a member with a property `Q` exactly if `q` holds, the run adds one
exactly if `q` holds somewhere. -/
lemma exists_mem_foldlM {f : List S → α → Except ε (List S)} {Q : S → Prop} {q : α → Prop}
    {l : List α} (hf : ∀ a ∈ l, ∀ acc out, f acc a = .ok out →
      ((∃ x ∈ out, Q x) ↔ (∃ x ∈ acc, Q x) ∨ q a)) {acc out : List S}
    (h : l.foldlM f acc = .ok out) :
    (∃ x ∈ out, Q x) ↔ (∃ x ∈ acc, Q x) ∨ ∃ a ∈ l, q a := by
  induction l generalizing acc with
  | nil =>
    obtain rfl := foldlM_nil_eq_ok.1 h
    simp
  | cons a l ih =>
    obtain ⟨mid, hmid, hrest⟩ := foldlM_cons_eq_ok.1 h
    obtain ⟨ha, hl⟩ := List.forall_mem_cons.1 hf
    rw [ih hl hrest, ha acc mid hmid, or_assoc]
    simp only [List.mem_cons, exists_eq_or_imp]

lemma foldlM_invariant {f : β → α → Except ε β} {I : β → Prop} {l : List α}
    (hf : ∀ a ∈ l, ∀ b b', I b → f b a = .ok b' → I b') {b b' : β} (hb : I b)
    (h : l.foldlM f b = .ok b') : I b' := by
  induction l generalizing b with
  | nil => exact foldlM_nil_eq_ok.1 h ▸ hb
  | cons a l ih =>
    obtain ⟨mid, hmid, hrest⟩ := foldlM_cons_eq_ok.1 h
    obtain ⟨ha, hl⟩ := List.forall_mem_cons.1 hf
    exact ih hl (ha b mid hb hmid) hrest

lemma exists_foldlM_invariant {f : β → α → Except ε β} {I : β → Prop} {l : List α}
    (hf : ∀ a ∈ l, ∀ b, I b → ∃ b', f b a = .ok b' ∧ I b') {b : β} (hb : I b) :
    ∃ b', l.foldlM f b = .ok b' ∧ I b' := by
  induction l generalizing b with
  | nil => exact ⟨b, rfl, hb⟩
  | cons a l ih =>
    obtain ⟨ha, hl⟩ := List.forall_mem_cons.1 hf
    obtain ⟨mid, hmid, hI⟩ := ha b hb
    obtain ⟨b', hb', hI'⟩ := ih hl hI
    exact ⟨b', foldlM_cons_eq_ok.2 ⟨mid, hmid, hb'⟩, hI'⟩

lemma exists_foldlM {f : β → α → Except ε β} {l : List α} (hf : ∀ a ∈ l, ∀ b, ∃ b', f b a = .ok b')
    (b : β) : ∃ b', l.foldlM f b = .ok b' := by
  obtain ⟨b', hb', -⟩ := exists_foldlM_invariant (I := fun _ => True) (fun a ha b _ => by
    obtain ⟨c, hc⟩ := hf a ha b
    exact ⟨c, hc, trivial⟩) (b := b) trivial
  exact ⟨b', hb'⟩

lemma foldlM_mono {f f' : β → α → Except ε β} {l : List α}
    (hf : ∀ a ∈ l, ∀ b b', f b a = .ok b' → f' b a = .ok b') {b b' : β}
    (h : l.foldlM f b = .ok b') : l.foldlM f' b = .ok b' := by
  induction l generalizing b with
  | nil => exact h
  | cons a l ih =>
    obtain ⟨mid, hmid, hrest⟩ := foldlM_cons_eq_ok.1 h
    obtain ⟨ha, hl⟩ := List.forall_mem_cons.1 hf
    exact foldlM_cons_eq_ok.2 ⟨mid, ha b mid hmid, ih hl hrest⟩

lemma exists_bound_forall_mem {P : ℕ → α → Prop} (hmono : ∀ {m n a}, m ≤ n → P m a → P n a)
    {l : List α} (h : ∀ a ∈ l, ∃ n, P n a) : ∃ n, ∀ a ∈ l, P n a := by
  induction l with
  | nil => exact ⟨0, by simp⟩
  | cons a l ih =>
    obtain ⟨⟨m, hm⟩, hl⟩ := List.forall_mem_cons.1 h
    obtain ⟨n, hn⟩ := ih hl
    refine ⟨max m n, List.forall_mem_cons.2 ⟨hmono (le_max_left m n) hm, fun b hb => ?_⟩⟩
    exact hmono (le_max_right m n) (hn b hb)

lemma mapM_eq_ok_iff {α β : Type} {f : α → Except ε β} {l : List α} {out : List β} :
    l.mapM f = .ok out ↔ List.Forall₂ (fun a b => f a = .ok b) l out := by
  induction l generalizing out with
  | nil => simp [pure, Except.pure, eq_comm]
  | cons a l ih =>
    rw [List.mapM_cons, bind_eq_ok, List.forall₂_cons_left_iff]
    refine exists_congr fun b => ?_
    rw [bind_eq_ok]
    constructor
    · rintro ⟨ha, out', hout', heq⟩
      exact ⟨out', ha, ih.1 hout', (Except.ok.inj heq).symm⟩
    · rintro ⟨out', ha, hout', rfl⟩
      exact ⟨ha, out', ih.2 hout', rfl⟩

lemma exists_mapM {α β : Type} {f : α → Except ε β} {l : List α}
    (h : ∀ a ∈ l, ∃ b, f a = .ok b) : ∃ out, l.mapM f = .ok out := by
  induction l with
  | nil => exact ⟨[], rfl⟩
  | cons a l ih =>
    obtain ⟨⟨b, hb⟩, hl⟩ := List.forall_mem_cons.1 h
    obtain ⟨out, hout⟩ := ih hl
    refine ⟨b :: out, ?_⟩
    rw [List.mapM_cons, hb, hout]
    rfl

lemma exists_getElem?_of_mapM {α β : Type} {f : α → Except ε β} {l : List α} {out : List β}
    (h : l.mapM f = .ok out) {i : ℕ} {b : β} (hi : out[i]? = some b) :
    ∃ a, l[i]? = some a ∧ f a = .ok b := by
  rw [mapM_eq_ok_iff] at h
  induction h generalizing i with
  | nil => simp at hi
  | @cons a _ l out ha _ ih =>
    cases i with
    | zero =>
      obtain rfl := Option.some.inj hi
      exact ⟨a, rfl, ha⟩
    | succ i => exact ih hi

lemma length_of_mapM {α β : Type} {f : α → Except ε β} {l : List α} {out : List β}
    (h : l.mapM f = .ok out) : out.length = l.length :=
  (mapM_eq_ok_iff.1 h).length_eq.symm

end IFairy
