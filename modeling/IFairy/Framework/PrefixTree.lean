import Mathlib.Data.List.Infix
import Mathlib.Data.List.Nodup

/-!
# Prefix trees

A map from lists to values that is walked one element at a time (`traverse`).  An insertion
changes the value of its key only (`find_insert`), and the lists that can be walked are the
prefixes of the inserted keys (`isSome_walk_ofList`).
-/

/-- A value for the empty list, and a tree for each element that a longer key begins with. -/
inductive PrefixTree (α β : Type*) where
  | node (value : Option β) (children : α → Option (PrefixTree α β))

namespace PrefixTree

variable {α β : Type*}

/-- The value of the list walked so far. -/
def value : PrefixTree α β → Option β
  | node v _ => v

def traverse : PrefixTree α β → α → Option (PrefixTree α β)
  | node _ children => children

def empty : PrefixTree α β := node none fun _ => none

def walk (t : PrefixTree α β) : List α → Option (PrefixTree α β)
  | [] => some t
  | a :: key => (t.traverse a).bind (·.walk key)

def find (t : PrefixTree α β) (key : List α) : Option β := (t.walk key).bind value

@[simp] lemma walk_nil (t : PrefixTree α β) : t.walk [] = some t := rfl

lemma walk_cons (t : PrefixTree α β) (a : α) (key : List α) :
    t.walk (a :: key) = (t.traverse a).bind (·.walk key) := rfl

lemma walk_append (t : PrefixTree α β) (key key' : List α) :
    t.walk (key ++ key') = (t.walk key).bind (·.walk key') := by
  induction key generalizing t with
  | nil => rfl
  | cons a key ih =>
    rw [List.cons_append, walk_cons, walk_cons, Option.bind_assoc]
    exact Option.bind_congr fun t' _ => ih t'

lemma walk_concat (t : PrefixTree α β) (key : List α) (a : α) :
    t.walk (key ++ [a]) = (t.walk key).bind (·.traverse a) := by
  rw [walk_append]
  refine Option.bind_congr fun t' _ => ?_
  rw [walk_cons]
  exact Option.bind_fun_some _

lemma find_empty (key : List α) : (empty : PrefixTree α β).find key = none := by
  cases key <;> rfl

variable [DecidableEq α]

/-- Set the value of a key, with the nodes that are missing on the way. -/
def insert : PrefixTree α β → List α → β → PrefixTree α β
  | node _ children, [], v => node (some v) children
  | node old children, a :: key, v =>
    node old (Function.update children a (some (((children a).getD empty).insert key v)))

/-- The keys are inserted one after the other. -/
def ofList (entries : List (List α × β)) : PrefixTree α β :=
  entries.foldl (fun t e => t.insert e.1 e.2) empty

lemma traverse_insert (t : PrefixTree α β) (a b : α) (key : List α) (v : β) :
    (t.insert (a :: key) v).traverse b =
      if b = a then some (((t.traverse a).getD empty).insert key v) else t.traverse b := by
  cases t
  exact Function.update_apply _ _ _ _

lemma find_insert (t : PrefixTree α β) (key q : List α) (v : β) :
    (t.insert key v).find q = if q = key then some v else t.find q := by
  induction key generalizing t q with
  | nil =>
    obtain ⟨old, children⟩ := t
    cases q with
    | nil => rfl
    | cons b q => rfl
  | cons a key ih =>
    cases q with
    | nil =>
      obtain ⟨old, children⟩ := t
      rfl
    | cons b q =>
      rw [find, walk_cons, traverse_insert, find, walk_cons]
      by_cases hb : b = a
      · rw [if_pos hb, hb]
        refine (ih _ q).trans ?_
        simp only [List.cons.injEq, true_and]
        refine if_congr Iff.rfl rfl ?_
        cases t.traverse a with
        | none => exact find_empty q
        | some t' => rfl
      · rw [if_neg hb, if_neg fun h => hb (List.cons.inj h).1]

lemma isSome_walk_insert (t : PrefixTree α β) (key q : List α) (v : β) :
    ((t.insert key v).walk q).isSome ↔ (t.walk q).isSome ∨ q <+: key := by
  induction key generalizing t q with
  | nil =>
    cases q with
    | nil => simp
    | cons b q =>
      obtain ⟨old, children⟩ := t
      simp only [List.prefix_nil, reduceCtorEq, or_false]
      rfl
  | cons a key ih =>
    cases q with
    | nil => simp
    | cons b q =>
      rw [walk_cons, traverse_insert, walk_cons, List.cons_prefix_cons]
      by_cases hb : b = a
      · rw [if_pos hb, hb]
        refine (ih _ q).trans ?_
        simp only [true_and]
        cases t.traverse a with
        | some t' => rfl
        | none =>
          cases q with
          | nil => simp
          | cons c q => exact Iff.rfl
      · rw [if_neg hb]
        simp [hb]

lemma find_ofList (entries : List (List α × β)) (q : List α) :
    (ofList entries).find q = (entries.reverse.find? (·.1 = q)).map Prod.snd := by
  induction entries using List.reverseRecOn with
  | nil => exact find_empty q
  | append_singleton entries e ih =>
    rw [ofList, List.foldl_append, List.foldl_cons, List.foldl_nil, find_insert,
      List.reverse_append, List.reverse_singleton, List.singleton_append, List.find?_cons]
    by_cases hq : q = e.1
    · rw [if_pos hq, decide_eq_true hq.symm]
      rfl
    · rw [if_neg hq, decide_eq_false (Ne.symm hq)]
      exact ih

lemma isSome_walk_ofList (entries : List (List α × β)) (q : List α) :
    ((ofList entries).walk q).isSome ↔ q = [] ∨ ∃ e ∈ entries, q <+: e.1 := by
  induction entries using List.reverseRecOn with
  | nil => cases q <;> simp [ofList, walk_cons, traverse, empty]
  | append_singleton entries e ih =>
    rw [ofList, List.foldl_append, List.foldl_cons, List.foldl_nil, isSome_walk_insert]
    refine (or_congr_left ih).trans ?_
    simp only [List.mem_append, List.mem_singleton]
    constructor
    · rintro ((h | ⟨e', he', h⟩) | h)
      · exact .inl h
      · exact .inr ⟨e', .inl he', h⟩
      · exact .inr ⟨e, .inr rfl, h⟩
    · rintro (h | ⟨e', he' | rfl, h⟩)
      · exact .inl (.inl h)
      · exact .inl (.inr ⟨e', he', h⟩)
      · exact .inr h

lemma find_ofList_of_nodup {entries : List (List α × β)} (h : (entries.map Prod.fst).Nodup)
    (q : List α) (v : β) : (ofList entries).find q = some v ↔ (q, v) ∈ entries := by
  rw [find_ofList, Option.map_eq_some_iff]
  constructor
  · rintro ⟨e, he, rfl⟩
    have hkey : e.1 = q := by simpa using List.find?_some he
    rw [← hkey]
    exact List.mem_reverse.1 (List.mem_of_find?_eq_some he)
  · intro hmem
    have hsome : (entries.reverse.find? (·.1 = q)).isSome :=
      List.find?_isSome.2 ⟨_, List.mem_reverse.2 hmem, decide_eq_true rfl⟩
    obtain ⟨e, he⟩ := Option.isSome_iff_exists.1 hsome
    have hkey : e.1 = q := by simpa using List.find?_some he
    have heq : e = (q, v) := List.inj_on_of_nodup_map h
      (List.mem_reverse.1 (List.mem_of_find?_eq_some he)) hmem hkey
    exact ⟨e, he, by rw [heq]⟩

lemma isSome_find_ofList (entries : List (List α × β)) (q : List α) :
    ((ofList entries).find q).isSome ↔ ∃ e ∈ entries, e.1 = q := by
  rw [find_ofList, Option.isSome_map, List.find?_isSome]
  simp only [List.mem_reverse, decide_eq_true_eq]

end PrefixTree
