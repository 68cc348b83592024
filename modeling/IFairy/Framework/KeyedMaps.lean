import Mathlib.Data.List.Nodup

/-!
# Maps and their entries

A map from keys to values is a function to the values that it has.  A program that goes through a
map sees its entries in some order, each once (`Enumerates`).  A loop over the entries that writes
to another map at the key of the entry writes each key at most once, so the order does not matter
(`foldl_entries`).
-/

namespace IFairy

variable {κ ν α : Type*}

/-- The entries of a map, each once. -/
structure Enumerates (entries : List (κ × ν)) (map : κ → Option ν) : Prop where
  nodup : (entries.map Prod.fst).Nodup
  mem_iff : ∀ k v, (k, v) ∈ entries ↔ map k = some v

def emptyMap : κ → Option ν := fun _ => none

/-- `emplace`, which leaves a value that is there. -/
def emplace [DecidableEq κ] (map : κ → Option ν) (k : κ) (v : ν) : κ → Option ν :=
  if map k = none then Function.update map k (some v) else map

/-- The value of a key in a list of entries. -/
def lookupEntry [DecidableEq κ] (entries : List (κ × ν)) (k : κ) : Option ν :=
  (entries.find? fun x => x.1 = k).map Prod.snd

section Entries

variable [DecidableEq κ]

lemma emplace_of_none {map : κ → Option ν} {k : κ} (h : map k = none) (v : ν) :
    emplace map k v = Function.update map k (some v) := if_pos h

variable {step : (κ → Option ν) → κ × α → κ → Option ν} {g : Option ν → α → Option ν}

lemma foldl_entries_of_not_mem
    (hstep : ∀ m e, step m e = Function.update m e.1 (g (m e.1) e.2)) {entries : List (κ × α)}
    {k : κ} (hk : k ∉ entries.map Prod.fst) (map : κ → Option ν) :
    entries.foldl step map k = map k := by
  induction entries generalizing map with
  | nil => rfl
  | cons e entries ih =>
    rw [List.map_cons, List.mem_cons, not_or] at hk
    rw [List.foldl_cons, ih hk.2, hstep, Function.update_of_ne hk.1]

lemma foldl_entries_of_mem
    (hstep : ∀ m e, step m e = Function.update m e.1 (g (m e.1) e.2)) {entries : List (κ × α)}
    (hnodup : (entries.map Prod.fst).Nodup) {k : κ} {a : α} (hk : (k, a) ∈ entries)
    (map : κ → Option ν) : entries.foldl step map k = g (map k) a := by
  induction entries generalizing map with
  | nil => cases hk
  | cons e entries ih =>
    obtain ⟨hnot, hnodup⟩ := List.nodup_cons.1 hnodup
    rw [List.foldl_cons]
    rcases List.mem_cons.1 hk with rfl | hk
    · rw [foldl_entries_of_not_mem hstep hnot, hstep, Function.update_self]
    · have hne : k ≠ e.1 := fun h => hnot (h ▸ List.mem_map_of_mem (f := Prod.fst) hk)
      rw [ih hnodup hk, hstep, Function.update_of_ne hne]

lemma foldl_entries {step : (κ → Option ν) → κ × ν → κ → Option ν}
    {g : Option ν → Option ν → Option ν} {entries : List (κ × ν)} {map : κ → Option ν}
    (hstep : ∀ m e, step m e = Function.update m e.1 (g (m e.1) (some e.2)))
    (hnone : ∀ o, g o none = o) (h : Enumerates entries map) (m : κ → Option ν) :
    entries.foldl step m = fun k => g (m k) (map k) := by
  funext k
  rcases hk : map k with - | v
  · have hnot : k ∉ entries.map Prod.fst := by
      intro hmem
      obtain ⟨e, he, rfl⟩ := List.mem_map.1 hmem
      exact absurd ((h.mem_iff e.1 e.2).1 he) (by rw [hk]; simp)
    rw [hnone]
    exact foldl_entries_of_not_mem (g := fun o v => g o (some v)) hstep hnot m
  · exact foldl_entries_of_mem (g := fun o v => g o (some v)) hstep h.nodup
      ((h.mem_iff k v).2 hk) m

end Entries

lemma foldlM_eq_some {β : Type*} {f : β → α → Option β} {g : β → α → β} {l : List α}
    (h : ∀ a ∈ l, ∀ b, f b a = some (g b a)) (b : β) : l.foldlM f b = some (l.foldl g b) := by
  induction l generalizing b with
  | nil => rfl
  | cons a l ih =>
    rw [List.foldlM_cons, h a List.mem_cons_self, List.foldl_cons]
    exact ih (fun a' ha' => h a' (List.mem_cons_of_mem _ ha')) _

lemma mapM_eq_some {β : Type*} {f : α → Option β} {g : α → β} {l : List α}
    (h : ∀ a ∈ l, f a = some (g a)) : l.mapM f = some (l.map g) := by
  induction l with
  | nil => rfl
  | cons a l ih =>
    rw [List.mapM_cons, h a List.mem_cons_self, ih fun a' ha' => h a' (List.mem_cons_of_mem _ ha')]
    rfl

end IFairy
