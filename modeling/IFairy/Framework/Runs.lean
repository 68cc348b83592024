import Mathlib.Order.Basic

/-!
# Runs of a partial step function

A system is a partial function `step : σ → α → Option σ`: from a state, an action leads to one next
state or is not possible.  `Reaches step ok s₀` are the states that runs from `s₀` pass through
when every step meets `ok`.  `Reaches.invariant` is the induction rule: what holds initially and
is kept by each admitted step holds in every state reached.
-/

namespace IFairy

variable {σ α : Type*} {step : σ → α → Option σ} {ok ok' : σ → α → Prop} {s₀ s : σ}

/-- The states reached from `s₀` by steps that meet `ok`. -/
inductive Reaches (step : σ → α → Option σ) (ok : σ → α → Prop) (s₀ : σ) : σ → Prop
  | start : Reaches step ok s₀ s₀
  | snoc {s s' : σ} (a : α) : Reaches step ok s₀ s → ok s a → step s a = some s' →
      Reaches step ok s₀ s'

/-- An invariant of every admitted step that holds initially holds in every state reached. -/
theorem Reaches.invariant {Inv : σ → Prop} (h₀ : Inv s₀)
    (hstep : ∀ s a s', Inv s → ok s a → step s a = some s' → Inv s')
    (h : Reaches step ok s₀ s) : Inv s := by
  induction h with
  | start => exact h₀
  | snoc a _ hok heq ih => exact hstep _ a _ ih hok heq

def perform (step : σ → α → Option σ) (s : σ) : List α → Option σ
  | [] => some s
  | a :: as => (step s a).bind fun s' => perform step s' as

/-- Performing actions from a reached state reaches a state, when each of them is admitted
everywhere. -/
theorem Reaches.perform {as : List α} {s' : σ} (hok : ∀ a ∈ as, ∀ s, ok s a)
    (h : Reaches step ok s₀ s) (heq : IFairy.perform step s as = some s') :
    Reaches step ok s₀ s' := by
  induction as generalizing s with
  | nil =>
    cases heq
    exact h
  | cons a as ih =>
    obtain ⟨ha, has⟩ := List.forall_mem_cons.1 hok
    obtain ⟨t, hstep, hrest⟩ := Option.bind_eq_some_iff.1 heq
    exact ih has (.snoc a h (ha s) hstep) hrest

theorem exists_reached_of_perform {β : Type*} {as : List α} {f : σ → β} {v : β}
    (h : (IFairy.perform step s₀ as).map f = some v) :
    ∃ s, Reaches step (fun _ _ => True) s₀ s ∧ f s = v := by
  obtain ⟨s, hs, hv⟩ := Option.map_eq_some_iff.1 h
  exact ⟨s, Reaches.perform (fun _ _ _ => trivial) .start hs, hv⟩

theorem Reaches.perform_admitted [∀ s a, Decidable (ok s a)] {as : List α} {s' : σ}
    (h : Reaches step ok s₀ s)
    (heq : IFairy.perform (fun s a => if ok s a then step s a else none) s as = some s') :
    Reaches step ok s₀ s' := by
  induction as generalizing s with
  | nil =>
    cases heq
    exact h
  | cons a as ih =>
    obtain ⟨t, hstep, hrest⟩ := Option.bind_eq_some_iff.1 heq
    obtain ⟨hok, hstep⟩ := Option.ite_none_right_eq_some.1 hstep
    exact ih (.snoc a h hok hstep) hrest

variable (step ok s₀) in
/-- What is read off the end of actions that are admitted where they are performed holds in a
reached state. -/
theorem exists_reached_of_admitted [∀ s a, Decidable (ok s a)] {β : Type*} (as : List α) (f : σ → β)
    {v : β} (h : (IFairy.perform (fun s a => if ok s a then step s a else none) s₀ as).map f =
      some v) :
    ∃ s, Reaches step ok s₀ s ∧ f s = v := by
  obtain ⟨s, hs, hv⟩ := Option.map_eq_some_iff.1 h
  exact ⟨s, Reaches.perform_admitted .start hs, hv⟩

end IFairy
