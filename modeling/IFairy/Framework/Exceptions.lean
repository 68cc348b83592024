import Mathlib.Logic.Basic

/-!
# Programs that raise exceptions

`EStateM` keeps the state a program has reached when it raises, as a program with side effects on
files does.  A triple `Meets P prog Q E` says of a run from a state in `P` what holds when it
returns (`Q`) and what holds when it raises (`E`).  There is one rule for each way of composing
programs: sequence, loop, `try`/`except`/`else`, `finally` and a method that works on a part of
the state.
-/

namespace IFairy

universe u

variable {ε σ τ α β : Type u}

/-- From every state in `P` the program either returns in `Q` or raises in `E`. -/
def Meets (P : σ → Prop) (prog : EStateM ε σ α) (Q : α → σ → Prop) (E : ε → σ → Prop) : Prop :=
  ∀ s, P s → (∀ a s', prog s = .ok a s' → Q a s') ∧ ∀ e s', prog s = .error e s' → E e s'

/-- `try: body; except: handler; else: orElse`.  The `else` branch is outside the `try`. -/
def tryElse (body : EStateM ε σ α) (handler : ε → EStateM ε σ β) (orElse : α → EStateM ε σ β) :
    EStateM ε σ β := fun s =>
  match body s with
  | .ok a s' => orElse a s'
  | .error e s' => handler e s'

/-- `try: prog; finally: final`.  An exception of `final` takes the place of the program's. -/
def andFinally (prog : EStateM ε σ β) (final : EStateM ε σ PUnit) : EStateM ε σ β := fun s =>
  match prog s with
  | .ok b s' =>
    match final s' with
    | .ok _ s'' => .ok b s''
    | .error e s'' => .error e s''
  | .error e s' =>
    match final s' with
    | .ok _ s'' => .error e s''
    | .error e' s'' => .error e' s''

/-- A method runs on the part `get s` of the state, where there is one, and `put` writes the part
back; `missing` is raised where there is none. -/
def onPart (get : σ → Option τ) (put : τ → σ → σ) (missing : ε) (method : EStateM ε τ α) :
    EStateM ε σ α := fun s =>
  match get s with
  | none => .error missing s
  | some t =>
    match method t with
    | .ok a t' => .ok a (put t' s)
    | .error e t' => .error e (put t' s)

namespace Meets

variable {P P' : σ → Prop} {Q Q' : α → σ → Prop} {R : β → σ → Prop} {E E' : ε → σ → Prop}
  {prog : EStateM ε σ α}

theorem weaken (h : Meets P prog Q E) (hP : ∀ s, P' s → P s) (hQ : ∀ a s, Q a s → Q' a s)
    (hE : ∀ e s, E e s → E' e s) : Meets P' prog Q' E' := by
  intro s hs
  obtain ⟨hok, herror⟩ := h s (hP s hs)
  exact ⟨fun a s' hrun => hQ a s' (hok a s' hrun), fun e s' hrun => hE e s' (herror e s' hrun)⟩

theorem pure (a : α) (h : ∀ s, P s → Q a s) : Meets P (Pure.pure a : EStateM ε σ α) Q E := by
  refine fun s hs => ⟨fun b s' hrun => ?_, fun e s' hrun => by cases hrun⟩
  cases hrun
  exact h s hs

theorem throw (e : ε) (h : ∀ s, P s → E e s) :
    Meets P (MonadExcept.throw e : EStateM ε σ α) Q E := by
  refine fun s hs => ⟨fun b s' hrun => (by cases hrun), fun e s' hrun => ?_⟩
  cases hrun
  exact h s hs

theorem modify (f : σ → σ) {Q : PUnit → σ → Prop} (h : ∀ s, P s → Q ⟨⟩ (f s)) :
    Meets P (modify f : EStateM ε σ PUnit) Q E := by
  refine fun s hs => ⟨fun b s' hrun => ?_, fun e s' hrun => by cases hrun⟩
  cases hrun
  exact h s hs

theorem get {Q : σ → σ → Prop} (h : ∀ s, P s → Q s s) :
    Meets P (MonadState.get : EStateM ε σ σ) Q E := by
  refine fun s hs => ⟨fun b s' hrun => ?_, fun e s' hrun => by cases hrun⟩
  cases hrun
  exact h s hs

theorem bind {next : α → EStateM ε σ β} (h : Meets P prog Q E)
    (hnext : ∀ a, Meets (Q a) (next a) R E) : Meets P (prog >>= next) R E := by
  intro s hs
  have hbind : (prog >>= next) s = EStateM.bind prog next s := rfl
  rw [hbind, EStateM.bind]
  obtain ⟨hok, herror⟩ := h s hs
  cases hrun : prog s with
  | ok a s' => exact hnext a s' (hok a s' hrun)
  | error e s' =>
    refine ⟨fun b s'' hb => (by cases hb), fun e' s'' he => ?_⟩
    cases he
    exact herror e s' hrun

theorem seq {first : EStateM ε σ PUnit} {next : EStateM ε σ β} {Q : σ → Prop}
    (h : Meets P first (fun _ => Q) E) (hnext : Meets Q next R E) :
    Meets P (do first; next) R E :=
  h.bind fun _ => hnext

/-- What a program does after it has read the state, with that state at hand. -/
theorem get_bind_eq {next : σ → EStateM ε σ α}
    (h : ∀ s, P s → Meets (fun s' => s' = s) (next s) Q E) :
    Meets P (do let s ← MonadState.get; next s) Q E := by
  refine (Meets.get (Q := fun t s => t = s ∧ P s) fun s hs => ⟨rfl, hs⟩).bind fun s => ?_
  rintro s' ⟨rfl, hs⟩
  exact h s hs s rfl

theorem get_bind {next : σ → EStateM ε σ α} (h : ∀ s, P s → Meets P (next s) Q E) :
    Meets P (do let s ← MonadState.get; next s) Q E := by
  refine get_bind_eq fun s hs => ?_
  rintro s' rfl
  exact h s' hs s' hs

theorem tryElse {handler : ε → EStateM ε σ β} {orElse : α → EStateM ε σ β} {F : ε → σ → Prop}
    (h : Meets P prog Q E) (hhandler : ∀ e, Meets (E e) (handler e) R F)
    (horElse : ∀ a, Meets (Q a) (orElse a) R F) :
    Meets P (IFairy.tryElse prog handler orElse) R F := by
  intro s hs
  rw [IFairy.tryElse]
  obtain ⟨hok, herror⟩ := h s hs
  cases hrun : prog s with
  | ok a s' => exact horElse a s' (hok a s' hrun)
  | error e s' => exact hhandler e s' (herror e s' hrun)

theorem andFinally {final : EStateM ε σ PUnit} {R : α → σ → Prop} {F : ε → σ → Prop}
    (h : Meets P prog Q E) (hok : ∀ a, Meets (Q a) final (fun _ => R a) F)
    (herror : ∀ e, Meets (E e) final (fun _ => F e) F) :
    Meets P (IFairy.andFinally prog final) R F := by
  intro s hs
  rw [IFairy.andFinally]
  obtain ⟨hprog, hraise⟩ := h s hs
  cases hrun : prog s with
  | ok a s' =>
    obtain ⟨hfinal, hfail⟩ := hok a s' (hprog a s' hrun)
    dsimp only
    cases hlast : final s' with
    | ok _ s'' =>
      refine ⟨fun b t hb => ?_, fun e t he => by cases he⟩
      cases hb
      exact hfinal _ _ hlast
    | error e s'' =>
      refine ⟨fun b t hb => (by cases hb), fun e t he => ?_⟩
      cases he
      exact hfail _ _ hlast
  | error e s' =>
    obtain ⟨hfinal, hfail⟩ := herror e s' (hraise e s' hrun)
    dsimp only
    cases hlast : final s' with
    | ok _ s'' =>
      refine ⟨fun b t hb => (by cases hb), fun e t he => ?_⟩
      cases he
      exact hfinal _ _ hlast
    | error e' s'' =>
      refine ⟨fun b t hb => (by cases hb), fun e t he => ?_⟩
      cases he
      exact hfail _ _ hlast

/-- A method on a part of the state: its triple speaks of the part, and `put` carries the
conclusions over. -/
theorem onPart {get : σ → Option τ} {put : τ → σ → σ} {missing : ε} {method : EStateM ε τ α}
    {S : τ → Prop} {T : α → τ → Prop} {F : ε → τ → Prop} {s₀ : σ} (h : Meets S method T F)
    (hget : ∀ t, get s₀ = some t → S t) (hmissing : get s₀ = none → E missing s₀)
    (hput : ∀ a t, T a t → Q a (put t s₀)) (hraise : ∀ e t, F e t → E e (put t s₀)) :
    Meets (fun s => s = s₀) (IFairy.onPart get put missing method) Q E := by
  rintro s rfl
  rw [IFairy.onPart]
  cases hpart : get s with
  | none =>
    refine ⟨fun a s' hrun => (by cases hrun), fun e s' hrun => ?_⟩
    cases hrun
    exact hmissing hpart
  | some t =>
    obtain ⟨hok, herror⟩ := h t (hget t hpart)
    dsimp only
    cases hrun : method t with
    | ok a t' =>
      refine ⟨fun b s' hb => ?_, fun e s' he => by cases he⟩
      cases hb
      exact hput a t' (hok a t' hrun)
    | error e t' =>
      refine ⟨fun b s' hb => (by cases hb), fun e s' he => ?_⟩
      cases he
      exact hraise e t' (herror e t' hrun)

theorem of_forall_eq (h : ∀ s₀, P s₀ → Meets (fun s => s = s₀) prog Q E) : Meets P prog Q E :=
  fun s hs => h s hs s rfl

end Meets

end IFairy
