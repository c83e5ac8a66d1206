/-
# Programs with a state and an exit, and their runs

A firmware function is a program `EStateM ε σ α`: it reads and writes a state
`σ` and either returns a value or stops for a reason `ε`, keeping the state it
stopped in.  A machine is a family `step : E → EStateM ε σ Unit` of such
programs, one for each event, and a run of it is a list of events done in
order (`run`).

Two induction rules carry every property of runs.  `Reaches.invariant` is the
plain one: what holds at the start and is preserved by each step holds in every
state reached.  `throughout_iff_guarded` is the one for a property that some steps
break: it holds in every state of a run (`Throughout`) exactly when every step taken
meets the condition under which the step keeps it (`Guarded`).  A property of the
steps themselves, and of the events before them, is one `Along` the run; where the steps
that stop count too, it is one `AtEach` step.
-/

import Mathlib.Logic.Basic
import Mathlib.Tactic.Common

namespace AccTx
namespace Effect

variable {ε σ E : Type}

@[simp] theorem run_map {α β : Type} (f : α → β) (x : EStateM ε σ α) (s : σ) :
    EStateM.run (f <$> x) s =
      match EStateM.run x s with
      | .ok a s' => .ok (f a) s'
      | .error e s' => .error e s' := rfl

/-- Do the events of a list in order, stopping at the first step that stops. -/
def run (step : E → EStateM ε σ Unit) : List E → EStateM ε σ Unit
  | [] => pure ()
  | e :: es => do
    step e
    run step es

variable {step : E → EStateM ε σ Unit}

@[simp] theorem run_nil (s : σ) : (run step []).run s = .ok () s := rfl

theorem run_cons_ok {e : E} {es : List E} {s s' : σ} :
    (run step (e :: es)).run s = .ok () s' ↔
      ∃ s₁, (step e).run s = .ok () s₁ ∧ (run step es).run s₁ = .ok () s' := by
  simp only [run, EStateM.run_bind]
  cases h : (step e).run s with
  | ok _ s₁ => simp
  | error _ _ => simp

/-- A run splits at every point into the run before it and the run after it. -/
theorem run_append_ok {es fs : List E} {s s' : σ} :
    (run step (es ++ fs)).run s = .ok () s' ↔
      ∃ s₁, (run step es).run s = .ok () s₁ ∧ (run step fs).run s₁ = .ok () s' := by
  induction es generalizing s with
  | nil => simp
  | cons e es ih =>
    simp only [List.cons_append, run_cons_ok, ih]
    constructor
    · rintro ⟨s₁, h₁, s₂, h₂, h₃⟩
      exact ⟨s₂, ⟨s₁, h₁, h₂⟩, h₃⟩
    · rintro ⟨s₂, ⟨s₁, h₁, h₂⟩, h₃⟩
      exact ⟨s₁, h₁, s₂, h₂, h₃⟩

theorem run_concat_ok {es : List E} {e : E} {s s' : σ} :
    (run step (es ++ [e])).run s = .ok () s' ↔
      ∃ s₁, (run step es).run s = .ok () s₁ ∧ (step e).run s₁ = .ok () s' := by
  simp [run_append_ok, run_cons_ok]

/-- The run of translated events. -/
theorem run_map_events {F : Type} (f : F → E) (es : List F) :
    run step (es.map f) = run (fun e => step (f e)) es := by
  induction es with
  | nil => rfl
  | cons e es ih => rw [List.map_cons, run, ih, run]

/-- A state transition that may have no outcome, as a program. -/
def ofOption (f : σ → Option σ) : EStateM Unit σ Unit := fun s =>
  match f s with
  | some s' => .ok () s'
  | none => .error () s

theorem ofOption_ok {f : σ → Option σ} {s s' : σ} :
    (ofOption f).run s = .ok () s' ↔ f s = some s' := by
  show ofOption f s = _ ↔ _
  rw [ofOption]
  cases f s with
  | none => simp
  | some _ => simp

/-- `s` is the state after some run from `s₀` whose steps all return. -/
def Reaches (step : E → EStateM ε σ Unit) (s₀ s : σ) : Prop :=
  ∃ es, (run step es).run s₀ = .ok () s

/-- **The invariant rule.**  What every step preserves, every run preserves. -/
theorem run_invariant {I : σ → Prop}
    (hstep : ∀ e s s', I s → (step e).run s = .ok () s' → I s') {es : List E} {s s' : σ}
    (hs : I s) (h : (run step es).run s = .ok () s') : I s' := by
  induction es generalizing s with
  | nil =>
    simp only [run_nil, EStateM.Result.ok.injEq, true_and] at h
    exact h ▸ hs
  | cons e es ih =>
    obtain ⟨s₁, h₁, h₂⟩ := run_cons_ok.1 h
    exact ih (hstep e s s₁ hs h₁) h₂

/-- **The invariant rule for reachable states.** -/
theorem Reaches.invariant {I : σ → Prop} {s₀ s : σ} (h : Reaches step s₀ s) (h₀ : I s₀)
    (hstep : ∀ e s s', I s → (step e).run s = .ok () s' → I s') : I s := by
  obtain ⟨es, hes⟩ := h
  exact run_invariant hstep h₀ hes

/-- **The simulation rule.**  Where every step returns, keeps `J`, and does to the
abstraction of the state what `next` does, every run returns and does to it what
`next` does event by event. -/
theorem run_simulates {A : Type} {J : σ → Prop} {abs : σ → A} {next : A → E → A}
    (hstep : ∀ e s, J s → ∃ s', (step e).run s = .ok () s' ∧ J s' ∧ abs s' = next (abs s) e)
    {s : σ} (hs : J s) (es : List E) :
    ∃ s', (run step es).run s = .ok () s' ∧ J s' ∧ abs s' = es.foldl next (abs s) := by
  induction es generalizing s with
  | nil => exact ⟨s, rfl, hs, rfl⟩
  | cons e es ih =>
    obtain ⟨s₁, h₁, hJ, habs⟩ := hstep e s hs
    obtain ⟨s', h₂, hJ', habs'⟩ := ih hJ
    exact ⟨s', run_cons_ok.2 ⟨s₁, h₁, h₂⟩, hJ', by rw [habs', habs, List.foldl_cons]⟩

/-- **The translation rule.**  Where the steps of one machine are those of another one seen
through `f`, in the states of an invariant, its runs are the runs of the other one seen through
`f`. -/
theorem run_maps {ε' τ : Type} {step' : E → EStateM ε' τ Unit} {J : σ → Prop} {f : σ → τ}
    (hJ : ∀ e s s', J s → (step e).run s = .ok () s' → J s')
    (hstep : ∀ e s t, J s →
      ((step' e).run (f s) = .ok () t ↔ ∃ s', (step e).run s = .ok () s' ∧ f s' = t))
    {es : List E} {s : σ} {t : τ} (hs : J s) :
    (run step' es).run (f s) = .ok () t ↔ ∃ s', (run step es).run s = .ok () s' ∧ f s' = t := by
  induction es generalizing s with
  | nil => simp
  | cons e es ih =>
    simp only [run_cons_ok, hstep e s _ hs]
    constructor
    · rintro ⟨_, ⟨s₁, h₁, rfl⟩, h₂⟩
      obtain ⟨s', h₃, rfl⟩ := (ih (hJ e s s₁ hs h₁)).1 h₂
      exact ⟨s', ⟨s₁, h₁, h₃⟩, rfl⟩
    · rintro ⟨s', ⟨s₁, h₁, h₂⟩, rfl⟩
      exact ⟨f s₁, ⟨s₁, h₁, rfl⟩, (ih (hJ e s s₁ hs h₁)).2 ⟨s', h₂, rfl⟩⟩

/-- The property holds in every state of the run of `es` from `s`. -/
def Throughout (step : E → EStateM ε σ Unit) (I : σ → Prop) (es : List E) (s : σ) : Prop :=
  ∀ es₁ es₂ s', es = es₁ ++ es₂ → (run step es₁).run s = .ok () s' → I s'

/-- Every step of the run of `es` from `s` that returns has the property, which may look
at the events before the step and at the states around it. -/
def Along (step : E → EStateM ε σ Unit) (P : List E → E → σ → σ → Prop) (es : List E) (s : σ) :
    Prop :=
  ∀ es₁ e es₂ s₁ s₂, es = es₁ ++ e :: es₂ → (run step es₁).run s = .ok () s₁ →
    (step e).run s₁ = .ok () s₂ → P es₁ e s₁ s₂

/-- Every step that the run of `es` from `s` takes, whether it returns or not, has the
property, which may look at the events before the step and at the state it is taken in. -/
def AtEach (step : E → EStateM ε σ Unit) (P : List E → E → σ → Prop) (es : List E) (s : σ) :
    Prop :=
  ∀ es₁ e es₂ s₁, es = es₁ ++ e :: es₂ → (run step es₁).run s = .ok () s₁ → P es₁ e s₁

/-- Every step of the run of `es` from `s` that returns meets the condition `G` on its
event and on the state before it. -/
def Guarded (step : E → EStateM ε σ Unit) (G : E → σ → Prop) : List E → σ → Prop :=
  Along step fun _ e s _ => G e s

theorem along_nil {P : List E → E → σ → σ → Prop} {s : σ} : Along step P [] s := by
  intro es₁ e es₂ s₁ s₂ hes
  simp at hes

theorem along_cons {P : List E → E → σ → σ → Prop} {e : E} {es : List E} {s : σ} :
    Along step P (e :: es) s ↔ ∀ s', (step e).run s = .ok () s' →
      P [] e s s' ∧ Along step (fun es₁ => P (e :: es₁)) es s' := by
  constructor
  · intro h s' h₁
    refine ⟨h [] e es s s' rfl rfl h₁, fun es₁ e' es₂ s₁ s₂ hes hrun h₂ => ?_⟩
    have hes' : e :: es = (e :: es₁) ++ e' :: es₂ := by rw [hes, List.cons_append]
    exact h (e :: es₁) e' es₂ s₁ s₂ hes' (run_cons_ok.2 ⟨s', h₁, hrun⟩) h₂
  · intro h es₁ e' es₂ s₁ s₂ hes hrun h₂
    cases es₁ with
    | nil =>
      obtain ⟨rfl, rfl⟩ := List.cons_eq_cons.1 hes
      simp only [run_nil, EStateM.Result.ok.injEq, true_and] at hrun
      subst hrun
      exact (h s₂ h₂).1
    | cons e₁ es₁ =>
      obtain ⟨rfl, rfl⟩ := List.cons_eq_cons.1 hes
      obtain ⟨s', h₁, hrun⟩ := run_cons_ok.1 hrun
      exact (h s' h₁).2 es₁ e' es₂ s₁ s₂ rfl hrun h₂

/-- The same after the events `es₀`. -/
theorem along_cons_append {P : List E → E → σ → σ → Prop} {es₀ : List E} {e : E} {es : List E}
    {s : σ} : Along step (fun es₁ => P (es₀ ++ es₁)) (e :: es) s ↔
      ∀ s', (step e).run s = .ok () s' →
        P es₀ e s s' ∧ Along step (fun es₁ => P (es₀ ++ [e] ++ es₁)) es s' := by
  rw [along_cons, List.append_nil]
  have hassoc : ∀ es₁, es₀ ++ e :: es₁ = es₀ ++ [e] ++ es₁ := fun es₁ => by
    rw [List.append_assoc, List.singleton_append]
  exact forall_congr' fun s' => by rw [funext fun es₁ => congrArg P (hassoc es₁)]

/-- Two properties that agree on the steps taken agree along the run. -/
theorem along_congr {P Q : List E → E → σ → σ → Prop} {es : List E} {s : σ}
    (h : ∀ es₁ e s₁ s₂, (run step es₁).run s = .ok () s₁ → (step e).run s₁ = .ok () s₂ →
      (P es₁ e s₁ s₂ ↔ Q es₁ e s₁ s₂)) : Along step P es s ↔ Along step Q es s := by
  constructor
  · intro hp es₁ e es₂ s₁ s₂ hes hrun he
    exact (h es₁ e s₁ s₂ hrun he).1 (hp es₁ e es₂ s₁ s₂ hes hrun he)
  · intro hq es₁ e es₂ s₁ s₂ hes hrun he
    exact (h es₁ e s₁ s₂ hrun he).2 (hq es₁ e es₂ s₁ s₂ hes hrun he)

theorem atEach_nil {P : List E → E → σ → Prop} {s : σ} : AtEach step P [] s := by
  intro es₁ e es₂ s₁ hes
  simp at hes

theorem atEach_cons {P : List E → E → σ → Prop} {e : E} {es : List E} {s : σ} :
    AtEach step P (e :: es) s ↔ P [] e s ∧ ∀ s', (step e).run s = .ok () s' →
      AtEach step (fun es₁ => P (e :: es₁)) es s' := by
  constructor
  · intro h
    refine ⟨h [] e es s rfl rfl, fun s' h₁ es₁ e' es₂ s₁ hes hrun => ?_⟩
    exact h (e :: es₁) e' es₂ s₁ (by rw [hes, List.cons_append]) (run_cons_ok.2 ⟨s', h₁, hrun⟩)
  · rintro ⟨h₀, hs⟩ es₁ e' es₂ s₁ hes hrun
    cases es₁ with
    | nil =>
      obtain ⟨rfl, rfl⟩ := List.cons_eq_cons.1 hes
      simp only [run_nil, EStateM.Result.ok.injEq, true_and] at hrun
      exact hrun ▸ h₀
    | cons e₁ es₁ =>
      obtain ⟨rfl, rfl⟩ := List.cons_eq_cons.1 hes
      obtain ⟨s', h₁, hrun⟩ := run_cons_ok.1 hrun
      exact hs s' h₁ es₁ e' es₂ s₁ rfl hrun

theorem throughout_nil {I : σ → Prop} {s : σ} : Throughout step I [] s ↔ I s := by
  constructor
  · intro h
    exact h [] [] s rfl rfl
  · intro h es₁ es₂ s' hes hrun
    obtain ⟨rfl, rfl⟩ := List.append_eq_nil_iff.1 hes.symm
    simp only [run_nil, EStateM.Result.ok.injEq, true_and] at hrun
    exact hrun ▸ h

theorem throughout_cons {I : σ → Prop} {e : E} {es : List E} {s : σ} :
    Throughout step I (e :: es) s ↔
      I s ∧ ∀ s', (step e).run s = .ok () s' → Throughout step I es s' := by
  constructor
  · intro h
    refine ⟨h [] (e :: es) s rfl rfl, fun s₁ h₁ es₁ es₂ s' hes hrun => ?_⟩
    exact h (e :: es₁) es₂ s' (by rw [hes, List.cons_append]) (run_cons_ok.2 ⟨s₁, h₁, hrun⟩)
  · rintro ⟨h₀, hs⟩ es₁ es₂ s' hes hrun
    cases es₁ with
    | nil =>
      simp only [run_nil, EStateM.Result.ok.injEq, true_and] at hrun
      exact hrun ▸ h₀
    | cons e' es₁ =>
      obtain ⟨rfl, rfl⟩ := List.cons_eq_cons.1 hes
      obtain ⟨s₁, h₁, h₂⟩ := run_cons_ok.1 hrun
      exact hs s₁ h₁ es₁ es₂ s' rfl h₂

/-- **The guarded rule.**  Where, in the states of an invariant `J`, a step keeps `I` and has
`P` exactly under the condition `G`, the runs that keep `I` throughout and all of whose
steps have `P` are those whose steps meet `G`. -/
theorem throughout_and_along_iff_guarded {J I : σ → Prop} {P : E → σ → σ → Prop}
    {G : E → σ → Prop} (hJ : ∀ e s s', J s → (step e).run s = .ok () s' → J s')
    (hI : ∀ e s s', J s → I s → (step e).run s = .ok () s' → (I s' ∧ P e s s' ↔ G e s))
    {es : List E} {s : σ} (hs : J s) (h₀ : I s) :
    Throughout step I es s ∧ Along step (fun _ => P) es s ↔ Guarded step G es s := by
  induction es generalizing s with
  | nil => exact iff_of_true ⟨throughout_nil.2 h₀, along_nil⟩ along_nil
  | cons e es ih =>
    rw [throughout_cons, Guarded, along_cons, along_cons, and_iff_right h₀, ← forall_and]
    refine forall_congr' fun s' => ?_
    rw [← imp_and]
    refine forall_congr' fun hrun => ?_
    have hiff := hI e s s' hs h₀ hrun
    constructor
    · rintro ⟨h, hp, hrest⟩
      have h₁ : I s' := h [] es s' rfl rfl
      exact ⟨hiff.1 ⟨h₁, hp⟩, (ih (hJ e s s' hs hrun) h₁).1 ⟨h, hrest⟩⟩
    · rintro ⟨hg, hrest⟩
      obtain ⟨h₁, hp⟩ := hiff.2 hg
      obtain ⟨h, hrest⟩ := (ih (hJ e s s' hs hrun) h₁).2 hrest
      exact ⟨h, hp, hrest⟩

/-- **The guarded invariant rule.**  Where, in the states of an invariant `J`, a step
keeps `I` exactly under the condition `G`, the property `I` holds throughout the runs
whose steps meet `G`, and throughout no other run. -/
theorem throughout_iff_guarded {J I : σ → Prop} {G : E → σ → Prop}
    (hJ : ∀ e s s', J s → (step e).run s = .ok () s' → J s')
    (hI : ∀ e s s', J s → I s → (step e).run s = .ok () s' → (I s' ↔ G e s))
    {es : List E} {s : σ} (hs : J s) (h₀ : I s) :
    Throughout step I es s ↔ Guarded step G es s := by
  have hP : Along step (fun _ _ _ _ => True) es s := fun _ _ _ _ _ _ _ _ => trivial
  have hstep : ∀ e s s', J s → I s → (step e).run s = .ok () s' → (I s' ∧ True ↔ G e s) := by
    intro e s s' hs h hrun
    rw [and_true]
    exact hI e s s' hs h hrun
  have hrule := @throughout_and_along_iff_guarded _ _ _ step J I _ G hJ hstep es s hs h₀
  rwa [and_iff_left hP] at hrule

end Effect
end AccTx
