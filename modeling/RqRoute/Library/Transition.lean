import Mathlib.Data.List.Basic

/-! # Runs of a labelled transition system

A step takes an input and shows events. A run records the states it went through,
the input of each step and what the step showed. -/

namespace Transition

variable {σ ι ε : Type*}

/-- One step of a run: the state before it, its input, and its events. -/
structure Entry (σ ι ε : Type*) where
  before : σ
  input : ι
  events : List ε

/-- The runs from `s₀`. -/
inductive Run (step : σ → ι → σ → List ε → Prop) (s₀ : σ) : List (Entry σ ι ε) → σ → Prop
  | nil : Run step s₀ [] s₀
  | snoc {t : List (Entry σ ι ε)} {s s' : σ} {i : ι} {es : List ε} :
      Run step s₀ t s → step s i s' es → Run step s₀ (t ++ [⟨s, i, es⟩]) s'

/-- The events of a run, in order. -/
def events (t : List (Entry σ ι ε)) : List ε := t.flatMap Entry.events

@[simp] theorem events_nil : events ([] : List (Entry σ ι ε)) = [] := rfl

@[simp] theorem events_append (t u : List (Entry σ ι ε)) :
    events (t ++ u) = events t ++ events u := List.flatMap_append

@[simp] theorem events_singleton (x : Entry σ ι ε) : events [x] = x.events := by
  simp [events]

variable {step : σ → ι → σ → List ε → Prop}

theorem Run.single {s s' : σ} {i : ι} {es : List ε} (h : step s i s' es) :
    Run step s [⟨s, i, es⟩] s' := Run.snoc .nil h

theorem Run.trans {s₀ s₁ s₂ : σ} {t u : List (Entry σ ι ε)} (h₁ : Run step s₀ t s₁)
    (h₂ : Run step s₁ u s₂) : Run step s₀ (t ++ u) s₂ := by
  induction h₂ with
  | nil => simpa using h₁
  | snoc _ hstep ih =>
      rw [← List.append_assoc]
      exact ih.snoc hstep

/-- A run of a restricted system is a run of the system. -/
theorem Run.mono {step' : σ → ι → σ → List ε → Prop}
    (hsub : ∀ s i s' es, step s i s' es → step' s i s' es) {s₀ s : σ} {t : List (Entry σ ι ε)}
    (h : Run step s₀ t s) : Run step' s₀ t s := by
  induction h with
  | nil => exact .nil
  | snoc _ hstep ih => exact ih.snoc (hsub _ _ _ _ hstep)

/-- What holds at the start and is kept by every step holds of every state reached. -/
theorem Run.invariant {P : σ → Prop} {s₀ s : σ} {t : List (Entry σ ι ε)}
    (h : Run step s₀ t s) (hinit : P s₀)
    (hstep : ∀ s i s' es, P s → step s i s' es → P s') : P s := by
  induction h with
  | nil => exact hinit
  | snoc _ hlast ih => exact hstep _ _ _ _ ih hlast

/-- What holds before the first step and is kept by every step holds of the whole history. -/
theorem Run.history {P : List (Entry σ ι ε) → σ → Prop} {s₀ s : σ} {t : List (Entry σ ι ε)}
    (h : Run step s₀ t s) (hinit : P [] s₀)
    (hstep : ∀ u s i s' es, P u s → step s i s' es → P (u ++ [⟨s, i, es⟩]) s') : P t s := by
  induction h with
  | nil => exact hinit
  | snoc _ hlast ih => exact hstep _ _ _ _ _ ih hlast

theorem Run.eq_of_nil {s₀ s : σ} (h : Run step s₀ [] s) : s = s₀ := by
  generalize hw : [] = w at h
  cases h with
  | nil => rfl
  | snoc _ _ => exact absurd hw.symm (by simp)

theorem Run.of_concat {s₀ s : σ} {t : List (Entry σ ι ε)} {x : Entry σ ι ε}
    (h : Run step s₀ (t ++ [x]) s) : Run step s₀ t x.before ∧ step x.before x.input s x.events := by
  generalize hw : t ++ [x] = w at h
  cases h with
  | nil => exact absurd hw (by simp)
  | snoc hrun hlast =>
      obtain ⟨rfl, hx⟩ := List.append_inj' hw rfl
      obtain rfl := List.singleton_inj.mp hx
      exact ⟨hrun, hlast⟩

/-- A run that is not empty is its first step and a run. -/
theorem Run.of_cons {s₀ s : σ} {x : Entry σ ι ε} {t : List (Entry σ ι ε)}
    (h : Run step s₀ (x :: t) s) :
    ∃ s₁, x.before = s₀ ∧ step s₀ x.input s₁ x.events ∧ Run step s₁ t s := by
  generalize hw : x :: t = w at h
  induction h generalizing t with
  | nil => cases hw
  | snoc hrun hlast ih =>
      rename_i u s₁ s₂ i es
      cases u with
      | nil =>
          obtain rfl := hrun.eq_of_nil
          obtain ⟨rfl, rfl⟩ := List.cons.inj hw
          exact ⟨_, rfl, hlast, .nil⟩
      | cons y u =>
          obtain ⟨rfl, rfl⟩ := List.cons.inj hw
          obtain ⟨s₃, hbefore, hfirst, hrest⟩ := ih rfl
          exact ⟨s₃, hbefore, hfirst, hrest.snoc hlast⟩

/-- Every step of a run was taken from a state that an earlier part of it reached. -/
theorem Run.of_mem {s₀ s : σ} {t : List (Entry σ ι ε)} (h : Run step s₀ t s)
    {x : Entry σ ι ε} (hx : x ∈ t) :
    ∃ u s', Run step s₀ u x.before ∧ step x.before x.input s' x.events := by
  induction h with
  | nil => cases hx
  | snoc hrun hlast ih =>
      rcases List.mem_append.mp hx with hold | hnew
      · exact ih hold
      · obtain rfl := List.mem_singleton.mp hnew
        exact ⟨_, _, hrun, hlast⟩

/-! ## Images of runs -/

/-- The step as seen in another system. -/
def Entry.map {τ : Type*} (f : σ → τ) (x : Entry σ ι ε) : Entry τ ι ε :=
  ⟨f x.before, x.input, x.events⟩

@[simp] theorem events_map {τ : Type*} (f : σ → τ) (t : List (Entry σ ι ε)) :
    events (t.map (Entry.map f)) = events t := List.flatMap_map ..

/-! ## Simulation -/

/-- Where every step of one system is matched by one of another with the same events, so is
every run. -/
theorem Run.simulate {τ κ : Type*} {step' : τ → κ → τ → List ε → Prop} {rel : σ → τ → Prop}
    (hstep : ∀ s i s' es c, rel s c → step s i s' es → ∃ j c', step' c j c' es ∧ rel s' c')
    {s₀ s : σ} {c₀ : τ} {t : List (Entry σ ι ε)} (h : Run step s₀ t s) (hinit : rel s₀ c₀) :
    ∃ u c, Run step' c₀ u c ∧ rel s c ∧ events u = events t := by
  induction h with
  | nil => exact ⟨[], c₀, .nil, hinit, rfl⟩
  | snoc _ hlast ih =>
      obtain ⟨u, c, hrun, hrel, hevents⟩ := ih
      obtain ⟨j, c', hmatch, hrel'⟩ := hstep _ _ _ _ c hrel hlast
      exact ⟨u ++ [⟨c, j, _⟩], c', hrun.snoc hmatch, hrel', by simp [hevents]⟩

end Transition
