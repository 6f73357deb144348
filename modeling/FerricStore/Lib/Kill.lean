import Mathlib

/-!
# Step lists that may be cut short

A procedure that can be killed is a list of steps of which only a first part is taken. `Always` says
that a property holds wherever the list is cut, and its rules follow the list: an empty list leaves
the state, a first step is taken or not, and one list after another is cut in the first or in the
second.
-/

namespace FerricStore.Kill

variable {σ τ : Type} (exec : τ → σ → σ)

/-- The state after a list of steps. -/
def runSteps (steps : List τ) (state : σ) : σ :=
  steps.foldl (fun state step => exec step state) state

/-- A property that holds wherever a list of steps is cut. -/
def Always (P : σ → Prop) (steps : List τ) (state : σ) : Prop :=
  ∀ count, P (runSteps exec (steps.take count) state)

variable {exec} {P : σ → Prop} {steps : List τ} {state : σ}

@[simp] theorem runSteps_nil : runSteps exec [] state = state := rfl

@[simp] theorem runSteps_cons {step : τ} :
    runSteps exec (step :: steps) state = runSteps exec steps (exec step state) := rfl

theorem runSteps_append {others : List τ} :
    runSteps exec (steps ++ others) state = runSteps exec others (runSteps exec steps state) :=
  List.foldl_append

theorem always_nil : Always exec P [] state ↔ P state := by
  simp [Always]

/-- The first step is taken or not. -/
theorem always_cons {step : τ} :
    Always exec P (step :: steps) state ↔ P state ∧ Always exec P steps (exec step state) := by
  constructor
  · intro h
    exact ⟨h 0, fun count => h (count + 1)⟩
  · intro ⟨hfirst, hrest⟩ count
    cases count with
    | zero => exact hfirst
    | succ count => exact hrest count

/-- A list is cut in its first or in its second part. -/
theorem always_append {others : List τ} : Always exec P (steps ++ others) state ↔
      Always exec P steps state ∧ Always exec P others (runSteps exec steps state) := by
  induction steps generalizing state with
  | nil =>
    rw [List.nil_append, runSteps_nil, always_nil]
    exact ⟨fun h => ⟨h 0, h⟩, fun h => h.2⟩
  | cons step steps ih => rw [List.cons_append, always_cons, always_cons, ih, runSteps_cons, and_assoc]

/-- A property that every step keeps, given another that always holds. -/
theorem Always.of_step {Q : σ → Prop} (hstep : ∀ state step, P state → Q state → Q (exec step state))
    (h : Always exec P steps state) (hstart : Q state) : Always exec Q steps state := by
  induction steps generalizing state with
  | nil => exact always_nil.mpr hstart
  | cons step steps ih =>
    obtain ⟨hfirst, hrest⟩ := always_cons.mp h
    exact always_cons.mpr ⟨hstart, ih hrest (hstep state step hfirst hstart)⟩

theorem Always.whole (h : Always exec P steps state) : P (runSteps exec steps state) := by
  have := h steps.length
  rwa [List.take_length] at this

end FerricStore.Kill
