import Mathlib

/-!
# Procedures whose steps may fail

A procedure takes steps on a device and goes on by whether they succeeded; it may also look at the
device. Two things can happen to it besides running to its end: the process is killed, between two
steps or in the middle of one, or a step returns an error, with what it has done by then left on the
device. `Always` is what holds wherever the process is killed, `Ends` is what holds when the
procedure returns after a given number of errors and `EndsAny` after any number; their rules execute
a procedure symbolically.
-/

namespace FerricStore.Faults

/-- A procedure over steps `Op` on a device with states `σ`, with a result in `ρ`. -/
inductive Proc (Op σ ρ : Type) where
  | done (result : ρ)
  | step (op : Op) (next : Bool → Proc Op σ ρ)
  | look (next : σ → Proc Op σ ρ)

variable {Op σ ρ τ : Type}

/-- A procedure, and then another that depends on its result. -/
def Proc.bind : Proc Op σ ρ → (ρ → Proc Op σ τ) → Proc Op σ τ
  | .done result, next => next result
  | .step op rest, next => .step op fun ok => (rest ok).bind next
  | .look rest, next => .look fun s => (rest s).bind next

/-- A procedure that asks one question about the device. -/
def Proc.test (check : σ → Bool) (next : Bool → Proc Op σ ρ) : Proc Op σ ρ :=
  .look fun s => next (check s)

/-- A step as a procedure. -/
def Proc.op (op : Op) : Proc Op σ Bool := .step op .done

/-- A procedure that goes on only when the first part returned ok. -/
def Proc.andThen (first second : Proc Op σ Bool) : Proc Op σ Bool :=
  first.bind fun ok => if ok then second else .done false

/-- A procedure with a handler for the error of its first part, whose own result is dropped. -/
def Proc.orElse (first handler second : Proc Op σ Bool) : Proc Op σ Bool :=
  first.bind fun ok => if ok then second else handler.bind fun _ => .done false

variable (apply : Op → σ → σ)

/-- The states in which the process can be killed, when no step fails. `cut` is what a step that is
killed in its middle leaves. -/
inductive Killed (cut : Op → σ → σ → Prop) : Proc Op σ ρ → σ → σ → Prop where
  | here (proc : Proc Op σ ρ) (s : σ) : Killed cut proc s s
  | inside {op : Op} {next : Bool → Proc Op σ ρ} {s s' : σ} :
      cut op s s' → Killed cut (.step op next) s s'
  | step {op : Op} {next : Bool → Proc Op σ ρ} {s s' : σ} :
      Killed cut (next true) (apply op s) s' → Killed cut (.step op next) s s'
  | look {next : σ → Proc Op σ ρ} {s s' : σ} :
      Killed cut (next s) s s' → Killed cut (.look next) s s'

/-- The results and states with which a procedure can return after a number of failed steps. `fails`
is what a failed step leaves. -/
inductive Returns (fails : Op → σ → σ → Prop) : Nat → Proc Op σ ρ → σ → ρ → σ → Prop where
  | done (result : ρ) (s : σ) : Returns fails 0 (.done result) s result s
  | step {n : Nat} {op : Op} {next : Bool → Proc Op σ ρ} {s s' : σ} {result : ρ} :
      Returns fails n (next true) (apply op s) result s' →
      Returns fails n (.step op next) s result s'
  | fail {n : Nat} {op : Op} {next : Bool → Proc Op σ ρ} {s failed s' : σ} {result : ρ} :
      fails op s failed → Returns fails n (next false) failed result s' →
      Returns fails (n + 1) (.step op next) s result s'
  | look {n : Nat} {next : σ → Proc Op σ ρ} {s s' : σ} {result : ρ} :
      Returns fails n (next s) s result s' → Returns fails n (.look next) s result s'

/-- A property that holds wherever the process is killed. -/
def Always (cut : Op → σ → σ → Prop) (P : σ → Prop) (proc : Proc Op σ ρ) (s : σ) : Prop :=
  ∀ s', Killed apply cut proc s s' → P s'

/-- A property of every return after a number of failed steps. -/
def Ends (fails : Op → σ → σ → Prop) (n : Nat) (Q : ρ → σ → Prop) (proc : Proc Op σ ρ) (s : σ) :
    Prop :=
  ∀ result s', Returns apply fails n proc s result s' → Q result s'

/-- A property of every return, whatever fails. -/
def EndsAny (fails : Op → σ → σ → Prop) (Q : ρ → σ → Prop) (proc : Proc Op σ ρ) (s : σ) : Prop :=
  ∀ n, Ends apply fails n Q proc s

variable {apply} {cut fails : Op → σ → σ → Prop} {P : σ → Prop} {Q : ρ → σ → Prop} {n : Nat}
  {op : Op} {next : Bool → Proc Op σ ρ} {s : σ} {result : ρ}

/-- A procedure that has ended leaves the state it is in. -/
@[simp] theorem always_done : Always apply cut P (.done result : Proc Op σ ρ) s ↔ P s := by
  constructor
  · intro h
    exact h s (.here _ s)
  · rintro h s' ⟨⟩
    exact h

/-- Before a step, wherever it is cut off, and on from its end. -/
@[simp] theorem always_step : Always apply cut P (.step op next) s ↔
      P s ∧ (∀ s', cut op s s' → P s') ∧ Always apply cut P (next true) (apply op s) := by
  constructor
  · intro h
    exact ⟨h s (.here _ s), fun s' hs' => h s' (.inside hs'), fun s' hs' => h s' (.step hs')⟩
  · rintro ⟨hhere, hinside, hstep⟩ s' (_ | hcut | hrest)
    · exact hhere
    · exact hinside s' hcut
    · exact hstep s' hrest

/-- Reading the state changes nothing. -/
@[simp] theorem always_look {next : σ → Proc Op σ ρ} :
    Always apply cut P (.look next) s ↔ Always apply cut P (next s) s := by
  constructor
  · intro h s' hs'
    exact h s' (.look hs')
  · intro h s' hs'
    cases hs' with
    | here => exact h s (.here _ s)
    | look hrest => exact h s' hrest

/-- An end without an error. -/
@[simp] theorem ends_zero_done : Ends apply fails 0 Q (.done result) s ↔ Q result s := by
  constructor
  · intro h
    exact h result s (.done result s)
  · rintro h result' s' ⟨⟩
    exact h

/-- An end leaves no room for an error. -/
@[simp] theorem ends_succ_done : Ends apply fails (n + 1) Q (.done result) s := by
  rintro result' s' ⟨⟩

/-- Without an error a step succeeds. -/
@[simp] theorem ends_zero_step :
    Ends apply fails 0 Q (.step op next) s ↔ Ends apply fails 0 Q (next true) (apply op s) := by
  constructor
  · intro h result' s' hs'
    exact h result' s' (.step hs')
  · intro h result' s' hs'
    cases hs' with
    | step hrest => exact h result' s' hrest

/-- The first error is the one of this step or a later one. -/
@[simp] theorem ends_succ_step : Ends apply fails (n + 1) Q (.step op next) s ↔
      Ends apply fails (n + 1) Q (next true) (apply op s) ∧
        ∀ failed, fails op s failed → Ends apply fails n Q (next false) failed := by
  constructor
  · intro h
    exact ⟨fun result' s' hs' => h result' s' (.step hs'),
      fun failed hfailed result' s' hs' => h result' s' (.fail hfailed hs')⟩
  · rintro ⟨hstep, hfail⟩ result' s' hs'
    cases hs' with
    | step hrest => exact hstep result' s' hrest
    | fail hfailed hrest => exact hfail _ hfailed result' s' hrest

@[simp] theorem ends_look {next : σ → Proc Op σ ρ} :
    Ends apply fails n Q (.look next) s ↔ Ends apply fails n Q (next s) s := by
  constructor
  · intro h result' s' hs'
    exact h result' s' (.look hs')
  · intro h result' s' hs'
    cases hs' with
    | look hrest => exact h result' s' hrest

/-- An end with any number of errors is the end. -/
@[simp] theorem endsAny_done : EndsAny apply fails Q (.done result) s ↔ Q result s := by
  constructor
  · intro h
    exact ends_zero_done.mp (h 0)
  · intro h n
    cases n with
    | zero => exact ends_zero_done.mpr h
    | succ n => exact ends_succ_done

/-- A step succeeds or fails. -/
@[simp] theorem endsAny_step : EndsAny apply fails Q (.step op next) s ↔
      EndsAny apply fails Q (next true) (apply op s) ∧
        ∀ failed, fails op s failed → EndsAny apply fails Q (next false) failed := by
  constructor
  · intro h
    refine ⟨fun n => ?_, fun failed hfailed n => (ends_succ_step.mp (h (n + 1))).2 failed hfailed⟩
    cases n with
    | zero => exact ends_zero_step.mp (h 0)
    | succ n => exact (ends_succ_step.mp (h (n + 1))).1
  · rintro ⟨hstep, hfail⟩ n
    cases n with
    | zero => exact ends_zero_step.mpr (hstep 0)
    | succ n =>
      exact ends_succ_step.mpr ⟨hstep (n + 1), fun failed hfailed => hfail failed hfailed n⟩

@[simp] theorem endsAny_look {next : σ → Proc Op σ ρ} :
    EndsAny apply fails Q (.look next) s ↔ EndsAny apply fails Q (next s) s :=
  forall_congr' fun _ => ends_look

/-- A procedure and then another: the second starts where the first returned. -/
theorem EndsAny.bind {R : τ → σ → Prop} {proc : Proc Op σ ρ} {next : ρ → Proc Op σ τ}
    (h : EndsAny apply fails (fun result s' => EndsAny apply fails R (next result) s') proc s) :
    EndsAny apply fails R (proc.bind next) s := by
  induction proc generalizing s with
  | done result =>
    have hnext := endsAny_done.mp h
    exact hnext
  | step op rest ih =>
    obtain ⟨hstep, hfail⟩ := endsAny_step.mp h
    exact endsAny_step.mpr ⟨ih true hstep, fun failed hfailed => ih false (hfail failed hfailed)⟩
  | look rest ih => exact endsAny_look.mpr (ih s (endsAny_look.mp h))

/-- The consequence rule. -/
theorem EndsAny.mono {R : ρ → σ → Prop} {proc : Proc Op σ ρ} (h : EndsAny apply fails Q proc s)
    (himp : ∀ result s', Q result s' → R result s') : EndsAny apply fails R proc s :=
  fun n result s' hs' => himp result s' (h n result s' hs')

end FerricStore.Faults
