import Mathlib

/-!
# Fallible computations

Inversion of `Except` computations: a bind that succeeds is a first part that succeeds followed by
a continuation that does. Every proof about a fallible function peels it apart with these rules
instead of unfolding the monad.
-/

namespace FerricStore

universe u v

variable {ε : Type u} {α β : Type v}

/-- A bind succeeds exactly when both of its parts do. -/
theorem bind_eq_ok_iff {x : Except ε α} {f : α → Except ε β} {b : β} :
    x >>= f = .ok b ↔ ∃ a, x = .ok a ∧ f a = .ok b := by
  cases x with
  | error e => simp [bind, Except.bind]
  | ok a => simp [bind, Except.bind]

@[simp] theorem ok_bind (a : α) (f : α → Except ε β) : (Except.ok a >>= f) = f a := rfl

@[simp] theorem error_bind (e : ε) (f : α → Except ε β) :
    ((Except.error e : Except ε α) >>= f) = .error e := rfl

@[simp] theorem pure_eq_ok (a : α) : (pure a : Except ε α) = .ok a := rfl

/-- The value of an optional result, or the given failure. -/
def orFail (x : Option α) (e : ε) : Except ε α :=
  match x with
  | some a => .ok a
  | none => .error e

@[simp] theorem orFail_eq_ok_iff {x : Option α} {e : ε} {a : α} :
    orFail x e = .ok a ↔ x = some a := by
  cases x <;> simp [orFail]

@[simp] theorem orFail_some (a : α) (e : ε) : orFail (some a) e = .ok a := rfl

/-- A function that succeeds on every element succeeds on the list. -/
theorem mapM_of_forall₂ {f : α → Except ε β} {items : List α} {results : List β}
    (h : List.Forall₂ (fun item result => f item = .ok result) items results) :
    items.mapM f = .ok results := by
  induction h with
  | nil => rfl
  | cons hfirst _ ih => rw [List.mapM_cons, hfirst, ok_bind, ih, ok_bind, pure_eq_ok]

end FerricStore
