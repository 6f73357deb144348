import Mathlib

/-!
# Codes that keep an order

`Below x y` says that two strings differ at a place that both reach, and that `x` has the smaller
letter there. It is stronger than the lexicographic order: whatever is appended to the two strings,
they stay in it, and neither is a prefix of the other. `Agrees o x y` says that two code words stand
as an ordering `o` of what they encode demands: `Below` one way or the other, or equal. It goes
through concatenation with the lexicographic combination of the orderings (`Agrees.append`), and
through a reversal of the alphabet with the swapped one (`Agrees.map`).
-/

namespace FerricStore.OrderedCode

variable {α : Type} [LinearOrder α] {x y x' y' : List α} {o o' : Ordering}

/-- The first string has the smaller letter at the first place where the two differ, and both reach
that place. -/
def Below (x y : List α) : Prop :=
  ∃ shared a b s t, x = shared ++ a :: s ∧ y = shared ++ b :: t ∧ a < b

theorem Below.append (h : Below x y) (s t : List α) : Below (x ++ s) (y ++ t) := by
  obtain ⟨shared, a, b, s', t', rfl, rfl, hlt⟩ := h
  exact ⟨shared, a, b, s' ++ s, t' ++ t, by simp, by simp, hlt⟩

theorem Below.prepend (front : List α) (h : Below x y) : Below (front ++ x) (front ++ y) := by
  obtain ⟨shared, a, b, s, t, rfl, rfl, hlt⟩ := h
  exact ⟨front ++ shared, a, b, s, t, by simp, by simp, hlt⟩

theorem below_cons {a b : α} (hlt : a < b) (s t : List α) : Below (a :: s) (b :: t) :=
  ⟨[], a, b, s, t, rfl, rfl, hlt⟩

/-- The strings are in the lexicographic order. -/
theorem Below.lt (h : Below x y) : x < y := by
  obtain ⟨shared, a, b, s, t, rfl, rfl, hlt⟩ := h
  induction shared with
  | nil => exact List.Lex.rel hlt
  | cons c shared ih => exact List.Lex.cons ih

theorem Below.not_start (h : Below x y) (t : List α) : ¬x <+: y ++ t := by
  obtain ⟨shared, a, b, s, t', rfl, rfl, hlt⟩ := h
  rw [List.append_assoc, List.prefix_append_right_inj, List.cons_append, List.cons_prefix_cons]
  exact fun hstart => hlt.ne hstart.1

theorem Below.not_start' (h : Below x y) (t : List α) : ¬y <+: x ++ t := by
  obtain ⟨shared, a, b, s, t', rfl, rfl, hlt⟩ := h
  rw [List.append_assoc, List.prefix_append_right_inj, List.cons_append, List.cons_prefix_cons]
  exact fun hstart => hlt.ne' hstart.1

theorem Below.map {f : α → α} (hf : StrictAnti f) (h : Below x y) : Below (y.map f) (x.map f) := by
  obtain ⟨shared, a, b, s, t, rfl, rfl, hlt⟩ := h
  exact ⟨shared.map f, f b, f a, t.map f, s.map f, by simp, by simp, hf hlt⟩

/-- Strings of one length in the lexicographic order differ before they end. -/
theorem below_of_lt : ∀ {x y : List α}, x.length = y.length → x < y → Below x y
  | [], [], _, h => absurd h (lt_irrefl _)
  | a :: x, b :: y, hlen, h => by
    rcases List.cons_lt_cons_iff.mp h with hlt | ⟨rfl, hlt⟩
    · exact below_cons hlt x y
    · exact (below_of_lt (Nat.succ.inj hlen) hlt).prepend [a]

/-- Two code words stand as an ordering demands. -/
def Agrees (o : Ordering) (x y : List α) : Prop :=
  match o with
  | .lt => Below x y
  | .eq => x = y
  | .gt => Below y x

section

variable (h : Agrees o x y)
include h

/-- Concatenation is lexicographic. -/
theorem Agrees.append (h' : Agrees o' x' y') : Agrees (o.then o') (x ++ x') (y ++ y') := by
  cases o with
  | lt => exact Below.append h x' y'
  | gt => exact Below.append h y' x'
  | eq =>
    obtain rfl : x = y := h
    cases o' with
    | lt => exact Below.prepend x h'
    | gt => exact Below.prepend x h'
    | eq => exact congrArg (x ++ ·) h'

/-- Reversing the alphabet swaps the ordering. -/
theorem Agrees.map {f : α → α} (hf : StrictAnti f) : Agrees o.swap (x.map f) (y.map f) := by
  cases o with
  | lt => exact Below.map hf h
  | gt => exact Below.map hf h
  | eq => exact congrArg (List.map f) h

/-- The lexicographic order of the code words is the ordering. -/
theorem Agrees.lt_iff : x < y ↔ o = .lt := by
  cases o with
  | lt => exact iff_of_true (Below.lt h) rfl
  | eq =>
    obtain rfl : x = y := h
    exact iff_of_false (lt_irrefl x) (by decide)
  | gt => exact iff_of_false (Below.lt h).asymm (by decide)

/-- The order the other way. -/
theorem Agrees.gt_iff : y < x ↔ o = .gt := by
  cases o with
  | lt => exact iff_of_false (Below.lt h).asymm (by decide)
  | eq =>
    obtain rfl : x = y := h
    exact iff_of_false (lt_irrefl x) (by decide)
  | gt => exact iff_of_true (Below.lt h) rfl

/-- Code words are equal exactly when the ordering is. -/
theorem Agrees.eq_iff : x = y ↔ o = .eq := by
  cases o with
  | lt => exact iff_of_false (Below.lt h).ne (by decide)
  | eq => exact iff_of_true h rfl
  | gt => exact iff_of_false (Below.lt h).ne' (by decide)

/-- A code word starts another with anything appended exactly when the two are equal. -/
theorem Agrees.start_iff (t : List α) : x <+: y ++ t ↔ o = .eq := by
  cases o with
  | lt => exact iff_of_false (Below.not_start h t) (by decide)
  | eq =>
    obtain rfl : x = y := h
    exact iff_of_true (List.prefix_append x t) rfl
  | gt => exact iff_of_false (Below.not_start' h t) (by decide)

end

end FerricStore.OrderedCode
