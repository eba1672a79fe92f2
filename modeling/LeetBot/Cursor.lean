import Mathlib.Data.List.Basic
import Mathlib.Logic.Function.Iterate
import Mathlib.Tactic.Common

/-!
# A cursor in a list

A list of entries with a position that stays inside the list; in the empty list the position is 0.  `prev` and
`next` move the position by one and stop at the ends.  Starting at the first entry and moving on through the list
shows every entry once, in order.
-/

/-- A list with a position in it. -/
@[ext] structure Cursor (α : Type) where
  entries : List α
  position : Nat
  inside : position ≤ entries.length - 1

namespace Cursor

variable {α : Type} {c : Cursor α} {xs : List α}

def start (xs : List α) : Cursor α := ⟨xs, 0, Nat.zero_le _⟩

def prev (c : Cursor α) : Cursor α := ⟨c.entries, c.position - 1, by have := c.inside; omega⟩

def next (c : Cursor α) : Cursor α :=
  ⟨c.entries, min (c.position + 1) (c.entries.length - 1), Nat.min_le_right _ _⟩

@[simp] theorem start_entries : (start xs).entries = xs := rfl

@[simp] theorem start_position : (start xs).position = 0 := rfl

@[simp] theorem prev_entries : c.prev.entries = c.entries := rfl

@[simp] theorem prev_position : c.prev.position = c.position - 1 := rfl

@[simp] theorem next_entries : c.next.entries = c.entries := rfl

@[simp] theorem next_position : c.next.position = min (c.position + 1) (c.entries.length - 1) := rfl

theorem position_eq_zero_or_lt (c : Cursor α) : c.position = 0 ∨ c.position < c.entries.length := by
  have := c.inside
  omega

/-- What the steps do to the position, as a walk that is clamped to the indices of the list. -/
theorem prev_position_clamped :
    (c.prev.position : Int) = max 0 (min (max c.entries.length 1 - 1 : Int) (c.position - 1)) := by
  have := c.inside
  rw [prev_position]
  omega

theorem next_position_clamped :
    (c.next.position : Int) = max 0 (min (max c.entries.length 1 - 1 : Int) (c.position + 1)) := by
  have := c.inside
  rw [next_position]
  omega

@[simp] theorem iterate_next_entries (k : Nat) : (next^[k] c).entries = c.entries := by
  induction k with
  | zero => rfl
  | succ k ih => rw [Function.iterate_succ_apply', next_entries, ih]

private theorem iterate_next_position (k : Nat) :
    (next^[k] c).position = min (c.position + k) (c.entries.length - 1) := by
  induction k with
  | zero => exact (Nat.min_eq_left c.inside).symm
  | succ k ih =>
    rw [Function.iterate_succ_apply', next_position, iterate_next_entries, ih]
    omega

/-- The walk through the whole list stands on every index once, in order. -/
theorem iterate_next_start {k : Nat} (h : k < xs.length) : (next^[k] (start xs)).position = k := by
  rw [iterate_next_position, start_position, start_entries]
  omega

end Cursor
