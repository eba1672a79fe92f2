import Mathlib.Data.List.Basic
import Mathlib.Data.List.Forall2
import Mathlib.Data.List.Nodup
import Mathlib.Data.List.Perm.Basic
import Mathlib.Tactic.Common

/-!
# Loops over lists

A loop whose rounds may throw is a fold in `Except`.  When whether a round throws depends only on the element, the
loop succeeds exactly when no element makes it throw, and it is then a fold that cannot throw
(`foldlM_eq_ok_iff`).  Two such folds have closed forms: one that appends what some elements give
(`foldl_append_toList`), and one that overwrites a variable with what some elements give (`foldl_getD`).
-/

namespace Loops

variable {α β σ ε : Type}

section Except

variable {x : Except ε α} {a b : α} {what : ε} {m : σ} {y : Except ε (σ ⊕ α)}

@[simp] theorem ok_bind {f : α → Except ε β} : ((.ok a : Except ε α) >>= f) = f a := rfl

@[simp] theorem error_bind {f : α → Except ε β} : ((.error what : Except ε α) >>= f) = .error what := rfl

theorem bind_eq_ok_iff {f : α → Except ε β} {b : β} : (x >>= f) = .ok b ↔ ∃ a, x = .ok a ∧ f a = .ok b := by
  cases x <;> simp [bind, Except.bind]

theorem pure_eq_ok_iff : (pure a : Except ε α) = .ok b ↔ a = b := by
  simp [pure, Except.pure]

/-- A computation with a result on the right has not returned early on the left. -/
theorem ite_inl_eq_ok_iff {c : Prop} [Decidable c] :
    (if c then pure (.inl m) else y) = .ok (.inr a) ↔ ¬ c ∧ y = .ok (.inr a) := by
  by_cases h : c <;> simp [h, pure, Except.pure]

/-- A choice between two readings with the same continuation. -/
theorem ite_bind_eq_ok_iff {c : Prop} [Decidable c] {x₁ x₂ : Except ε α} {f : α → Except ε β} {b : β} :
    (if c then x₁ >>= f else x₂ >>= f) = .ok b ↔ ∃ a, (if c then x₁ else x₂) = .ok a ∧ f a = .ok b := by
  rw [← bind_eq_ok_iff]
  split <;> rfl

/-- A result, if there is one, has the property. -/
def Yields (P : α → Prop) (x : Except ε α) : Prop := ∀ a, x = .ok a → P a

theorem yields_pure {P : α → Prop} (h : P a) : Yields P (pure a : Except ε α) := by
  intro a' ha
  cases ha
  exact h

/-- Only the last computation of a sequence matters. -/
theorem yields_bind {P : β → Prop} {f : α → Except ε β} (h : ∀ a, Yields P (f a)) : Yields P (x >>= f) := by
  intro b hb
  obtain ⟨a, -, hf⟩ := bind_eq_ok_iff.1 hb
  exact h a b hf

end Except

/-- A loop that succeeds exactly on lists of elements that do not make it throw. -/
theorem foldlM_eq_ok_iff {step : σ → α → Except ε σ} {ok : α → Prop} {record : σ → α → σ}
    (h : ∀ s x s', step s x = .ok s' ↔ ok x ∧ s' = record s x) {xs : List α} {s s' : σ} :
    xs.foldlM step s = .ok s' ↔ (∀ x ∈ xs, ok x) ∧ s' = xs.foldl record s := by
  induction xs generalizing s with
  | nil => simp [pure, Except.pure, eq_comm]
  | cons x xs ih =>
    rw [List.foldlM_cons, bind_eq_ok_iff, List.forall_mem_cons, List.foldl_cons, and_assoc]
    constructor
    · rintro ⟨s₁, hstep, hrest⟩
      obtain ⟨hx, rfl⟩ := (h _ _ _).1 hstep
      exact ⟨hx, ih.1 hrest⟩
    · rintro ⟨hx, hrest⟩
      exact ⟨record s x, (h _ _ _).2 ⟨hx, rfl⟩, ih.2 hrest⟩

/-- When whether a round throws depends only on the element, a loop succeeds exactly on lists of elements at which
no round throws. -/
theorem exists_foldlM_eq_ok_iff {step : σ → α → Except ε σ} {ok : α → Prop}
    (h : ∀ s x, (∃ s', step s x = .ok s') ↔ ok x) {xs : List α} {s : σ} :
    (∃ s', xs.foldlM step s = .ok s') ↔ ∀ x ∈ xs, ok x := by
  induction xs generalizing s with
  | nil => simp [pure, Except.pure]
  | cons x xs ih =>
    simp only [List.foldlM_cons, bind_eq_ok_iff, List.forall_mem_cons]
    constructor
    · rintro ⟨s', s₁, hstep, hrest⟩
      exact ⟨(h s x).1 ⟨s₁, hstep⟩, ih.1 ⟨s', hrest⟩⟩
    · rintro ⟨hx, hrest⟩
      obtain ⟨s₁, hstep⟩ := (h s x).2 hx
      obtain ⟨s', hs'⟩ := ih.2 hrest
      exact ⟨s', s₁, hstep, hs'⟩

/-- What every round keeps, a loop keeps that ends. -/
theorem foldlM_invariant {step : σ → α → Except ε σ} {I : σ → Prop}
    (h : ∀ s x s', step s x = .ok s' → I s → I s') {xs : List α} {s s' : σ} (hloop : xs.foldlM step s = .ok s')
    (hs : I s) : I s' := by
  induction xs generalizing s with
  | nil => exact Except.ok.inj hloop ▸ hs
  | cons x xs ih =>
    rw [List.foldlM_cons, bind_eq_ok_iff] at hloop
    obtain ⟨s₁, hstep, hrest⟩ := hloop
    exact ih hrest (h s x s₁ hstep hs)

/-- A loop none of whose rounds throws. -/
theorem foldlM_eq_ok_foldl {step : σ → α → Except ε σ} {record : σ → α → σ} {xs : List α}
    (h : ∀ s, ∀ x ∈ xs, step s x = .ok (record s x)) (s : σ) : xs.foldlM step s = .ok (xs.foldl record s) := by
  induction xs generalizing s with
  | nil => rfl
  | cons x xs ih =>
    rw [List.foldlM_cons, h s x List.mem_cons_self]
    exact ih (fun s y hy => h s y (List.mem_cons_of_mem _ hy)) _

/-- A variable that the elements with a property set to one value, and the others leave as it is. -/
theorem foldl_ite_any (p : α → Bool) (c b : β) (xs : List α) :
    xs.foldl (fun b x => if p x then c else b) b = if xs.any p then c else b := by
  induction xs generalizing b with
  | nil => rfl
  | cons x xs ih =>
    rw [List.foldl_cons, ih, List.any_cons]
    cases p x <;> simp

theorem foldl_append_toList (f : α → Option β) (xs : List α) (ys : List β) :
    xs.foldl (fun ys x => ys ++ (f x).toList) ys = ys ++ xs.filterMap f := by
  induction xs generalizing ys with
  | nil => simp
  | cons x xs ih =>
    rw [List.foldl_cons, ih, List.append_assoc, List.filterMap_cons]
    cases f x <;> rfl

/-- The elements that give something correspond to what they give. -/
theorem forall₂_filter_filterMap_iff {f : α → Option β} {p : α → Bool} (hp : ∀ x, p x = (f x).isSome)
    {R : α → β → Prop} {xs : List α} :
    List.Forall₂ R (xs.filter p) (xs.filterMap f) ↔ ∀ x ∈ xs, ∀ y, f x = some y → R x y := by
  induction xs with
  | nil => simp
  | cons x xs ih =>
    rw [List.filter_cons, List.filterMap_cons, hp, List.forall_mem_cons, ← ih]
    cases f x <;> simp

/-- A variable that some elements overwrite holds what the last of them gives. -/
theorem foldl_getD (f : α → Option β) (xs : List α) (b : β) :
    xs.foldl (fun b x => (f x).getD b) b = (xs.filterMap f).getLast?.getD b := by
  induction xs generalizing b with
  | nil => rfl
  | cons x xs ih =>
    rw [List.foldl_cons, ih, List.filterMap_cons]
    cases f x with
    | none => rfl
    | some a => simp [List.getLast?_cons]

/-- The last value that is given comes from an element behind which no element gives any. -/
theorem getLast?_filterMap_eq_some_iff {f : α → Option β} {xs : List α} {b : β} :
    (xs.filterMap f).getLast? = some b ↔
      ∃ before x after, xs = before ++ x :: after ∧ f x = some b ∧ ∀ y ∈ after, f y = none := by
  rw [List.getLast?_filterMap, List.findSome?_eq_some_iff]
  constructor
  · rintro ⟨before, x, after, hxs, hx, hnone⟩
    refine ⟨after.reverse, x, before.reverse, ?_, hx, fun y hy => hnone y (List.mem_reverse.1 hy)⟩
    rw [← List.reverse_reverse xs, hxs]
    simp
  · rintro ⟨before, x, after, rfl, hx, hnone⟩
    exact ⟨after.reverse, x, before.reverse, by simp, hx, fun y hy => hnone y (List.mem_reverse.1 hy)⟩

/-- When no value is given twice, at most one element gives it. -/
theorem length_filter_le_one [DecidableEq β] {f : α → Option β} {xs : List α} (h : (xs.filterMap f).Nodup) (b : β) :
    (xs.filter fun x => f x = some b).length ≤ 1 := by
  have hcount : (xs.filterMap f).count b = (xs.filter fun x => f x = some b).length := by
    rw [List.count_filterMap, List.countP_eq_length_filter]
    simp only [beq_eq_decide]
  rw [← hcount]
  exact List.nodup_iff_count_le_one.1 h b

/-- When at most one element passes a test, the last that does is the same in every order. -/
theorem getLast?_filter_of_perm {p : α → Bool} {xs ys : List α} (hone : (xs.filter p).length ≤ 1)
    (h : xs.Perm ys) : (xs.filter p).getLast? = (ys.filter p).getLast? := by
  have hperm : (xs.filter p).Perm (ys.filter p) := h.filter p
  cases hxs : xs.filter p with
  | nil =>
    rw [hxs] at hperm
    rw [hperm.symm.eq_nil]
  | cons x rest =>
    rw [hxs] at hone hperm
    obtain rfl : rest = [] := List.eq_nil_of_length_eq_zero (by simpa using hone)
    rw [List.perm_singleton.1 hperm.symm]

end Loops
