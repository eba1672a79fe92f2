import Mathlib.Data.List.Basic
import Mathlib.Data.List.Induction
import Mathlib.Tactic.Common

/-!
# Machines that answer events

A machine is a function `step : σ → ε → σ × List ω`: in a state it takes an event to a new state and to outputs.
`run` lets it take a list of events.  `EachStep` says that a property of the state and the event holds at every step
of such a run; it follows from an invariant (`eachStep_of_invariant`).  What the steps open and close is balanced over
a run when it is at every step (`run_balance`).

Several actors may share one machine.  Every event is caused by one actor, every output goes to one, and `view`
says what of the state belongs to actor `a`.  If the events of the others neither change what belongs to `a` nor
produce output for `a`, and the effect of an own event on `a` depends only on what belongs to `a` (`Separated`),
then `a` cannot tell whether the others are there (`Separated.run_filter`).
-/

namespace EventMachine

variable {σ ε ω : Type} (step : σ → ε → σ × List ω)

/-- The state after a list of events, and all outputs in order. -/
def run : σ → List ε → σ × List ω
  | s, [] => (s, [])
  | s, e :: es => ((run (step s e).1 es).1, (step s e).2 ++ (run (step s e).1 es).2)

@[simp] theorem run_nil (s : σ) : run step s [] = (s, []) := rfl

theorem run_cons (s : σ) (e : ε) (es : List ε) :
    run step s (e :: es) = ((run step (step s e).1 es).1, (step s e).2 ++ (run step (step s e).1 es).2) := rfl

theorem run_append (s : σ) (es es' : List ε) :
    run step s (es ++ es') =
      ((run step (run step s es).1 es').1, (run step s es).2 ++ (run step (run step s es).1 es').2) := by
  induction es generalizing s with
  | nil => rfl
  | cons e es ih => simp only [List.cons_append, run_cons, ih, List.append_assoc]

/-- A property of the states and the events of a run holds at every step. -/
def EachStep (P : σ → ε → Prop) : σ → List ε → Prop
  | _, [] => True
  | s, e :: es => P s e ∧ EachStep P (step s e).1 es

variable {step}

/-- Properties that agree in all states of a run agree on the run. -/
theorem eachStep_congr {I : σ → Prop} {P Q : σ → ε → Prop} (hI : ∀ s e, I s → I (step s e).1)
    (h : ∀ s e, I s → (P s e ↔ Q s e)) {s : σ} (hs : I s) (es : List ε) :
    EachStep step P s es ↔ EachStep step Q s es := by
  induction es generalizing s with
  | nil => exact Iff.rfl
  | cons e es ih => exact and_congr (h s e hs) (ih (hI s e hs))

/-- What an invariant implies holds at every step of a run. -/
theorem eachStep_of_invariant {I : σ → Prop} {P : σ → ε → Prop} (hI : ∀ s e, I s → I (step s e).1)
    (h : ∀ s e, I s → P s e) {s : σ} (hs : I s) (es : List ε) : EachStep step P s es := by
  induction es generalizing s with
  | nil => trivial
  | cons e es ih => exact ⟨h s e hs, ih (hI s e hs)⟩

/-- Every output of a run is one of a step. -/
theorem exists_step_of_mem_run {s : σ} {es : List ε} {o : ω} (h : o ∈ (run step s es).2) :
    ∃ s' e, o ∈ (step s' e).2 := by
  induction es generalizing s with
  | nil => cases h
  | cons e es ih =>
    rw [run_cons] at h
    rcases List.mem_append.1 h with hhere | hlater
    · exact ⟨s, e, hhere⟩
    · exact ih hlater

/-! ### Runs by their last event -/

variable (step) in
/-- A property of the past events and the state: it holds at the start, and every further event keeps it. -/
theorem run_induction {P : List ε → σ → Prop} {s : σ} (h0 : P [] s)
    (hstep : ∀ es e, P es (run step s es).1 → P (es ++ [e]) (step (run step s es).1 e).1) (es : List ε) :
    P es (run step s es).1 := by
  induction es using List.reverseRecOn with
  | nil => exact h0
  | append_singleton es e ih =>
    have hlast := hstep es e ih
    rw [run_append]
    exact hlast

/-- What a run finds pending and opens is what it leaves pending and closes, when this is so at every step. -/
theorem run_balance {I : σ → Prop} {pending : σ → Nat} {opens closes : ω → Bool} (hI : ∀ s e, I s → I (step s e).1)
    (h : ∀ s e, I s →
      pending s + (step s e).2.countP opens = pending (step s e).1 + (step s e).2.countP closes)
    {s : σ} (hs : I s) (es : List ε) :
    pending s + (run step s es).2.countP opens = pending (run step s es).1 + (run step s es).2.countP closes := by
  induction es generalizing s with
  | nil => rfl
  | cons e es ih =>
    have hfirst := h s e hs
    have hrest := ih (hI s e hs)
    rw [run_cons]
    simp only [List.countP_append]
    omega

/-- What every step preserves holds at the end of a run. -/
theorem run_invariant {I : σ → Prop} (hI : ∀ s e, I s → I (step s e).1) {s : σ} (hs : I s) (es : List ε) :
    I (run step s es).1 := by
  induction es generalizing s with
  | nil => exact hs
  | cons e es ih => exact ih (hI s e hs)

section Separation

variable {κ υ : Type} [DecidableEq κ]

/-- The actor `a`, to whom `view` of the state belongs, is out of reach of the others. -/
structure Separated (step : σ → ε → σ × List ω) (actor : ε → κ) (recipient : ω → κ) (view : σ → υ) (a : κ) :
    Prop where
  others : ∀ s e, actor e ≠ a → view (step s e).1 = view s ∧ ∀ o ∈ (step s e).2, recipient o ≠ a
  own : ∀ s t e, actor e = a → view s = view t →
    view (step s e).1 = view (step t e).1 ∧ (step s e).2 = (step t e).2

variable {actor : ε → κ} {recipient : ω → κ} {view : σ → υ} {a : κ}

/-- Deleting the events of the others changes neither what belongs to `a` nor what `a` receives. -/
theorem Separated.run_filter (h : Separated step actor recipient view a) {s t : σ} (hst : view s = view t)
    (es : List ε) :
    view (run step s es).1 = view (run step t (es.filter fun e => actor e = a)).1 ∧
      (run step s es).2.filter (fun o => recipient o = a) =
        (run step t (es.filter fun e => actor e = a)).2.filter fun o => recipient o = a := by
  induction es generalizing s t with
  | nil => exact ⟨hst, rfl⟩
  | cons e es ih =>
    by_cases he : actor e = a
    · obtain ⟨hv, ho⟩ := h.own s t e he hst
      obtain ⟨ihv, iho⟩ := ih hv
      rw [List.filter_cons_of_pos (by simpa using he), run_cons, run_cons]
      refine ⟨ihv, ?_⟩
      rw [List.filter_append, List.filter_append, iho, ho]
    · obtain ⟨hv, ho⟩ := h.others s e he
      obtain ⟨ihv, iho⟩ := ih (hv.trans hst)
      have hnone : (step s e).2.filter (fun o => recipient o = a) = [] := by
        rw [List.filter_eq_nil_iff]
        intro o hmem
        simpa using ho o hmem
      rw [List.filter_cons_of_neg (by simpa using he), run_cons]
      refine ⟨ihv, ?_⟩
      rw [List.filter_append, hnone, List.nil_append, iho]

end Separation

end EventMachine
