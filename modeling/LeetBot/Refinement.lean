import LeetBot.Interleave
import Mathlib.Logic.Relation

/-!
# Two views of a system

A `Simulation` relates the worlds of a system to the states of an abstract machine, so that a step of the system is
matched by a step of the machine, or by none; it carries over from steps to runs (`Simulation.run`).

Where every thread works for an actor, `ownTrace` is what the threads of one actor have performed, in the order in
which it happened.  If the threads of the others leave alone what `view` shows of the shared state, then `view` is
what `ownTrace` makes of the initial one (`Reach.view_eq_foldl`).
-/

namespace Interleave

variable {Op : Type} {Res : Op → Type} {σ χ ε : Type}

/-! ### Simulations -/

section Simulation

variable {α : Type} {S : System Op Res σ χ ε} {ok : World Op Res σ ε → Label χ ε → Prop} {w₀ w w' : World Op Res σ ε}
  {R : World Op Res σ ε → α → Prop} {Step : α → α → Prop}

/-- Every step of the system from a reachable world is a step of the abstract machine, or none. -/
def System.Simulation (S : System Op Res σ χ ε) (ok : World Op Res σ ε → Label χ ε → Prop) (w₀ : World Op Res σ ε)
    (R : World Op Res σ ε → α → Prop) (Step : α → α → Prop) : Prop :=
  ∀ w l w' a, S.Reach ok w₀ w → ok w l → S.step w l = some w' → R w a →
    ∃ a', Relation.ReflGen Step a a' ∧ R w' a'

/-- A run of the system is a run of the abstract machine. -/
theorem System.Simulation.run (h : S.Simulation ok w₀ R Step) (hw : S.Reach ok w₀ w) (hrun : S.Reach ok w w')
    {a : α} (ha : R w a) : ∃ a', Relation.ReflTransGen Step a a' ∧ R w' a' := by
  induction hrun with
  | refl => exact ⟨a, .refl, ha⟩
  | step hrun hok hs ih =>
    obtain ⟨a₁, ha₁, hR₁⟩ := ih
    obtain ⟨a₂, ha₂, hR₂⟩ := h _ _ _ a₁ (hw.trans hrun) hok hs hR₁
    exact ⟨a₂, ha₁.trans ha₂.to_reflTransGen, hR₂⟩

end Simulation

/-! ### Actors -/

section Actors

variable {κ υ : Type} [DecidableEq κ]

namespace World

/-- The actor for whom thread `i` works. -/
def actorOf (w : World Op Res σ ε) (actor : ε → Option κ) (i : Nat) : Option κ :=
  w.threads[i]?.bind fun t => actor t.1

/-- What the threads of the actor `a` have performed. -/
def ownTrace (w : World Op Res σ ε) (actor : ε → Option κ) (a : κ) : Trace Op Res :=
  w.history.filterMap fun
    | .arrived _ _ => none
    | .performed i o r => if w.actorOf actor i = some a then some ⟨o, r⟩ else none

end World

variable {S : System Op Res σ χ ε} {ok : World Op Res σ ε → Label χ ε → Prop} {s₀ : σ} {w : World Op Res σ ε}
  {actor : ε → Option κ} {a : κ}

private theorem System.Reach.lt_of_performed (h : S.Reach ok { shared := s₀ } w) {i : Nat} {o : Op} {r : Res o}
    (hr : .performed i o r ∈ w.history) : i < w.threads.length := by
  by_contra hle
  have hnil := h.trace_eq_nil (Nat.le_of_not_lt hle)
  have hmem := World.mem_trace.2 hr
  rw [hnil] at hmem
  cases hmem

private theorem System.Reach.ownTrace_started (h : S.Reach ok { shared := s₀ } w) {e : ε} {s : σ}
    {p : Prog Op Res Unit} :
    (w.started e s p).ownTrace actor a = w.ownTrace actor a := by
  unfold World.ownTrace
  have hhistory : (w.started e s p).history = w.history ++ [.arrived w.threads.length e] := rfl
  rw [hhistory, List.filterMap_append]
  simp only [List.filterMap_cons, List.filterMap_nil, List.append_nil]
  apply List.filterMap_congr
  intro x hx
  cases x with
  | arrived i e' => rfl
  | performed i o r =>
    have hlt := h.lt_of_performed hx
    have hsame : (w.started e s p).actorOf actor i = w.actorOf actor i := by
      simp only [World.actorOf, World.started, List.getElem?_append_left hlt]
    simp only [hsame]

private theorem World.ownTrace_after {i : Nat} {e : ε} {o : Op} {r : Res o} {s : σ} {k : Prog Op Res Unit}
    {p : Prog Op Res Unit} (hi : w.threads[i]? = some (e, p)) :
    (w.after i e o r s k).ownTrace actor a =
      w.ownTrace actor a ++ if actor e = some a then [⟨o, r⟩] else [] := by
  have hsame : ∀ j, (w.after i e o r s k).actorOf actor j = w.actorOf actor j := by
    intro j
    have hlt : i < w.threads.length := (List.getElem?_eq_some_iff.1 hi).1
    simp only [World.actorOf, World.after, List.getElem?_set]
    by_cases hij : i = j
    · subst hij
      rw [if_pos rfl, if_pos hlt, hi]
      rfl
    · rw [if_neg hij]
  have hactor : w.actorOf actor i = actor e := by simp [World.actorOf, hi]
  have hhistory : (w.after i e o r s k).history = w.history ++ [.performed i o r] := rfl
  unfold World.ownTrace
  rw [hhistory, List.filterMap_append]
  simp only [hsame]
  congr 1
  simp only [List.filterMap_cons, List.filterMap_nil, hactor]
  split <;> simp_all

/-- What the actor `a` sees is what the operations of the own threads have made of the initial state, when events and
the operations of the other threads do not change it. -/
theorem System.Reach.view_eq_foldl (actor : ε → Option κ) (a : κ) (view : σ → υ)
    (replay : υ → (Σ o : Op, Res o) → υ)
    (harrive : ∀ (w : World Op Res σ ε) e s p, S.Reach ok { shared := s₀ } w →
      S.arrive e w.shared = some (s, p) → view s = view w.shared)
    (hown : ∀ (w : World Op Res σ ε) (i : Nat) x e o k r s, S.Reach ok { shared := s₀ } w →
      w.threads[i]? = some (e, .call o k) → S.exec o x w.shared = some (r, s) → actor e = some a →
      view s = replay (view w.shared) ⟨o, r⟩)
    (hothers : ∀ (w : World Op Res σ ε) (i : Nat) x e o k r s, S.Reach ok { shared := s₀ } w →
      w.threads[i]? = some (e, .call o k) → S.exec o x w.shared = some (r, s) → actor e ≠ some a →
      view s = view w.shared)
    (h : S.Reach ok { shared := s₀ } w) :
    view w.shared = (w.ownTrace actor a).foldl replay (view s₀) := by
  refine h.invariant (I := fun w => view w.shared = (w.ownTrace actor a).foldl replay (view s₀)) rfl ?_ ?_
  · intro w e s p hw hI _ ha
    rw [hw.ownTrace_started, World.started_shared, harrive w e s p hw ha, hI]
  · intro w i x e o k r s hw hI _ hi hx
    rw [World.ownTrace_after hi, World.after_shared]
    by_cases he : actor e = some a
    · rw [if_pos he, List.foldl_append, hown w i x e o k r s hw hi hx he, hI]
      rfl
    · rw [if_neg he, List.append_nil, hothers w i x e o k r s hw hi hx he, hI]

end Actors

end Interleave
