import LeetBot.Interleave

/-!
# Runs that come to an end

Each operation has a cost, and a program costs at most `n` when no sequence of answers makes it spend more.  The
budget of a world is what its threads still cost, with a weight of the shared state, which pays for what is still to
arrive.  If every operation costs more than it adds to the weight, and every event of some kind takes more from the
weight than its program costs, then a run of operations and such events is no longer than the budget
(`Budget.length_le`).
-/

namespace Interleave

variable {Op : Type} {Res : Op → Type} {σ χ ε α β : Type} {cost : Op → Nat}

namespace Prog

/-- Whatever the answers are, the operations of the program cost at most `n`. -/
def Costs (cost : Op → Nat) : Prog Op Res α → Nat → Prop
  | .ret _, _ => True
  | .call o k, n => cost o ≤ n ∧ ∀ r, (k r).Costs cost (n - cost o)

variable {p : Prog Op Res α} {m n : Nat}

@[simp] theorem costs_ret {a : α} : (ret a : Prog Op Res α).Costs cost n := trivial

theorem Costs.mono (h : p.Costs cost m) (hle : m ≤ n) : p.Costs cost n := by
  induction p generalizing m n with
  | ret a => trivial
  | call o k ih => exact ⟨Nat.le_trans h.1 hle, fun r => ih r (h.2 r) (Nat.sub_le_sub_right hle _)⟩

theorem Costs.bind {f : α → Prog Op Res β} (hp : p.Costs cost m) (hf : ∀ a, (f a).Costs cost n) :
    (p >>= f).Costs cost (m + n) := by
  induction p generalizing m with
  | ret a => exact (hf a).mono (Nat.le_add_left n m)
  | call o k ih =>
    refine ⟨Nat.le_trans hp.1 (Nat.le_add_right m n), fun r => ?_⟩
    rw [Nat.sub_add_comm hp.1]
    exact ih r (hp.2 r)

end Prog

/-- What the threads still cost. -/
inductive ThreadsCost (cost : Op → Nat) : List (ε × Prog Op Res Unit) → Nat → Prop
  | nil : ThreadsCost cost [] 0
  | cons {e : ε} {p : Prog Op Res Unit} {ts : List (ε × Prog Op Res Unit)} {m n : Nat} (hp : p.Costs cost m)
      (hts : ThreadsCost cost ts n) : ThreadsCost cost ((e, p) :: ts) (m + n)

namespace ThreadsCost

variable {ts : List (ε × Prog Op Res Unit)} {e : ε} {p : Prog Op Res Unit} {m n : Nat}

private theorem concat (h : ThreadsCost cost ts n) (hp : p.Costs cost m) :
    ThreadsCost cost (ts ++ [(e, p)]) (n + m) := by
  induction h with
  | nil =>
    rw [Nat.zero_add]
    exact .cons hp .nil
  | cons hq _ ih =>
    rw [Nat.add_assoc]
    exact .cons hq ih

private theorem set (h : ThreadsCost cost ts n) {i : Nat} {o : Op} {k : Res o → Prog Op Res Unit}
    (hi : ts[i]? = some (e, .call o k)) (r : Res o) :
    ∃ n', ThreadsCost cost (ts.set i (e, k r)) n' ∧ n' + cost o ≤ n := by
  induction h generalizing i with
  | nil => cases hi
  | @cons e' q ts m n hq hts ih =>
    cases i with
    | zero =>
      cases hi
      obtain ⟨hle, hcost⟩ := hq
      exact ⟨m - cost o + n, .cons (hcost r) hts, by omega⟩
    | succ i =>
      obtain ⟨n', h', hle⟩ := ih hi
      exact ⟨m + n', .cons hq h', by omega⟩

end ThreadsCost

/-- What the threads still cost, and the weight of the shared state, are at most `n`. -/
def Budget (cost : Op → Nat) (weight : σ → Nat) (w : World Op Res σ ε) (n : Nat) : Prop :=
  ∃ m, ThreadsCost cost w.threads m ∧ m + weight w.shared ≤ n

namespace System

variable {S : System Op Res σ χ ε} {ok : World Op Res σ ε → Label χ ε → Prop} {w w' : World Op Res σ ε}
  {weight : σ → Nat} {s₀ : σ}

/-- Every reachable world has a budget, if the programs of all events do. -/
theorem Reach.exists_budget (harrive : ∀ e s s' p, S.arrive e s = some (s', p) → ∃ m, p.Costs cost m)
    (h : S.Reach ok { shared := s₀ } w) : ∃ n, Budget cost weight w n := by
  suffices hthreads : ∃ m, ThreadsCost cost w.threads m by
    obtain ⟨m, hm⟩ := hthreads
    exact ⟨_, m, hm, Nat.le_refl _⟩
  refine h.invariant (I := fun w => ∃ m, ThreadsCost cost w.threads m) ⟨0, .nil⟩ ?_ ?_
  · rintro w e s p - ⟨m, hm⟩ - ha
    obtain ⟨m', hp⟩ := harrive e _ s p ha
    exact ⟨_, hm.concat hp⟩
  · rintro w i x e o k r s - ⟨m, hm⟩ - hi -
    obtain ⟨m', hm', -⟩ := hm.set hi r
    exact ⟨m', hm'⟩

/-- How a system spends: an operation costs more than it adds to the weight, and the events that `ok` allows take
more from the weight than their programs cost. -/
structure Spends (S : System Op Res σ χ ε) (cost : Op → Nat) (weight : σ → Nat)
    (ok : World Op Res σ ε → Label χ ε → Prop) : Prop where
  exec : ∀ {o x s r s'}, S.exec o x s = some (r, s') → weight s' + 1 ≤ weight s + cost o
  arrive : ∀ {w e s p}, ok w (.event e) → S.arrive e w.shared = some (s, p) →
    ∃ m, p.Costs cost m ∧ weight s + m + 1 ≤ weight w.shared

private theorem Spends.step (hS : S.Spends cost weight ok) {n : Nat} (h : Budget cost weight w n) {l : Label χ ε}
    (hok : ok w l) (hs : S.step w l = some w') : ∃ m, n = m + 1 ∧ Budget cost weight w' m := by
  obtain ⟨m, hm, hle⟩ := h
  cases l with
  | event e =>
    obtain ⟨s, p, ha, rfl⟩ := step_event hs
    obtain ⟨m', hp, hspent⟩ := hS.arrive hok ha
    exact ⟨n - 1, by omega, _, hm.concat hp, by simp only [World.started_shared]; omega⟩
  | run i x =>
    obtain ⟨e, o, k, r, s, hi, hx, rfl⟩ := step_run hs
    obtain ⟨m', hm', hspent⟩ := hm.set hi r
    have hweight := hS.exec hx
    exact ⟨n - 1, by omega, m', hm', by simp only [World.after_shared]; omega⟩

/-- A run is no longer than the budget. -/
theorem Spends.length_le (hS : S.Spends cost weight ok) [∀ w l, Decidable (ok w l)] {n : Nat}
    (h : Budget cost weight w n) {ls : List (Label χ ε)} (hrun : S.run ok w ls = some w') : ls.length ≤ n := by
  induction ls generalizing w n with
  | nil => exact Nat.zero_le n
  | cons l ls ih =>
    simp only [run, List.foldlM_cons, Option.bind_eq_bind, Option.bind_eq_some_iff] at hrun
    obtain ⟨w₁, h₁, h₂⟩ := hrun
    split at h₁
    · rename_i hok
      obtain ⟨m, rfl, hm⟩ := hS.step h hok h₁
      exact Nat.succ_le_succ (ih hm h₂)
    · cases h₁

end System

end Interleave
