import Mathlib.Data.List.Basic
import Mathlib.Tactic.Common

/-!
# Programs interleaved over a shared state

A program of type `Prog Op Res α` performs atomic operations one after the other: an operation `o : Op` answers
with a value of `Res o`, and the program goes on with that answer.  A `System` says what an operation does to a
shared state (`exec`, steered by a choice of the environment) and which program an event starts (`arrive`).  A
`World` is a shared state, the threads that are running and the history of what has happened; `Reach` is
reachability by any interleaving of events and operations, and `alone` is the run of one program that nothing
interrupts.

What a thread may do is said once, by a protocol: a condition on its next operation and on the operations it has
performed so far, with their answers.  `Prog.Follows` checks a program against a protocol without looking at the
shared state, and `Reach.follows` carries this over to every thread of a reachable world.  Properties of the shared
state are then invariants (`Reach.invariant`), whose steps may rely on the protocol instead of the programs.
-/

namespace Interleave

/-- A program that performs operations of type `Op`; the operation `o` answers with a value of `Res o`. -/
inductive Prog (Op : Type) (Res : Op → Type) (α : Type) where
  | ret (a : α)
  | call (o : Op) (k : Res o → Prog Op Res α)

/-- The operations that a program has performed, with their answers. -/
abbrev Trace (Op : Type) (Res : Op → Type) := List (Σ o : Op, Res o)

namespace Prog

variable {Op : Type} {Res : Op → Type} {α β γ : Type}

def bind : Prog Op Res α → (α → Prog Op Res β) → Prog Op Res β
  | .ret a, f => f a
  | .call o k, f => .call o fun r => (k r).bind f

instance : Monad (Prog Op Res) where
  pure := .ret
  bind := bind

def perform (o : Op) : Prog Op Res (Res o) := .call o .ret

@[simp] theorem pure_def (a : α) : (pure a : Prog Op Res α) = .ret a := rfl

@[simp] theorem ret_bind (a : α) (f : α → Prog Op Res β) : (.ret a >>= f) = f a := rfl

@[simp] theorem call_bind (o : Op) (k : Res o → Prog Op Res α) (f : α → Prog Op Res β) :
    (.call o k >>= f) = .call o fun r => k r >>= f := rfl

@[simp] theorem perform_bind (o : Op) (f : Res o → Prog Op Res β) : (perform o >>= f) = .call o f := rfl

@[simp] theorem bind_ret (p : Prog Op Res α) : (p >>= .ret) = p := by
  induction p with
  | ret a => rfl
  | call o k ih => rw [call_bind]; congr 1; funext r; exact ih r

private theorem bind_assoc (p : Prog Op Res α) (f : α → Prog Op Res β) (g : β → Prog Op Res γ) :
    (p >>= f >>= g) = p >>= fun a => f a >>= g := by
  induction p with
  | ret a => rfl
  | call o k ih => simp only [call_bind]; congr 1; funext r; exact ih r

instance : LawfulMonad (Prog Op Res) := LawfulMonad.mk' _ bind_ret (fun _ _ => rfl) bind_assoc

/-! ### Protocols -/

variable {J : Trace Op Res → Op → Prop} {Q Q' : α → Trace Op Res → Prop}

/-- Having performed `t`, the program performs only operations that the protocol `J` allows, whatever the answers
are, and if it ends, it ends with `Q`. -/
def Follows (J : Trace Op Res → Op → Prop) (Q : α → Trace Op Res → Prop) : Prog Op Res α → Trace Op Res → Prop
  | .ret a, t => Q a t
  | .call o k, t => J t o ∧ ∀ r, (k r).Follows J Q (t ++ [⟨o, r⟩])

@[simp] theorem follows_ret {a : α} {t : Trace Op Res} : (ret a : Prog Op Res α).Follows J Q t ↔ Q a t := Iff.rfl

@[simp] theorem follows_call {o : Op} {k : Res o → Prog Op Res α} {t : Trace Op Res} :
    (call o k).Follows J Q t ↔ J t o ∧ ∀ r, (k r).Follows J Q (t ++ [⟨o, r⟩]) := Iff.rfl

theorem follows_bind {p : Prog Op Res β} {f : β → Prog Op Res α} {t : Trace Op Res} :
    (p >>= f).Follows J Q t ↔ p.Follows J (fun b t => (f b).Follows J Q t) t := by
  induction p generalizing t with
  | ret b => exact Iff.rfl
  | call o k ih =>
    rw [call_bind, follows_call, follows_call]
    exact and_congr_right fun _ => forall_congr' fun r => ih r

theorem Follows.mono {p : Prog Op Res α} {t : Trace Op Res} (hQ : ∀ a t, Q a t → Q' a t)
    (h : p.Follows J Q t) : p.Follows J Q' t := by
  induction p generalizing t with
  | ret a => exact hQ a t h
  | call o k ih => exact ⟨h.1, fun r => ih r (h.2 r)⟩

/-- The program performs `t` and ends with `a`. -/
def Performs : Prog Op Res α → Trace Op Res → α → Prop
  | .ret b, t, a => t = [] ∧ b = a
  | .call o k, t, a => ∃ r t', t = ⟨o, r⟩ :: t' ∧ (k r).Performs t' a

/-- A program that ends has performed something, and ends with what that makes it end with. -/
theorem Follows.performs {p : Prog Op Res α} {t : Trace Op Res} (h : p.Follows J Q t) :
    p.Follows J (fun a t' => Q a t' ∧ ∃ u, t' = t ++ u ∧ p.Performs u a) t := by
  induction p generalizing t with
  | ret a => exact ⟨h, [], (List.append_nil t).symm, rfl, rfl⟩
  | call o k ih =>
    refine ⟨h.1, fun r => (ih r (h.2 r)).mono ?_⟩
    rintro a t' ⟨hQ, u, rfl, hu⟩
    exact ⟨hQ, ⟨o, r⟩ :: u, List.append_assoc t [⟨o, r⟩] u, r, u, rfl, hu⟩

/-- Every program follows the protocol that allows everything. -/
theorem follows_of_forall (hJ : ∀ t o, J t o) (hQ : ∀ a t, Q a t) (p : Prog Op Res α) (t : Trace Op Res) :
    p.Follows J Q t := by
  induction p generalizing t with
  | ret a => exact hQ a t
  | call o k ih => exact ⟨hJ t o, fun r => ih r _⟩

/-- The program performs only operations that satisfy `P`, whatever the answers are. -/
def Only (P : Op → Prop) : Prog Op Res α → Prop
  | .ret _ => True
  | .call o k => P o ∧ ∀ r, (k r).Only P

@[simp] theorem only_ret {P : Op → Prop} {a : α} : (ret a : Prog Op Res α).Only P := trivial

theorem Only.mono {P P' : Op → Prop} {p : Prog Op Res α} (hP : ∀ o, P o → P' o) (h : p.Only P) : p.Only P' := by
  induction p with
  | ret a => trivial
  | call o k ih => exact ⟨hP o h.1, fun r => ih r (h.2 r)⟩

theorem only_of_forall {P : Op → Prop} (h : ∀ o, P o) (p : Prog Op Res α) : p.Only P := by
  induction p with
  | ret a => trivial
  | call o k ih => exact ⟨h o, ih⟩

theorem Only.bind {P : Op → Prop} {p : Prog Op Res β} {f : β → Prog Op Res α} (hp : p.Only P)
    (hf : ∀ b, (f b).Only P) : (p >>= f).Only P := by
  induction p with
  | ret b => exact hf b
  | call o k ih => exact ⟨hp.1, fun r => ih r (hp.2 r)⟩

/-- A program that performs only operations which keep `T`, and which the protocol allows where `T` holds, follows
the protocol and ends where `T` holds. -/
theorem Only.follows {P : Op → Prop} {T : Trace Op Res → Prop} {p : Prog Op Res α} {t : Trace Op Res}
    (hP : ∀ o t, P o → T t → J t o ∧ ∀ r, T (t ++ [⟨o, r⟩])) (h : p.Only P) (ht : T t) :
    p.Follows J (fun _ => T) t := by
  induction p generalizing t with
  | ret a => exact ht
  | call o k ih => exact ⟨(hP o t h.1 ht).1, fun r => ih r (h.2 r) ((hP o t h.1 ht).2 r)⟩

end Prog

/-! ### Systems and their worlds -/

/-- What operations do to the shared state, and which programs events start. -/
structure System (Op : Type) (Res : Op → Type) (σ χ ε : Type) where
  /-- The answer and the new state; `none` when the operation has to wait. -/
  exec : (o : Op) → χ → σ → Option (Res o × σ)
  /-- The new state and the program started; `none` when the event cannot happen. -/
  arrive : ε → σ → Option (σ × Prog Op Res Unit)

/-- What has happened: an event that started thread `i`, or an operation of thread `i` with its answer. -/
inductive Entry (Op : Type) (Res : Op → Type) (ε : Type) where
  | arrived (i : Nat) (e : ε)
  | performed (i : Nat) (o : Op) (r : Res o)

/-- The shared state, the history, and the threads, each with the event that started it and what remains of its
program. -/
structure World (Op : Type) (Res : Op → Type) (σ ε : Type) where
  shared : σ
  history : List (Entry Op Res ε) := []
  threads : List (ε × Prog Op Res Unit) := []

/-- One step: an event arrives, or thread `i` performs its next operation with the choice `x`. -/
inductive Label (χ ε : Type) where
  | event (e : ε)
  | run (i : Nat) (x : χ)

variable {Op : Type} {Res : Op → Type} {σ χ ε α β : Type}

namespace World

/-- The world after the event `e` has started a thread with program `p`, leaving the state `s`. -/
def started (w : World Op Res σ ε) (e : ε) (s : σ) (p : Prog Op Res Unit) : World Op Res σ ε where
  shared := s
  history := w.history ++ [.arrived w.threads.length e]
  threads := w.threads ++ [(e, p)]

/-- The world after thread `i`, which the event `e` started, has performed `o` with answer `r`, leaving the state
`s` and the program `p`. -/
def after (w : World Op Res σ ε) (i : Nat) (e : ε) (o : Op) (r : Res o) (s : σ) (p : Prog Op Res Unit) :
    World Op Res σ ε where
  shared := s
  history := w.history ++ [.performed i o r]
  threads := w.threads.set i (e, p)

variable {w : World Op Res σ ε} {i j : Nat} {e e' : ε} {o o' : Op} {r : Res o} {r' : Res o'} {s : σ}
  {p p' : Prog Op Res Unit} {x : Entry Op Res ε}

@[simp] theorem started_shared : (w.started e s p).shared = s := rfl

@[simp] theorem after_shared : (w.after i e o r s p).shared = s := rfl

@[simp] theorem mem_started : x ∈ (w.started e s p).history ↔ x ∈ w.history ∨ x = .arrived w.threads.length e := by
  simp [started]

@[simp] theorem mem_after : x ∈ (w.after i e o r s p).history ↔ x ∈ w.history ∨ x = .performed i o r := by
  simp [after]

theorem started_threads : (w.started e s p).threads[j]? = some (e', p') ↔
    w.threads[j]? = some (e', p') ∨ j = w.threads.length ∧ e' = e ∧ p' = p := by
  simp only [started, List.getElem?_append, List.getElem?_singleton]
  rcases Nat.lt_trichotomy j w.threads.length with h | h | h
  · simp [h, Nat.ne_of_lt h]
  · simp [h, eq_comm]
  · have h1 : ¬ j < w.threads.length := by omega
    have h2 : j - w.threads.length ≠ 0 := by omega
    have h3 : j ≠ w.threads.length := by omega
    simp [h1, h2, h3]

theorem after_threads (hi : w.threads[i]? = some (e, p)) {q : Prog Op Res Unit} :
    (w.after i e o r s q).threads[j]? = some (e', p') ↔
      (i ≠ j ∧ w.threads[j]? = some (e', p')) ∨ i = j ∧ e' = e ∧ p' = q := by
  have hlt : i < w.threads.length := (List.getElem?_eq_some_iff.1 hi).1
  simp only [after, List.getElem?_set]
  by_cases h : i = j
  · simp [h, h ▸ hlt, eq_comm]
  · simp [h]

/-- Thread `i` has performed its whole program. -/
def ended (w : World Op Res σ ε) (i : Nat) : Bool :=
  match w.threads[i]? with
  | some (_, .ret _) => true
  | _ => false

/-- The operations that thread `i` has performed. -/
def trace (w : World Op Res σ ε) (i : Nat) : Trace Op Res :=
  w.history.filterMap fun
    | .arrived _ _ => none
    | .performed j o r => if j = i then some ⟨o, r⟩ else none

@[simp] theorem mem_trace : ⟨o, r⟩ ∈ w.trace i ↔ .performed i o r ∈ w.history := by
  simp only [trace, List.mem_filterMap]
  constructor
  · rintro ⟨x, hx, h⟩
    cases x with
    | arrived j e => cases h
    | performed j o' r' =>
      simp only at h
      split at h
      · subst_vars
        obtain ⟨rfl, h⟩ := Sigma.mk.inj (Option.some.inj h)
        exact eq_of_heq h ▸ hx
      · cases h
  · intro h
    exact ⟨_, h, by simp⟩

@[simp] theorem trace_started : (w.started e s p).trace i = w.trace i := by
  simp [trace, started]

theorem trace_after_self : (w.after i e o r s p).trace i = w.trace i ++ [⟨o, r⟩] := by
  simp [trace, after]

theorem trace_after_of_ne (h : i ≠ j) : (w.after i e o r s p).trace j = w.trace j := by
  simp [trace, after, h]

end World

namespace System

variable (S : System Op Res σ χ ε)

def step (w : World Op Res σ ε) : Label χ ε → Option (World Op Res σ ε)
  | .event e => (S.arrive e w.shared).map fun (s, p) => w.started e s p
  | .run i x =>
      match w.threads[i]? with
      | some (e, .call o k) => (S.exec o x w.shared).map fun (r, s) => w.after i e o r s (k r)
      | _ => none

/-- The world after the given steps, if they all meet the condition `ok` and can be taken. -/
def run (ok : World Op Res σ ε → Label χ ε → Prop) [∀ w l, Decidable (ok w l)] (w : World Op Res σ ε)
    (ls : List (Label χ ε)) : Option (World Op Res σ ε) :=
  ls.foldlM (fun w l => if ok w l then S.step w l else none) w

/-- The worlds that `w₀` reaches by steps that all meet the condition `ok` on the world before the step. -/
inductive Reach (ok : World Op Res σ ε → Label χ ε → Prop) (w₀ : World Op Res σ ε) : World Op Res σ ε → Prop
  | refl : Reach ok w₀ w₀
  | step {w w' : World Op Res σ ε} {l : Label χ ε} :
      Reach ok w₀ w → ok w l → S.step w l = some w' → Reach ok w₀ w'

variable {S} {ok : World Op Res σ ε → Label χ ε → Prop} {w₀ w w' : World Op Res σ ε}

/-- What the arrival of an event does. -/
theorem step_event {e : ε} (h : S.step w (.event e) = some w') :
    ∃ s p, S.arrive e w.shared = some (s, p) ∧ w' = w.started e s p := by
  simp only [step, Option.map_eq_some_iff] at h
  obtain ⟨⟨s, p⟩, hs, rfl⟩ := h
  exact ⟨s, p, hs, rfl⟩

/-- What a step of thread `i` does. -/
theorem step_run {i : Nat} {x : χ} (h : S.step w (.run i x) = some w') :
    ∃ e o k r s, w.threads[i]? = some (e, .call o k) ∧ S.exec o x w.shared = some (r, s) ∧
      w' = w.after i e o r s (k r) := by
  unfold step at h
  simp only at h
  split at h
  · rename_i e o k hi
    simp only [Option.map_eq_some_iff] at h
    obtain ⟨⟨r, s⟩, hs, rfl⟩ := h
    exact ⟨e, o, k, r, s, hi, hs, rfl⟩
  · cases h

theorem history_subset {l : Label χ ε} (h : S.step w l = some w') : w.history ⊆ w'.history := by
  cases l with
  | event e =>
    obtain ⟨s, p, -, rfl⟩ := step_event h
    exact fun x hx => World.mem_started.2 (.inl hx)
  | run i x =>
    obtain ⟨e, o, k, r, s, -, -, rfl⟩ := step_run h
    exact fun x hx => World.mem_after.2 (.inl hx)

theorem Reach.trans {w₁ : World Op Res σ ε} (h₁ : S.Reach ok w₀ w₁) (h : S.Reach ok w₁ w) : S.Reach ok w₀ w := by
  induction h with
  | refl => exact h₁
  | step _ hok hs ih => exact ih.step hok hs

theorem Reach.of_run [∀ w l, Decidable (ok w l)] {ls : List (Label χ ε)} (h : S.run ok w₀ ls = some w) :
    S.Reach ok w₀ w := by
  induction ls generalizing w₀ with
  | nil =>
    simp only [run, List.foldlM_nil, Option.pure_def, Option.some.injEq] at h
    exact h ▸ .refl
  | cons l ls ih =>
    simp only [run, List.foldlM_cons, Option.bind_eq_bind, Option.bind_eq_some_iff] at h
    obtain ⟨w₁, h₁, h₂⟩ := h
    split at h₁
    · rename_i hok
      exact (Reach.refl.step hok h₁).trans (ih h₂)
    · cases h₁

/-- A run that ends in a world that passes a test. -/
theorem Reach.exists_of_run [∀ w l, Decidable (ok w l)] {ls : List (Label χ ε)} {test : World Op Res σ ε → Bool}
    (h : (S.run ok w₀ ls).any test = true) : ∃ w, S.Reach ok w₀ w ∧ test w = true := by
  cases hrun : S.run ok w₀ ls with
  | none => simp [hrun] at h
  | some w => exact ⟨w, .of_run hrun, by simpa [hrun] using h⟩

theorem Reach.mono {ok' : World Op Res σ ε → Label χ ε → Prop} (hok : ∀ w l, ok w l → ok' w l)
    (h : S.Reach ok w₀ w) : S.Reach ok' w₀ w := by
  induction h with
  | refl => exact .refl
  | step _ h hs ih => exact ih.step (hok _ _ h) hs

/-- An invariant of the reachable worlds: it holds at the start, and events and operations keep it. -/
theorem Reach.invariant {I : World Op Res σ ε → Prop} (h0 : I w₀)
    (hevent : ∀ w e s p, S.Reach ok w₀ w → I w → ok w (.event e) → S.arrive e w.shared = some (s, p) →
      I (w.started e s p))
    (hrun : ∀ w i x e o k r s, S.Reach ok w₀ w → I w → ok w (.run i x) → w.threads[i]? = some (e, .call o k) →
      S.exec o x w.shared = some (r, s) → I (w.after i e o r s (k r)))
    (h : S.Reach ok w₀ w) : I w := by
  induction h with
  | refl => exact h0
  | @step w w' l hw hok hs ih =>
    cases l with
    | event e =>
      obtain ⟨s, p, ha, rfl⟩ := step_event hs
      exact hevent w e s p hw ih hok ha
    | run i x =>
      obtain ⟨e, o, k, r, s, hi, hx, rfl⟩ := step_run hs
      exact hrun w i x e o k r s hw ih hok hi hx

/-! ### Threads and the history -/

section Threads

variable {s₀ : σ}

/-- The history tells which event started a thread. -/
theorem Reach.arrived_iff (h : S.Reach ok { shared := s₀ } w) {i : Nat} {e : ε} :
    .arrived i e ∈ w.history ↔ ∃ p, w.threads[i]? = some (e, p) := by
  refine h.invariant (I := fun w => ∀ i e, .arrived i e ∈ w.history ↔ ∃ p, w.threads[i]? = some (e, p))
    (by simp) ?_ ?_ i e
  · intro w e s p _ hw _ _ i e'
    simp only [World.mem_started, hw, World.started_threads, Entry.arrived.injEq]
    constructor
    · rintro (⟨q, hq⟩ | ⟨rfl, rfl⟩)
      · exact ⟨q, .inl hq⟩
      · exact ⟨p, .inr ⟨rfl, rfl, rfl⟩⟩
    · rintro ⟨q, hq | ⟨rfl, rfl, rfl⟩⟩
      · exact .inl ⟨q, hq⟩
      · exact .inr ⟨rfl, rfl⟩
  · intro w i x e o k r s _ hw _ hi _ j e'
    simp only [World.mem_after, hw, World.after_threads hi, reduceCtorEq, or_false]
    by_cases hij : i = j
    · subst hij
      simp [hi, eq_comm]
    · simp [hij]

theorem Reach.arrived_of_thread (h : S.Reach ok { shared := s₀ } w) {i : Nat} {e : ε}
    (hi : w.threads[i]?.map Prod.fst = some e) : .arrived i e ∈ w.history := by
  obtain ⟨⟨e', p⟩, hp, rfl⟩ := Option.map_eq_some_iff.1 hi
  exact h.arrived_iff.2 ⟨p, hp⟩

/-- A thread is started by one event. -/
theorem Reach.arrived_unique (h : S.Reach ok { shared := s₀ } w) {i : Nat} {e e' : ε}
    (he : .arrived i e ∈ w.history) (he' : .arrived i e' ∈ w.history) : e = e' := by
  obtain ⟨p, hp⟩ := h.arrived_iff.1 he
  obtain ⟨p', hp'⟩ := h.arrived_iff.1 he'
  rw [hp] at hp'
  cases hp'
  rfl

/-- A thread that has not been started has not performed anything. -/
theorem Reach.trace_eq_nil (h : S.Reach ok { shared := s₀ } w) {i : Nat} (hi : w.threads.length ≤ i) :
    w.trace i = [] := by
  refine h.invariant (I := fun w => ∀ i, w.threads.length ≤ i → w.trace i = []) (fun _ _ => rfl) ?_ ?_ i hi
  · intro w e s p _ hw _ _ i hle
    rw [World.trace_started]
    exact hw i (by simp [World.started] at hle; omega)
  · intro w i x e o k r s _ hw _ hi _ j hle
    have hlt : i < w.threads.length := (List.getElem?_eq_some_iff.1 hi).1
    simp only [World.after, List.length_set] at hle
    rw [World.trace_after_of_ne (by omega)]
    exact hw j hle

/-- The threads of a reachable world follow the protocol that the programs of their events follow. -/
theorem Reach.follows {J : ε → Trace Op Res → Op → Prop} {Q : ε → Trace Op Res → Prop}
    (harrive : ∀ e s s' p, S.arrive e s = some (s', p) → p.Follows (J e) (fun _ => Q e) [])
    (h : S.Reach ok { shared := s₀ } w) {i : Nat} {e : ε} {p : Prog Op Res Unit}
    (hi : w.threads[i]? = some (e, p)) : p.Follows (J e) (fun _ => Q e) (w.trace i) := by
  refine h.invariant (I := fun w => ∀ i e (p : Prog Op Res Unit), w.threads[i]? = some (e, p) →
    p.Follows (J e) (fun _ => Q e) (w.trace i)) (by simp) ?_ ?_ i e p hi
  · intro w e s p hreach hw _ ha j e' p' hj
    rw [World.trace_started]
    rcases World.started_threads.1 hj with hj | ⟨rfl, rfl, rfl⟩
    · exact hw j e' p' hj
    · rw [hreach.trace_eq_nil (Nat.le_refl _)]
      exact harrive e' _ s p' ha
  · intro w i x e o k r s _ hw _ hi _ j e' p' hj
    rcases (World.after_threads hi).1 hj with ⟨hne, hj⟩ | ⟨rfl, rfl, rfl⟩
    · rw [World.trace_after_of_ne hne]
      exact hw j e' p' hj
    · rw [World.trace_after_self]
      exact (hw i e' _ hi).2 r

/-- A thread that has ended has done what its program does whenever it ends. -/
theorem Reach.of_ended {J : ε → Trace Op Res → Op → Prop} {Q : ε → Trace Op Res → Prop}
    (harrive : ∀ e s s' p, S.arrive e s = some (s', p) → p.Follows (J e) (fun _ => Q e) [])
    (h : S.Reach ok { shared := s₀ } w) {i : Nat} {e : ε} (he : .arrived i e ∈ w.history) (hend : w.ended i) :
    Q e (w.trace i) := by
  obtain ⟨p, hp⟩ := h.arrived_iff.1 he
  have hfollows := h.follows harrive hp
  cases p with
  | ret _ => exact hfollows
  | call o k => simp [World.ended, hp] at hend

/-- Everything in the history was allowed by the protocol, after a part of what the thread has performed. -/
theorem Reach.performed_follows {J : ε → Trace Op Res → Op → Prop}
    (harrive : ∀ e s s' p, S.arrive e s = some (s', p) → p.Follows (J e) (fun _ _ => True) [])
    (h : S.Reach ok { shared := s₀ } w) {i : Nat} {o : Op} {r : Res o} (hr : .performed i o r ∈ w.history) :
    ∃ e t, .arrived i e ∈ w.history ∧ J e t o ∧ t ++ [⟨o, r⟩] <+: w.trace i := by
  refine h.invariant (I := fun w => ∀ i o (r : Res o), .performed i o r ∈ w.history →
    ∃ e t, .arrived i e ∈ w.history ∧ J e t o ∧ t ++ [⟨o, r⟩] <+: w.trace i) (by simp) ?_ ?_ i o r hr
  · intro w e s p _ hw _ _ i o r hr
    rcases World.mem_started.1 hr with hr | hr
    · obtain ⟨e', t, he, hJ, ht⟩ := hw i o r hr
      exact ⟨e', t, World.mem_started.2 (.inl he), hJ, by rwa [World.trace_started]⟩
    · cases hr
  · intro w j x e o' k r' s hreach hw _ hj _ i o r hr
    rcases World.mem_after.1 hr with hr | hr
    · obtain ⟨e', t, he, hJ, ht⟩ := hw i o r hr
      refine ⟨e', t, World.mem_after.2 (.inl he), hJ, ?_⟩
      by_cases hij : j = i
      · subst hij
        rw [World.trace_after_self]
        exact ht.trans (List.prefix_append _ _)
      · rwa [World.trace_after_of_ne hij]
    · cases hr
      have he : .arrived j e ∈ w.history := hreach.arrived_iff.2 ⟨_, hj⟩
      refine ⟨e, w.trace j, World.mem_after.2 (.inl he), (hreach.follows harrive hj).1, ?_⟩
      exact World.trace_after_self ▸ List.prefix_rfl

/-- A property of what has happened: it holds when it happens, and later steps keep it. -/
theorem Reach.forall_history {P : World Op Res σ ε → Entry Op Res ε → Prop}
    (hevent : ∀ w e s p, S.Reach ok { shared := s₀ } w → ok w (.event e) → S.arrive e w.shared = some (s, p) →
      (∀ x ∈ w.history, P w x) → P (w.started e s p) (.arrived w.threads.length e))
    (hrun : ∀ w i x e o k r s, S.Reach ok { shared := s₀ } w → ok w (.run i x) →
      w.threads[i]? = some (e, .call o k) → S.exec o x w.shared = some (r, s) →
      (∀ x ∈ w.history, P w x) → P (w.after i e o r s (k r)) (.performed i o r))
    (hkeep : ∀ w l w' x, S.Reach ok { shared := s₀ } w → ok w l → S.step w l = some w' →
      (∀ x ∈ w.history, P w x) → P w x → P w' x)
    (h : S.Reach ok { shared := s₀ } w) : ∀ x ∈ w.history, P w x := by
  induction h with
  | refl => exact fun x hx => absurd hx List.not_mem_nil
  | @step w w' l hw hok hs ih =>
    have hold : ∀ x ∈ w.history, P w' x := fun x hx => hkeep w l w' x hw hok hs ih (ih x hx)
    cases l with
    | event e =>
      obtain ⟨s, p, ha, rfl⟩ := step_event hs
      intro x hx
      rcases World.mem_started.1 hx with hx | rfl
      · exact hold x hx
      · exact hevent w e s p hw hok ha ih
    | run i x =>
      obtain ⟨e, o, k, r, s, hi, hx, rfl⟩ := step_run hs
      intro y hy
      rcases World.mem_after.1 hy with hy | rfl
      · exact hold y hy
      · exact hrun w i x e o k r s hw hok hi hx ih

/-- What the condition on the steps says of events holds of all that have arrived. -/
theorem Reach.forall_arrived {P : ε → Prop} (hP : ∀ w e, ok w (.event e) → P e)
    (h : S.Reach ok { shared := s₀ } w) {i : Nat} {e : ε} (he : .arrived i e ∈ w.history) : P e := by
  refine h.forall_history (P := fun _ x => ∀ i e, x = .arrived i e → P e) ?_ ?_ (fun _ _ _ _ _ _ _ _ h => h) _ he i e
    rfl
  · intro w e s p _ hok _ _ i e' hx
    cases hx
    exact hP w e hok
  · intro w i x e o k r s _ _ _ _ _ j e' hx
    cases hx

/-- The same for the answers of one operation. -/
theorem Reach.forall_answers {o : Op} {P : World Op Res σ ε → Nat → Res o → Prop}
    (hrun : ∀ w i x e (k : Res o → Prog Op Res Unit) r s, S.Reach ok { shared := s₀ } w → ok w (.run i x) →
      w.threads[i]? = some (e, .call o k) → S.exec o x w.shared = some (r, s) → P (w.after i e o r s (k r)) i r)
    (hkeep : ∀ w l w' i r, S.Reach ok { shared := s₀ } w → S.step w l = some w' → P w i r → P w' i r)
    (h : S.Reach ok { shared := s₀ } w) {i : Nat} {r : Res o} (hr : .performed i o r ∈ w.history) : P w i r := by
  refine h.forall_history (P := fun w x => ∀ i r, x = .performed i o r → P w i r) ?_ ?_ ?_ _ hr i r rfl
  · intro w e s p _ _ _ _ i r heq
    cases heq
  · intro w i x e o' k r' s hreach hok hi hx _ j r heq
    cases heq
    exact hrun w i x e k _ s hreach hok hi hx
  · intro w l w' x hreach _ hs _ hP i r heq
    exact hkeep w l w' i r hreach hs (hP i r heq)

/-- What a thread has performed is what its event may start. -/
theorem Reach.performed_only {P : ε → Op → Prop} (harrive : ∀ e s s' p, S.arrive e s = some (s', p) → p.Only (P e))
    (h : S.Reach ok { shared := s₀ } w) {i : Nat} {o : Op} {r : Res o} (hr : .performed i o r ∈ w.history) :
    ∃ e, .arrived i e ∈ w.history ∧ P e o := by
  have hfollows : ∀ e s s' p, S.arrive e s = some (s', p) → p.Follows (fun _ => P e) (fun _ _ => True) [] := by
    intro e s s' p ha
    apply (harrive e s s' p ha).follows (T := fun _ => True) _ trivial
    intro o t ho _
    exact ⟨ho, fun _ => trivial⟩
  obtain ⟨e, t, he, ho, -⟩ := h.performed_follows hfollows hr
  exact ⟨e, he, ho⟩

end Threads

/-! ### One program alone -/

variable (S)

/-- The run of a program that nothing interrupts, the `n`-th operation with the choice `xs n`: its result, what it
has performed, and the state it leaves.  `none` when an operation has to wait. -/
def alone (xs : Nat → χ) : Prog Op Res α → σ → Option (α × Trace Op Res × σ)
  | .ret a, s => some (a, [], s)
  | .call o k, s => do
      let (r, s) ← S.exec o (xs 0) s
      let (a, t, s) ← alone (fun n => xs (n + 1)) (k r) s
      return (a, ⟨o, r⟩ :: t, s)

variable {S}

@[simp] theorem alone_ret {xs : Nat → χ} {a : α} {s : σ} :
    S.alone xs (.ret a : Prog Op Res α) s = some (a, [], s) := rfl

theorem alone_call {xs : Nat → χ} {o : Op} {k : Res o → Prog Op Res α} {s s' : σ} {r : Res o}
    (h : S.exec o (xs 0) s = some (r, s')) :
    S.alone xs (.call o k) s =
      (S.alone (fun n => xs (n + 1)) (k r) s').map fun x => (x.1, ⟨o, r⟩ :: x.2.1, x.2.2) := by
  simp only [alone, h, Option.bind_eq_bind, Option.bind_some]
  cases S.alone (fun n => xs (n + 1)) (k r) s' <;> rfl

theorem alone_call_of_exec {xs : Nat → χ} {o : Op} {k : Res o → Prog Op Res α} {s s₁ s' : σ} {r : Res o} {a : α}
    {t : Trace Op Res} (h : S.exec o (xs 0) s = some (r, s₁))
    (hk : S.alone (fun n => xs (n + 1)) (k r) s₁ = some (a, t, s')) :
    S.alone xs (.call o k) s = some (a, ⟨o, r⟩ :: t, s') := by
  rw [alone_call h, hk]
  rfl

/-- The first operation of a run, and what remains of the run. -/
theorem alone_call_eq_some {xs : Nat → χ} {o : Op} {k : Res o → Prog Op Res α} {s s' : σ} {a : α}
    {t : Trace Op Res} (h : S.alone xs (.call o k) s = some (a, t, s')) :
    ∃ r s₁ t₁, S.exec o (xs 0) s = some (r, s₁) ∧ S.alone (fun n => xs (n + 1)) (k r) s₁ = some (a, t₁, s') ∧
      t = ⟨o, r⟩ :: t₁ := by
  simp only [alone, Option.bind_eq_bind, Option.bind_eq_some_iff, Prod.exists, Option.pure_def, Option.some.injEq,
    Prod.mk.injEq] at h
  obtain ⟨r, s₁, hx, b, t₁, s₂, hk, rfl, rfl, rfl⟩ := h
  exact ⟨r, s₁, t₁, hx, hk, rfl⟩

/-- A run of a composed program; the second part takes the choices that the first has left. -/
theorem alone_bind {xs : Nat → χ} {p : Prog Op Res α} {f : α → Prog Op Res β} {s s' : σ} {a : α} {t : Trace Op Res}
    (h : S.alone xs p s = some (a, t, s')) :
    S.alone xs (p >>= f) s =
      (S.alone (fun n => xs (n + t.length)) (f a) s').map fun y => (y.1, t ++ y.2.1, y.2.2) := by
  induction p generalizing xs s t with
  | ret b =>
    simp only [alone_ret, Option.some.injEq, Prod.mk.injEq] at h
    obtain ⟨rfl, rfl, rfl⟩ := h
    cases hb : S.alone xs (f b) s <;> simp [hb]
  | call o k ih =>
    obtain ⟨r, s₁, t₁, hx, hk, rfl⟩ := alone_call_eq_some h
    rw [Prog.call_bind, alone_call hx, ih r hk, Option.map_map]
    simp only [List.length_cons, Nat.add_assoc]
    rfl

/-! ### Runs that end -/

variable (S) in
/-- Having performed `t`, the program ends when nothing interrupts it, whatever the choices are, and it ends with
`Q`. -/
def Ends (Q : α → Trace Op Res → σ → Prop) : Prog Op Res α → Trace Op Res → σ → Prop
  | .ret a, t, s => Q a t s
  | .call o k, t, s => ∀ x, ∃ r s', S.exec o x s = some (r, s') ∧ Ends Q (k r) (t ++ [⟨o, r⟩]) s'

section Ends

variable {Q Q' : α → Trace Op Res → σ → Prop} {t : Trace Op Res} {s : σ}

@[simp] theorem ends_ret {a : α} : S.Ends Q (.ret a) t s ↔ Q a t s := Iff.rfl

private theorem ends_call {o : Op} {k : Res o → Prog Op Res α} :
    S.Ends Q (.call o k) t s ↔ ∀ x, ∃ r s', S.exec o x s = some (r, s') ∧ S.Ends Q (k r) (t ++ [⟨o, r⟩]) s' :=
  Iff.rfl

theorem ends_bind {p : Prog Op Res β} {f : β → Prog Op Res α} :
    S.Ends Q (p >>= f) t s ↔ S.Ends (fun b t s => S.Ends Q (f b) t s) p t s := by
  induction p generalizing t s with
  | ret b => exact Iff.rfl
  | call o k ih =>
    rw [Prog.call_bind, ends_call, ends_call]
    exact forall_congr' fun x => exists_congr fun r => exists_congr fun s' => and_congr_right fun _ => ih r

theorem Ends.mono {p : Prog Op Res α} (hQ : ∀ a t s, Q a t s → Q' a t s) (h : S.Ends Q p t s) :
    S.Ends Q' p t s := by
  induction p generalizing t s with
  | ret a => exact hQ a t s h
  | call o k ih =>
    intro x
    obtain ⟨r, s', hx, hr⟩ := h x
    exact ⟨r, s', hx, ih r hr⟩

/-- The run that `Ends` speaks of. -/
theorem Ends.alone {p : Prog Op Res α} (h : S.Ends Q p t s) (xs : Nat → χ) :
    ∃ a t' s', S.alone xs p s = some (a, t', s') ∧ Q a (t ++ t') s' := by
  induction p generalizing xs t s with
  | ret a => exact ⟨a, [], s, rfl, by simpa using h⟩
  | call o k ih =>
    obtain ⟨r, s₁, hx, hr⟩ := h (xs 0)
    obtain ⟨a, t', s', hrun, hQ⟩ := ih r hr fun n => xs (n + 1)
    exact ⟨a, ⟨o, r⟩ :: t', s', alone_call_of_exec hx hrun, by simpa using hQ⟩

end Ends

end System

end Interleave
