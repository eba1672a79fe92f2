import LeetBot.Interleave

/-!
# Threads that suspend

In a `System` an operation that has to wait blocks its thread.  A coroutine does not block: it first asks whether the
operation it awaits is ready; if it is not, the coroutine suspends itself, and a helper resumes it once the operation
is ready; then it performs the operation.  Between these steps the other threads run.

When what is ready stays ready, this makes no difference.  Every run of coroutines is a run of the system
(`Coroutines.Reach.world`), no operation blocks a coroutine that has been resumed (`Sound.exec_of_resumed`), every
step of the system takes at most two steps of a coroutine (`Sound.matches`), coroutines are stuck only where the
system is (`Sound.step_of_stuck`), and they take at most three times as many steps (`length_run_le`).
-/

namespace Interleave

variable {Op : Type} {Res : Op → Type} {σ χ ε : Type}

/-- Where a thread stands with its next operation. -/
inductive Phase where
  | running
  /-- A helper waits until the operation is ready. -/
  | suspended
  /-- The operation was ready; performing it is next. -/
  | resumed
deriving DecidableEq

/-- How often a thread can still ask or be resumed before its next operation. -/
def Phase.slack : Phase → Nat
  | .running => 2
  | .suspended => 1
  | .resumed => 0

/-- Which operations are awaited, and the test whether such an operation is ready. -/
structure Waiting (Op σ : Type) where
  awaits : Op → Bool
  ready : Op → σ → Bool

/-- An awaited operation that is ready can be performed, and only then; and what is ready stays ready. -/
structure Waiting.Lawful (W : Waiting Op σ) (S : System Op Res σ χ ε) : Prop where
  go : ∀ {o s}, W.awaits o → W.ready o s → ∀ x, ∃ r s', S.exec o x s = some (r, s')
  ready_of_exec : ∀ {o x s r s'}, W.awaits o → S.exec o x s = some (r, s') → W.ready o s
  stays : ∀ {o o' x s r s'}, S.exec o' x s = some (r, s') → W.ready o s → W.ready o s'
  stays_arrive : ∀ {o e s s' p}, S.arrive e s = some (s', p) → W.ready o s → W.ready o s'

/-- A world, with the phase of each thread. -/
structure Coroutines (Op : Type) (Res : Op → Type) (σ ε : Type) where
  world : World Op Res σ ε
  phases : List Phase := []

/-- One step: a step of the system, or thread `i` asks for the operation that it awaits, or it is resumed. -/
inductive Move (χ ε : Type) where
  | label (l : Label χ ε)
  | ask (i : Nat)
  | resume (i : Nat)

/-- The next operation of a thread. -/
def World.next (w : World Op Res σ ε) (i : Nat) : Option Op :=
  match w.threads[i]? with
  | some (_, .call o _) => some o
  | _ => none

theorem World.next_eq_some_iff {w : World Op Res σ ε} {i : Nat} {o : Op} :
    w.next i = some o ↔ ∃ e k, w.threads[i]? = some (e, .call o k) := by
  constructor
  · intro h
    unfold World.next at h
    split at h
    · rename_i e o' k hi
      cases h
      exact ⟨e, k, hi⟩
    · cases h
  · rintro ⟨e, k, hi⟩
    simp [World.next, hi]

/-- The phase in which a thread performs an operation. -/
def Waiting.enters (W : Waiting Op σ) (o : Op) : Phase := if W.awaits o then .resumed else .running

namespace Coroutines

/-- What a thread may do before its next operation. -/
def move (W : Waiting Op σ) (S : System Op Res σ χ ε) (c : Coroutines Op Res σ ε) :
    Move χ ε → Option (Coroutines Op Res σ ε)
  | .label (.event e) => (S.step c.world (.event e)).map fun w => ⟨w, c.phases ++ [.running]⟩
  | .label (.run i x) => do
      let o ← c.world.next i
      if c.phases[i]? = some (W.enters o) then
        (S.step c.world (.run i x)).map fun w => ⟨w, c.phases.set i .running⟩
      else
        none
  | .ask i => do
      let o ← c.world.next i
      if W.awaits o ∧ c.phases[i]? = some .running then
        return { c with phases := c.phases.set i (if W.ready o c.world.shared then .resumed else .suspended) }
      else
        none
  | .resume i => do
      let o ← c.world.next i
      if W.awaits o ∧ c.phases[i]? = some .suspended ∧ W.ready o c.world.shared then
        return { c with phases := c.phases.set i .resumed }
      else
        none

/-- The condition on the steps of the system, for a move. -/
def Allows (ok : World Op Res σ ε → Label χ ε → Prop) (c : Coroutines Op Res σ ε) : Move χ ε → Prop
  | .label l => ok c.world l
  | .ask _ | .resume _ => True

instance (ok : World Op Res σ ε → Label χ ε → Prop) [∀ w l, Decidable (ok w l)] (c : Coroutines Op Res σ ε) :
    ∀ m, Decidable (Allows ok c m)
  | .label l => inferInstanceAs (Decidable (ok c.world l))
  | .ask _ | .resume _ => inferInstanceAs (Decidable True)

/-- The steps of the system among the moves. -/
def steps (ms : List (Move χ ε)) : List (Label χ ε) :=
  ms.filterMap fun
    | .label l => some l
    | .ask _ | .resume _ => none

private theorem steps_cons (m : Move χ ε) (ms : List (Move χ ε)) : steps (m :: ms) = steps [m] ++ steps ms :=
  List.filterMap_append (l := [m])

variable (W : Waiting Op σ) (S : System Op Res σ χ ε)

/-- The coroutines after the given moves, if they all meet the condition and can be taken. -/
def run (ok : World Op Res σ ε → Label χ ε → Prop) [∀ w l, Decidable (ok w l)] (c : Coroutines Op Res σ ε)
    (ms : List (Move χ ε)) : Option (Coroutines Op Res σ ε) :=
  ms.foldlM (fun c m => if Allows ok c m then move W S c m else none) c

inductive Reach (ok : World Op Res σ ε → Label χ ε → Prop) (c₀ : Coroutines Op Res σ ε) :
    Coroutines Op Res σ ε → Prop
  | refl : Reach ok c₀ c₀
  | step {c c' : Coroutines Op Res σ ε} {m : Move χ ε} :
      Reach ok c₀ c → Allows ok c m → move W S c m = some c' → Reach ok c₀ c'

variable {W S} {ok : World Op Res σ ε → Label χ ε → Prop} {c c' c₀ : Coroutines Op Res σ ε} {m : Move χ ε}
  {i : Nat} {x : χ} {o : Op}

theorem Reach.trans {c₁ : Coroutines Op Res σ ε} (h₁ : Reach W S ok c₀ c₁) (h : Reach W S ok c₁ c) :
    Reach W S ok c₀ c := by
  induction h with
  | refl => exact h₁
  | step _ hok hm ih => exact ih.step hok hm

theorem Reach.mono {ok' : World Op Res σ ε → Label χ ε → Prop} (hok : ∀ w l, ok w l → ok' w l)
    (h : Reach W S ok c₀ c) : Reach W S ok' c₀ c := by
  induction h with
  | refl => exact .refl
  | @step c c' m _ hallows hm ih =>
    refine ih.step ?_ hm
    cases m with
    | label l => exact hok _ _ hallows
    | ask i => trivial
    | resume i => trivial

/-! ### What a move does -/

private theorem move_event {e : ε} (h : move W S c (.label (.event e)) = some c') :
    ∃ s p, S.arrive e c.world.shared = some (s, p) ∧ c' = ⟨c.world.started e s p, c.phases ++ [.running]⟩ := by
  obtain ⟨w, hw, rfl⟩ := Option.map_eq_some_iff.1 h
  obtain ⟨s, p, ha, rfl⟩ := System.step_event hw
  exact ⟨s, p, ha, rfl⟩

private theorem move_run (h : move W S c (.label (.run i x)) = some c') :
    ∃ e o k r s, c.world.threads[i]? = some (e, .call o k) ∧ c.phases[i]? = some (W.enters o) ∧
      S.exec o x c.world.shared = some (r, s) ∧
      c' = ⟨c.world.after i e o r s (k r), c.phases.set i .running⟩ := by
  simp only [move, Option.bind_eq_bind, Option.bind_eq_some_iff] at h
  obtain ⟨o, ho, h⟩ := h
  split at h
  · rename_i hphase
    obtain ⟨w, hw, rfl⟩ := Option.map_eq_some_iff.1 h
    obtain ⟨e, o', k, r, s, hi, hx, rfl⟩ := System.step_run hw
    obtain ⟨e', k', hi'⟩ := World.next_eq_some_iff.1 ho
    rw [hi] at hi'
    obtain ⟨rfl, hcall⟩ := Prod.mk.inj (Option.some.inj hi')
    cases hcall
    exact ⟨_, _, _, r, s, hi, hphase, hx, rfl⟩
  · cases h

private theorem move_ask (h : move W S c (.ask i) = some c') :
    ∃ o, c.world.next i = some o ∧ W.awaits o ∧ c.phases[i]? = some .running ∧
      c' = { c with phases := c.phases.set i (if W.ready o c.world.shared then .resumed else .suspended) } := by
  simp only [move, Option.bind_eq_bind, Option.bind_eq_some_iff] at h
  obtain ⟨o, ho, h⟩ := h
  split at h
  · rename_i hcond
    cases h
    exact ⟨o, ho, hcond.1, hcond.2, rfl⟩
  · cases h

private theorem move_resume (h : move W S c (.resume i) = some c') :
    ∃ o, c.world.next i = some o ∧ W.awaits o ∧ c.phases[i]? = some .suspended ∧ W.ready o c.world.shared ∧
      c' = { c with phases := c.phases.set i .resumed } := by
  simp only [move, Option.bind_eq_bind, Option.bind_eq_some_iff] at h
  obtain ⟨o, ho, h⟩ := h
  split at h
  · rename_i hcond
    cases h
    exact ⟨o, ho, hcond.1, hcond.2.1, hcond.2.2, rfl⟩
  · cases h

private theorem move_world (h : move W S c m = some c') :
    (∃ l, m = .label l ∧ S.step c.world l = some c'.world) ∨ steps [m] = [] ∧ c'.world = c.world := by
  match m with
  | .label (.event e) =>
    obtain ⟨s, p, ha, rfl⟩ := move_event h
    exact .inl ⟨_, rfl, by simp [System.step, ha]⟩
  | .label (.run i x) =>
    obtain ⟨e, o, k, r, s, hi, -, hx, rfl⟩ := move_run h
    exact .inl ⟨_, rfl, by simp [System.step, hi, hx]⟩
  | .ask i =>
    obtain ⟨o, -, -, -, rfl⟩ := move_ask h
    exact .inr ⟨rfl, rfl⟩
  | .resume i =>
    obtain ⟨o, -, -, -, -, rfl⟩ := move_resume h
    exact .inr ⟨rfl, rfl⟩

/-- Every run of coroutines is a run of the system. -/
theorem Reach.world (h : Reach W S ok c₀ c) : S.Reach ok c₀.world c.world := by
  induction h with
  | refl => exact .refl
  | step _ hok hm ih =>
    obtain ⟨l, rfl, hs⟩ | ⟨-, heq⟩ := move_world hm
    · exact ih.step hok hs
    · rwa [heq]

/-! ### Where the threads stand -/

/-- What is known of the next operation of a thread in a phase. -/
def Stands (W : Waiting Op σ) (w : World Op Res σ ε) (i : Nat) : Phase → Prop
  | .running => True
  | .suspended => ∃ o, w.next i = some o ∧ W.awaits o
  | .resumed => ∃ o, w.next i = some o ∧ W.awaits o ∧ W.ready o w.shared

/-- Every thread has a phase, and stands where its phase says. -/
structure Sound (W : Waiting Op σ) (c : Coroutines Op Res σ ε) : Prop where
  length : c.phases.length = c.world.threads.length
  stands : ∀ i p, c.phases[i]? = some p → Stands W c.world i p

variable {w : World Op Res σ ε} {p : Phase} {s : σ} {j : Nat}

private theorem next_started {e : ε} {q : Prog Op Res Unit} (h : w.next i = some o) :
    (w.started e s q).next i = some o := by
  obtain ⟨e', k, hi⟩ := World.next_eq_some_iff.1 h
  exact World.next_eq_some_iff.2 ⟨e', k, World.started_threads.2 (.inl hi)⟩

private theorem next_after {e : ε} {q : Prog Op Res Unit} {r : Res o} {k : Res o → Prog Op Res Unit} {o' : Op}
    (hne : i ≠ j) (hi : w.threads[i]? = some (e, .call o k)) (h : w.next j = some o') :
    (w.after i e o r s q).next j = some o' := by
  obtain ⟨e', k', hj⟩ := World.next_eq_some_iff.1 h
  exact World.next_eq_some_iff.2 ⟨e', k', (World.after_threads hi).2 (.inl ⟨hne, hj⟩)⟩

private theorem Stands.mono {w' : World Op Res σ ε} (hnext : ∀ o, w.next i = some o → w'.next i = some o)
    (hready : ∀ o, W.ready o w.shared → W.ready o w'.shared) (h : Stands W w i p) : Stands W w' i p := by
  cases p with
  | running => trivial
  | suspended =>
    obtain ⟨o, ho, hawaits⟩ := h
    exact ⟨o, hnext o ho, hawaits⟩
  | resumed =>
    obtain ⟨o, ho, hawaits, hr⟩ := h
    exact ⟨o, hnext o ho, hawaits, hready o hr⟩

private theorem Sound.set {c : Coroutines Op Res σ ε} (h : Sound W c) {w' : World Op Res σ ε} {q : Phase}
    (hlength : w'.threads.length = c.world.threads.length) (hself : Stands W w' i q)
    (hothers : ∀ j p, i ≠ j → Stands W c.world j p → Stands W w' j p) :
    Sound W ⟨w', c.phases.set i q⟩ where
  length := by rw [List.length_set, h.length, hlength]
  stands j p hj := by
    rw [List.getElem?_set] at hj
    by_cases hij : i = j
    · subst hij
      simp only [if_true] at hj
      split at hj
      · cases hj
        exact hself
      · cases hj
    · rw [if_neg hij] at hj
      exact hothers j p hij (h.stands j p hj)

/-- Every move leaves the threads where their phases say. -/
private theorem sound_move (hW : W.Lawful S) (h : Sound W c) (hm : move W S c m = some c') : Sound W c' := by
  match m with
  | .label (.event e) =>
    obtain ⟨s, q, ha, rfl⟩ := move_event hm
    refine ⟨by simp [World.started, h.length], fun i p hi => ?_⟩
    rw [List.getElem?_append] at hi
    split at hi
    · exact (h.stands i p hi).mono (fun _ => next_started) fun _ => hW.stays_arrive ha
    · rw [List.getElem?_singleton] at hi
      split at hi
      · cases hi
        trivial
      · cases hi
  | .label (.run i x) =>
    obtain ⟨e, o, k, r, s, hi, -, hx, rfl⟩ := move_run hm
    refine h.set (by simp [World.after]) trivial fun j p hij hj => ?_
    exact hj.mono (fun _ => next_after hij hi) fun _ => hW.stays hx
  | .ask i =>
    obtain ⟨o, ho, hawaits, -, rfl⟩ := move_ask hm
    refine h.set rfl ?_ fun j p _ hj => hj
    by_cases hready : W.ready o c.world.shared
    · rw [if_pos hready]
      exact ⟨o, ho, hawaits, hready⟩
    · rw [if_neg hready]
      exact ⟨o, ho, hawaits⟩
  | .resume i =>
    obtain ⟨o, ho, hawaits, -, hready, rfl⟩ := move_resume hm
    exact h.set rfl ⟨o, ho, hawaits, hready⟩ fun j p _ hj => hj

theorem Reach.sound (hW : W.Lawful S) (h : Reach W S ok c₀ c) (h₀ : Sound W c₀) : Sound W c := by
  induction h with
  | refl => exact h₀
  | step _ _ hm ih => exact sound_move hW ih hm

/-- An operation that a resumed thread performs does not block. -/
theorem Sound.exec_of_resumed (hW : W.Lawful S) (h : Sound W c) (hi : c.phases[i]? = some .resumed)
    (ho : c.world.next i = some o) (x : χ) : ∃ r s, S.exec o x c.world.shared = some (r, s) := by
  obtain ⟨o', ho', hawaits, hready⟩ := h.stands i _ hi
  rw [ho] at ho'
  cases ho'
  exact hW.go hawaits hready x

/-! ### Steps of the system -/

/-- Before a step of the system that can be taken, a thread at most asks or is resumed. -/
theorem Sound.matches (hW : W.Lawful S) (h : Sound W c) {l : Label χ ε} {w' : World Op Res σ ε}
    (hs : S.step c.world l = some w') :
    ∃ c₁, (c₁ = c ∨ ∃ i, move W S c (.ask i) = some c₁ ∨ move W S c (.resume i) = some c₁) ∧
      ∃ c', move W S c₁ (.label l) = some c' ∧ c'.world = w' := by
  cases l with
  | event e => exact ⟨c, .inl rfl, _, by rw [move, hs]; rfl, rfl⟩
  | run i x =>
    obtain ⟨e, o, k, r, s, hi, hx, rfl⟩ := System.step_run hs
    have ho : c.world.next i = some o := World.next_eq_some_iff.2 ⟨e, k, hi⟩
    have hlt : i < c.phases.length := by
      rw [h.length]
      exact (List.getElem?_eq_some_iff.1 hi).1
    have hperform : ∀ ps, ps[i]? = some (W.enters o) → ∃ c', move W S ⟨c.world, ps⟩ (.label (.run i x)) = some c' ∧
        c'.world = c.world.after i e o r s (k r) := by
      intro ps hps
      refine ⟨⟨c.world.after i e o r s (k r), ps.set i .running⟩, ?_, rfl⟩
      simp only [move, ho, hps, hs, Option.bind_eq_bind, Option.bind_some, if_true, Option.map_some]
    have hprepared : ∀ q, (c.phases.set i q)[i]? = some q := by
      intro q
      rw [List.getElem?_set_self hlt]
    by_cases hawaits : W.awaits o
    · have henters : W.enters o = .resumed := if_pos hawaits
      have hready := hW.ready_of_exec hawaits hx
      obtain ⟨p, hp⟩ : ∃ p, c.phases[i]? = some p := ⟨_, List.getElem?_eq_getElem hlt⟩
      cases p with
      | running =>
        refine ⟨⟨c.world, c.phases.set i .resumed⟩, .inr ⟨i, .inl ?_⟩, hperform _ (henters ▸ hprepared _)⟩
        simp [move, ho, hawaits, hp, hready]
      | suspended =>
        refine ⟨⟨c.world, c.phases.set i .resumed⟩, .inr ⟨i, .inr ?_⟩, hperform _ (henters ▸ hprepared _)⟩
        simp [move, ho, hawaits, hp, hready]
      | resumed => exact ⟨c, .inl rfl, hperform _ (henters ▸ hp)⟩
    · -- a thread that awaits nothing is running
      have henters : W.enters o = .running := if_neg hawaits
      have hrunning : c.phases[i]? = some .running := by
        obtain ⟨p, hp⟩ : ∃ p, c.phases[i]? = some p := ⟨_, List.getElem?_eq_getElem hlt⟩
        have hstands := h.stands i p hp
        cases p with
        | running => exact hp
        | suspended =>
          obtain ⟨o', ho', hawaits'⟩ := hstands
          rw [ho] at ho'
          cases ho'
          exact absurd hawaits' hawaits
        | resumed =>
          obtain ⟨o', ho', hawaits', -⟩ := hstands
          rw [ho] at ho'
          cases ho'
          exact absurd hawaits' hawaits
      exact ⟨c, .inl rfl, hperform _ (henters ▸ hrunning)⟩

/-- Where no move can be made, the system can take no step. -/
theorem Sound.step_of_stuck (hW : W.Lawful S) (h : Sound W c)
    (hstuck : ∀ m, Allows ok c m → move W S c m = none) {l : Label χ ε} (hok : ok c.world l) :
    S.step c.world l = none := by
  rw [Option.eq_none_iff_forall_ne_some]
  intro w' hs
  obtain ⟨c₁, rfl | ⟨i, hm | hm⟩, c', hl, -⟩ := h.matches hW hs
  · rw [hstuck (.label l) hok] at hl
    cases hl
  · rw [hstuck (.ask i) trivial] at hm
    cases hm
  · rw [hstuck (.resume i) trivial] at hm
    cases hm

/-! ### The length of runs -/

/-- The slack of all threads. -/
def slackOf : List Phase → Nat
  | [] => 0
  | p :: ps => p.slack + slackOf ps

private theorem slackOf_set {ps : List Phase} {p q : Phase} (hp : ps[i]? = some p) :
    slackOf (ps.set i q) + p.slack = slackOf ps + q.slack := by
  induction ps generalizing i with
  | nil => cases hp
  | cons p' ps ih =>
    cases i with
    | zero =>
      cases hp
      simp only [List.set_cons_zero, slackOf]
      omega
    | succ i =>
      have hrest := ih hp
      simp only [List.set_cons_succ, slackOf]
      omega

private theorem slackOf_concat {ps : List Phase} {p : Phase} : slackOf (ps ++ [p]) = slackOf ps + p.slack := by
  induction ps with
  | nil => exact Nat.add_comm p.slack 0
  | cons p' ps ih =>
    rw [List.cons_append, slackOf, slackOf, ih]
    omega

/-- A move uses up slack, or it is a step of the system. -/
private theorem slack_move (hm : move W S c m = some c') :
    1 + slackOf c'.phases ≤ slackOf c.phases + 3 * (steps [m]).length := by
  match m with
  | .label (.event e) =>
    obtain ⟨s, q, ha, rfl⟩ := move_event hm
    show 1 + slackOf (c.phases ++ [.running]) ≤ slackOf c.phases + 3 * 1
    rw [slackOf_concat, Phase.slack]
    omega
  | .label (.run i x) =>
    obtain ⟨e, o, k, r, s, -, hphase, -, rfl⟩ := move_run hm
    have hset := slackOf_set (q := .running) hphase
    show 1 + slackOf (c.phases.set i .running) ≤ slackOf c.phases + 3 * 1
    simp only [Phase.slack] at hset
    omega
  | .ask i =>
    obtain ⟨o, -, -, hphase, rfl⟩ := move_ask hm
    have hset := slackOf_set (q := if W.ready o c.world.shared then .resumed else .suspended) hphase
    show 1 + slackOf (c.phases.set i _) ≤ slackOf c.phases + 3 * 0
    have hle : (if W.ready o c.world.shared then Phase.resumed else Phase.suspended).slack ≤ 1 := by
      split <;> decide
    simp only [Phase.slack] at hset hle
    omega
  | .resume i =>
    obtain ⟨o, -, -, hphase, -, rfl⟩ := move_resume hm
    have hset := slackOf_set (q := .resumed) hphase
    show 1 + slackOf (c.phases.set i .resumed) ≤ slackOf c.phases + 3 * 0
    simp only [Phase.slack] at hset
    omega

section Run

variable [∀ w l, Decidable (ok w l)] {ms : List (Move χ ε)}

private theorem run_cons_eq_some (h : run W S ok c (m :: ms) = some c') :
    ∃ c₁, Allows ok c m ∧ move W S c m = some c₁ ∧ run W S ok c₁ ms = some c' := by
  simp only [run, List.foldlM_cons, Option.bind_eq_bind, Option.bind_eq_some_iff] at h
  obtain ⟨c₁, h₁, h₂⟩ := h
  split at h₁
  · rename_i hok
    exact ⟨c₁, hok, h₁, h₂⟩
  · cases h₁

theorem Reach.of_run (h : run W S ok c ms = some c') : Reach W S ok c c' := by
  induction ms generalizing c with
  | nil =>
    cases h
    exact .refl
  | cons m ms ih =>
    obtain ⟨c₁, hok, hm, hrest⟩ := run_cons_eq_some h
    exact (Reach.refl.step hok hm).trans (ih hrest)

/-- The steps of the system among the moves of a run are a run of the system. -/
theorem run_world (h : run W S ok c ms = some c') : S.run ok c.world (steps ms) = some c'.world := by
  induction ms generalizing c with
  | nil =>
    cases h
    rfl
  | cons m ms ih =>
    obtain ⟨c₁, hok, hm, hrest⟩ := run_cons_eq_some h
    have hlater := ih hrest
    obtain ⟨l, rfl, hs⟩ | ⟨hnone, heq⟩ := move_world hm
    · have hfirst : ok c.world l := hok
      show (if ok c.world l then S.step c.world l else none).bind (fun w => S.run ok w (steps ms)) = some c'.world
      rw [if_pos hfirst, hs]
      exact hlater
    · rw [steps_cons, hnone, ← heq]
      exact hlater

/-- Coroutines take at most three times as many steps as the system, and those for which there is still slack. -/
theorem length_run_le (h : run W S ok c ms = some c') :
    ms.length + slackOf c'.phases ≤ slackOf c.phases + 3 * (steps ms).length := by
  induction ms generalizing c with
  | nil =>
    cases h
    simp
  | cons m ms ih =>
    obtain ⟨c₁, -, hm, hrest⟩ := run_cons_eq_some h
    have hfirst := slack_move hm
    have hlater := ih hrest
    rw [steps_cons, List.length_append, List.length_cons]
    omega

end Run

end Coroutines

end Interleave
