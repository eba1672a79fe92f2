import LeetBot.Errands
import LeetBot.Ownership

/-!
# Promises are kept

A registration waits for a promise that it has made and handed on with its request.  One thread sets the promise,
the one that handles the last completion of that request, and the registration goes on with the first value it sets.
Until then the request is in flight, or that thread can take a step: nobody waits in vain.
-/

namespace LeetBot

open Interleave

variable {parse : String → Except String Json} {db : LeetoDB} {ok : AccountWorld → Label Choice AccountEvent → Prop}
  {w w' : AccountWorld} {l : Label Choice AccountEvent} {c i j p : Nat}

/-! ### What has been set -/

/-- The first value of a promise is taken, and later ones are refused. -/
theorem exec_setValue {a s : Accounts} {x : Choice} {desc : Option String} {y : Except String Unit}
    (h : Accounts.exec (.setValue p desc) x a = some (y, s)) :
    (a.promises[p]? = some none ∧ y = .ok () ∧ s = { a with promises := a.promises.set p (some desc) }) ∨
      (a.promises[p]? ≠ some none ∧ y = .error promiseAlreadySatisfied ∧ s = a) := by
  simp only [Accounts.exec] at h
  split at h
  · rename_i hnone
    cases h
    exact .inl ⟨hnone, rfl, rfl⟩
  · rename_i hset
    cases h
    exact .inr ⟨hset, rfl, rfl⟩

/-- An operation leaves a value that was set. -/
theorem exec_promise_mono {o : Op} {x : Choice} {a s : Accounts} {r : o.Res} (h : Accounts.exec o x a = some (r, s))
    {v : Option String} (hv : a.promises[p]? = some (some v)) : s.promises[p]? = some (some v) := by
  have hlt : p < a.promises.length := (List.getElem?_eq_some_iff.1 hv).1
  rcases exec_promises h with hsame | ⟨-, hnew⟩ | ⟨p', desc, rfl, -⟩
  · rw [hsame, hv]
  · rw [hnew, List.getElem?_append_left hlt, hv]
  · rcases exec_setValue (x := x) h with ⟨hnone, -, rfl⟩ | ⟨-, -, rfl⟩
    · have hne : p' ≠ p := by
        rintro rfl
        rw [hv] at hnone
        cases hnone
      exact (List.getElem?_set_ne hne).trans hv
    · exact hv

private theorem promise_mono (hs : (accounts parse db).step w l = some w') {v : Option String}
    (h : w.shared.promises[p]? = some (some v)) : w'.shared.promises[p]? = some (some v) := by
  cases l with
  | event e =>
    obtain ⟨s, q, ha, rfl⟩ := System.step_event hs
    rw [World.started_shared, arrive_promises ha, h]
  | run i x =>
    obtain ⟨e, o, k, r, s, -, hx, rfl⟩ := System.step_run hs
    exact exec_promise_mono hx h

/-- A value that a promise has was taken from a thread. -/
theorem set_of_value (hw : Reachable parse db ok w) {v : Option String} (h : w.shared.promises[p]? = some (some v)) :
    ∃ i, .performed i (.setValue p v) (.ok ()) ∈ w.history := by
  refine hw.invariant (I := fun w => ∀ v, w.shared.promises[p]? = some (some v) →
    ∃ i, .performed i (.setValue p v) (.ok ()) ∈ w.history) (fun v h => by cases h) ?_ ?_ v h
  · intro w e s q _ hI _ ha v h
    rw [World.started_shared, arrive_promises ha] at h
    obtain ⟨i, hi⟩ := hI v h
    exact ⟨i, World.mem_started.2 (.inl hi)⟩
  · intro w i x e o k r s _ hI _ _ hx v h
    have hold : w.shared.promises[p]? = some (some v) →
        ∃ j, .performed j (.setValue p v) (.ok ()) ∈ (w.after i e o r s (k r)).history := fun h => by
      obtain ⟨j, hj⟩ := hI v h
      exact ⟨j, World.mem_after.2 (.inl hj)⟩
    rw [World.after_shared] at h
    rcases exec_promises hx with hsame | ⟨-, hnew⟩ | ⟨p', desc, rfl, -⟩
    · exact hold (hsame ▸ h)
    · rw [hnew, List.getElem?_append] at h
      split at h
      · exact hold h
      · rw [List.getElem?_singleton] at h
        split at h <;> cases h
    · rcases exec_setValue (x := x) hx with ⟨hnone, rfl, rfl⟩ | ⟨-, -, rfl⟩
      · by_cases hp : p' = p
        · subst hp
          rw [List.getElem?_set_self (List.getElem?_eq_some_iff.1 hnone).1] at h
          cases h
          exact ⟨i, World.mem_after.2 (.inr rfl)⟩
        · exact hold ((List.getElem?_set_ne hp).symm.trans h)
      · exact hold h

/-- Only a completion of a request for a description sets a promise, the one it was made for. -/
theorem description_of_setting (hw : Reachable parse db ok w) {e : AccountEvent} {desc : Option String}
    {k : Except String Unit → Program Unit} (hi : w.threads[i]? = some (e, .call (.setValue p desc) k)) :
    requested (w.trace i) = [] ∧ ∃ m L n cc, e = .completion m (.description L p n) cc := by
  have hturn := next_turn hw hi
  cases e with
  | slashcommand event => exact hturn.elim
  | completion m r cc =>
    obtain ⟨hreq, L, n, rfl⟩ := hturn
    exact ⟨hreq, m, L, n, cc, rfl⟩
  | usernameChange d n => exact hturn.elim

/-- A promise that somebody has tried to set has a value. -/
theorem exists_value_of_set (hw : Reachable parse db ok w) {desc : Option String} {y : Except String Unit}
    (h : .performed i (.setValue p desc) y ∈ w.history) : ∃ v, w.shared.promises[p]? = some (some v) := by
  refine hw.forall_answers (P := fun w _ _ => ∃ v, w.shared.promises[p]? = some (some v)) ?_ ?_ h
  · intro w i x e k y s hreach _ hi hx
    show ∃ v, s.promises[p]? = some (some v)
    obtain ⟨-, m, L, n, cc, rfl⟩ := description_of_setting hreach hi
    -- the promise had been made before its description was asked for
    obtain ⟨j, hj⟩ := issued_of_completed hreach (hreach.arrived_iff.2 ⟨_, hi⟩)
    obtain ⟨c, -, -, -, hmade⟩ := asked_by_registration hreach hj
    have hlt := promise_lt hreach hmade
    rcases exec_setValue (x := x) hx with ⟨hnone, -, rfl⟩ | ⟨hset, -, rfl⟩
    · exact ⟨desc, List.getElem?_set_self hlt⟩
    · rcases hv : w.shared.promises[p]? with _ | _ | v
      · exact absurd hlt (Nat.not_lt.2 (List.getElem?_eq_none_iff.1 hv))
      · exact absurd hv hset
      · exact ⟨v, rfl⟩
  · intro w l w' i y _ hs ⟨v, hv⟩
    exact ⟨v, promise_mono hs hv⟩

/-! ### Who sets a promise -/

/-- A thread that has tried to set a promise handles a description made for it, and issues no request. -/
theorem handles_of_set (hw : Reachable parse db ok w) {desc : Option String} {y : Except String Unit}
    (h : .performed i (.setValue p desc) y ∈ w.history) :
    requested (w.trace i) = [] ∧ ∃ m L n cc, .arrived i (.completion m (.description L p n) cc) ∈ w.history := by
  refine (hw.forall_answers (P := fun w i y => ⟨.setValue p desc, y⟩ ∈ w.trace i ∧ requested (w.trace i) = [] ∧
    ∃ m L n cc, .arrived i (.completion m (.description L p n) cc) ∈ w.history) ?_ ?_ h).2
  · intro w i x e k y s hreach _ hi _
    obtain ⟨hreq, m, L, n, cc, rfl⟩ := description_of_setting hreach hi
    rw [World.trace_after_self, requested_concat (fun q hq => by cases hq)]
    exact ⟨List.mem_concat_self, hreq, m, L, n, cc, World.mem_after.2 (.inl (hreach.arrived_iff.2 ⟨_, hi⟩))⟩
  · rintro w l w' i y hreach hs ⟨hmem, hreq, m, L, n, cc, he⟩
    refine ⟨World.mem_trace.2 (System.history_subset hs (World.mem_trace.1 hmem)), ?_, m, L, n, cc,
      System.history_subset hs he⟩
    cases l with
    | event e =>
      obtain ⟨s, q, -, rfl⟩ := System.step_event hs
      rw [World.trace_started, hreq]
    | run j x =>
      obtain ⟨e, o, k, r, s, hj, -, rfl⟩ := System.step_run hs
      by_cases hji : j = i
      · subst hji
        rw [World.trace_after_self, requested_concat, hreq]
        rintro q rfl
        -- a lambda that issues its request again has done nothing before
        have hturn := next_turn hreach hj
        cases hreach.arrived_unique he (hreach.arrived_iff.2 ⟨_, hj⟩)
        rw [hturn.1] at hmem
        cases hmem
      · rw [World.trace_after_of_ne hji, hreq]

/-- A thread that handles a description without asking for it again has the errand of the registration that made the
promise. -/
theorem errand_of_handling (hw : Reachable parse db ok w) {m n : Nat} {L : String} {cc : HttpCompletion}
    (he : .arrived i (.completion m (.description L p n) cc) ∈ w.history) (hreq : requested (w.trace i) = []) :
    ∃ c, .performed c .makePromise p ∈ w.history ∧ asking.Starts w c ∧ asking.At w c (.handling i) := by
  obtain ⟨q, hi⟩ := hw.arrived_iff.1 he
  obtain ⟨c, hc⟩ := (booked hw).exists_owner (List.getElem?_eq_some_iff.1 hi).1
  have hstart := (booked hw).owned i c hc
  have hne := (booked hw).ne_of_answer hi rfl hc
  have hplace : asking.At w c (.handling i) := ⟨hasIssued_eq_false.2 hreq, hc, hne⟩
  refine ⟨c, ?_, hstart, hplace⟩
  obtain ⟨⟨q₀, hq₀, hcount⟩, -⟩ := (errand_of_reachable hw hstart).carried _ _ hplace ⟨m, cc, q, hi⟩
  have hasked : .performed c (.request q₀) () ∈ w.history := mem_requested.1 (hq₀ ▸ List.mem_singleton_self q₀)
  obtain ⟨e', t, he', hturn, ht⟩ := performed_turn hw hasked
  cases e' with
  | slashcommand event =>
    cases q₀ with
    | description L' p' n' =>
      cases hcount
      have hlast := List.mem_of_getLast? hturn.2.2.2
      exact World.mem_trace.1 (ht.subset (List.mem_append_left _ hlast))
    | _ => cases hcount
  | completion m' r' cc' =>
    obtain ⟨e'', q'', hc', hans⟩ := hstart
    cases hw.arrived_unique he' (hw.arrived_iff.2 ⟨_, hc'⟩)
    cases hans
  | usernameChange d n' => exact hturn.elim

/-- So has a thread that has tried to set the promise. -/
theorem setter (hw : Reachable parse db ok w) {desc : Option String} {y : Except String Unit}
    (h : .performed i (.setValue p desc) y ∈ w.history) :
    ∃ c, .performed c .makePromise p ∈ w.history ∧ asking.Starts w c ∧ asking.At w c (.handling i) := by
  obtain ⟨hreq, m, L, n, cc, he⟩ := handles_of_set hw h
  exact errand_of_handling hw he hreq

private theorem made_of_asked (hw : Reachable parse db ok w) {event : SlashCommand}
    (hc : .arrived c (.slashcommand event) ∈ w.history) {L : String} {n : Nat}
    (h : .performed c (.request (.description L p n)) () ∈ w.history) : .performed c .makePromise p ∈ w.history := by
  obtain ⟨e, t, he, hturn, ht⟩ := performed_turn hw h
  cases hw.arrived_unique he hc
  exact World.mem_trace.1 (ht.subset (List.mem_append_left _ (List.mem_of_getLast? hturn.2.2.2)))

theorem made_of_await (hw : Reachable parse db ok w) {v : Option String}
    (h : .performed c (.await p) v ∈ w.history) : .performed c .makePromise p ∈ w.history := by
  obtain ⟨e, t, he, hturn, ht⟩ := performed_turn hw h
  cases e with
  | slashcommand event =>
    obtain ⟨L, hlast⟩ := hturn
    have hasked := ht.subset (List.mem_append_left _ (List.mem_of_getLast? hlast))
    exact made_of_asked hw he (World.mem_trace.1 hasked)
  | completion m r cc => exact hturn.elim
  | usernameChange d n => exact hturn.elim

theorem value_of_await (hw : Reachable parse db ok w) {v : Option String}
    (h : .performed c (.await p) v ∈ w.history) : w.shared.promises[p]? = some (some v) := by
  refine hw.forall_answers (P := fun w _ v => w.shared.promises[p]? = some (some v)) ?_
    (fun w l w' i v _ hs hv => promise_mono hs hv) h
  intro w i x e k v s _ _ _ hx
  simp only [accounts, Accounts.exec] at hx
  split at hx
  · rename_i hv
    cases hx
    exact hv
  · cases hx

/-- A registration that has waited has the value that one thread set first, the one that handles its request; nobody
else has tried to set the promise. -/
theorem await_answer (hw : Reachable parse db ok w) {v : Option String}
    (h : .performed c (.await p) v ∈ w.history) :
    ∃ i, .performed i (.setValue p v) (.ok ()) ∈ w.history ∧ asking.owner w i = some c ∧
      ∀ j desc y, .performed j (.setValue p desc) y ∈ w.history → j = i := by
  obtain ⟨i, hset⟩ := set_of_value hw (value_of_await hw h)
  have hmade := made_of_await hw h
  have hhas : ∀ j desc y, .performed j (.setValue p desc) y ∈ w.history →
      asking.Starts w c ∧ asking.At w c (.handling j) := by
    intro j desc y hj
    obtain ⟨c', hmade', hstart, hplace⟩ := setter hw hj
    cases promise_unique hw hmade' hmade
    exact ⟨hstart, hplace⟩
  obtain ⟨hstart, hplace⟩ := hhas i v _ hset
  refine ⟨i, hset, hplace.2.1, fun j desc y hj => ?_⟩
  cases (unique_place hw hstart).unique (hhas j desc y hj).2 hplace
  rfl

/-- What thread `i` has waited for. -/
def awaited (w : AccountWorld) (i : Nat) : List (Nat × Option String) :=
  (w.trace i).filterMap fun
    | ⟨.await p, v⟩ => some (p, v)
    | _ => none

theorem mem_awaited {v : Option String} (h : (p, v) ∈ awaited w i) : .performed i (.await p) v ∈ w.history := by
  refine World.mem_trace.1 ?_
  obtain ⟨⟨o, r⟩, hmem, heq⟩ := List.mem_filterMap.1 h
  cases o with
  | await p' =>
    cases heq
    exact hmem
  | _ => cases heq

/-- A run in which a registration gets the description. -/
theorem await_answer_registered :
    ∃ w, Reachable sampleParse ⟨true⟩ (fun _ _ => True) w ∧
      ∃ i, .performed i (.setValue 0 (some "LeetBot->[ann]->Verify")) (.ok ()) ∈ w.history ∧
        asking.owner w i = some 1 ∧ ∀ j desc y, .performed j (.setValue 0 desc) y ∈ w.history → j = i := by
  have hrun : ((accounts sampleParse ⟨true⟩).run (fun _ _ => True) AccountWorld.initial registerAndUpdate).any
      (fun w => (0, some "LeetBot->[ann]->Verify") ∈ awaited w 1) = true := by decide +kernel
  obtain ⟨w, hw, htest⟩ := System.Reach.exists_of_run hrun
  exact ⟨w, hw, await_answer hw (mem_awaited (of_decide_eq_true htest))⟩

/-! ### Nobody waits in vain -/

/-- Every operation but waiting can be performed at once. -/
theorem exec_isSome {o : Op} (ho : ∀ p, o ≠ .await p) (x : Choice) (a : Accounts) :
    ∃ r s, Accounts.exec o x a = some (r, s) := by
  cases o with
  | await p => exact absurd rfl (ho p)
  | sql s => cases x <;> exact ⟨_, _, rfl⟩
  | memberUsername d => cases x <;> exact ⟨_, _, rfl⟩
  | setValue p desc =>
    simp only [Accounts.exec]
    split <;> exact ⟨_, _, rfl⟩
  | _ => exact ⟨_, _, rfl⟩

/-- While a registration waits, its request is in flight, or the thread that handles a completion can take a step. -/
theorem errand_of_waiting (hw : Reachable parse db ok w) {e : AccountEvent} {k : Option String → Program Unit}
    (hc : w.threads[c]? = some (e, .call (.await p) k)) (hunset : ∀ v, w.shared.promises[p]? ≠ some (some v)) :
    (∃ m q, w.shared.inflight[m]? = some (some q) ∧ asking.client w m = some c) ∨
      ∃ i, asking.owner w i = some c ∧ ∀ x, ∃ w', (accounts parse db).step w (.run i x) = some w' := by
  have hturn := next_turn hw hc
  cases e with
  | completion m r cc => exact hturn.elim
  | usernameChange d n => exact hturn.elim
  | slashcommand event =>
  obtain ⟨L, hlast⟩ := hturn
  have hasked : .description L p 0 ∈ requested (w.trace c) :=
    mem_requested.2 (World.mem_trace.1 (List.mem_of_getLast? hlast))
  have hstart : asking.Starts w c := ⟨_, _, hc, rfl⟩
  obtain ⟨x, hx, -⟩ := unique_place hw hstart
  cases x with
  | idle =>
    rw [hasIssued_eq_false.1 hx] at hasked
    cases hasked
  | flight m =>
    obtain ⟨q, hq⟩ := exists_of_open hx.1
    exact .inl ⟨m, q, hq, hx.2⟩
  | handling i =>
    obtain ⟨r, m, cc, q, hi⟩ := (exists_requestAt hw hx).resolve_left (fun h => by cases h)
    obtain ⟨⟨q₀, hq₀, hcount⟩, -⟩ := (errand_of_reachable hw hstart).carried _ _ hx ⟨m, cc, q, hi⟩
    rw [hq₀, List.mem_singleton] at hasked
    subst hasked
    refine .inr ⟨i, hx.2.1, fun x => ?_⟩
    cases q with
    | call o k' =>
      have hturn' := next_turn hw hi
      obtain ⟨y, s, hexec⟩ := exec_isSome (o := o) (fun p hp => by subst hp; exact hturn'.elim) x w.shared
      exact ⟨_, by simp [System.step, hi, accounts, hexec]; rfl⟩
    | ret u =>
      -- a thread that has ended without another request has set the promise
      have hend := turn_end hw (hw.arrived_iff.2 ⟨_, hi⟩) (by simp [World.ended, hi])
      rcases hend with ⟨q, hlast⟩ | hdone
      · have hmem := mem_requested.2 (World.mem_trace.1 (List.mem_of_getLast? hlast))
        rw [hasIssued_eq_false.1 hx.1] at hmem
        cases hmem
      · rw [hcount] at hdone
        obtain ⟨desc, y, hset⟩ := hdone
        obtain ⟨v, hv⟩ := exists_value_of_set hw (World.mem_trace.1 hset)
        exact absurd hv (hunset v)

end LeetBot
