import LeetBot.Settling
import LeetBot.Suspension

/-!
# Waiting for a future

`co_await` on an `AwaitableFuture` takes three steps: `await_ready` asks whether the future has a value; if it has
none, `await_suspend` starts a thread that waits for the value and then resumes the coroutine; and `await_resume`
takes the value.  Everywhere else `co_await` is one operation that blocks its thread.  The coroutines refine that
system: `await_resume` never blocks, and nothing of what holds of all runs, or of their ends, is lost.
-/

namespace LeetBot

open Interleave Coroutines

/-- `AwaitableFuture::await_ready` -/
def awaitReady (promise : Nat) (a : Accounts) : Bool :=
  match a.promises[promise]? with
  | some (some _) => true
  | _ => false

/-- A registration awaits the future of its promise; all other operations are performed at once. -/
def awaitableFuture : Waiting Op Accounts where
  awaits
    | .await _ => true
    | _ => false
  ready
    | .await promise, a => awaitReady promise a
    | _, _ => true

abbrev AccountCoroutines := Coroutines Op Op.Res Accounts AccountEvent

/-- The coroutines that a run from the beginning reaches. -/
abbrev CoroutinesReachable (parse : String → Except String Json) (db : LeetoDB)
    (ok : AccountWorld → Label Choice AccountEvent → Prop) (c : AccountCoroutines) : Prop :=
  Reach awaitableFuture (accounts parse db) ok { world := AccountWorld.initial } c

/-- A step of the coroutines. -/
abbrev coMove (parse : String → Except String Json) (db : LeetoDB) :
    AccountCoroutines → Move Choice AccountEvent → Option AccountCoroutines :=
  move awaitableFuture (accounts parse db)

/-- The coroutines after moves of threads and of completions that are not retried. -/
abbrev coSettle (parse : String → Except String Json) (db : LeetoDB) :
    AccountCoroutines → List (Move Choice AccountEvent) → Option AccountCoroutines :=
  Coroutines.run awaitableFuture (accounts parse db) (Settles parse db)

variable {parse : String → Except String Json} {db : LeetoDB} {ok : AccountWorld → Label Choice AccountEvent → Prop}
  {c : AccountCoroutines} {promise : Nat} {a : Accounts}

private theorem awaitReady_iff : awaitReady promise a ↔ ∃ desc, a.promises[promise]? = some (some desc) := by
  unfold awaitReady
  constructor
  · intro h
    split at h
    · rename_i desc hdesc
      exact ⟨desc, hdesc⟩
    · cases h
  · rintro ⟨desc, hdesc⟩
    rw [hdesc]

/-- A future that has a value keeps it. -/
private theorem awaitableFuture_lawful : awaitableFuture.Lawful (accounts parse db) where
  go := by
    intro o a hawaits hready x
    cases o with
    | await p =>
      obtain ⟨desc, hdesc⟩ := awaitReady_iff.1 hready
      exact ⟨desc, a, by simp [accounts, Accounts.exec, hdesc]⟩
    | _ => cases hawaits
  ready_of_exec := by
    intro o x a r a' hawaits hx
    cases o with
    | await p =>
      simp only [accounts, Accounts.exec] at hx
      split at hx
      · rename_i desc hdesc
        exact awaitReady_iff.2 ⟨desc, hdesc⟩
      · cases hx
    | _ => cases hawaits
  stays := by
    intro o o' x a r a' hx hready
    cases o with
    | await p =>
      obtain ⟨desc, hdesc⟩ := awaitReady_iff.1 hready
      exact awaitReady_iff.2 ⟨desc, exec_promise_mono hx hdesc⟩
    | _ => rfl
  stays_arrive := by
    intro o e a a' p ha hready
    cases o with
    | await p =>
      obtain ⟨desc, hdesc⟩ := awaitReady_iff.1 hready
      exact awaitReady_iff.2 ⟨desc, by rw [arrive_promises ha, hdesc]⟩
    | _ => rfl

private theorem CoroutinesReachable.sound (hc : CoroutinesReachable parse db ok c) : Sound awaitableFuture c :=
  Reach.sound awaitableFuture_lawful hc ⟨rfl, fun _ _ h => nomatch h⟩

/-- The coroutines refine the system in which `co_await` blocks: they reach only its worlds, `await_resume` does not
block, and a step of the system is made after at most one step of a coroutine.  When no command arrives,
no username changes and no completion is retried, they come to rest within a bounded number of steps; then no
coroutine is suspended, nothing is in flight, and every command has been answered that the bot answers at all. -/
theorem coroutines_refine (hc : CoroutinesReachable parse db ok c) :
    Reachable parse db ok c.world ∧
      (∀ (i : Nat) p, c.world.next i = some (.await p) → c.phases[i]? = some .resumed →
        ∃ desc, c.world.shared.promises[p]? = some (some desc)) ∧
      (∀ l w', (accounts parse db).step c.world l = some w' →
        ∃ c₁, (c₁ = c ∨ ∃ i, coMove parse db c (.ask i) = some c₁ ∨ coMove parse db c (.resume i) = some c₁) ∧
          ∃ c', coMove parse db c₁ (.label l) = some c' ∧ c'.world = w') ∧
      ∃ n, ∀ ms c', coSettle parse db c ms = some c' → ms.length ≤ n ∧
        ((∀ m, Allows (Settles parse db) c' m → coMove parse db c' m = none) →
          (∀ i : Nat, c'.phases[i]? ≠ some .suspended) ∧ (∀ q, some q ∉ c'.world.shared.inflight) ∧
            (∀ i < c'.world.threads.length, c'.world.ended i) ∧
              ∀ j event, .arrived j (.slashcommand event) ∈ c'.world.history →
                Silent event (c'.world.trace j) ∨
                  ∃ i, asking.owner c'.world i = some j ∧ Answered (c'.world.trace i)) := by
  have hw : Reachable parse db ok c.world := Reach.world hc
  refine ⟨hw, ?_, fun l w' => hc.sound.matches awaitableFuture_lawful, ?_⟩
  · intro i p hnext hphase
    have hW : awaitableFuture.Lawful (accounts parse db) := awaitableFuture_lawful
    obtain ⟨desc, a, hx⟩ := hc.sound.exec_of_resumed hW hphase hnext .ok
    exact awaitReady_iff.1 (hW.ready_of_exec rfl hx)
  · obtain ⟨n, hn⟩ := exists_budget hw
    refine ⟨slackOf c.phases + 3 * n, fun ms c' hrun => ?_⟩
    have hsteps := settles_spends.length_le hn (run_world hrun)
    have hlength := length_run_le hrun
    refine ⟨by omega, fun hstuck => ?_⟩
    have hc' : CoroutinesReachable parse db (fun _ _ => True) c' :=
      (Reach.mono (fun _ _ _ => trivial) hc).trans (Reach.mono (fun _ _ _ => trivial) (Reach.of_run hrun))
    have hworld : ∀ l, Settles parse db c'.world l → (accounts parse db).step c'.world l = none := fun _ hok =>
      hc'.sound.step_of_stuck awaitableFuture_lawful hstuck hok
    obtain ⟨hflight, hended⟩ := rest_of_stuck (Reach.world hc') hworld
    refine ⟨fun i hi => ?_, hflight, hended, fun j event => answered_of_stuck (Reach.world hc') hworld⟩
    -- a suspended thread has not ended
    obtain ⟨o, ho, -⟩ := hc'.sound.stands i _ hi
    obtain ⟨e, k, hthread⟩ := World.next_eq_some_iff.1 ho
    have hend := hended i (List.getElem?_eq_some_iff.1 hthread).1
    simp [World.ended, hthread] at hend

/-- A registration suspends itself, and is resumed when its request has completed. -/
def registerSuspended : List (Move Choice AccountEvent) :=
  [.label (.event (.usernameChange 1 "ann")), .label (.event (registerCommand 1 "a"))] ++
    (proceed 1 5).map .label ++ [.ask 1] ++
    [.label (.event (.completion 0 (.description "a" 0 0) ⟨200, describedBody⟩)), .label (.run 2 .ok), .resume 1]

/-- The registration that has been resumed. -/
theorem coroutines_refine_resumed :
    ∃ c, CoroutinesReachable sampleParse ⟨true⟩ (fun _ _ => True) c ∧ c.phases[1]? = some .resumed ∧
      Reachable sampleParse ⟨true⟩ (fun _ _ => True) c.world ∧
      (∀ (i : Nat) p, c.world.next i = some (.await p) → c.phases[i]? = some .resumed →
        ∃ desc, c.world.shared.promises[p]? = some (some desc)) ∧
      (∀ l w', (accounts sampleParse ⟨true⟩).step c.world l = some w' →
        ∃ c₁, (c₁ = c ∨ ∃ i, coMove sampleParse ⟨true⟩ c (.ask i) = some c₁ ∨
            coMove sampleParse ⟨true⟩ c (.resume i) = some c₁) ∧
          ∃ c', coMove sampleParse ⟨true⟩ c₁ (.label l) = some c' ∧ c'.world = w') ∧
      ∃ n, ∀ ms c', coSettle sampleParse ⟨true⟩ c ms = some c' → ms.length ≤ n ∧
        ((∀ m, Allows (Settles sampleParse ⟨true⟩) c' m → coMove sampleParse ⟨true⟩ c' m = none) →
          (∀ i : Nat, c'.phases[i]? ≠ some .suspended) ∧ (∀ q, some q ∉ c'.world.shared.inflight) ∧
            (∀ i < c'.world.threads.length, c'.world.ended i) ∧
              ∀ j event, .arrived j (.slashcommand event) ∈ c'.world.history →
                Silent event (c'.world.trace j) ∨
                  ∃ i, asking.owner c'.world i = some j ∧ Answered (c'.world.trace i)) := by
  have hrun : (Coroutines.run awaitableFuture (accounts sampleParse ⟨true⟩) (fun _ _ => True)
      { world := AccountWorld.initial } registerSuspended).any (fun c => c.phases[1]? = some .resumed) = true := by
    decide +kernel
  obtain ⟨c, hc, htest⟩ := (Option.any_eq_true _ _).1 hrun
  have hreach : CoroutinesReachable sampleParse ⟨true⟩ (fun _ _ => True) c := Reach.of_run hc
  exact ⟨c, hreach, of_decide_eq_true htest, coroutines_refine hreach⟩

end LeetBot
