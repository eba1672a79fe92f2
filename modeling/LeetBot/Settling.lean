import LeetBot.Budgets
import LeetBot.Promises

/-!
# The bot comes to rest

When no further command arrives, no username changes and no completion is retried, the threads end after a bounded
number of steps, in whatever order they run and the requests complete.  Where nothing more can happen, every command
has been answered, but those that the bot does not know and those whose user it has not found.
-/

namespace LeetBot

open Interleave

/-! ### What a thread costs -/

/-- A request pays for the lambda that handles its completion. -/
def opCost : Op → Nat
  | .request _ => 6
  | _ => 1

/-- What the requests in flight are worth. -/
def inflightWorth (a : Accounts) : Nat := 5 * (asking.isOpen a).countP id

variable {parse : String → Except String Json} {db : LeetoDB} {event : SlashCommand} {L u discordId name : String}

private theorem costs_call {α : Type} {o : Op} {k : o.Res → Program α} {n : Nat} (ho : opCost o = 1)
    (hk : ∀ r, (k r).Costs opCost n) : (Prog.call o k).Costs opCost (n + 1) := by
  refine ⟨by omega, fun r => ?_⟩
  rw [ho, Nat.add_sub_cancel]
  exact hk r

private theorem costs_call_request {α : Type} {q : Request} {k : Unit → Program α} {n : Nat}
    (hk : ∀ r, (k r).Costs opCost n) : (Prog.call (.request q) k : Program α).Costs opCost (n + 6) := by
  refine ⟨Nat.le_add_left 6 n, fun r => ?_⟩
  show (k r).Costs opCost (n + 6 - 6)
  rw [Nat.add_sub_cancel]
  exact hk r

private theorem costs_edit {m : Message} : (edit m).Costs opCost 1 := ⟨Nat.le_refl 1, fun _ => trivial⟩

private theorem costs_request {q : Request} : (request q).Costs opCost 6 := ⟨Nat.le_refl 6, fun _ => trivial⟩

private theorem costs_registerUser : (db.registerUser discordId name L).Costs opCost 2 := by
  unfold LeetoDB.registerUser
  split
  · trivial
  · rw [selectCount_bind]
    refine costs_call rfl fun (r : Except SqlException Nat) => ?_
    rcases r with _ | count
    · trivial
    · dsimp only
      split
      · trivial
      · refine costs_call rfl fun r => ?_
        rcases r with _ | _ <;> trivial

private theorem costs_getLeetcodeUsername : (db.getLeetcodeUsername discordId).Costs opCost 1 := by
  unfold LeetoDB.getLeetcodeUsername
  split
  · trivial
  · refine costs_call rfl fun r => ?_
    rcases r with _ | _ | ⟨row, rest⟩ <;> trivial

private theorem costs_statsExist : (db.statsExist name).Costs opCost 1 := by
  unfold LeetoDB.statsExist
  split
  · trivial
  · refine costs_call rfl fun r => ?_
    rcases r with _ | _ | ⟨row, rest⟩ <;> trivial

private theorem costs_getLeetcodeProfile : (db.getLeetcodeProfile name).Costs opCost 1 := by
  unfold LeetoDB.getLeetcodeProfile
  split
  · trivial
  · refine costs_call rfl fun r => ?_
    rcases r with _ | _ | ⟨row, rest⟩ <;> trivial

private theorem costs_storeProfile {s : FetchedStats} : (storeProfile db L name discordId s).Costs opCost 2 := by
  unfold storeProfile LeetoDB.updateProfile
  split
  · trivial
  · refine costs_call rfl fun r => ?_
    rcases r with _ | _ | ⟨row, rest⟩
    · trivial
    · trivial
    · refine costs_call rfl fun r => ?_
      rcases r with _ | _ <;> trivial

private theorem costs_registerMember {d : Snowflake} : (registerMember db d L u).Costs opCost 12 := by
  unfold registerMember
  split
  · exact costs_edit.mono (by decide)
  refine (costs_getLeetcodeUsername.bind (n := 11) fun registered => ?_)
  simp only [makePromise_bind, request_bind, await_bind]
  split
  · exact costs_edit.mono (by decide)
  refine costs_call rfl fun p => costs_call_request fun _ => costs_call rfl fun desc => ?_
  rcases desc with _ | text
  · exact costs_edit.mono (by decide)
  dsimp only
  split
  · exact costs_edit.mono (by decide)
  · refine costs_registerUser.bind (n := 1) fun success => ?_
    cases success <;> exact costs_edit

private theorem costs_withLeetcodeUsername {d : Snowflake} {s : String} {f : String → Program Unit} {n : Nat}
    (hn : 1 ≤ n) (hf : ∀ L, (f L).Costs opCost n) : (withLeetcodeUsername db d s f).Costs opCost (1 + n) := by
  unfold withLeetcodeUsername
  refine costs_getLeetcodeUsername.bind fun name => ?_
  dsimp only
  split
  · exact costs_edit.mono hn
  · exact hf _

private theorem costs_asking {d : Snowflake} {s : String} {q : String → Request} :
    (withLeetcodeUsername db d s fun L => request (q L)).Costs opCost 7 :=
  costs_withLeetcodeUsername (n := 6) (by decide) fun _ => costs_request

private theorem costs_handleProfile {d : Snowflake} : (handleProfile db d u).Costs opCost 9 := by
  refine costs_withLeetcodeUsername (n := 8) (by decide) fun L => ?_
  rw [edit_bind]
  refine costs_call rfl fun _ => ?_
  refine costs_statsExist.bind (n := 6) fun stats => ?_
  cases stats with
  | true =>
    simp only [if_true]
    refine (costs_getLeetcodeProfile.bind (n := 1) fun profile => ?_).mono (by decide)
    cases profile <;> exact costs_edit
  | false => exact costs_request

private theorem costs_handleSlashCommands : (handleSlashCommands db event).Costs opCost 14 := by
  unfold handleSlashCommands
  split
  · exact costs_edit.mono (by decide)
  split
  · unfold handleInfoCommands
    split
    · exact costs_edit.mono (by decide)
    · split <;> exact costs_edit.mono (by decide)
  split
  · unfold handleRegistryCommands
    split
    · exact costs_edit.mono (by decide)
    · split
      · simp only [edit_bind, memberUsername_bind]
        refine costs_call rfl fun _ => costs_call rfl fun username => ?_
        rcases username with _ | u
        · exact costs_edit.mono (by decide)
        · exact costs_registerMember
      · exact costs_edit.mono (by decide)
  split
  · unfold handleLeetcodeCommands
    refine costs_call rfl fun username => ?_
    rcases username with _ | u
    · trivial
    rcases event.options with _ | ⟨subcommand, rest⟩
    · exact costs_edit.mono (by decide)
    dsimp only
    split
    · exact costs_handleProfile.mono (by decide)
    split
    · exact Prog.Costs.mono (p := handleUpdateprofile db event.userId u) costs_asking (by decide)
    split
    · exact Prog.Costs.mono (p := handleDailyquestion db event.userId) costs_asking (by decide)
    split
    · exact Prog.Costs.mono (p := handleActivity db event.userId) costs_asking (by decide)
    · exact costs_edit.mono (by decide)
  · trivial

/-! ### What a completion costs -/

/-- The `retry_count` with which the completion lambda of a request issues it again, if it does. -/
def Request.retried (parse : String → Except String Json) (db : LeetoDB) (r : Request) (cc : HttpCompletion) :
    Option Nat :=
  match r with
  | .description username promise retryCount =>
      (fetchLeetCodeDescription parse username (setValue promise) retryCount cc).retried
  | .profile username discordUsername discordId retryCount =>
      (fetchLeetCodeProfile parse db username discordUsername discordId retryCount cc).retried
  | .dailyQuestion _ retryCount => (fetchLeetCodeDailyQuestion parse retryCount cc).retried
  | .activity username retryCount => (fetchLeetCodeActivity parse username retryCount cc).retried

/-- A lambda that issues its request again costs that request, and one that does not costs four operations. -/
def lambdaCost (retried : Option Nat) : Nat := if retried.isSome then 6 else 4

private theorem four_le_lambdaCost {retried : Option Nat} : 4 ≤ lambdaCost retried := by
  unfold lambdaCost
  split <;> decide

private theorem costs_setValue {p : Nat} {desc : Option String} : (setValue p desc).run.Costs opCost 1 :=
  costs_call rfl fun _ => trivial

private theorem costs_descriptionLambda {p n : Nat} {cc : HttpCompletion} :
    (descriptionLambda parse L p n cc).run.Costs opCost
      (lambdaCost (fetchLeetCodeDescription parse L (setValue p) n cc).retried) := by
  unfold descriptionLambda fetchLeetCodeDescription
  by_cases hsize : maxResponseBytes < cc.bodySize
  · simp only [hsize, if_true]
    exact (costs_setValue).mono (Nat.le_trans (by decide) four_le_lambdaCost)
  by_cases hok : cc.status == 200
  · simp only [hsize, hok, if_true, if_false, ExceptT.run_tryCatch, run_describeUser]
    refine Prog.Costs.mono ?_ four_le_lambdaCost
    cases readDescription parse cc.body with
    | error what => exact costs_setValue.mono (by decide)
    | ok found =>
      cases found with
      | some v =>
        refine (costs_setValue.bind (n := 1) fun y => ?_).mono (by decide)
        rcases y with _ | _
        · exact costs_setValue
        · trivial
      | none =>
        refine costs_call rfl fun _ => ?_
        -- the block calls back twice, and the handler of its exception once more
        refine Prog.Costs.bind (m := 2) (n := 1) ?_ fun y => ?_
        · rw [ExceptT.run_bind]
          refine costs_setValue.bind (n := 1) fun y => ?_
          rcases y with _ | _
          · trivial
          · exact costs_setValue
        · rcases y with _ | _
          · exact costs_setValue
          · trivial
  · simp only [hsize, hok, Bool.false_eq_true, if_false]
    by_cases hretry : rateLimited cc && decide (n < 3)
    · simp only [hretry, if_true]
      exact costs_request
    · simp only [hretry, Bool.false_eq_true, if_false]
      exact costs_setValue.mono (Nat.le_trans (by decide) four_le_lambdaCost)

private theorem costs_branch {cc : HttpCompletion} {limited : Bool} {n m : Nat} {a : Program Unit} {failure : Message}
    {again : Nat → Request} (ha : a.Costs opCost 4) :
    (match if cc.status == 200 then Reaction.handled a
        else if limited && decide (n < 3) then .retry m
        else .handled (edit failure) with
      | .retry n => request (again n)
      | .handled p => p).Costs opCost
        (lambdaCost (if cc.status == 200 then Reaction.handled a
          else if limited && decide (n < 3) then .retry m
          else .handled (edit failure)).retried) := by
  by_cases hok : cc.status == 200
  · simp only [hok, if_true]
    exact ha.mono four_le_lambdaCost
  by_cases hretry : limited && decide (n < 3)
  · simp only [hok, hretry, Bool.false_eq_true, if_true, if_false]
    exact costs_request
  · simp only [hok, hretry, Bool.false_eq_true, if_false]
    exact costs_edit.mono (Nat.le_trans (by decide) four_le_lambdaCost)

private theorem costs_completionLambda {r : Request} {cc : HttpCompletion} :
    (completionLambda parse db r cc).Costs opCost (lambdaCost (r.retried parse db cc)) := by
  unfold completionLambda
  cases r with
  | description L p n => exact costs_descriptionLambda.bind (n := 0) fun _ => trivial
  | profile L name d n =>
    refine costs_branch ?_
    cases readProfile parse L cc.body with
    | error what => exact costs_edit.mono (by decide)
    | ok found =>
      rcases found with m | s
      · exact costs_edit.mono (by decide)
      · refine costs_storeProfile.bind (n := 2) fun updated => ?_
        cases updated with
        | true => exact costs_edit.mono (by decide)
        | false => exact costs_call rfl fun _ => costs_edit
  | dailyQuestion L n =>
    refine costs_branch ?_
    cases readDailyQuestion parse cc.body <;> exact costs_edit.mono (by decide)
  | activity L n =>
    refine costs_branch ?_
    cases readActivity parse L cc.body <;> exact costs_edit.mono (by decide)

/-! ### The end of a run -/

/-- No command arrives, no username changes, and no completion is retried. -/
def Settles (parse : String → Except String Json) (db : LeetoDB) (_ : AccountWorld) :
    Label Choice AccountEvent → Prop
  | .event (.completion _ r cc) => r.retried parse db cc = none
  | .event (.slashcommand _) | .event (.usernameChange _ _) => False
  | .run _ _ => True

instance (parse : String → Except String Json) (db : LeetoDB) (w : AccountWorld) :
    ∀ l, Decidable (Settles parse db w l)
  | .event (.completion _ r cc) => inferInstanceAs (Decidable (r.retried parse db cc = none))
  | .event (.slashcommand _) => inferInstanceAs (Decidable False)
  | .event (.usernameChange _ _) => inferInstanceAs (Decidable False)
  | .run _ _ => inferInstanceAs (Decidable True)

theorem settles_spends : (accounts parse db).Spends opCost inflightWorth (Settles parse db) where
  exec := by
    intro o x a r s h
    unfold inflightWorth
    rw [asking_lawful.exec h]
    cases o with
    | request q =>
      have ho : asking.issues (.request q) = true := rfl
      rw [if_pos ho, List.countP_append]
      show 5 * (_ + 1) + 1 ≤ _ + 6
      omega
    | _ => exact Nat.le_refl _
  arrive := by
    intro w e s p hok ha
    cases e with
    | slashcommand event => exact hok.elim
    | usernameChange d n => exact hok.elim
    | completion k r cc =>
      obtain ⟨hk, hset⟩ := asking_lawful.answer ha rfl
      refine ⟨4, ?_, ?_⟩
      · simp only [accounts, Accounts.arrive] at ha
        split at ha
        · cases ha
          have hcost : (completionLambda parse db r cc).Costs opCost (lambdaCost (r.retried parse db cc)) :=
            costs_completionLambda
          rwa [show r.retried parse db cc = none from hok] at hcost
        · cases ha
      · unfold inflightWorth
        obtain ⟨hlt, htrue⟩ := List.getElem?_eq_some_iff.1 hk
        have hpos : 0 < (asking.isOpen w.shared).countP id :=
          List.countP_pos_iff.2 ⟨true, List.mem_of_getElem? hk, rfl⟩
        rw [hset, List.countP_set hlt, htrue]
        simp only [id, if_true, Bool.false_eq_true, if_false]
        omega

section Rest

variable {ok : AccountWorld → Label Choice AccountEvent → Prop} {w w' : AccountWorld} {c : Nat}

/-- When nothing of a command is in flight and its threads have ended, one of them has answered last. -/
private theorem answered_of_quiet (hw : Reachable parse db ok w) (hc : .arrived c (.slashcommand event) ∈ w.history)
    (hflight : ∀ k, asking.client w k = some c → ¬ asking.Open w k)
    (hended : ∀ i, asking.owner w i = some c → w.ended i) :
    Silent event (w.trace c) ∨ ∃ i, asking.owner w i = some c ∧ Answered (w.trace i) := by
  have hstart := starts_of_command hw hc
  have hown := (booked hw).own c hstart
  rcases turn_end hw hc (hended c hown) with hanswered | ⟨q, hlast, hq⟩ | hsilent
  · exact .inr ⟨c, hown, hanswered⟩
  · have hmem := mem_requested.2 (World.mem_trace.1 (List.mem_of_getLast? hlast))
    obtain ⟨x, hx, -⟩ := unique_place hw hstart
    rcases exists_requestAt hw hx with rfl | ⟨r, hr⟩
    · rw [hasIssued_eq_false.1 hx] at hmem
      cases hmem
    obtain ⟨⟨q₀, hq₀, hcount⟩, -⟩ := (errand_of_reachable hw hstart).carried x r hx hr
    rw [hq₀, List.mem_singleton] at hmem
    subst hmem
    cases x with
    | idle => exact hr.elim
    | flight k => exact absurd hx.1 (hflight k hx.2)
    | handling i =>
      obtain ⟨m, cc, p, hi⟩ := hr
      refine .inr ⟨i, hx.2.1, ?_⟩
      rcases turn_end hw (hw.arrived_iff.2 ⟨p, hi⟩) (hended i hx.2.1) with ⟨q', hlast'⟩ | hdone
      · have hmem' := mem_requested.2 (World.mem_trace.1 (List.mem_of_getLast? hlast'))
        rw [hasIssued_eq_false.1 hx.1] at hmem'
        cases hmem'
      · -- the errand is not a description, so the lambda shows something
        have hr : r.describes = false := by rw [hcount, Request.describes_withCount, hq]
        cases r with
        | description L p n => cases hr
        | _ => exact hdone
  · exact .inl hsilent

/-- A reachable world in which nothing can happen is at rest. -/
theorem rest_of_stuck (hw : Reachable parse db ok w)
    (hstuck : ∀ l, Settles parse db w l → (accounts parse db).step w l = none) :
    (∀ q, some q ∉ w.shared.inflight) ∧ ∀ i < w.threads.length, w.ended i := by
  have hflight : ∀ q, some q ∉ w.shared.inflight := by
    intro q hq
    obtain ⟨k, hk⟩ := List.mem_iff_getElem?.1 hq
    -- a completion that reports a server error could arrive
    have hlast : q.retried parse db ⟨500, ""⟩ = none := by cases q <;> rfl
    have hnone := hstuck (.event (.completion k q ⟨500, ""⟩)) hlast
    simp [System.step, accounts, Accounts.arrive, hk] at hnone
  have hrun : ∀ i x w', (accounts parse db).step w (.run i x) ≠ some w' := by
    intro i x w' hs
    rw [hstuck (.run i x) trivial] at hs
    cases hs
  refine ⟨hflight, fun i hi => ?_⟩
  have hthread : w.threads[i]? = some w.threads[i] := List.getElem?_eq_getElem hi
  rcases hw_i : w.threads[i] with ⟨e, u | ⟨o, k⟩⟩
  · simp [World.ended, hthread, hw_i]
  · rw [hw_i] at hthread
    have hnone : Accounts.exec o .ok w.shared = none := by
      have hs := hstuck (.run i .ok) trivial
      simp only [System.step, hthread, Option.map_eq_none_iff] at hs
      exact hs
    by_cases hawait : ∃ p, o = .await p
    · obtain ⟨p, rfl⟩ := hawait
      have hunset : ∀ v, w.shared.promises[p]? ≠ some (some v) := by
        intro v hv
        simp [Accounts.exec, hv] at hnone
      rcases errand_of_waiting hw hthread hunset with ⟨m, q, hq, -⟩ | ⟨j, -, hj⟩
      · exact absurd (List.mem_of_getElem? hq) (hflight q)
      · obtain ⟨w', hs⟩ := hj .ok
        exact absurd hs (hrun j .ok w')
    · obtain ⟨r, s, hx⟩ := exec_isSome (fun p hp => hawait ⟨p, hp⟩) .ok w.shared
      rw [hnone] at hx
      cases hx

/-- Every program that an event starts has a bounded cost. -/
theorem exists_budget (hw : Reachable parse db ok w) : ∃ n, Budget opCost inflightWorth w n := by
  refine hw.exists_budget fun e a a' p ha => ?_
  cases e with
  | slashcommand event =>
    cases ha
    exact ⟨14, costs_handleSlashCommands⟩
  | completion k r cc =>
    simp only [accounts, Accounts.arrive] at ha
    split at ha
    · cases ha
      exact ⟨_, costs_completionLambda⟩
    · cases ha
  | usernameChange d n =>
    cases ha
    exact ⟨0, trivial⟩

/-- Where nothing can happen, every command has been answered that the bot answers at all. -/
theorem answered_of_stuck (hw : Reachable parse db ok w)
    (hstuck : ∀ l, Settles parse db w l → (accounts parse db).step w l = none)
    (hc : .arrived c (.slashcommand event) ∈ w.history) :
    Silent event (w.trace c) ∨ ∃ i, asking.owner w i = some c ∧ Answered (w.trace i) := by
  obtain ⟨hflight, hended⟩ := rest_of_stuck hw hstuck
  refine answered_of_quiet hw hc (fun k _ hk => ?_) fun i hi => ?_
  · obtain ⟨q, hq⟩ := exists_of_open hk
    exact hflight q (List.mem_of_getElem? hq)
  · exact hended i ((booked hw).owners ▸ (List.getElem?_eq_some_iff.1 hi).1)

/-- From every reachable world, the steps of threads and the completions that are not retried come to an end, in
whatever order they are taken.  Then every thread has ended, nothing is in flight, and every command has been answered
by a thread that acts for it, but those that are unknown and those whose user was not found. -/
theorem settles (hw : Reachable parse db ok w) :
    ∃ n, ∀ ls w', (accounts parse db).run (Settles parse db) w ls = some w' → ls.length ≤ n ∧
      ((∀ l, Settles parse db w' l → (accounts parse db).step w' l = none) →
        (∀ q, some q ∉ w'.shared.inflight) ∧ (∀ i < w'.threads.length, w'.ended i) ∧
          ∀ c event, .arrived c (.slashcommand event) ∈ w'.history →
            Silent event (w'.trace c) ∨ ∃ i, asking.owner w' i = some c ∧ Answered (w'.trace i)) := by
  obtain ⟨n, hn⟩ := exists_budget hw
  refine ⟨n, fun ls w' hrun => ⟨settles_spends.length_le hn hrun, fun hstuck => ?_⟩⟩
  have hw' : Reachable parse db (fun _ _ => True) w' :=
    (hw.mono fun _ _ _ => trivial).trans ((System.Reach.of_run hrun).mono fun _ _ _ => trivial)
  obtain ⟨hflight, hended⟩ := rest_of_stuck hw' hstuck
  exact ⟨hflight, hended, fun c event hc => answered_of_stuck hw' hstuck hc⟩

/-- A world in which a registration waits. -/
theorem settles_registering :
    ∃ w, Reachable sampleParse ⟨true⟩ (fun _ _ => True) w ∧ w.ended 1 = false ∧
      ∃ n, ∀ ls w', (accounts sampleParse ⟨true⟩).run (Settles sampleParse ⟨true⟩) w ls = some w' → ls.length ≤ n ∧
        ((∀ l, Settles sampleParse ⟨true⟩ w' l → (accounts sampleParse ⟨true⟩).step w' l = none) →
          (∀ q, some q ∉ w'.shared.inflight) ∧ (∀ i < w'.threads.length, w'.ended i) ∧
            ∀ c event, .arrived c (.slashcommand event) ∈ w'.history →
              Silent event (w'.trace c) ∨ ∃ i, asking.owner w' i = some c ∧ Answered (w'.trace i)) := by
  have hrun : ((accounts sampleParse ⟨true⟩).run (fun _ _ => True) AccountWorld.initial registerLimited).any
      (fun w => w.ended 1 = false) = true := by decide +kernel
  obtain ⟨w, hw, htest⟩ := System.Reach.exists_of_run hrun
  exact ⟨w, hw, of_decide_eq_true htest, settles hw⟩

end Rest

end LeetBot
