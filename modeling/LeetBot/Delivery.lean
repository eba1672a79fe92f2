import LeetBot.Promises

/-!
# What a registration is told

The lambda of a description request tries to set its promise up to three times, but a promise is set only once.  In
every run the first try of a lambda succeeds and its other tries throw.  So a registration that has waited is told
what the first try says, and that is the description in the response to its own request.  And an exception leaves a
lambda only when the response says that the user is missing, whatever the other threads do.
-/

namespace LeetBot

open Interleave

variable {parse : String → Except String Json} {db : LeetoDB} {ok : AccountWorld → Label Choice AccountEvent → Prop}
  {w : AccountWorld} {c i j p m n : Nat} {L : String} {cc : HttpCompletion}

/-! ### Tries -/

/-- The answers to the calls of `set_value`. -/
def settings (t : Trace Op Op.Res) : List (Except String Unit) :=
  t.filterMap fun
    | ⟨.setValue _ _, y⟩ => some y
    | _ => none

/-- The first call is accepted, and all others are refused. -/
inductive FirstAccepted : List (Except String Unit) → Prop
  | nil : FirstAccepted []
  | cons {ys : List (Except String Unit)} (h : ∀ y ∈ ys, y = .error promiseAlreadySatisfied) :
      FirstAccepted (.ok () :: ys)

section Settings

variable {t : Trace Op Op.Res} {ys zs : List (Except String Unit)} {desc : Option String} {y : Except String Unit}

private theorem settings_setValue : settings (t ++ [⟨.setValue p desc, y⟩]) = settings t ++ [y] := by
  rw [settings, List.filterMap_append]
  rfl

private theorem settings_concat {o : Op} {r : o.Res} (ho : ∀ p desc, o ≠ .setValue p desc) :
    settings (t ++ [⟨o, r⟩]) = settings t := by
  rw [settings, List.filterMap_append]
  cases o with
  | setValue p desc => exact absurd rfl (ho p desc)
  | _ => exact List.append_nil _

private theorem mem_settings :
    y ∈ settings (w.trace i) ↔ ∃ p desc, .performed i (.setValue p desc) y ∈ w.history := by
  simp only [settings, List.mem_filterMap]
  constructor
  · rintro ⟨⟨o, r⟩, hmem, h⟩
    cases o with
    | setValue p desc =>
      cases h
      exact ⟨p, desc, World.mem_trace.1 hmem⟩
    | _ => cases h
  · rintro ⟨p, desc, hset⟩
    exact ⟨⟨.setValue p desc, y⟩, World.mem_trace.2 hset, rfl⟩

private theorem FirstAccepted.concat (h : FirstAccepted ys) (hne : ys ≠ []) :
    FirstAccepted (ys ++ [.error promiseAlreadySatisfied]) := by
  cases h with
  | nil => exact absurd rfl hne
  | cons h =>
    refine .cons fun y hy => ?_
    rcases List.mem_append.1 hy with hy | hy
    · exact h y hy
    · exact List.mem_singleton.1 hy

private theorem FirstAccepted.eq_nil (h : FirstAccepted (ys ++ .ok () :: zs)) : ys = [] := by
  cases ys with
  | nil => rfl
  | cons y ys =>
    cases h with
    | cons h => cases h (.ok ()) (List.mem_append_right _ List.mem_cons_self)

end Settings

private theorem setter_unique (hw : Reachable parse db ok w)
    (he : .arrived i (.completion m (.description L p n) cc) ∈ w.history) (hreq : requested (w.trace i) = [])
    {desc : Option String} {y : Except String Unit} (h : .performed j (.setValue p desc) y ∈ w.history) : j = i := by
  obtain ⟨c, hmade, hstart, hplace⟩ := errand_of_handling hw he hreq
  obtain ⟨c', hmade', -, hplace'⟩ := setter hw h
  cases promise_unique hw hmade hmade'
  cases (unique_place hw hstart).unique hplace hplace'
  rfl

/-- The promise of a description has no value as long as the thread that handles it has not tried to set it. -/
private theorem settings_eq_nil_iff (hw : Reachable parse db ok w)
    (he : .arrived i (.completion m (.description L p n) cc) ∈ w.history) (hreq : requested (w.trace i) = []) :
    settings (w.trace i) = [] ↔ w.shared.promises[p]? = some none := by
  constructor
  · intro hnil
    obtain ⟨c, hmade, -, -⟩ := errand_of_handling hw he hreq
    have hlt := promise_lt hw hmade
    rcases hv : w.shared.promises[p]? with _ | _ | v
    · exact absurd hlt (Nat.not_lt.2 (List.getElem?_eq_none_iff.1 hv))
    · rfl
    · obtain ⟨j, hset⟩ := set_of_value hw hv
      cases setter_unique hw he hreq hset
      have hmem := mem_settings.2 ⟨p, v, hset⟩
      rw [hnil] at hmem
      cases hmem
  · intro hnone
    rw [List.eq_nil_iff_forall_not_mem]
    intro y hy
    obtain ⟨p', desc, hset⟩ := mem_settings.1 hy
    obtain ⟨-, m', L', n', cc', he'⟩ := handles_of_set hw hset
    cases hw.arrived_unique he he'
    obtain ⟨v, hv⟩ := exists_value_of_set hw hset
    rw [hnone] at hv
    cases hv

/-- In every run, the first try of a thread succeeds, and its other tries throw. -/
private theorem firstAccepted (hw : Reachable parse db ok w) (i : Nat) : FirstAccepted (settings (w.trace i)) := by
  refine hw.invariant (I := fun w => ∀ i, FirstAccepted (settings (w.trace i))) ?_ ?_ ?_ i
  · intro i
    exact .nil
  · intro w e s q _ hI _ _ i
    rw [World.trace_started]
    exact hI i
  · intro w j x e o k r s hreach hI _ hj hx i
    by_cases hji : j = i
    · subst hji
      rw [World.trace_after_self]
      by_cases ho : ∃ p desc, o = .setValue p desc
      · obtain ⟨p, desc, rfl⟩ := ho
        obtain ⟨hreq, m, L, n, cc, rfl⟩ := description_of_setting hreach hj
        have hnil := settings_eq_nil_iff hreach (hreach.arrived_iff.2 ⟨_, hj⟩) hreq
        rcases exec_setValue (x := x) hx with ⟨hnone, rfl, -⟩ | ⟨hset, rfl, -⟩
        · rw [settings_setValue, hnil.2 hnone]
          refine .cons fun y hy => ?_
          cases hy
        · rw [settings_setValue]
          exact (hI j).concat fun h => hset (hnil.1 h)
      · rw [settings_concat fun p desc h => ho ⟨p, desc, h⟩]
        exact hI j
    · rw [World.trace_after_of_ne hji]
      exact hI i

/-! ### What a lambda tries to set -/

/-- The first value that a lambda tries to set is the description in the response, which it does not ask for again. -/
def DeliveryTurn (parse : String → Except String Json) (L : String) (p n : Nat) (cc : HttpCompletion)
    (t : Trace Op Op.Res) : Op → Prop
  | .setValue _ desc => settings t = [] →
      (fetchLeetCodeDescription parse L (setValue p) n cc).retried = none ∧
        (NoUsername parse cc → desc = describedText parse cc)
  | _ => True

/-- How a lambda ends whose first try succeeds: it has asked for the description again or tried to set the promise
once, or the user is missing, and the last of three tries throws. -/
def LambdaEnd (parse : String → Except String Json) (L : String) (p n : Nat) (cc : HttpCompletion)
    (y : Except String Unit) (t : Trace Op Op.Res) : Prop :=
  (¬ UserMissing parse cc ∧ y = .ok () ∧
      settings t = if (fetchLeetCodeDescription parse L (setValue p) n cc).retried.isSome then [] else [.ok ()]) ∨
    UserMissing parse cc ∧ y = .error promiseAlreadySatisfied ∧
      settings t = [.ok (), .error promiseAlreadySatisfied, .error promiseAlreadySatisfied]

section Lambda

variable {t : Trace Op Op.Res} {desc : Option String}

private theorem deliveryTurn_again (ht : settings t ≠ []) : DeliveryTurn parse L p n cc t (.setValue p desc) :=
  fun h => absurd h ht

private theorem follows_onlyTry (hfound : ¬ UserMissing parse cc)
    (hlast : (fetchLeetCodeDescription parse L (setValue p) n cc).retried = none)
    (htext : NoUsername parse cc → desc = describedText parse cc) :
    (setValue p desc).run.Follows (DeliveryTurn parse L p n cc)
      (fun y t => FirstAccepted (settings t) → LambdaEnd parse L p n cc y t) [] := by
  refine ⟨fun _ => ⟨hlast, htext⟩, fun y hfirst => .inl ⟨hfound, ?_⟩⟩
  cases hfirst with
  | cons h =>
    refine ⟨rfl, ?_⟩
    rw [hlast]
    rfl

/-- The `try` block with its handler. -/
private theorem follows_block (hok : cc.status = 200) (hsize : cc.bodySize ≤ maxResponseBytes)
    (hlast : (fetchLeetCodeDescription parse L (setValue p) n cc).retried = none) :
    (tryCatch (describeUser parse L (setValue p) cc.body) fun _ => setValue p none : Throwing Unit).run.Follows
      (DeliveryTurn parse L p n cc) (fun y t => FirstAccepted (settings t) → LambdaEnd parse L p n cc y t) [] := by
  have hmissing : readDescription parse cc.body = .ok none ↔ UserMissing parse cc :=
    readDescription_eq_none_iff hok hsize
  simp only [ExceptT.run_tryCatch, run_describeUser]
  rw [Prog.follows_bind]
  cases hread : readDescription parse cc.body with
  | error what =>
    rw [hread] at hmissing
    exact follows_onlyTry (fun h => by cases hmissing.2 h) hlast
      fun hname => (describedText_of_error hok hsize hname hread).symm
  | ok found =>
    rw [hread] at hmissing
    cases found with
    | some v =>
      have hfound : ¬ UserMissing parse cc := fun h => by cases hmissing.2 h
      refine ⟨fun _ => ⟨hlast, fun _ => (describedText_of_read hok hsize hread).symm⟩, fun y => ?_⟩
      rcases y with what | _
      · refine ⟨deliveryTurn_again (List.cons_ne_nil _ _), fun y hfirst => ?_⟩
        cases hfirst
      · intro _
        refine .inl ⟨hfound, rfl, ?_⟩
        rw [hlast]
        rfl
    | none =>
      have hmissing := hmissing.1 rfl
      refine ⟨trivial, fun _ => ?_⟩
      rw [ExceptT.run_bind, Prog.follows_bind]
      refine ⟨fun _ => ⟨hlast, fun _ => (describedText_of_missing hmissing).symm⟩, fun y => ?_⟩
      rcases y with what | _
      · refine ⟨deliveryTurn_again (List.cons_ne_nil _ _), fun y hfirst => ?_⟩
        cases hfirst
      -- the first try succeeds, the second one leaves the block, and the third one its handler
      refine ⟨deliveryTurn_again (List.cons_ne_nil _ _), fun y => ?_⟩
      rcases y with what | _
      · refine ⟨deliveryTurn_again (List.cons_ne_nil _ _), fun y hfirst => .inr ⟨hmissing, ?_⟩⟩
        cases hfirst with
        | cons h =>
          obtain rfl : what = promiseAlreadySatisfied := Except.error.inj (h _ List.mem_cons_self)
          obtain rfl : y = .error promiseAlreadySatisfied := h _ (List.mem_cons_of_mem _ List.mem_cons_self)
          exact ⟨rfl, rfl⟩
      · intro hfirst
        cases hfirst with
        | cons h => cases h (.ok ()) List.mem_cons_self

private theorem follows_delivery : (descriptionLambda parse L p n cc).run.Follows (DeliveryTurn parse L p n cc)
    (fun y t => FirstAccepted (settings t) → LambdaEnd parse L p n cc y t) [] := by
  unfold descriptionLambda
  cases hfetch : fetchLeetCodeDescription parse L (setValue p) n cc with
  | retry k =>
    have hfound : ¬ UserMissing parse cc := by
      rintro ⟨hok, hsize, -⟩
      rw [fetchLeetCodeDescription, if_neg (Nat.not_lt.2 hsize), hok] at hfetch
      cases hfetch
    refine ⟨trivial, fun _ _ => .inl ⟨hfound, rfl, ?_⟩⟩
    rw [hfetch]
    rfl
  | handled q =>
    have hlast : (fetchLeetCodeDescription parse L (setValue p) n cc).retried = none := by
      rw [hfetch]
      rfl
    unfold fetchLeetCodeDescription at hfetch
    split at hfetch
    · rename_i hsize
      cases hfetch
      exact follows_onlyTry (fun h => Nat.not_lt.2 h.2.1 hsize) hlast
        fun _ => (if_neg fun h => Nat.not_lt.2 h.2 hsize).symm
    rename_i hsize
    split at hfetch
    · rename_i hok
      cases hfetch
      exact follows_block (eq_of_beq hok) (Nat.not_lt.1 hsize) hlast
    rename_i hok
    have hne : cc.status ≠ 200 := fun h => hok (beq_iff_eq.2 h)
    split at hfetch
    · cases hfetch
    · cases hfetch
      exact follows_onlyTry (fun h => hne h.1) hlast fun _ => (if_neg fun h => hne h.1).symm

end Lambda

/-! ### All runs -/

/-- What the thread of an event tries to set. -/
def AccountDelivery (parse : String → Except String Json) : AccountEvent → Trace Op Op.Res → Op → Prop
  | .completion _ (.description L p n) cc, t, o => DeliveryTurn parse L p n cc t o
  | _, _, _ => True

/-- What the thread of an event has performed when it has ended. -/
def AccountDeliveryEnd (parse : String → Except String Json) : AccountEvent → Trace Op Op.Res → Prop
  | .completion _ (.description L p n) cc, t =>
      ∃ y, (descriptionLambda parse L p n cc).run.Performs t y ∧
        (FirstAccepted (settings t) → LambdaEnd parse L p n cc y t)
  | _, _ => True

private theorem delivery_arrive (parse : String → Except String Json) (db : LeetoDB) (e : AccountEvent)
    (a a' : Accounts) (q : Program Unit) (h : (accounts parse db).arrive e a = some (a', q)) :
    q.Follows (AccountDelivery parse e) (fun _ => AccountDeliveryEnd parse e) [] := by
  cases e with
  | slashcommand event => exact Prog.follows_of_forall (fun _ _ => trivial) (fun _ _ => trivial) q []
  | usernameChange d n => exact Prog.follows_of_forall (fun _ _ => trivial) (fun _ _ => trivial) q []
  | completion k r cc =>
    simp only [accounts, Accounts.arrive] at h
    split at h
    · cases h
      cases r with
      | description L p n =>
        show ((descriptionLambda parse L p n cc).run >>= fun _ => pure ()).Follows _ _ []
        rw [Prog.follows_bind]
        refine follows_delivery.performs.mono ?_
        rintro y t ⟨hend, u, rfl, hu⟩
        exact ⟨y, hu, hend⟩
      | _ => exact Prog.follows_of_forall (fun _ _ => trivial) (fun _ _ => trivial) _ []
    · cases h

/-- The value that a registration has waited for comes from the thread that handles its request. -/
theorem delivered_by (hw : Reachable parse db ok w) {v : Option String}
    (h : .performed c (.await p) v ∈ w.history) :
    ∃ i L m n cc, .arrived i (.completion m (.description L p n) cc) ∈ w.history ∧ asking.owner w i = some c ∧
      (fetchLeetCodeDescription parse L (setValue p) n cc).retried = none ∧
      (NoUsername parse cc → v = describedText parse cc) := by
  obtain ⟨i, hset⟩ := set_of_value hw (value_of_await hw h)
  obtain ⟨c', hmade, -, hplace⟩ := setter hw hset
  cases promise_unique hw hmade (made_of_await hw h)
  obtain ⟨-, m, L, n, cc, he⟩ := handles_of_set hw hset
  obtain ⟨e, t, he', hturn, u, hu⟩ := hw.performed_follows
    (fun e a a' q hq => (delivery_arrive parse db e a a' q hq).mono fun _ _ _ => trivial) hset
  cases hw.arrived_unique he he'
  have hnil : settings t = [] := by
    have hfirst := firstAccepted hw i
    rw [← hu, settings, List.filterMap_append, ← settings, settings_setValue, List.append_assoc] at hfirst
    exact hfirst.eq_nil
  exact ⟨i, L, m, n, cc, he, hplace.2.1, hturn hnil⟩

/-- What a registration is told belongs to the name that the user has typed. -/
theorem typed_of_made (hw : Reachable parse db ok w) (hmade : .performed c .makePromise p ∈ w.history)
    (he : .arrived i (.completion m (.description L p n) cc) ∈ w.history) :
    ∃ event, .arrived c (.slashcommand event) ∈ w.history ∧ event.registers = some L := by
  obtain ⟨k, hk⟩ := issued_of_completed hw he
  obtain ⟨c', event, hc, hreg, hmade'⟩ := asked_by_registration hw hk
  cases promise_unique hw hmade' hmade
  exact ⟨event, hc, hreg⟩

/-- In every run, a registration that has waited was told the description in the response to a request of its own, for
the name that the user has typed, and which was not issued again. -/
theorem description_delivered (hw : Reachable parse db ok w) {v : Option String}
    (h : .performed c (.await p) v ∈ w.history) :
    ∃ event L i m n cc, .arrived c (.slashcommand event) ∈ w.history ∧ event.registers = some L ∧
      .arrived i (.completion m (.description L p n) cc) ∈ w.history ∧ asking.owner w i = some c ∧
      (fetchLeetCodeDescription parse L (setValue p) n cc).retried = none ∧
      (NoUsername parse cc → v = describedText parse cc) := by
  obtain ⟨i, L, m, n, cc, he, hdelivered⟩ := delivered_by hw h
  obtain ⟨event, hc, hreg⟩ := typed_of_made hw (made_of_await hw h) he
  exact ⟨event, L, i, m, n, cc, hc, hreg, he, hdelivered⟩

/-- A run in which a registration is told a description. -/
theorem description_delivered_registered :
    ∃ w, Reachable sampleParse ⟨true⟩ (fun _ _ => True) w ∧
      ∃ event L i m n cc, .arrived 1 (.slashcommand event) ∈ w.history ∧ event.registers = some L ∧
        .arrived i (.completion m (.description L 0 n) cc) ∈ w.history ∧ asking.owner w i = some 1 ∧
        (fetchLeetCodeDescription sampleParse L (setValue 0) n cc).retried = none ∧
        (NoUsername sampleParse cc → some "LeetBot->[ann]->Verify" = describedText sampleParse cc) := by
  have hrun : ((accounts sampleParse ⟨true⟩).run (fun _ _ => True) AccountWorld.initial registerAndUpdate).any
      (fun w => (0, some "LeetBot->[ann]->Verify") ∈ awaited w 1) = true := by decide +kernel
  obtain ⟨w, hw, htest⟩ := System.Reach.exists_of_run hrun
  exact ⟨w, hw, description_delivered hw (mem_awaited (of_decide_eq_true htest))⟩

/-- In every run, the lambda of a description request ends without an exception, having tried to set its promise at
most once, and with success.  Only when the user is missing it has tried three times: the second and the third try
threw, and the third one out of the lambda. -/
theorem lambda_ended (hw : Reachable parse db ok w)
    (he : .arrived i (.completion m (.description L p n) cc) ∈ w.history) (hend : w.ended i) :
    ∃ y, (descriptionLambda parse L p n cc).run.Performs (w.trace i) y ∧ LambdaEnd parse L p n cc y (w.trace i) := by
  obtain ⟨y, hy, hfirst⟩ := hw.of_ended (delivery_arrive parse db) he hend
  exact ⟨y, hy, hfirst (firstAccepted hw i)⟩

/-- User 1 registers with a name that LeetCode does not know. -/
def registerMissing : List (Label Choice AccountEvent) :=
  [.event (.usernameChange 1 "ann"), .event (registerCommand 1 "a")] ++ proceed 1 5 ++
    [.event (.completion 0 (.description "a" 0 0) ⟨200, missingBody⟩)] ++ proceed 2 4

theorem lambda_ended_missing :
    ∃ w, Reachable sampleParse ⟨true⟩ (fun _ _ => True) w ∧
      (descriptionLambda sampleParse "a" 0 0 ⟨200, missingBody⟩).run.Performs (w.trace 2)
        (.error promiseAlreadySatisfied) ∧
      settings (w.trace 2) = [.ok (), .error promiseAlreadySatisfied, .error promiseAlreadySatisfied] := by
  have hrun : ((accounts sampleParse ⟨true⟩).run (fun _ _ => True) AccountWorld.initial registerMissing).any
      (fun w => w.threads[2]?.map Prod.fst = some (.completion 0 (.description "a" 0 0) ⟨200, missingBody⟩) ∧
        w.ended 2) = true := by decide +kernel
  obtain ⟨w, hw, htest⟩ := System.Reach.exists_of_run hrun
  obtain ⟨hthread, hended⟩ := of_decide_eq_true htest
  obtain ⟨y, hy, hend⟩ := lambda_ended hw (hw.arrived_of_thread hthread) hended
  rcases hend with ⟨hfound, -⟩ | ⟨-, rfl, hsettings⟩
  · exact absurd userMissing_missingBody hfound
  · exact ⟨w, hw, hy, hsettings⟩

end LeetBot
