import LeetBot.Accounts
import LeetBot.Loops
import LeetBot.Retries

/-!
# The description request of a registration

What the completion lambda of `fetchLeetCodeDescription` passes to its callback.  A response without the user is
the one case in which the lambda goes on after it has called back: it calls back again, the promise is already
satisfied, and the handler of that exception calls back once more, outside of any `try`.
-/

namespace LeetBot

open Interleave Loops

/-! ### What the lambda reads -/

private theorem lift_ok_bind {α β : Type} (a : α) (f : α → Throwing β) :
    (liftM (.ok a : Except String α) >>= f) = f a := rfl

/-- What the `try` block reads in a body: the value of its callback, or `none` when it misses the user. -/
def readDescription (parse : String → Except String Json) (body : String) :
    Except String (Option (Option String)) := do
  if !accept parse body then
    return some none
  else
    let response ← parse body
    let data ← response.index "data"
    if ← data.lacks "matchedUser" then
      return none
    else
      let matchedUser ← data.index "matchedUser"
      let _leetcodeUsername ← matchedUser.memberOr "username" "Unknown" Json.getString
      let profile ← matchedUser.index "profile"
      if ← profile.lacks "aboutMe" then
        return some none
      else
        return some (some (← (← profile.index "aboutMe").getString))

private theorem index_of_lacks {j : Json} {key : String} {missing : Bool} (h : j.lacks key = .ok missing) :
    ∃ v, j.index key = .ok v ∧ v.isNull = missing := by
  unfold Json.lacks at h
  by_cases hnull : j.isNull
  · rw [Json.isNull_iff.1 hnull] at h ⊢
    exact ⟨.null, rfl, Except.ok.inj h⟩
  · cases hv : j.index key with
    | error what => simp [hnull, hv] at h
    | ok v =>
      simp only [hnull, hv, ok_bind] at h
      exact ⟨v, rfl, Except.ok.inj h⟩

private theorem index_of_lacks_error {j : Json} {key what : String} (h : j.lacks key = .error what) :
    j.index key = .error what := by
  unfold Json.lacks at h
  by_cases hnull : j.isNull
  · rw [Json.isNull_iff.1 hnull] at h
    cases h
  · cases hv : j.index key with
    | error what => simpa [hnull, hv] using h
    | ok v =>
      simp [hnull, hv, pure, Except.pure] at h

private theorem run_lift_bind {α β γ : Type} {x : Except String α} {f : α → Throwing γ} {g : α → Except String β}
    {next : Except String β → Program (Except String γ)} (herror : ∀ what, next (.error what) = .ret (.error what))
    (h : ∀ a, (f a).run = next (g a)) : (liftM x >>= f).run = next (x >>= g) := by
  cases x with
  | error what => exact (herror what).symm
  | ok a => exact h a

/-- What follows the reading. -/
private def afterReading (username : String) (callback : Option String → Throwing Unit) :
    Except String (Option (Option String)) → Program (Except String Unit)
  | .error what => .ret (.error what)
  | .ok (some v) => (callback v).run
  | .ok none => .call (.edit (.text ("User `" ++ username ++ "` not found on LeetCode.")))
      fun _ => (do callback none; callback none : Throwing Unit).run

/-- The `try` block, as a callback after a reading. -/
theorem run_describeUser (parse : String → Except String Json) (username : String)
    (callback : Option String → Throwing Unit) (body : String) :
    (describeUser parse username callback body).run =
      match readDescription parse body with
      | .error what => .ret (.error what)
      | .ok (some v) => (callback v).run
      | .ok none => .call (.edit (.text ("User `" ++ username ++ "` not found on LeetCode.")))
          fun _ => (do callback none; callback none : Throwing Unit).run := by
  have herror : ∀ what, afterReading username callback (.error what) = .ret (.error what) := fun _ => rfl
  show _ = afterReading username callback (readDescription parse body)
  unfold describeUser readDescription
  cases accept parse body with
  | false => rfl
  | true =>
  simp only [Bool.not_true, Bool.false_eq_true, if_false]
  refine run_lift_bind herror fun response => run_lift_bind herror fun data => ?_
  cases hlacks : data.lacks "matchedUser" with
  | error what => rfl
  | ok missing =>
  rw [lift_ok_bind, ok_bind]
  cases missing with
  | true =>
    -- the rest of the block reads null everywhere, and ends at the missing profile
    obtain ⟨matchedUser, hmatched, hnull⟩ := index_of_lacks hlacks
    rw [Json.isNull_iff.1 hnull] at hmatched
    rw [hmatched]
    rfl
  | false =>
  simp only [Bool.false_eq_true, if_false]
  refine run_lift_bind herror fun matchedUser => run_lift_bind herror fun name => run_lift_bind herror fun profile =>
    run_lift_bind herror fun missing => ?_
  cases missing with
  | true => rfl
  | false =>
  simp only [Bool.false_eq_true, if_false]
  exact run_lift_bind herror fun about => run_lift_bind herror fun text => rfl

/-! ### What it should read -/

namespace Json

/-- The member of an object. -/
def member (j : Json) (key : String) : Option Json :=
  match j with
  | object m => m.lookup key
  | _ => none

/-- The text of a string. -/
def text : Json → Option String
  | string s => some s
  | _ => none

/-- `operator[]` differs from the member only where it reads null. -/
theorem member_bind_of_index {α : Type} {j v : Json} {key : String} {g : Json → Option α} (hg : g null = none)
    (h : j.index key = .ok v) : (j.member key).bind g = g v := by
  cases j with
  | null =>
    obtain rfl : null = v := Except.ok.inj h
    exact hg.symm
  | object m =>
    obtain rfl : (m.lookup key).getD null = v := Except.ok.inj h
    cases hm : m.lookup key with
    | none => simp [member, hm, hg]
    | some v => simp [member, hm]
  | _ => cases h

theorem member_of_index {j v : Json} {key : String} (h : j.index key = .ok v) (hv : v ≠ null) :
    j.member key = some v := by
  cases j with
  | null => exact absurd (Except.ok.inj h).symm hv
  | object m =>
    obtain rfl : (m.lookup key).getD null = v := Except.ok.inj h
    cases hm : m.lookup key with
    | none => simp [hm] at hv
    | some v => simp [member, hm]
  | _ => cases h

private theorem member_of_index_error {j : Json} {key what : String} (h : j.index key = .error what) (key' : String) :
    j.member key' = none := by
  cases j with
  | null => cases h
  | object m => cases h
  | _ => rfl

end Json

/-- The string `data.matchedUser.profile.aboutMe` of a response. -/
def Json.aboutMe (response : Json) : Option String :=
  (response.member "data").bind fun data =>
  (data.member "matchedUser").bind fun matchedUser =>
  (matchedUser.member "profile").bind fun profile =>
  (profile.member "aboutMe").bind Json.text

variable (parse : String → Except String Json)

/-- The reading of a body agrees with the path to `aboutMe`, unless a `username` gets in the way. -/
private theorem readDescription_spec (body : String) :
    match readDescription parse body with
    | .ok (some v) => (parse body).toOption.bind Json.aboutMe = v
    | .ok none => ∃ response data, parse body = .ok response ∧ response.index "data" = .ok data ∧
        data.lacks "matchedUser" = .ok true
    | .error _ => (parse body).toOption.bind Json.aboutMe = none ∨
        ∃ response data matchedUser, parse body = .ok response ∧ response.member "data" = some data ∧
          data.member "matchedUser" = some matchedUser ∧ matchedUser.member "username" ≠ none := by
  unfold readDescription
  cases hparse : parse body with
  | error what => simp [accept, hparse, pure, Except.pure, Except.toOption]
  | ok response =>
  simp only [accept, hparse, Bool.not_true, Bool.false_eq_true, if_false, ok_bind, Except.toOption, Option.bind_some]
  unfold Json.aboutMe
  cases hdata : response.index "data" with
  | error what => simp [Json.member_of_index_error hdata]
  | ok data =>
  rw [Json.member_bind_of_index rfl hdata, ok_bind]
  cases hlacks : data.lacks "matchedUser" with
  | error what => simp [Json.member_of_index_error (index_of_lacks_error hlacks)]
  | ok missing =>
  obtain ⟨matchedUser, hmatched, hnull⟩ := index_of_lacks hlacks
  cases missing with
  | true => exact ⟨response, data, rfl, hdata, hlacks⟩
  | false =>
  have hne : matchedUser ≠ .null := by
    intro h
    rw [Json.isNull_iff.2 h] at hnull
    cases hnull
  simp only [hmatched, ok_bind, Bool.false_eq_true, if_false]
  rw [Json.member_bind_of_index rfl hmatched]
  cases hname : matchedUser.memberOr "username" "Unknown" Json.getString with
  | error what =>
    cases husername : matchedUser.index "username" with
    | error what => simp [Json.member_of_index_error husername]
    | ok username =>
      have hne' : username ≠ .null := by
        rintro rfl
        simp [Json.memberOr, husername, Json.getOr] at hname
      have hdne : data ≠ .null := by
        rintro rfl
        exact hne (Except.ok.inj hmatched).symm
      refine .inr ⟨response, data, matchedUser, rfl, Json.member_of_index hdata hdne,
        Json.member_of_index hmatched hne, ?_⟩
      rw [Json.member_of_index husername hne']
      exact Option.some_ne_none _
  | ok name =>
  cases hprofile : matchedUser.index "profile" with
  | error what => simp [Json.member_of_index_error hprofile]
  | ok profile =>
  rw [Json.member_bind_of_index rfl hprofile, ok_bind, ok_bind]
  cases hlacks' : profile.lacks "aboutMe" with
  | error what => simp [Json.member_of_index_error (index_of_lacks_error hlacks')]
  | ok missing =>
  obtain ⟨about, habout, hnull'⟩ := index_of_lacks hlacks'
  rw [Json.member_bind_of_index rfl habout, ok_bind, habout]
  cases missing with
  | true =>
    rw [Json.isNull_iff.1 hnull']
    rfl
  | false => cases about <;> simp [Json.getString, Json.text, pure, Except.pure]

/-- The description that a completion carries: its status is 200, its body is not too large and valid JSON, and
the path to `aboutMe` leads to a string. -/
def describedText (cc : HttpCompletion) : Option String :=
  if cc.status = 200 ∧ cc.bodySize ≤ maxResponseBytes then
    (parse cc.body).toOption.bind Json.aboutMe
  else
    none

/-- The query asks for no `username`, so no response has one. -/
def NoUsername (cc : HttpCompletion) : Prop :=
  ∀ response data matchedUser, parse cc.body = .ok response → response.member "data" = some data →
    data.member "matchedUser" = some matchedUser → matchedUser.member "username" = none

/-- The response is read, and `response["data"]` or `response["data"]["matchedUser"]` is null. -/
def UserMissing (cc : HttpCompletion) : Prop :=
  cc.status = 200 ∧ cc.bodySize ≤ maxResponseBytes ∧
    ∃ response data, parse cc.body = .ok response ∧ response.index "data" = .ok data ∧
      data.lacks "matchedUser" = .ok true

variable {parse}

/-- The block reads no value in a response exactly when the user is missing. -/
theorem readDescription_eq_none_iff {cc : HttpCompletion} (hok : cc.status = 200)
    (hsize : cc.bodySize ≤ maxResponseBytes) : readDescription parse cc.body = .ok none ↔ UserMissing parse cc := by
  constructor
  · intro h
    have hspec := readDescription_spec parse cc.body
    rw [h] at hspec
    exact ⟨hok, hsize, hspec⟩
  · rintro ⟨-, -, response, data, hparse, hdata, hlacks⟩
    simp [readDescription, accept, hparse, hdata, hlacks, pure, Except.pure]

/-- What the lambda has read, when it has read a value. -/
theorem describedText_of_read {cc : HttpCompletion} {v : Option String} (hok : cc.status = 200)
    (hsize : cc.bodySize ≤ maxResponseBytes) (h : readDescription parse cc.body = .ok (some v)) :
    describedText parse cc = v := by
  have hspec := readDescription_spec parse cc.body
  rw [h] at hspec
  simpa [describedText, hok, hsize] using hspec

/-- A reading that fails has not found a description. -/
theorem describedText_of_error {cc : HttpCompletion} {what : String} (hok : cc.status = 200)
    (hsize : cc.bodySize ≤ maxResponseBytes) (hname : NoUsername parse cc)
    (h : readDescription parse cc.body = .error what) : describedText parse cc = none := by
  have hspec := readDescription_spec parse cc.body
  rw [h] at hspec
  rcases hspec with hnone | ⟨response, data, matchedUser, h1, h2, h3, h4⟩
  · rw [describedText, if_pos ⟨hok, hsize⟩, hnone]
  · exact absurd (hname response data matchedUser h1 h2 h3) h4

/-- A missing user has no description. -/
theorem describedText_of_missing {cc : HttpCompletion} (h : UserMissing parse cc) :
    describedText parse cc = none := by
  obtain ⟨hok, hsize, response, data, hparse, hdata, hlacks⟩ := h
  obtain ⟨matchedUser, hmatched, hnull⟩ := index_of_lacks hlacks
  rw [describedText, if_pos ⟨hok, hsize⟩, hparse]
  show response.aboutMe = none
  unfold Json.aboutMe
  rw [Json.member_bind_of_index rfl hdata, Json.member_bind_of_index rfl hmatched, Json.isNull_iff.1 hnull]
  rfl

/-! ### The callback over all completions -/

variable (parse) (db : LeetoDB) (username : String) (promise : Nat)

/-- The lambdas of a request and of its retries, one after the other, on the completions they get. -/
def deliver : Nat → List HttpCompletion → Throwing Unit
  | _, [] => pure ()
  | n, cc :: ccs => do
      descriptionLambda parse username promise n cc
      match (fetchLeetCodeDescription parse username (setValue promise) n cc).retried with
      | some m => deliver m ccs
      | none => pure ()

def callbacks (t : Trace Op Op.Res) : List (Option String) :=
  t.filterMap fun
    | ⟨.setValue _ desc, _⟩ => some desc
    | _ => none

/-- The lambdas, run on the completions from the state `a`, end without an exception, having called the callback
once, with the description that `last` carries. -/
def CallbackOnce (a : Accounts) (ccs : List HttpCompletion) (last : HttpCompletion) : Prop :=
  ∃ t a', (accounts parse db).alone (fun _ => .ok) (deliver parse username promise 0 ccs).run a =
    some (.ok (), t, a') ∧ callbacks t = [describedText parse last]

variable {parse db username promise} {a : Accounts} {xs : Nat → Choice}

private theorem alone_setValue (hp : a.promises[promise]? = some none) (v : Option String) :
    (accounts parse db).alone xs (setValue promise v).run a =
      some (.ok (), [⟨.setValue promise v, .ok ()⟩], { a with promises := a.promises.set promise (some v) }) := by
  have hexec : (accounts parse db).exec (.setValue promise v) (xs 0) a =
      some (.ok (), { a with promises := a.promises.set promise (some v) }) := by
    simp [accounts, Accounts.exec, hp]
  exact System.alone_call hexec

private theorem alone_setValue_again {w : Option String} (hp : a.promises[promise]? = some (some w))
    (v : Option String) :
    (accounts parse db).alone xs (setValue promise v).run a =
      some (.error promiseAlreadySatisfied, [⟨.setValue promise v, .error promiseAlreadySatisfied⟩], a) := by
  have hexec : (accounts parse db).exec (.setValue promise v) (xs 0) a =
      some (.error promiseAlreadySatisfied, a) := by
    simp [accounts, Accounts.exec, hp]
  exact System.alone_call hexec

section Last

variable (db) {n : Nat} {cc : HttpCompletion}

/-- A lambda that does not miss the user calls back once, with what the completion carries. -/
private theorem alone_descriptionLambda (hp : a.promises[promise]? = some none)
    (hlast : (fetchLeetCodeDescription parse username (setValue promise) n cc).retried = none)
    (hname : NoUsername parse cc) (hfound : ¬ UserMissing parse cc) :
    ∃ a', (accounts parse db).alone (fun _ => .ok) (descriptionLambda parse username promise n cc).run a =
      some (.ok (), [⟨.setValue promise (describedText parse cc), .ok ()⟩], a') := by
  unfold descriptionLambda fetchLeetCodeDescription at *
  by_cases hsize : maxResponseBytes < cc.bodySize
  · have hnone : describedText parse cc = none := if_neg fun h => by omega
    simp only [hsize, if_true]
    exact ⟨_, by rw [hnone]; exact alone_setValue hp none⟩
  by_cases hok : cc.status = 200
  · have hsize' := Nat.not_lt.1 hsize
    simp only [hsize, hok, beq_self_eq_true, if_true, if_false, ExceptT.run_tryCatch, run_describeUser]
    cases hread : readDescription parse cc.body with
    | error what =>
      rw [describedText_of_error hok hsize' hname hread]
      exact ⟨_, alone_setValue hp none⟩
    | ok found =>
      cases found with
      | none => exact absurd ((readDescription_eq_none_iff hok hsize').1 hread) hfound
      | some v =>
        refine ⟨{ a with promises := a.promises.set promise (some v) }, ?_⟩
        rw [describedText_of_read hok hsize' hread]
        exact System.alone_bind (alone_setValue hp v)
  · have hnone : describedText parse cc = none := if_neg fun h => hok h.1
    have hlim : ¬ (rateLimited cc && n < 3) := by
      intro h
      simp [hsize, hok, h, Reaction.retried] at hlast
    simp only [hsize, hok, beq_iff_eq, hlim, if_false]
    exact ⟨_, by rw [hnone]; exact alone_setValue hp none⟩

/-- A lambda that misses the user ends with an exception. -/
private theorem alone_descriptionLambda_missing (hp : a.promises[promise]? = some none)
    (hmissing : UserMissing parse cc) :
    ∃ t a', (accounts parse db).alone (fun _ => .ok) (descriptionLambda parse username promise n cc).run a =
      some (.error promiseAlreadySatisfied, t, a') ∧ callbacks t = [none, none, none] := by
  obtain ⟨hok, hsize, -⟩ := id hmissing
  have hread := (readDescription_eq_none_iff hok hsize).2 hmissing
  let a₁ : Accounts := { a with promises := a.promises.set promise (some none) }
  have hlt : promise < a.promises.length := (List.getElem?_eq_some_iff.1 hp).1
  have hp₁ : a₁.promises[promise]? = some (some none) := List.getElem?_set_self hlt
  have hfirst : (accounts parse db).alone (fun _ => .ok) (setValue promise none).run a =
      some (.ok (), [⟨.setValue promise none, .ok ()⟩], a₁) := alone_setValue hp none
  have hagain : (accounts parse db).alone (fun _ => .ok) (setValue promise none).run a₁ =
      some (.error promiseAlreadySatisfied, [⟨.setValue promise none, .error promiseAlreadySatisfied⟩], a₁) :=
    alone_setValue_again hp₁ none
  have hblock : (accounts parse db).alone (fun _ => .ok)
      (do setValue promise none; setValue promise none : Throwing Unit).run a =
      some (.error promiseAlreadySatisfied, [⟨.setValue promise none, .ok ()⟩,
        ⟨.setValue promise none, .error promiseAlreadySatisfied⟩], a₁) := by
    rw [ExceptT.run_bind, System.alone_bind hfirst]
    simp only [hagain, Option.map_some, List.cons_append, List.nil_append]
  let calls : Trace Op Op.Res := [⟨.setValue promise none, .ok ()⟩,
    ⟨.setValue promise none, .error promiseAlreadySatisfied⟩,
    ⟨.setValue promise none, .error promiseAlreadySatisfied⟩]
  have hcatch : (accounts parse db).alone (fun _ => .ok)
      (tryCatch (do setValue promise none; setValue promise none) fun _ => setValue promise none : Throwing Unit).run
      a = some (.error promiseAlreadySatisfied, calls, a₁) := by
    rw [ExceptT.run_tryCatch, System.alone_bind hblock]
    simp only [hagain, Option.map_some, List.cons_append, List.nil_append]
    rfl
  have hprog : (descriptionLambda parse username promise n cc).run =
      .call (.edit (.text ("User `" ++ username ++ "` not found on LeetCode."))) fun _ =>
        (tryCatch (do setValue promise none; setValue promise none) fun _ => setValue promise none :
          Throwing Unit).run := by
    unfold descriptionLambda fetchLeetCodeDescription
    simp only [Nat.not_lt.2 hsize, hok, beq_self_eq_true, if_true, if_false, ExceptT.run_tryCatch,
      run_describeUser, hread, Prog.call_bind]
  refine ⟨⟨.edit (.text ("User `" ++ username ++ "` not found on LeetCode.")), ()⟩ :: calls, a₁, ?_, rfl⟩
  rw [hprog, System.alone_call rfl, hcatch]
  rfl

end Last

private theorem alone_descriptionLambda_retried {n m : Nat} {cc : HttpCompletion}
    (h : (fetchLeetCodeDescription parse username (setValue promise) n cc).retried = some m) :
    (accounts parse db).alone (fun _ => .ok) (descriptionLambda parse username promise n cc).run a =
      some (.ok (), [⟨.request (.description username promise m), ()⟩],
        { a with inflight := a.inflight ++ [some (.description username promise m)] }) := by
  unfold descriptionLambda
  cases hreact : fetchLeetCodeDescription parse username (setValue promise) n cc with
  | retry k =>
    rw [hreact] at h
    cases h
    rfl
  | handled p =>
    rw [hreact] at h
    cases h

/-- The lambdas end well exactly when the last completion does not miss the user, wherever they start. -/
private theorem deliver_iff {n : Nat} {ccs : List HttpCompletion} {last : HttpCompletion}
    (hp : a.promises[promise]? = some none)
    (hlast : settled ((Fetcher.description username (setValue promise)).retry parse db) n ccs = some last)
    (hname : NoUsername parse last) :
    (∃ t a', (accounts parse db).alone (fun _ => .ok) (deliver parse username promise n ccs).run a =
      some (.ok (), t, a') ∧ callbacks t = [describedText parse last]) ↔ ¬ UserMissing parse last := by
  induction ccs generalizing n a with
  | nil => cases hlast
  | cons cc ccs ih =>
    unfold settled at hlast
    unfold deliver
    rw [ExceptT.run_bind]
    cases hreact : (fetchLeetCodeDescription parse username (setValue promise) n cc).retried with
    | some m =>
      have hretry : (Fetcher.description username (setValue promise)).retry parse db n cc = some m := hreact
      simp only [hretry] at hlast
      let a₁ : Accounts := { a with inflight := a.inflight ++ [some (.description username promise m)] }
      have hp₁ : a₁.promises[promise]? = some none := hp
      rw [← ih hp₁ hlast, System.alone_bind (alone_descriptionLambda_retried hreact)]
      simp only [Option.map_eq_some_iff, Prod.exists, Prod.mk.injEq]
      constructor
      · rintro ⟨t, a', ⟨r, t', a'', hrun, rfl, rfl, rfl⟩, ht⟩
        exact ⟨t', a'', hrun, ht⟩
      · rintro ⟨t, a', hrun, ht⟩
        exact ⟨_, a', ⟨_, t, a', hrun, rfl, rfl, rfl⟩, ht⟩
    | none =>
      have hretry : (Fetcher.description username (setValue promise)).retry parse db n cc = none := hreact
      simp only [hretry] at hlast
      split at hlast
      · cases hlast
        constructor
        · rintro ⟨t, a', hrun, -⟩ hmissing
          obtain ⟨t', a'', hthrown, -⟩ := alone_descriptionLambda_missing db hp hmissing
          rw [System.alone_bind hthrown] at hrun
          simp at hrun
        · intro hfound
          obtain ⟨a', hrun⟩ := alone_descriptionLambda db hp hreact hname hfound
          refine ⟨_, a', System.alone_bind hrun, rfl⟩
      · cases hlast

/-- Unless the last completion misses the user, and only then, the callback is called exactly once, with what that
completion carries, and no exception leaves a lambda. -/
theorem callbackOnce_iff {ccs : List HttpCompletion} {last : HttpCompletion}
    (hp : a.promises[promise]? = some none)
    (hlast : settled ((Fetcher.description username (setValue promise)).retry parse db) 0 ccs = some last)
    (hname : NoUsername parse last) :
    CallbackOnce parse db username promise a ccs last ↔ ¬ UserMissing parse last :=
  deliver_iff hp hlast hname

/-- The state in which one registration waits for its promise. -/
def waiting : Accounts := { Accounts.initial with promises := [none] }

/-- After a rate limit, a description is passed on once. -/
theorem callbackOnce_described :
    CallbackOnce sampleParse ⟨true⟩ "a" 0 waiting [⟨429, ""⟩, ⟨200, describedBody⟩] ⟨200, describedBody⟩ := by
  have hparse : sampleParse describedBody = .ok (.object [("data", .object [("matchedUser", .object
      [("profile", .object [("aboutMe", .string "LeetBot->[ann]->Verify")])])])]) := if_pos rfl
  refine (callbackOnce_iff rfl rfl ?_).2 ?_
  · intro response data matchedUser h1 h2 h3
    rw [hparse] at h1
    cases h1
    cases h2
    cases h3
    rfl
  · rintro ⟨-, -, response, data, h1, h2, h3⟩
    rw [hparse] at h1
    cases h1
    cases h2
    cases h3

private theorem sampleParse_missingBody :
    sampleParse missingBody = .ok (.object [("data", .object [("matchedUser", .null)])]) := by
  unfold sampleParse
  rw [if_neg (by decide), if_pos rfl]

theorem userMissing_missingBody : UserMissing sampleParse ⟨200, missingBody⟩ :=
  ⟨rfl, by decide, _, _, sampleParse_missingBody, rfl, rfl⟩

/-- When the user is missing, the callback is called three times, and the last call throws out of the lambda. -/
theorem callback_thrice_of_missing :
    (∃ t a', (accounts sampleParse ⟨true⟩).alone (fun _ => .ok)
      (deliver sampleParse "a" 0 0 [⟨200, missingBody⟩]).run waiting =
        some (.error promiseAlreadySatisfied, t, a') ∧ callbacks t = [none, none, none]) ∧
      ¬ CallbackOnce sampleParse ⟨true⟩ "a" 0 waiting [⟨200, missingBody⟩] ⟨200, missingBody⟩ := by
  have hp : waiting.promises[0]? = some none := rfl
  have hname : NoUsername sampleParse ⟨200, missingBody⟩ := by
    intro response data matchedUser h1 h2 h3
    rw [sampleParse_missingBody] at h1
    cases h1
    cases h2
    cases h3
    rfl
  refine ⟨?_, fun h => (deliver_iff hp rfl hname).1 h userMissing_missingBody⟩
  obtain ⟨t, a', hrun, ht⟩ := alone_descriptionLambda_missing ⟨true⟩ hp userMissing_missingBody
  refine ⟨t, a', ?_, ht⟩
  unfold deliver
  rw [ExceptT.run_bind, System.alone_bind hrun]
  simp

end LeetBot
