import LeetBot.Protocol

/-!
# What a step changes

For each part of the shared state, the steps that change it, with what is known about the thread that takes them.
-/

namespace LeetBot

open Interleave

section Exec

variable {a s : Accounts} {x : Choice}

theorem exec_of_ok {st : Stmt} (hx : x = .ok) :
    Accounts.exec (.sql st) x a = some (.ok (st.exec a.users).1, { a with users := (st.exec a.users).2 }) := by
  rw [hx]
  rfl

/-- A statement that throws changes nothing. -/
theorem exec_of_fault {st : Stmt} (hx : x = .fault) : Accounts.exec (.sql st) x a = some (.error .mk, a) := by
  rw [hx]
  rfl

/-- What a `SELECT` answers, and that it changes nothing. -/
theorem exec_select {c : StrColumn} {v : String} {rows : List Row}
    (h : Accounts.exec (.sql (.select c v)) x a = some (.ok rows, s)) :
    rows = Stmt.rowsWhere a.users c v ∧ s = a := by
  cases x with
  | ok =>
    cases h
    exact ⟨rfl, rfl⟩
  | fault => cases h

theorem exec_selectCount {c : StrColumn} {v : String} {n : Nat}
    (h : Accounts.exec (.sql (.selectCount c v)) x a = some (.ok n, s)) :
    n = (Stmt.rowsWhere a.users c v).length ∧ s = a := by
  cases x with
  | ok =>
    cases h
    exact ⟨rfl, rfl⟩
  | fault => cases h

/-- What an `UPDATE` of a profile does when it succeeds. -/
theorem exec_update {d L name : String} {st : FetchedStats}
    (h : Accounts.exec (.sql (.update LeetoDB.updateColumns .discordId (st.params L name d))) x a =
      some (.ok (), s)) :
    s = { a with users := Stmt.updateWhere a.users .discordId d (st.storedRow L name d) } := by
  cases x with
  | ok => exact (congrArg Prod.snd (Option.some.inj h)).symm
  | fault => cases h

/-- A name that was read from the cache was current. -/
theorem exec_memberUsername {d : Snowflake} {n : String}
    (h : Accounts.exec (.memberUsername d) x a = some (some n, s)) : a.members.lookup d = some n := by
  cases x with
  | ok => exact congrArg Prod.fst (Option.some.inj h)
  | fault => cases h

/-- What an operation changes: nothing, or the table, or the promises, or the requests in flight. -/
theorem exec_cases {o : Op} {r : o.Res} (h : Accounts.exec o x a = some (r, s)) :
    s = a ∨ (∃ st, o = .sql st ∧ s = { a with users := (st.exec a.users).2 }) ∨
      (o = .makePromise ∧ s = { a with promises := a.promises ++ [none] }) ∨
      (∃ p desc, o = .setValue p desc ∧ s = { a with promises := a.promises.set p (some desc) }) ∨
      ∃ q, o = .request q ∧ s = { a with inflight := a.inflight ++ [some q] } := by
  cases o with
  | sql st =>
    cases x with
    | ok =>
      cases h
      exact .inr (.inl ⟨st, rfl, rfl⟩)
    | fault =>
      cases h
      exact .inl rfl
  | memberUsername d =>
    cases x <;> cases h <;> exact .inl rfl
  | edit m =>
    cases h
    exact .inl rfl
  | makePromise =>
    cases h
    exact .inr (.inr (.inl ⟨rfl, rfl⟩))
  | setValue p desc =>
    simp only [Accounts.exec] at h
    split at h
    · cases h
      exact .inr (.inr (.inr (.inl ⟨p, desc, rfl, rfl⟩)))
    · cases h
      exact .inl rfl
  | await p =>
    simp only [Accounts.exec] at h
    split at h
    · cases h
      exact .inl rfl
    · cases h
  | request q =>
    cases h
    exact .inr (.inr (.inr (.inr ⟨q, rfl, rfl⟩)))

theorem exec_users {o : Op} {r : o.Res} (h : Accounts.exec o x a = some (r, s)) :
    s.users = a.users ∨ ∃ st, o = .sql st ∧ s.users = (st.exec a.users).2 := by
  rcases exec_cases h with rfl | ⟨st, rfl, rfl⟩ | ⟨-, rfl⟩ | ⟨p, desc, -, rfl⟩ | ⟨q, -, rfl⟩
  · exact .inl rfl
  · exact .inr ⟨st, rfl, rfl⟩
  · exact .inl rfl
  · exact .inl rfl
  · exact .inl rfl

theorem exec_inflight {o : Op} {r : o.Res} (h : Accounts.exec o x a = some (r, s)) :
    s.inflight = a.inflight ∨ ∃ q, o = .request q ∧ s.inflight = a.inflight ++ [some q] := by
  rcases exec_cases h with rfl | ⟨st, rfl, rfl⟩ | ⟨-, rfl⟩ | ⟨p, desc, -, rfl⟩ | ⟨q, rfl, rfl⟩
  · exact .inl rfl
  · exact .inl rfl
  · exact .inl rfl
  · exact .inl rfl
  · exact .inr ⟨q, rfl, rfl⟩

theorem exec_promises {o : Op} {r : o.Res} (h : Accounts.exec o x a = some (r, s)) :
    s.promises = a.promises ∨ (o = .makePromise ∧ s.promises = a.promises ++ [none]) ∨
      ∃ p desc, o = .setValue p desc ∧ s.promises = a.promises.set p (some desc) := by
  rcases exec_cases h with rfl | ⟨st, rfl, rfl⟩ | ⟨rfl, rfl⟩ | ⟨p, desc, rfl, rfl⟩ | ⟨q, -, rfl⟩
  · exact .inl rfl
  · exact .inl rfl
  · exact .inr (.inl ⟨rfl, rfl⟩)
  · exact .inr (.inr ⟨p, desc, rfl, rfl⟩)
  · exact .inl rfl

private theorem exec_members {o : Op} {r : o.Res} (h : Accounts.exec o x a = some (r, s)) :
    s.members = a.members := by
  rcases exec_cases h with rfl | ⟨st, rfl, rfl⟩ | ⟨-, rfl⟩ | ⟨p, desc, -, rfl⟩ | ⟨q, -, rfl⟩ <;> rfl

end Exec

section Members

variable {a : Accounts} {d d' : Snowflake} {n : String}

/-- After a change of a username, the user has the new one, and the others keep theirs. -/
theorem lookup_rename : (a.rename d n).members.lookup d' = if d' = d then some n else a.members.lookup d' := by
  by_cases h : d' = d
  · simp [Accounts.rename, h]
  · have hne : (d' == d) = false := beq_false_of_ne h
    have hfilter : ∀ members : List (Snowflake × String),
        (members.filter (·.1 != d)).lookup d' = members.lookup d' := by
      intro members
      induction members with
      | nil => rfl
      | cons m members ih =>
        obtain ⟨d₀, n₀⟩ := m
        by_cases hm : d₀ = d
        · simp [hm, List.lookup_cons, ih, hne]
        · simp [hm, List.lookup_cons, ih]
    simp [Accounts.rename, List.lookup_cons, h, hne, hfilter]

end Members

section Arrive

variable {parse : String → Except String Json} {db : LeetoDB} {e : AccountEvent} {a s : Accounts} {p : Program Unit}

/-- What an event changes: a completion is no longer in flight, and a username changes. -/
theorem arrive_cases (h : (accounts parse db).arrive e a = some (s, p)) :
    (∃ event, e = .slashcommand event ∧ s = a) ∨
      (∃ k r cc, e = .completion k r cc ∧ some r ∈ a.inflight ∧ s = { a with inflight := a.inflight.set k none }) ∨
      ∃ d n, e = .usernameChange d n ∧ s = a.rename d n ∧ p = pure () := by
  cases e with
  | slashcommand event =>
    cases h
    exact .inl ⟨event, rfl, rfl⟩
  | completion k r cc =>
    simp only [accounts, Accounts.arrive] at h
    split at h
    · rename_i hk
      cases h
      exact .inr (.inl ⟨k, r, cc, rfl, List.mem_of_getElem? hk, rfl⟩)
    · cases h
  | usernameChange d n =>
    cases h
    exact .inr (.inr ⟨d, n, rfl, rfl, rfl⟩)

theorem arrive_users (h : (accounts parse db).arrive e a = some (s, p)) : s.users = a.users := by
  rcases arrive_cases h with ⟨event, -, rfl⟩ | ⟨k, r, cc, -, -, rfl⟩ | ⟨d, n, -, rfl, -⟩ <;> rfl

theorem arrive_promises (h : (accounts parse db).arrive e a = some (s, p)) : s.promises = a.promises := by
  rcases arrive_cases h with ⟨event, -, rfl⟩ | ⟨k, r, cc, -, -, rfl⟩ | ⟨d, n, -, rfl, -⟩ <;> rfl

theorem arrive_inflight (h : (accounts parse db).arrive e a = some (s, p)) {q : Request}
    (hq : some q ∈ s.inflight) : some q ∈ a.inflight := by
  rcases arrive_cases h with ⟨event, -, rfl⟩ | ⟨k, r, cc, -, -, rfl⟩ | ⟨d, n, -, rfl, -⟩
  · exact hq
  · rcases List.mem_or_eq_of_mem_set hq with hq | hq
    · exact hq
    · cases hq
  · exact hq

end Arrive

variable {parse : String → Except String Json} {db : LeetoDB} {ok : AccountWorld → Label Choice AccountEvent → Prop}
  {w w' : AccountWorld} {l : Label Choice AccountEvent}

/-- The next operation of a thread is one that the lists allow. -/
theorem next_step (hw : Reachable parse db ok w) {i : Nat} {e : AccountEvent} {o : Op}
    {k : o.Res → Program Unit} (hi : w.threads[i]? = some (e, .call o k)) : AccountStep parse db e (w.trace i) o :=
  (hw.follows (follows_arrive parse db) hi).1

/-- Everything performed was allowed. -/
theorem performed_step (hw : Reachable parse db ok w) {i : Nat} {o : Op} {r : o.Res}
    (hr : .performed i o r ∈ w.history) :
    ∃ e t, .arrived i e ∈ w.history ∧ AccountStep parse db e t o ∧ t ++ [⟨o, r⟩] <+: w.trace i :=
  hw.performed_follows (follows_arrive parse db) hr

/-- Thread `i`, a registration, is about to insert a row for its user. -/
def Inserting (w : AccountWorld) (i : Nat) (event : SlashCommand) (L u : String) : Prop :=
  ∃ k, w.threads[i]? = some (.slashcommand event,
    .call (.sql (.insert LeetoDB.insertColumns [.str (toString event.userId), .str u, .str L])) k)

/-- Thread `i`, a completed profile request, is about to update the rows of its user. -/
def Updating (w : AccountWorld) (i : Nat) (L name d : String) (st : FetchedStats) : Prop :=
  ∃ j n cc k, w.threads[i]? = some (.completion j (.profile L name d n) cc,
    .call (.sql (.update LeetoDB.updateColumns .discordId (st.params L name d))) k)

/-- What a step does to the table: nothing, or it inserts a row for a registration, or it updates the rows that a
completed profile request is about. -/
theorem users_step (hw : Reachable parse db ok w) (hs : (accounts parse db).step w l = some w') :
    w'.shared.users = w.shared.users ∨
      (∃ i x event L u, l = .run i x ∧ Inserting w i event L u ∧
        w'.shared.users = w.shared.users ++ [LeetoDB.insertedRow (toString event.userId) u L]) ∨
      ∃ i L name d st, Updating w i L name d st ∧
        w'.shared.users = Stmt.updateWhere w.shared.users .discordId d (st.storedRow L name d) := by
  cases l with
  | event e =>
    obtain ⟨s, p, ha, rfl⟩ := System.step_event hs
    exact .inl (arrive_users ha)
  | run i x =>
    obtain ⟨e, o, k, r, s, hi, hx, rfl⟩ := System.step_run hs
    rcases exec_users hx with hsame | ⟨st, rfl, hnew⟩
    · exact .inl hsame
    -- the two lists tell which statements there are
    have hstep := next_step hw hi
    cases e with
    | slashcommand event =>
      cases hstep with
      | insert => exact .inr (.inl ⟨i, x, event, _, _, rfl, ⟨k, hi⟩, hnew⟩)
      | _ => exact .inl hnew
    | completion j r cc =>
      cases hstep with
      | selectOwn => exact .inl hnew
      | update hr hread =>
        subst hr
        exact .inr (.inr ⟨i, _, _, _, _, ⟨j, _, cc, k, hi⟩, hnew⟩)
    | usernameChange d n => cases hstep

/-- What is about to be stored was read from the response to the request. -/
theorem read_of_updating (hw : Reachable parse db ok w) {i : Nat} {L name d : String} {st : FetchedStats}
    (h : Updating w i L name d st) :
    ∃ j n cc s, .arrived i (.completion j (.profile L name d n) cc) ∈ w.history ∧
      readProfile parse L cc.body = .ok (.inr s) ∧ s.params L name d = st.params L name d := by
  obtain ⟨j, n, cc, k, hi⟩ := h
  have hstep : CompletionStep parse (.profile L name d n) cc _ := next_step hw hi
  generalize st.params L name d = params at hstep ⊢
  generalize hrequest : Request.profile L name d n = r at hstep
  cases hstep with
  | update hr hread =>
    cases hrequest.trans hr
    exact ⟨j, n, cc, _, hw.arrived_iff.2 ⟨_, hi⟩, hread, rfl⟩

/-- What a step does to the usernames: nothing, or a user takes one. -/
theorem members_step (hs : (accounts parse db).step w l = some w') :
    w'.shared.members = w.shared.members ∨
      ∃ d n, l = .event (.usernameChange d n) ∧ w'.shared.members = (w.shared.rename d n).members := by
  cases l with
  | event e =>
    obtain ⟨s, p, ha, rfl⟩ := System.step_event hs
    rcases arrive_cases ha with ⟨event, -, rfl⟩ | ⟨k, r, cc, -, -, rfl⟩ | ⟨d, n, rfl, rfl, -⟩
    · exact .inl rfl
    · exact .inl rfl
    · exact .inr ⟨d, n, rfl, rfl⟩
  | run i x =>
    obtain ⟨e, o, k, r, s, -, hx, rfl⟩ := System.step_run hs
    exact .inl (exec_members hx)

/-! ### Requests -/

private theorem issued_of_inflight (hw : Reachable parse db ok w) {q : Request} (hq : some q ∈ w.shared.inflight) :
    ∃ i, .performed i (.request q) () ∈ w.history := by
  refine hw.invariant (I := fun w => ∀ q, some q ∈ w.shared.inflight →
    ∃ i, .performed i (.request q) () ∈ w.history) (fun q hq => absurd hq List.not_mem_nil) ?_ ?_ q hq
  · intro w e s p _ hI _ ha q hq
    obtain ⟨i, hi⟩ := hI q (arrive_inflight ha hq)
    exact ⟨i, World.mem_started.2 (.inl hi)⟩
  · intro w i x e o k r s _ hI _ _ hx q hq
    rcases exec_inflight hx with hsame | ⟨q', rfl, hnew⟩
    · rw [World.after_shared, hsame] at hq
      obtain ⟨j, hj⟩ := hI q hq
      exact ⟨j, World.mem_after.2 (.inl hj)⟩
    · rw [World.after_shared, hnew] at hq
      rcases List.mem_append.1 hq with hq | hq
      · obtain ⟨j, hj⟩ := hI q hq
        exact ⟨j, World.mem_after.2 (.inl hj)⟩
      · cases List.mem_singleton.1 hq
        exact ⟨i, World.mem_after.2 (.inr rfl)⟩

/-- A request that has completed was issued. -/
theorem issued_of_completed (hw : Reachable parse db ok w) {i k : Nat} {q : Request} {cc : HttpCompletion}
    (h : .arrived i (.completion k q cc) ∈ w.history) : ∃ j, .performed j (.request q) () ∈ w.history := by
  refine hw.forall_history (P := fun w x => ∀ i k q cc, x = .arrived i (.completion k q cc) →
    ∃ j, .performed j (.request q) () ∈ w.history) ?_ ?_ ?_ _ h i k q cc rfl
  · intro w e s p hreach _ ha _ i k q cc hx
    cases hx
    rcases arrive_cases ha with ⟨event, he, -⟩ | ⟨k, r, cc, he, hr, -⟩ | ⟨d, n, he, -⟩
    · cases he
    · cases he
      obtain ⟨j, hj⟩ := issued_of_inflight hreach hr
      exact ⟨j, World.mem_started.2 (.inl hj)⟩
    · cases he
  · intro w i x e o k r s _ _ _ _ _ i k q cc hx
    cases hx
  · intro w l w' x _ _ hs _ hP i k q cc hx
    obtain ⟨j, hj⟩ := hP i k q cc hx
    exact ⟨j, System.history_subset hs hj⟩

end LeetBot
