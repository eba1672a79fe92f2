import LeetBot.AccountSteps

/-!
# Linked accounts are owned

A row links a Discord user to a LeetCode name in two ways: a registration inserts it after it has seen the
verification text, and a profile update rewrites its name with one that was read from the table before a request
went out.  Every name that is on its way to the table, in a row, in a request or in the hands of a thread, was
proved by the user whose row it will go to.
-/

namespace LeetBot

open Interleave

abbrev History := List (Entry Op Op.Res AccountEvent)

/-- The user `d` has proved to own the LeetCode name `L`: a `/register` of `d` for `L` has read that its user is
called `u`, has asked for the description of `L`, and a completion of that request, or of a retry of it, carried a
text with the verification of `u`. -/
def Proven (parse : String → Except String Json) (h : History) (d : Snowflake) (L : String) : Prop :=
  ∃ i event u p,
    .arrived i (.slashcommand event) ∈ h ∧ event.userId = d ∧ event.registers = some L ∧
    .performed i (.memberUsername d) (some u) ∈ h ∧
    .performed i .makePromise p ∈ h ∧ .performed i (.request (.description L p 0)) () ∈ h ∧
    ∃ j k n cc text, .arrived j (.completion k (.description L p n) cc) ∈ h ∧
      describedText parse cc = some text ∧ ("LeetBot->[" ++ u ++ "]->Verify").toList <:+: text.toList

variable {parse : String → Except String Json} {db : LeetoDB} {ok : AccountWorld → Label Choice AccountEvent → Prop}
  {w w' : AccountWorld} {h h' : History} {d : Snowflake} {L : String}

theorem Proven.mono (hsub : h ⊆ h') (hp : Proven parse h d L) : Proven parse h' d L := by
  obtain ⟨i, event, u, p, h1, h2, h3, h4, h5, h6, j, k, n, cc, text, h7, h8⟩ := hp
  exact ⟨i, event, u, p, hsub h1, h2, h3, hsub h4, hsub h5, hsub h6, j, k, n, cc, text, hsub h7, h8⟩

/-! ### Promises -/

private theorem promises_length_le {l : Label Choice AccountEvent} (hs : (accounts parse db).step w l = some w') :
    w.shared.promises.length ≤ w'.shared.promises.length := by
  cases l with
  | event e =>
    obtain ⟨s, p, ha, rfl⟩ := System.step_event hs
    rw [World.started_shared, arrive_promises ha]
  | run i x =>
    obtain ⟨e, o, k, r, s, -, hx, rfl⟩ := System.step_run hs
    rw [World.after_shared]
    rcases exec_promises hx with h | ⟨-, h⟩ | ⟨p, desc, -, h⟩
    · rw [h]
    · rw [h, List.length_append]
      omega
    · rw [h, List.length_set]

theorem promise_lt (hw : Reachable parse db ok w) {i p : Nat} (h : .performed i .makePromise p ∈ w.history) :
    p < w.shared.promises.length := by
  refine hw.forall_answers (P := fun w _ (p : Nat) => p < w.shared.promises.length) ?_ ?_ h
  · intro w i x e k p s _ _ _ hx
    cases hx
    show w.shared.promises.length < (w.shared.promises ++ [none]).length
    rw [List.length_append]
    exact Nat.lt_succ_self _
  · intro w l w' _ p _ hs hlt
    exact Nat.lt_of_lt_of_le hlt (promises_length_le hs)

/-- A promise was made by one thread. -/
theorem promise_unique (hw : Reachable parse db ok w) {i j p : Nat} (hi : .performed i .makePromise p ∈ w.history)
    (hj : .performed j .makePromise p ∈ w.history) : i = j := by
  refine hw.invariant (I := fun w => ∀ i j (p : Nat), .performed i .makePromise p ∈ w.history →
    .performed j .makePromise p ∈ w.history → i = j) (by simp) ?_ ?_ i j p hi hj
  · intro w e s q _ hI _ _ i j p hi hj
    simp only [World.mem_started, reduceCtorEq, or_false] at hi hj
    exact hI i j p hi hj
  · intro w m x e o k r s hreach hI _ _ hx i j p hi hj
    -- the number of a new promise is larger than all old ones
    rcases World.mem_after.1 hi with hi' | hi' <;> rcases World.mem_after.1 hj with hj' | hj'
    · exact hI i j p hi' hj'
    · cases hj'
      cases hx
      exact absurd (promise_lt hreach hi') (Nat.lt_irrefl _)
    · cases hi'
      cases hx
      exact absurd (promise_lt hreach hj') (Nat.lt_irrefl _)
    · cases hi'
      cases hj'
      rfl

/-- The text of a promise came with a completion of a request made for that promise. -/
private theorem promise_value (hw : Reachable parse db ok w) {p : Nat} {text : String}
    (h : w.shared.promises[p]? = some (some (some text))) :
    ∃ j k L n cc, .arrived j (.completion k (.description L p n) cc) ∈ w.history ∧
      describedText parse cc = some text := by
  refine hw.invariant (I := fun w => ∀ p text, w.shared.promises[p]? = some (some (some text)) →
    ∃ j k L n cc, .arrived j (.completion k (.description L p n) cc) ∈ w.history ∧
      describedText parse cc = some text) (fun p text h => by cases h) ?_ ?_ p text h
  · intro w e s q _ hI _ ha p text h
    rw [World.started_shared, arrive_promises ha] at h
    obtain ⟨j, k, L, n, cc, hj, htext⟩ := hI p text h
    exact ⟨j, k, L, n, cc, World.mem_started.2 (.inl hj), htext⟩
  · intro w i x e o k r s hreach hI _ hi hx p text h
    have hold : w.shared.promises[p]? = some (some (some text)) →
        ∃ j k' L n cc, .arrived j (.completion k' (.description L p n) cc) ∈ (w.after i e o r s (k r)).history ∧
          describedText parse cc = some text := by
      intro h
      obtain ⟨j, k', L, n, cc, hj, htext⟩ := hI p text h
      exact ⟨j, k', L, n, cc, World.mem_after.2 (.inl hj), htext⟩
    rw [World.after_shared] at h
    rcases exec_promises hx with hs | ⟨-, hs⟩ | ⟨p', desc, rfl, hs⟩
    · exact hold (hs ▸ h)
    · rw [hs, List.getElem?_append] at h
      split at h
      · exact hold h
      · rw [List.getElem?_singleton] at h
        split at h <;> cases h
    · rw [hs, List.getElem?_set] at h
      split at h
      · rename_i hp
        subst hp
        split at h
        · have hdesc : desc = some text := Option.some.inj (Option.some.inj h)
          -- only the lambda of a description request sets a promise
          have hstep := next_step hreach hi
          have he : .arrived i e ∈ w.history := hreach.arrived_iff.2 ⟨_, hi⟩
          cases e with
          | slashcommand event => cases hstep
          | completion j q cc =>
            cases hstep with
            | setValue hr htext =>
              subst hr
              exact ⟨i, j, _, _, cc, World.mem_after.2 (.inl he), htext text hdesc⟩
          | usernameChange d n => cases hstep
        · cases h
      · exact hold h

private theorem awaited_value (hw : Reachable parse db ok w) {i p : Nat} {text : String}
    (h : .performed i (.await p) (some text) ∈ w.history) :
    ∃ j k L n cc, .arrived j (.completion k (.description L p n) cc) ∈ w.history ∧
      describedText parse cc = some text := by
  refine hw.forall_answers (P := fun w _ desc => ∀ text, desc = some text →
    ∃ j k L n cc, .arrived j (.completion k (.description L p n) cc) ∈ w.history ∧
      describedText parse cc = some text) ?_ ?_ h text rfl
  · rintro w i x e k _ s hreach _ _ hx text rfl
    have hset : w.shared.promises[p]? = some (some (some text)) := by
      simp only [accounts, Accounts.exec] at hx
      split at hx
      · rename_i desc hp
        cases hx
        exact hp
      · cases hx
    obtain ⟨j, k', L, n, cc, hj, htext⟩ := promise_value hreach hset
    exact ⟨j, k', L, n, cc, World.mem_after.2 (.inl hj), htext⟩
  · intro w l w' _ desc _ hs hP text heq
    obtain ⟨j, k, L, n, cc, hj, htext⟩ := hP text heq
    exact ⟨j, k, L, n, cc, System.history_subset hs hj, htext⟩

/-- A description is asked for a promise only by the registration that made the promise, and for its own name, or by
a retry. -/
theorem asked_by_registration (hw : Reachable parse db ok w) {i p n : Nat} {L : String}
    (h : .performed i (.request (.description L p n)) () ∈ w.history) :
    ∃ j event, .arrived j (.slashcommand event) ∈ w.history ∧ event.registers = some L ∧
      .performed j .makePromise p ∈ w.history := by
  refine hw.forall_history (P := fun w x => ∀ i L p n, x = .performed i (.request (.description L p n)) () →
    ∃ j event, .arrived j (.slashcommand event) ∈ w.history ∧ event.registers = some L ∧
      .performed j .makePromise p ∈ w.history) ?_ ?_ ?_ _ h i L p n rfl
  · intro w e s q _ _ _ _ i L p n hx
    cases hx
  · intro w i x e o k r s hreach _ hi hx hP i' L p n heq
    cases heq
    have hstep := next_step hreach hi
    have he : .arrived i e ∈ w.history := hreach.arrived_iff.2 ⟨_, hi⟩
    cases e with
    | slashcommand event =>
      cases hstep with
      | description hreg hp =>
        exact ⟨i, event, World.mem_after.2 (.inl he), hreg, World.mem_after.2 (.inl (World.mem_trace.1 hp))⟩
    | completion j q cc =>
      obtain ⟨m, hm⟩ := issued_of_completed hreach he
      generalize hq : Request.description L p n = r at hstep
      cases hstep with
      | again n' =>
        cases q with
        | description L' p' m' =>
          cases hq
          obtain ⟨j, event, h1, h2, h3⟩ := hP _ hm m L p m' rfl
          exact ⟨j, event, World.mem_after.2 (.inl h1), h2, World.mem_after.2 (.inl h3)⟩
        | _ => cases hq
    | usernameChange d n => cases hstep
  · intro w l w' x _ _ hs _ hP i L p n heq
    obtain ⟨j, event, h1, h2, h3⟩ := hP i L p n heq
    exact ⟨j, event, System.history_subset hs h1, h2, System.history_subset hs h3⟩

/-! ### An empty name is never inserted -/

private theorem row_persists (hw : Reachable parse db ok w) {l : Label Choice AccountEvent}
    (hs : (accounts parse db).step w l = some w') {id : String}
    (h : ∃ r ∈ w.shared.users, r.str .discordId = some id) : ∃ r ∈ w'.shared.users, r.str .discordId = some id := by
  obtain ⟨r, hr, hid⟩ := h
  rcases users_step hw hs with hsame | ⟨i, x, event, L, u, -, -, hnew⟩ | ⟨i, L, name, d, st, -, hnew⟩
  · exact ⟨r, hsame ▸ hr, hid⟩
  · exact ⟨r, hnew ▸ List.mem_append_left _ hr, hid⟩
  · rw [hnew]
    by_cases hd : r.str .discordId = some d
    · exact ⟨_, Stmt.mem_updateWhere.2 (.inr ⟨r, hr, hd, rfl⟩), hid⟩
    · exact ⟨r, Stmt.mem_updateWhere.2 (.inl ⟨hr, hd⟩), hid⟩

private theorem row_of_selected (hw : Reachable parse db ok w) {i : Nat} {id : String} {row : Row} {rest : List Row}
    (h : .performed i (.sql (.select .discordId id)) (.ok (row :: rest)) ∈ w.history) :
    ∃ r ∈ w.shared.users, r.str .discordId = some id := by
  refine hw.forall_answers (P := fun w _ answer => ∀ row rest, answer = .ok (row :: rest) →
    ∃ r ∈ w.shared.users, r.str .discordId = some id) ?_ ?_ h row rest rfl
  · rintro w i x e k _ s _ _ _ hx row rest rfl
    obtain ⟨hrows, rfl⟩ := exec_select hx
    have hmem : row ∈ Stmt.rowsWhere w.shared.users .discordId id := hrows ▸ List.mem_cons_self
    exact ⟨row, (Stmt.mem_rowsWhere.1 hmem).1, (Stmt.mem_rowsWhere.1 hmem).2⟩
  · intro w l w' _ answer hreach hs hP row rest heq
    exact row_persists hreach hs (hP row rest heq)

/-- A registration that counts no row has a name: with an empty one it would have seen a row before. -/
private theorem name_of_counted (hw : Reachable parse db ok w) {i : Nat} {id : String}
    (h : .performed i (.sql (.selectCount .discordId id)) (.ok (0 : Nat)) ∈ w.history) :
    ∃ event L, .arrived i (.slashcommand event) ∈ w.history ∧ event.registers = some L ∧ L ≠ "" := by
  refine hw.forall_answers (P := fun w i answer => answer = .ok (0 : Nat) →
    ∃ event L, .arrived i (.slashcommand event) ∈ w.history ∧ event.registers = some L ∧ L ≠ "") ?_ ?_ h rfl
  · rintro w i x e k _ s hreach _ hi hx rfl
    have hstep := next_step hreach hi
    cases e with
    | slashcommand event =>
      cases hstep with
      | @count L hreg hL =>
        refine ⟨event, L, World.mem_after.2 (.inl (hreach.arrived_iff.2 ⟨_, hi⟩)), hreg, fun hempty => ?_⟩
        obtain ⟨row, rest, hmem⟩ := hL hempty
        obtain ⟨r, hr, hid⟩ := row_of_selected hreach (World.mem_trace.1 hmem)
        have hpos : 0 < (Stmt.rowsWhere w.shared.users .discordId (toString event.userId)).length :=
          List.length_pos_of_mem (Stmt.mem_rowsWhere.2 ⟨hr, hid⟩)
        have hzero := (exec_selectCount hx).1
        omega
    | completion j q cc => cases hstep
    | usernameChange d n => cases hstep
  · intro w l w' i answer _ hs hP heq
    obtain ⟨event, L, h1, h2⟩ := hP heq
    exact ⟨event, L, System.history_subset hs h1, h2⟩

/-! ### The invariant -/

/-- A registration that is about to insert a row has a proof for it. -/
private theorem proven_of_inserting (hw : Reachable parse db ok w) {i : Nat} {event : SlashCommand} {u : String}
    (h : Inserting w i event L u) : L ≠ "" ∧ Proven parse w.history event.userId L := by
  obtain ⟨k, hi⟩ := h
  have hstep : CommandStep db event (w.trace i) _ := next_step hw hi
  have he : .arrived i (.slashcommand event) ∈ w.history := hw.arrived_iff.2 ⟨_, hi⟩
  cases hstep with
  | @insert _ _ text p hdb hreg hread hp hasked htext hver hcount =>
    constructor
    · obtain ⟨event', L', he', hreg', hne⟩ := name_of_counted hw (World.mem_trace.1 (List.mem_of_getLast? hcount))
      cases hw.arrived_unique he he'
      rw [hreg] at hreg'
      cases hreg'
      exact hne
    · obtain ⟨j, m, L', n, cc, hj, hcarried⟩ := awaited_value hw (World.mem_trace.1 htext)
      have hmade : .performed i .makePromise p ∈ w.history := World.mem_trace.1 hp
      -- the completion answers a request of this very registration
      obtain ⟨i₁, hissued⟩ := issued_of_completed hw hj
      obtain ⟨i₂, event', he', hreg', hmade'⟩ := asked_by_registration hw hissued
      obtain rfl : i₂ = i := promise_unique hw hmade' hmade
      cases hw.arrived_unique he he'
      rw [hreg] at hreg'
      cases hreg'
      exact ⟨i₂, event, u, p, he, rfl, hreg, World.mem_trace.1 hread, hmade, World.mem_trace.1 hasked, j, m, n, cc,
        text, hj, hcarried, hasVerification_iff.1 hver⟩

/-- Rows, profile requests and selected rows carry only names that their user has proved to own. -/
structure Owned (parse : String → Except String Json) (w : AccountWorld) : Prop where
  rows : ∀ r ∈ w.shared.users, ∃ d L, r.str .discordId = some (toString d) ∧ r.str .leetcodeUsername = some L ∧
    L ≠ "" ∧ Proven parse w.history d L
  requested : ∀ i L name id n, .performed i (.request (.profile L name id n)) () ∈ w.history →
    ∃ d, id = toString d ∧ L ≠ "" ∧ Proven parse w.history d L
  selected : ∀ i id row rest, .performed i (.sql (.select .discordId id)) (.ok (row :: rest)) ∈ w.history →
    ∃ d, id = toString d ∧ row.getString .leetcodeUsername ≠ "" ∧
      Proven parse w.history d (row.getString .leetcodeUsername)

private theorem owned_rows_after (hw : Reachable parse db ok w) (hI : Owned parse w)
    {l : Label Choice AccountEvent} (hs : (accounts parse db).step w l = some w') :
    ∀ r ∈ w'.shared.users, ∃ d L, r.str .discordId = some (toString d) ∧ r.str .leetcodeUsername = some L ∧
      L ≠ "" ∧ Proven parse w'.history d L := by
  have hsub := System.history_subset hs
  have hold : ∀ r ∈ w.shared.users, ∃ d L, r.str .discordId = some (toString d) ∧
      r.str .leetcodeUsername = some L ∧ L ≠ "" ∧ Proven parse w'.history d L := by
    intro r hr
    obtain ⟨d, L, h1, h2, h3, h4⟩ := hI.rows r hr
    exact ⟨d, L, h1, h2, h3, h4.mono hsub⟩
  intro r hr
  rcases users_step hw hs with hsame | ⟨i, x, event, L, u, -, hins, hnew⟩ |
    ⟨i, L, name, id, st, ⟨j, n, cc, k, hi⟩, hnew⟩
  · exact hold r (hsame ▸ hr)
  · rw [hnew, List.mem_append, List.mem_singleton] at hr
    rcases hr with hr | rfl
    · exact hold r hr
    · obtain ⟨hne, hproven⟩ := proven_of_inserting hw hins
      exact ⟨event.userId, L, rfl, rfl, hne, hproven.mono hsub⟩
  · rw [hnew] at hr
    rcases Stmt.mem_updateWhere.1 hr with ⟨hr, -⟩ | ⟨r₀, -, hid, rfl⟩
    · exact hold r hr
    · -- the request that has completed was made with a proved name
      obtain ⟨m, hissued⟩ := issued_of_completed hw (hw.arrived_iff.2 ⟨_, hi⟩)
      obtain ⟨d, rfl, hne, hproven⟩ := hI.requested _ _ _ _ _ hissued
      exact ⟨d, L, hid, rfl, hne, hproven.mono hsub⟩

theorem owned_of_reachable (hw : Reachable parse db ok w) : Owned parse w := by
  refine hw.invariant (I := Owned parse) ⟨by simp [Accounts.initial], by simp, by simp⟩ ?_ ?_
  · intro w e s p hreach hI _ ha
    have hs : (accounts parse db).step w (.event e) = some (w.started e s p) := by
      simp [System.step, ha]
    have hsub := System.history_subset hs
    refine ⟨owned_rows_after hreach hI hs, ?_, ?_⟩
    · intro i L name id n h
      simp only [World.mem_started, reduceCtorEq, or_false] at h
      obtain ⟨d, hid, hne, hproven⟩ := hI.requested i L name id n h
      exact ⟨d, hid, hne, hproven.mono hsub⟩
    · intro i id row rest h
      simp only [World.mem_started, reduceCtorEq, or_false] at h
      obtain ⟨d, hid, hne, hproven⟩ := hI.selected i id row rest h
      exact ⟨d, hid, hne, hproven.mono hsub⟩
  · intro w i x e o k r s hreach hI _ hi hx
    have hs : (accounts parse db).step w (.run i x) = some (w.after i e o r s (k r)) := by
      simp [System.step, hi, hx]
    have hsub := System.history_subset hs
    refine ⟨owned_rows_after hreach hI hs, ?_, ?_⟩
    · intro j L name id n h
      rcases World.mem_after.1 h with h | h
      · obtain ⟨d, hid, hne, hproven⟩ := hI.requested j L name id n h
        exact ⟨d, hid, hne, hproven.mono hsub⟩
      · cases h
        have hstep := next_step hreach hi
        cases e with
        | slashcommand event =>
          cases hstep with
          | profile hread hrow hL hne =>
            subst hL
            obtain ⟨d, hid, hne, hproven⟩ := hI.selected _ _ _ _ (World.mem_trace.1 hrow)
            exact ⟨d, hid, hne, hproven.mono hsub⟩
        | completion m q cc =>
          obtain ⟨m', hissued⟩ := issued_of_completed hreach (hreach.arrived_iff.2 ⟨_, hi⟩)
          generalize hq : Request.profile L name id n = q' at hstep
          cases hstep with
          | again n' =>
            cases q with
            | profile L' name' id' m' =>
              cases hq
              obtain ⟨d, hid, hne, hproven⟩ := hI.requested _ _ _ _ _ hissued
              exact ⟨d, hid, hne, hproven.mono hsub⟩
            | _ => cases hq
        | usernameChange d n => cases hstep
    · intro j id row rest h
      rcases World.mem_after.1 h with h | h
      · obtain ⟨d, hid, hne, hproven⟩ := hI.selected j id row rest h
        exact ⟨d, hid, hne, hproven.mono hsub⟩
      · cases h
        have hmem : row ∈ Stmt.rowsWhere w.shared.users .discordId id := by
          rw [← (exec_select hx).1]
          exact List.mem_cons_self
        obtain ⟨hrow, hid⟩ := Stmt.mem_rowsWhere.1 hmem
        obtain ⟨d, L, h1, h2, hne, hproven⟩ := hI.rows row hrow
        have hL : row.getString .leetcodeUsername = L := by
          simp [Row.getString, h2]
        rw [h1] at hid
        rw [hL]
        exact ⟨d, (Option.some.inj hid).symm, hne, hproven.mono hsub⟩

/-- In every run, every row is that of a user who has proved to own the name in it. -/
theorem rows_proven (hw : Reachable parse db (fun _ _ => True) w) :
    ∀ r ∈ w.shared.users, ∃ d L, r.str .discordId = some (toString d) ∧ r.str .leetcodeUsername = some L ∧ L ≠ "" ∧
      Proven parse w.history d L :=
  (owned_of_reachable hw).rows

/-- A run in which a user registers and updates the profile. -/
theorem rows_proven_registered :
    ∃ w, Reachable sampleParse ⟨true⟩ (fun _ _ => True) w ∧ w.shared.users.length = 1 ∧
      ∀ r ∈ w.shared.users, ∃ d L, r.str .discordId = some (toString d) ∧ r.str .leetcodeUsername = some L ∧
        L ≠ "" ∧ Proven sampleParse w.history d L := by
  have hrun : ((accounts sampleParse ⟨true⟩).run (fun _ _ => True) AccountWorld.initial registerAndUpdate).any
      (fun w => w.shared.users.length == 1) = true := by decide +kernel
  obtain ⟨w, hw, hlen⟩ := System.Reach.exists_of_run hrun
  exact ⟨w, hw, by simpa using hlen, rows_proven hw⟩

end LeetBot
