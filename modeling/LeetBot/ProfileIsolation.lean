import LeetBot.Ownership

/-!
# Whose profile is shown

`/leetcode profile` reads the table by the current Discord username, while the rows belong to Discord ids.  A name
travels from the cache through threads and requests into the rows, and it stays there when its user takes another
name; whoever takes the name next is shown the row, although usernames are distinct at any moment.  As long as a user
takes a name only when nothing carries it for somebody else, every profile shown is that of the user who asked.
-/

namespace LeetBot

open Interleave

variable {parse : String → Except String Json} {db : LeetoDB} {ok : AccountWorld → Label Choice AccountEvent → Prop}
  {w w' : AccountWorld} {l : Label Choice AccountEvent} {n id : String}

/-! ### Carriers of a name -/

/-- Whether thread `i` has read that the name of the user is `n`. -/
def hasRead (w : AccountWorld) (i : Nat) (userId : Snowflake) (n : String) : Bool :=
  (w.trace i).any fun
    | ⟨.memberUsername d, (username : Option String)⟩ => d = userId ∧ username = some n
    | _ => false

/-- The user for whom a request carries the name. -/
def Request.carries (n : String) : Request → Option String
  | .profile _ discordUsername discordId _ => if discordUsername = n then some discordId else none
  | _ => none

/-- The user for whom a thread that is not done carries the name. -/
def threadCarries (w : AccountWorld) (n : String) (i : Nat) : Option String :=
  match w.threads[i]? with
  | some (.slashcommand event, .call _ _) =>
      if hasRead w i event.userId n then some (toString event.userId) else none
  | some (.completion _ r _, .call _ _) => r.carries n
  | _ => none

/-- The users for whom the name is in a row, in a request in flight or in a thread. -/
def carriers (w : AccountWorld) (n : String) : List String :=
  (Stmt.rowsWhere w.shared.users .discordUsername n).filterMap (·.str .discordId) ++
    (w.shared.inflight.filterMap fun r => r.bind (Request.carries n)) ++
    (List.range w.threads.length).filterMap (threadCarries w n)

/-- No other user has the name. -/
def Accounts.free (a : Accounts) (userId : Snowflake) (username : String) : Bool :=
  a.members.all fun m => m.1 == userId || m.2 != username

/-- Usernames stay distinct: whoever takes a name is the only user who has it. -/
def TakesFreeName (w : AccountWorld) : Label Choice AccountEvent → Prop
  | .event (.usernameChange userId username) => w.shared.free userId username
  | _ => True

/-- Whoever takes a name is the only user who has it, and the only one for whom it is carried. -/
def TakesUnusedName (w : AccountWorld) : Label Choice AccountEvent → Prop
  | .event (.usernameChange userId username) =>
      w.shared.free userId username ∧ ∀ id ∈ carriers w username, id = toString userId
  | _ => True

instance (w : AccountWorld) : ∀ l, Decidable (TakesFreeName w l)
  | .event (.usernameChange userId username) => inferInstanceAs (Decidable (w.shared.free userId username = true))
  | .event (.slashcommand _) => inferInstanceAs (Decidable True)
  | .event (.completion _ _ _) => inferInstanceAs (Decidable True)
  | .run _ _ => inferInstanceAs (Decidable True)

instance (w : AccountWorld) : ∀ l, Decidable (TakesUnusedName w l)
  | .event (.usernameChange userId username) =>
      inferInstanceAs (Decidable (w.shared.free userId username = true ∧ ∀ id ∈ carriers w username,
        id = toString userId))
  | .event (.slashcommand _) => inferInstanceAs (Decidable True)
  | .event (.completion _ _ _) => inferInstanceAs (Decidable True)
  | .run _ _ => inferInstanceAs (Decidable True)

private theorem eq_of_free {a : Accounts} {d d' : Snowflake} (hfree : a.free d n) (h : a.members.lookup d' = some n) :
    d' = d := by
  obtain ⟨l₁, l₂, hmembers, -⟩ := List.lookup_eq_some_iff.1 h
  have hmem : (d', n) ∈ a.members := by
    rw [hmembers]
    simp
  simpa using List.all_eq_true.1 hfree _ hmem

private theorem hasRead_of_mem {i : Nat} {d : Snowflake} (h : ⟨.memberUsername d, some n⟩ ∈ w.trace i) :
    hasRead w i d n :=
  List.any_eq_true.2 ⟨_, h, by simp⟩

@[simp] theorem Request.carries_profile {L : String} {k : Nat} : (profile L n id k).carries n = some id :=
  if_pos rfl

/-- Where a name can be, with the user to whom it belongs there. -/
inductive Holds (w : AccountWorld) (n : String) : String → Prop
  | member {d : Snowflake} (h : w.shared.members.lookup d = some n) : Holds w n (toString d)
  | row {r : Row} {id : String} (hr : r ∈ w.shared.users) (hn : r.str .discordUsername = some n)
      (hid : r.str .discordId = some id) : Holds w n id
  | inflight {L id : String} {k : Nat} (h : some (Request.profile L n id k) ∈ w.shared.inflight) : Holds w n id
  | command {i : Nat} {event : SlashCommand} {o : Op} {k : o.Res → Program Unit}
      (hi : w.threads[i]? = some (.slashcommand event, .call o k))
      (hread : ⟨.memberUsername event.userId, some n⟩ ∈ w.trace i) : Holds w n (toString event.userId)
  | completion {i j m : Nat} {L id : String} {cc : HttpCompletion} {o : Op} {k : o.Res → Program Unit}
      (hi : w.threads[i]? = some (.completion j (.profile L n id m) cc, .call o k)) : Holds w n id

/-- A name is current or carried wherever it is. -/
private theorem holds_cases (h : Holds w n id) :
    (∃ d, id = toString d ∧ w.shared.members.lookup d = some n) ∨ id ∈ carriers w n := by
  have hthread : ∀ i, threadCarries w n i = some id → i < w.threads.length → id ∈ carriers w n := by
    intro i hi hlt
    exact List.mem_append_right _ (List.mem_filterMap.2 ⟨i, List.mem_range.2 hlt, hi⟩)
  cases h with
  | member h => exact .inl ⟨_, rfl, h⟩
  | row hr hn hid =>
    right
    refine List.mem_append_left _ (List.mem_append_left _ (List.mem_filterMap.2 ⟨_, ?_, hid⟩))
    exact Stmt.mem_rowsWhere.2 ⟨hr, hn⟩
  | @inflight L id k h =>
    right
    refine List.mem_append_left _ (List.mem_append_right _ (List.mem_filterMap.2 ⟨_, h, ?_⟩))
    exact Request.carries_profile (L := L) (k := k)
  | command hi hread =>
    right
    refine hthread _ ?_ (List.getElem?_eq_some_iff.1 hi).1
    simp [threadCarries, hi, hasRead_of_mem hread]
  | completion hi =>
    right
    refine hthread _ ?_ (List.getElem?_eq_some_iff.1 hi).1
    simp only [threadCarries, hi]
    exact Request.carries_profile

/-! ### How a name travels -/

/-- The row that holds a name was there before, or the name was in the thread that has written it. -/
private theorem holds_of_row (hw : Reachable parse db ok w) (hs : (accounts parse db).step w l = some w') {r : Row}
    (hr : r ∈ w'.shared.users) (hn : r.str .discordUsername = some n) (hid : r.str .discordId = some id) :
    Holds w n id := by
  rcases users_step hw hs with hsame | ⟨i, x, event, L, u, -, ⟨k, hi⟩, hnew⟩ |
    ⟨i, L, name, d, st, ⟨j, m, cc, k, hi⟩, hnew⟩
  · exact .row (hsame ▸ hr) hn hid
  · rw [hnew, List.mem_append, List.mem_singleton] at hr
    rcases hr with hr | rfl
    · exact .row hr hn hid
    · have hstep : CommandStep db event (w.trace i) _ := next_step hw hi
      cases hn
      cases hid
      cases hstep with
      | insert hdb hreg hread => exact .command hi hread
  · rw [hnew] at hr
    rcases Stmt.mem_updateWhere.1 hr with ⟨hr, -⟩ | ⟨r₀, -, hd, rfl⟩
    · exact .row hr hn hid
    · rw [FetchedStats.storedRow_discordUsername] at hn
      rw [FetchedStats.storedRow_discordId, hd] at hid
      cases hn
      cases hid
      exact .completion hi

private theorem holds_of_issued (hw : Reachable parse db ok w) {i : Nat} {e : AccountEvent} {L : String} {m : Nat}
    {k : Op.Res (.request (.profile L n id m)) → Program Unit}
    (hi : w.threads[i]? = some (e, .call (.request (.profile L n id m)) k)) : Holds w n id := by
  have hstep := next_step hw hi
  cases e with
  | slashcommand event =>
    cases hstep with
    | profile hread => exact .command hi hread
  | completion j q cc =>
    generalize hq : Request.profile L n id m = q' at hstep
    cases hstep with
    | again n' =>
      cases q with
      | profile L' name' id' m' =>
        cases hq
        exact .completion hi
      | _ => cases hq
  | usernameChange d n => cases hstep

private theorem holds_of_inflight (hw : Reachable parse db ok w) (hs : (accounts parse db).step w l = some w')
    {L : String} {m : Nat} (h : some (.profile L n id m) ∈ w'.shared.inflight) : Holds w n id := by
  cases l with
  | event e =>
    obtain ⟨s, p, ha, rfl⟩ := System.step_event hs
    exact .inflight (arrive_inflight ha h)
  | run i x =>
    obtain ⟨e, o, k, r, s, hi, hx, rfl⟩ := System.step_run hs
    rw [World.after_shared] at h
    rcases exec_inflight hx with hsame | ⟨q, rfl, hnew⟩
    · exact .inflight (hsame ▸ h)
    · rw [hnew, List.mem_append, List.mem_singleton] at h
      rcases h with h | h
      · exact .inflight h
      · cases h
        exact holds_of_issued hw hi

/-- A command that holds a name did so before, or has read it from the cache. -/
private theorem holds_of_command (hw : Reachable parse db ok w) (hs : (accounts parse db).step w l = some w')
    {i : Nat} {event : SlashCommand} {o : Op} {k : o.Res → Program Unit}
    (hi : w'.threads[i]? = some (.slashcommand event, .call o k))
    (hread : ⟨.memberUsername event.userId, some n⟩ ∈ w'.trace i) : Holds w n (toString event.userId) := by
  cases l with
  | event e =>
    obtain ⟨s, p, ha, rfl⟩ := System.step_event hs
    rw [World.trace_started] at hread
    rcases World.started_threads.1 hi with hi' | ⟨rfl, -, -⟩
    · exact .command hi' hread
    · rw [hw.trace_eq_nil (Nat.le_refl _)] at hread
      cases hread
  | run j x =>
    obtain ⟨e, o', k', r, s, hj, hx, rfl⟩ := System.step_run hs
    rcases (World.after_threads hj).1 hi with ⟨hne, hi'⟩ | ⟨rfl, rfl, -⟩
    · rw [World.trace_after_of_ne hne] at hread
      exact .command hi' hread
    · rw [World.trace_after_self, List.mem_append, List.mem_singleton] at hread
      rcases hread with hread | hread
      · exact .command hj hread
      · cases hread
        exact .member (exec_memberUsername hx)

private theorem holds_of_completion (hs : (accounts parse db).step w l = some w') {i j m : Nat} {L : String}
    {cc : HttpCompletion} {o : Op} {k : o.Res → Program Unit}
    (hi : w'.threads[i]? = some (.completion j (.profile L n id m) cc, .call o k)) : Holds w n id := by
  cases l with
  | event e =>
    obtain ⟨s, p, ha, rfl⟩ := System.step_event hs
    rcases World.started_threads.1 hi with hi' | ⟨-, rfl, -⟩
    · exact .completion hi'
    · rcases arrive_cases ha with ⟨event, he, -⟩ | ⟨k, r, cc, he, hr, -⟩ | ⟨d, n, he, -⟩
      · cases he
      · cases he
        exact .inflight hr
      · cases he
  | run i' x =>
    obtain ⟨e, o', k', r, s, hj, hx, rfl⟩ := System.step_run hs
    rcases (World.after_threads hj).1 hi with ⟨-, hi'⟩ | ⟨rfl, rfl, -⟩
    · exact .completion hi'
    · exact .completion hj

private theorem holds_step (hw : Reachable parse db ok w) (hs : (accounts parse db).step w l = some w')
    (h : Holds w' n id) : Holds w n id ∨ ∃ d, l = .event (.usernameChange d n) ∧ id = toString d := by
  cases h with
  | @member d h =>
    rcases members_step hs with hsame | ⟨d', n', rfl, hnew⟩
    · exact .inl (.member (hsame ▸ h))
    · rw [hnew, lookup_rename] at h
      split at h
      · rename_i hd
        subst hd
        cases h
        exact .inr ⟨d, rfl, rfl⟩
      · exact .inl (.member h)
  | row hr hn hid => exact .inl (holds_of_row hw hs hr hn hid)
  | inflight h => exact .inl (holds_of_inflight hw hs h)
  | command hi hread => exact .inl (holds_of_command hw hs hi hread)
  | completion hi => exact .inl (holds_of_completion hs hi)

private theorem holder_unique (hw : Reachable parse db TakesUnusedName w) {id' : String} (h : Holds w n id)
    (h' : Holds w n id') : id = id' := by
  induction hw generalizing n id id' with
  | refl => cases h <;> simp_all [Accounts.initial]
  | @step w w' l hw hok hs ih =>
    -- a user who takes a name is the only holder before
    have hown : ∀ d, l = .event (.usernameChange d n) → ∀ id, Holds w n id → id = toString d := by
      rintro d rfl id h
      obtain ⟨hfree, hunused⟩ := hok
      rcases holds_cases h with ⟨d', rfl, hmember⟩ | hcarried
      · rw [eq_of_free hfree hmember]
      · exact hunused id hcarried
    rcases holds_step hw hs h with h | ⟨d, hl, rfl⟩ <;> rcases holds_step hw hs h' with h' | ⟨d', hl', rfl⟩
    · exact ih h h'
    · exact hown d' hl' id h
    · exact (hown d hl id' h').symm
    · rw [hl] at hl'
      cases hl'
      rfl

/-! ### The profiles shown -/

/-- A row that a command has selected by name is a row of its user. -/
private theorem selected_own_row (hw : Reachable parse db TakesUnusedName w) {i : Nat} {row : Row} {rest : List Row}
    (h : .performed i (.sql (.select .discordUsername n)) (.ok (row :: rest)) ∈ w.history) :
    ∃ event, .arrived i (.slashcommand event) ∈ w.history ∧ row.str .discordId = some (toString event.userId) := by
  refine hw.forall_answers (P := fun w i answer => ∀ row rest, answer = .ok (row :: rest) →
    ∃ event, .arrived i (.slashcommand event) ∈ w.history ∧ row.str .discordId = some (toString event.userId))
    ?_ ?_ h row rest rfl
  · rintro w i x e k _ s hreach _ hi hx row rest rfl
    have hstep := next_step hreach hi
    cases e with
    | slashcommand event =>
      cases hstep with
      | selectName hread =>
        have hmem : row ∈ Stmt.rowsWhere w.shared.users .discordUsername n := by
          rw [← (exec_select hx).1]
          exact List.mem_cons_self
        obtain ⟨hrow, hn⟩ := Stmt.mem_rowsWhere.1 hmem
        obtain ⟨d, L, hid, -⟩ := (owned_of_reachable hreach).rows row hrow
        -- the row and the command hold the same name
        have hsame := holder_unique hreach (.row hrow hn hid) (.command hi hread)
        refine ⟨event, World.mem_after.2 (.inl (hreach.arrived_iff.2 ⟨_, hi⟩)), ?_⟩
        rw [hid, hsame]
    | completion j r cc => cases hstep
    | usernameChange d n => cases hstep
  · intro w l w' i answer _ hs hP row rest heq
    obtain ⟨event, he, hid⟩ := hP row rest heq
    exact ⟨event, System.history_subset hs he, hid⟩

/-- In every run in which users take only names that nothing carries for somebody else, an answer of `/leetcode` from
the table shows the profile in a row of the user who asked. -/
theorem profile_of_own_row (hw : Reachable parse db TakesUnusedName w) {i : Nat} {event : SlashCommand}
    {m : Message} (he : .arrived i (.slashcommand event) ∈ w.history) (hcmd : event.commandName = "leetcode")
    (h : .performed i (.edit m) () ∈ w.history) (hm : m.embeds ≠ []) :
    ∃ L n row rest, m = profileMessage L (LeetoDB.rowProfile row) ∧
      .performed i (.sql (.select .discordUsername n)) (.ok (row :: rest)) ∈ w.history ∧
      row.str .discordId = some (toString event.userId) := by
  obtain ⟨e, t, he', hstep, ht⟩ := performed_step hw h
  cases hw.arrived_unique he he'
  cases hstep with
  | info hinfo =>
    rw [hcmd] at hinfo
    exact absurd hinfo (by decide)
  | notice hembeds => exact absurd hembeds hm
  | registered => exact absurd rfl hm
  | profileError => exact absurd rfl hm
  | @profileShown L n row rest hselect =>
    have hperformed := World.mem_trace.1 (ht.subset (List.mem_append_left _ hselect))
    obtain ⟨event', he', hid⟩ := selected_own_row hw hperformed
    cases hw.arrived_unique he he'
    exact ⟨L, n, row, rest, rfl, hperformed, hid⟩

/-- A run in which a user registers, updates the profile and looks at it. -/
theorem profile_of_own_row_shown :
    ∃ w m, Reachable sampleParse ⟨true⟩ TakesUnusedName w ∧ .performed 5 (.edit m) () ∈ w.history ∧ m.embeds ≠ [] ∧
      ∃ L n row rest, m = profileMessage L (LeetoDB.rowProfile row) ∧
        .performed 5 (.sql (.select .discordUsername n)) (.ok (row :: rest)) ∈ w.history ∧
        row.str .discordId = some (toString (1 : Snowflake)) := by
  have hrun : ((accounts sampleParse ⟨true⟩).run TakesUnusedName AccountWorld.initial
      (registerAndUpdate ++ [.event (leetcodeCommand 1 "profile")] ++ proceed 5 6)).any
      (fun w => w.threads[5]?.map Prod.fst = some (leetcodeCommand 1 "profile") ∧
        ∃ m ∈ replies w 5, m.embeds ≠ []) = true := by decide +kernel
  obtain ⟨w, hw, htest⟩ := System.Reach.exists_of_run hrun
  obtain ⟨hthread, m, hreply, hm⟩ := of_decide_eq_true htest
  have harrived : .arrived 5 (leetcodeCommand 1 "profile") ∈ w.history := hw.arrived_of_thread hthread
  have hperformed := mem_replies.1 hreply
  obtain ⟨L, n, row, rest, hmessage, hselected, hid⟩ := profile_of_own_row hw harrived rfl hperformed hm
  exact ⟨w, m, hw, hperformed, hm, L, n, row, rest, hmessage, hselected, hid⟩

/-- The users of the rows that thread `i` has selected by a username and read. -/
def selectedIds (w : AccountWorld) (i : Nat) : List (Option String) :=
  (w.trace i).filterMap fun
    | ⟨.sql (.select .discordUsername _), (.ok (row :: _) : Except SqlException (List Row))⟩ =>
        some (row.str .discordId)
    | _ => none

private theorem mem_selectedIds {i : Nat} {row : Row} {rest : List Row}
    (h : .performed i (.sql (.select .discordUsername n)) (.ok (row :: rest)) ∈ w.history) :
    row.str .discordId ∈ selectedIds w i :=
  List.mem_filterMap.2 ⟨_, World.mem_trace.2 h, rfl⟩

/-- User 1 gives up the name `ann` after an update of the profile, and user 2 takes it, registers and asks for the
profile. -/
def nameTaken : List (Label Choice AccountEvent) :=
  registerAndUpdate ++ [.event (.usernameChange 1 "bob"), .event (.usernameChange 2 "ann"),
    .event (registerCommand 2 "b")] ++ proceed 7 5 ++
    [.event (.completion 2 (.description "b" 1 0) ⟨200, describedBody⟩)] ++ proceed 8 1 ++ proceed 7 4 ++
    [.event (leetcodeCommand 2 "profile")] ++ proceed 9 6

/-- Although usernames are distinct, user 2 is shown a profile that was not read from a row of user 2. -/
theorem profile_of_other_row_shown :
    ∃ w m, Reachable sampleParse ⟨true⟩ TakesFreeName w ∧ .arrived 9 (leetcodeCommand 2 "profile") ∈ w.history ∧
      .performed 9 (.edit m) () ∈ w.history ∧ m.embeds ≠ [] ∧
      ∀ n row rest, .performed 9 (.sql (.select .discordUsername n)) (.ok (row :: rest)) ∈ w.history →
        row.str .discordId ≠ some (toString (2 : Snowflake)) := by
  have hrun : ((accounts sampleParse ⟨true⟩).run TakesFreeName AccountWorld.initial nameTaken).any
      (fun w => w.threads[9]?.map Prod.fst = some (leetcodeCommand 2 "profile") ∧
        (∃ m ∈ replies w 9, m.embeds ≠ []) ∧
        ∀ id ∈ selectedIds w 9, id ≠ some (toString (2 : Snowflake))) = true := by decide +kernel
  obtain ⟨w, hw, htest⟩ := System.Reach.exists_of_run hrun
  obtain ⟨hthread, ⟨m, hreply, hm⟩, hids⟩ := of_decide_eq_true htest
  exact ⟨w, m, hw, hw.arrived_of_thread hthread, mem_replies.1 hreply, hm,
    fun n row rest h => hids _ (mem_selectedIds h)⟩

end LeetBot
