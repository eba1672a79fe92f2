import LeetBot.Answers
import LeetBot.Ownership

/-!
# One row for each user

`registerUser` counts the rows of a user and inserts one if there is none, in two statements.  Two registrations of
one user that both count before either inserts leave two rows.  Unless a registration counts while another one of
the same user stands between its two statements, every user has at most one row, and the name that a successful
registration has linked stays linked.
-/

namespace LeetBot

open Interleave

/-- The user for whom a program inserts a row next. -/
def insertsFor : Program Unit → Option String
  | .call (.sql (.insert _ (.str id :: _))) _ => some id
  | _ => none

/-- The user whose rows a program counts next. -/
def countsFor : Program Unit → Option String
  | .call (.sql (.selectCount _ id)) _ => some id
  | _ => none

/-- When a thread counts the rows of a user, no thread is about to insert one for that user. -/
def CountsAlone (w : AccountWorld) : Label Choice AccountEvent → Prop
  | .event _ => True
  | .run i _ => ∀ t ∈ w.threads[i]?, ∀ id ∈ countsFor t.2, ∀ t' ∈ w.threads, insertsFor t'.2 ≠ some id

instance (w : AccountWorld) : ∀ l, Decidable (CountsAlone w l)
  | .event _ => inferInstanceAs (Decidable True)
  | .run i _ => inferInstanceAs (Decidable (∀ t ∈ w.threads[i]?, ∀ id ∈ countsFor t.2, ∀ t' ∈ w.threads,
      insertsFor t'.2 ≠ some id))

variable {parse : String → Except String Json} {db : LeetoDB} {ok : AccountWorld → Label Choice AccountEvent → Prop}
  {w w' : AccountWorld} {l : Label Choice AccountEvent}

def rowsOf (w : AccountWorld) (id : String) : List Row := Stmt.rowsWhere w.shared.users .discordId id

/-! ### Threads that are about to insert -/

private theorem insertsFor_eq_some {p : Program Unit} {id : String} (h : insertsFor p = some id) :
    ∃ columns params k, p = .call (.sql (.insert columns (.str id :: params))) k := by
  unfold insertsFor at h
  split at h
  · cases h
    exact ⟨_, _, _, rfl⟩
  · cases h

private theorem inserting_of_insertsFor (hw : Reachable parse db ok w) {i : Nat} {e : AccountEvent} {p : Program Unit}
    {id : String} (hi : w.threads[i]? = some (e, p)) (h : insertsFor p = some id) :
    (∃ event L u, id = toString event.userId ∧ Inserting w i event L u) ∧
      (w.trace i).getLast? = some ⟨.sql (.selectCount .discordId id), .ok (0 : Nat)⟩ := by
  obtain ⟨columns, params, k, rfl⟩ := insertsFor_eq_some h
  have hstep := next_step hw hi
  cases e with
  | slashcommand event =>
    cases hstep with
    | @insert L u text p hdb hreg hread hp hasked htext hver hcount =>
      exact ⟨⟨event, L, u, rfl, k, hi⟩, hcount⟩
  | completion j r cc => cases hstep
  | usernameChange d n => cases hstep

/-- A thread that is about to insert after a step was so before and has not run, or it has counted no row now. -/
private theorem inserts_step (hw : Reachable parse db ok w) (hok : ok w l)
    (hs : (accounts parse db).step w l = some w')
    {j : Nat} {e : AccountEvent} {p : Program Unit} {id : String} (hj : w'.threads[j]? = some (e, p))
    (h : insertsFor p = some id) :
    (w.threads[j]? = some (e, p) ∧ ∀ x, l ≠ .run j x) ∨
      (rowsOf w id = [] ∧ w'.shared = w.shared ∧
        ∃ x k, l = .run j x ∧ w.threads[j]? = some (e, .call (.sql (.selectCount .discordId id)) k)) := by
  obtain ⟨-, hlast⟩ := inserting_of_insertsFor (hw.step hok hs) hj h
  cases l with
  | event e' =>
    obtain ⟨s, q, -, rfl⟩ := System.step_event hs
    rcases World.started_threads.1 hj with hj' | ⟨rfl, rfl, rfl⟩
    · exact .inl ⟨hj', fun x hx => by cases hx⟩
    · rw [World.trace_started, hw.trace_eq_nil (Nat.le_refl _)] at hlast
      cases hlast
  | run i x =>
    obtain ⟨e', o, k, r, s, hi, hx, rfl⟩ := System.step_run hs
    rcases (World.after_threads hi).1 hj with ⟨hne, hj'⟩ | ⟨rfl, rfl, rfl⟩
    · exact .inl ⟨hj', fun x hx => hne (by cases hx; rfl)⟩
    · -- the last operation is the one of this step
      rw [World.trace_after_self, List.getLast?_concat] at hlast
      cases hlast
      obtain ⟨hzero, rfl⟩ := exec_selectCount hx
      exact .inr ⟨List.eq_nil_of_length_eq_zero hzero.symm, rfl, x, k, rfl, hi⟩

/-! ### At most one row -/

/-- A user has at most one row, and none while a thread is about to insert one; only one thread is. -/
structure AtMostOne (w : AccountWorld) : Prop where
  rows : ∀ id, (rowsOf w id).length ≤ 1
  inserting : ∀ (j : Nat) (e : AccountEvent) (p : Program Unit) (id : String), w.threads[j]? = some (e, p) →
    insertsFor p = some id → rowsOf w id = []
  unique : ∀ (i j : Nat) (e e' : AccountEvent) (p p' : Program Unit) (id : String), w.threads[i]? = some (e, p) →
    w.threads[j]? = some (e', p') → insertsFor p = some id → insertsFor p' = some id → i = j

private theorem length_rowsOf_step (hw : Reachable parse db ok w) (hs : (accounts parse db).step w l = some w')
    (id : String) : (rowsOf w' id).length = (rowsOf w id).length ∨
      ∃ i x event L u, l = .run i x ∧ Inserting w i event L u ∧ id = toString event.userId ∧
        (rowsOf w' id).length = (rowsOf w id).length + 1 := by
  unfold rowsOf
  rcases users_step hw hs with hsame | ⟨i, x, event, L, u, hl, hins, hnew⟩ | ⟨i, L, name, d, st, -, hnew⟩
  · rw [hsame]
    exact .inl rfl
  · rw [hnew, Stmt.rowsWhere_append, List.length_append]
    by_cases hid : id = toString event.userId
    · refine .inr ⟨i, x, event, L, u, hl, hins, hid, ?_⟩
      simp [Stmt.rowsWhere, hid]
    · left
      simp [Stmt.rowsWhere, Ne.symm hid]
  · rw [hnew, Stmt.rowsWhere_updateWhere (f := st.storedRow L name d) fun r => rfl, Stmt.length_updateWhere]
    exact .inl rfl

theorem atMostOne_of_reachable (hw : Reachable parse db CountsAlone w) : AtMostOne w := by
  induction hw with
  | refl => exact ⟨fun id => by simp [rowsOf, Stmt.rowsWhere, Accounts.initial], by simp, by simp⟩
  | @step w w' l hw hok hs ih =>
    refine ⟨fun id => ?_, fun j e p id hj hp => ?_, fun i j e e' p p' id hi hj hp hp' => ?_⟩
    · rcases length_rowsOf_step hw hs id with hlen | ⟨i, x, event, L, u, -, ⟨k, hi⟩, hid, hlen⟩
      · rw [hlen]
        exact ih.rows id
      · have hnone := ih.inserting i _ _ id hi (by rw [hid]; rfl)
        rw [hlen, hnone]
        exact Nat.le_refl _
    · rcases inserts_step hw hok hs hj hp with ⟨hold, hidle⟩ | ⟨hnone, hshared, -⟩
      · have hnone := ih.inserting j e p id hold hp
        rcases length_rowsOf_step hw hs id with hlen | ⟨i, x, event, L, u, hl, ⟨k, hi⟩, hid, -⟩
        · rw [hnone] at hlen
          exact List.eq_nil_of_length_eq_zero hlen
        · -- the thread that inserts would be this one
          obtain rfl := ih.unique i j _ _ _ _ id hi hold (by rw [hid]; rfl) hp
          exact absurd hl (hidle x)
      · unfold rowsOf at hnone ⊢
        rw [hshared, hnone]
    · rcases inserts_step hw hok hs hi hp with ⟨hi', -⟩ | ⟨-, -, x, k, hl, hi'⟩ <;>
        rcases inserts_step hw hok hs hj hp' with ⟨hj', -⟩ | ⟨-, -, y, k', hl', hj'⟩
      · exact ih.unique i j e e' p p' id hi' hj' hp hp'
      · subst hl'
        exact absurd hp (hok _ hj' id rfl _ (List.mem_of_getElem? hi'))
      · subst hl
        exact absurd hp' (hok _ hi' id rfl _ (List.mem_of_getElem? hj'))
      · rw [hl] at hl'
        cases hl'
        rfl

/-! ### The name of a user -/

/-- The user has one row, and it has this LeetCode name. -/
def Linked (w : AccountWorld) (id L : String) : Prop :=
  ∃ row, rowsOf w id = [row] ∧ row.str .leetcodeUsername = some L

/-- What has happened in which the LeetCode name of a user occurs. -/
inductive Names : Entry Op Op.Res AccountEvent → String → String → Prop
  | requested (i : Nat) (L name id : String) (n : Nat) :
      Names (.performed i (.request (.profile L name id n)) ()) id L
  | selected (i : Nat) (id : String) (row : Row) (rest : List Row) :
      Names (.performed i (.sql (.select .discordId id)) (.ok (row :: rest))) id (row.getString .leetcodeUsername)
  | inserted (i : Nat) (id u L : String) :
      Names (.performed i (.sql (.insert LeetoDB.insertColumns [.str id, .str u, .str L])) (.ok ())) id L

private theorem Linked.of_users {id L : String} (h : Linked w id L) (husers : w'.shared.users = w.shared.users) :
    Linked w' id L := by
  unfold Linked rowsOf
  rw [husers]
  exact h

/-- A link is kept when every name that occurs for the user is that of the link. -/
private theorem linked_step (hw : Reachable parse db CountsAlone w) (hs : (accounts parse db).step w l = some w')
    (hnamed : ∀ x ∈ w.history, ∀ id L, Names x id L → Linked w id L) {id L : String} (h : Linked w id L) :
    Linked w' id L := by
  obtain ⟨row, hrow, hL⟩ := h
  rcases users_step hw hs with hsame | ⟨i, x, event, L', u, -, ⟨k, hi⟩, hnew⟩ |
    ⟨i, L', name, d, st, ⟨j, n, cc, k, hi⟩, hnew⟩
  · exact Linked.of_users ⟨row, hrow, hL⟩ hsame
  · -- a thread that inserts a row for this user would have seen none
    have hother : id ≠ toString event.userId := by
      intro hid
      rw [(atMostOne_of_reachable hw).inserting i _ _ id hi (by rw [hid]; rfl)] at hrow
      cases hrow
    refine ⟨row, ?_, hL⟩
    unfold rowsOf at hrow ⊢
    rw [hnew, Stmt.rowsWhere_append, hrow]
    simp [Stmt.rowsWhere, Ne.symm hother]
  · unfold Linked rowsOf
    have hid : row.str .discordId = some id := (Stmt.mem_rowsWhere.1 (hrow ▸ List.mem_singleton_self row)).2
    rw [hnew, Stmt.rowsWhere_updateWhere (f := st.storedRow L' name d) fun r => rfl]
    unfold rowsOf at hrow
    rw [hrow]
    by_cases hd : id = d
    · -- the name that is written occurs in the request
      subst hd
      obtain ⟨m, hissued⟩ := issued_of_completed hw (hw.arrived_iff.2 ⟨_, hi⟩)
      obtain ⟨row', hrow', hL'⟩ := hnamed _ hissued id L' (.requested m L' name id n)
      unfold rowsOf at hrow'
      rw [hrow] at hrow'
      cases hrow'
      rw [hL] at hL'
      cases hL'
      exact ⟨st.storedRow L name id row, by simp [Stmt.updateWhere, hid], rfl⟩
    · exact ⟨row, by simp [Stmt.updateWhere, hid, hd], hL⟩

theorem linked_of_named (hw : Reachable parse db CountsAlone w) {x : Entry Op Op.Res AccountEvent}
    (hx : x ∈ w.history) {id L : String} (h : Names x id L) : Linked w id L := by
  refine hw.forall_history (P := fun w x => ∀ id L, Names x id L → Linked w id L) ?_ ?_ ?_ x hx id L h
  · intro w e s p _ _ _ _ id L h
    cases h
  · intro w i x e o k r s hreach _ hi hx hnamed id L h
    cases h with
    | requested i L name id n =>
      have hlinked : Linked w id L := by
        have hstep := next_step hreach hi
        cases e with
        | slashcommand event =>
          cases hstep with
          | profile hread hrow hL hne =>
            subst hL
            exact hnamed _ (World.mem_trace.1 hrow) _ _ (.selected _ _ _ _)
        | completion m q cc =>
          obtain ⟨m', hissued⟩ := issued_of_completed hreach (hreach.arrived_iff.2 ⟨_, hi⟩)
          generalize hq : Request.profile L name id n = q' at hstep
          cases hstep with
          | again n' =>
            cases q with
            | profile L' name' id' m' =>
              cases hq
              exact hnamed _ hissued _ _ (.requested _ _ _ _ _)
            | _ => cases hq
        | usernameChange d n => cases hstep
      cases hx
      exact hlinked.of_users rfl
    | selected i id row rest =>
      obtain ⟨hrows, rfl⟩ := exec_select hx
      have hone : (row :: rest).length ≤ 1 := hrows ▸ (atMostOne_of_reachable hreach).rows id
      obtain rfl : rest = [] := List.eq_nil_of_length_eq_zero (by simpa using hone)
      -- the name is not NULL
      have hmem : row ∈ w.shared.users := (Stmt.mem_rowsWhere.1 (hrows ▸ List.mem_singleton_self row)).1
      obtain ⟨d, L, -, hL, -⟩ := (owned_of_reachable hreach).rows row hmem
      refine ⟨row, hrows.symm, ?_⟩
      simp [Row.getString, hL]
    | inserted i id u L =>
      have hnone := (atMostOne_of_reachable hreach).inserting i _ _ id hi rfl
      cases x with
      | fault => cases hx
      | ok =>
        cases hx
        refine ⟨LeetoDB.insertedRow id u L, ?_, rfl⟩
        unfold rowsOf at hnone ⊢
        show Stmt.rowsWhere (w.shared.users ++ [LeetoDB.insertedRow id u L]) .discordId id = _
        rw [Stmt.rowsWhere_append, hnone]
        simp [Stmt.rowsWhere]
  · intro w l w' x hreach _ hs hnamed hP id L h
    exact linked_step hreach hs hnamed (hP id L h)

/-- A registration that has been told so has inserted a row. -/
private theorem inserted_of_registered (hw : Reachable parse db ok w) {i : Nat} {event : SlashCommand} {L : String}
    (he : .arrived i (.slashcommand event) ∈ w.history) (hreg : event.registers = some L)
    (h : .performed i (.edit registeredSuccessfully) () ∈ w.history) :
    db.connected ∧ ∃ u, .performed i (.sql (.insert LeetoDB.insertColumns
      [.str (toString event.userId), .str u, .str L])) (.ok ()) ∈ w.history := by
  obtain ⟨e, t, he', hstep, ht⟩ := performed_step hw h
  cases hw.arrived_unique he he'
  generalize hm : registeredSuccessfully = m at hstep
  cases hstep with
  | info hinfo =>
    rw [SlashCommand.commandName_of_registers hreg] at hinfo
    exact absurd hinfo (by decide)
  | notice hembeds herror hne => exact absurd hm.symm hne
  | @registered L' u hreg' hinsert =>
    rw [hreg] at hreg'
    cases hreg'
    have hperformed := World.mem_trace.1 (ht.subset (List.mem_append_left _ hinsert))
    obtain ⟨e, t', he', hstep', -⟩ := performed_step hw hperformed
    cases hw.arrived_unique he he'
    cases hstep' with
    | insert hdb => exact ⟨hdb, u, hperformed⟩
  | profileError => exact absurd hm (by decide)
  | profileShown => exact absurd (congrArg Message.embeds hm).symm (profileMessage_embeds_ne _ _)

/-- In every run in which registrations count alone, every user has at most one row, and a user who has been told
that a name is registered is known by this name. -/
theorem one_row_of_countsAlone (hw : Reachable parse db CountsAlone w) :
    (∀ id, (rowsOf w id).length ≤ 1) ∧
      ∀ i event L, .arrived i (.slashcommand event) ∈ w.history → event.registers = some L →
        .performed i (.edit registeredSuccessfully) () ∈ w.history →
        answer parse db (db.getLeetcodeUsername (toString event.userId)) w.shared = some (some L) := by
  refine ⟨(atMostOne_of_reachable hw).rows, fun i event L he hreg h => ?_⟩
  obtain ⟨hdb, u, hinsert⟩ := inserted_of_registered hw he hreg h
  obtain ⟨row, hrow, hL⟩ := linked_of_named hw hinsert (.inserted i (toString event.userId) u L)
  unfold rowsOf at hrow
  rw [answer, undisturbed_getLeetcodeUsername hdb, hrow]
  simp [Row.getString, hL]

/-- A run in which a user registers and updates the profile. -/
theorem one_row_registered :
    ∃ w, Reachable sampleParse ⟨true⟩ CountsAlone w ∧ (rowsOf w "1").length ≤ 1 ∧
      answer sampleParse ⟨true⟩ (LeetoDB.getLeetcodeUsername ⟨true⟩ (toString (1 : Snowflake))) w.shared =
        some (some "a") := by
  have hrun : ((accounts sampleParse ⟨true⟩).run CountsAlone AccountWorld.initial registerAndUpdate).any
      (fun w => w.threads[1]?.map Prod.fst = some (registerCommand 1 "a") ∧ registeredSuccessfully ∈ replies w 1) =
        true := by decide +kernel
  obtain ⟨w, hw, htest⟩ := System.Reach.exists_of_run hrun
  obtain ⟨hthread, hreply⟩ := of_decide_eq_true htest
  have harrived : .arrived 1 (registerCommand 1 "a") ∈ w.history := hw.arrived_of_thread hthread
  obtain ⟨hone, hname⟩ := one_row_of_countsAlone hw
  have hfirst := hname 1 _ "a" harrived (by decide) (mem_replies.1 hreply)
  dsimp only at hfirst
  exact ⟨w, hw, hone "1", hfirst⟩

/-- A run in which two registrations of one user both count before either inserts. -/
def registerTwice : List (Label Choice AccountEvent) :=
  [.event (.usernameChange 1 "ann"), .event (registerCommand 1 "a"), .event (registerCommand 1 "b")] ++
    proceed 1 5 ++ proceed 2 5 ++
    [.event (.completion 0 (.description "a" 0 0) ⟨200, describedBody⟩)] ++ proceed 3 1 ++
    [.event (.completion 1 (.description "b" 1 0) ⟨200, describedBody⟩)] ++ proceed 4 1 ++
    proceed 1 2 ++ proceed 2 2 ++ proceed 1 2 ++ proceed 2 2

/-- Both are told that they have succeeded, and the user has two rows and the name of the first. -/
theorem two_rows_registered :
    ∃ w, Reachable sampleParse ⟨true⟩ (fun _ _ => True) w ∧ (rowsOf w "1").length = 2 ∧
      .arrived 2 (registerCommand 1 "b") ∈ w.history ∧
      .performed 2 (.edit registeredSuccessfully) () ∈ w.history ∧
      answer sampleParse ⟨true⟩ (LeetoDB.getLeetcodeUsername ⟨true⟩ "1") w.shared = some (some "a") := by
  have hrun : ((accounts sampleParse ⟨true⟩).run (fun _ _ => True) AccountWorld.initial registerTwice).any
      (fun w => (rowsOf w "1").length = 2 ∧ w.threads[2]?.map Prod.fst = some (registerCommand 1 "b") ∧
        registeredSuccessfully ∈ replies w 2 ∧
        answer sampleParse ⟨true⟩ (LeetoDB.getLeetcodeUsername ⟨true⟩ "1") w.shared = some (some "a")) =
          true := by decide +kernel
  obtain ⟨w, hw, htest⟩ := System.Reach.exists_of_run hrun
  obtain ⟨hlen, hthread, hreply, hname⟩ := of_decide_eq_true htest
  exact ⟨w, hw, hlen, hw.arrived_of_thread hthread, mem_replies.1 hreply, hname⟩

end LeetBot
