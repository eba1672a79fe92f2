import LeetBot.ProfileIsolation
import LeetBot.Refinement
import LeetBot.UniqueRegistration

/-!
# The rows of one user

Commands and completions work for one Discord user each.  The rows of a user are what the statements of the threads
that work for the user have made of an empty table; the statements of the other threads do not touch them.
-/

namespace LeetBot

open Interleave

/-- The Discord id for which a thread uses the table. -/
def AccountEvent.actor : AccountEvent → Option String
  | .slashcommand event => some (toString event.userId)
  | .completion _ (.profile _ _ discordId _) _ => some discordId
  | _ => none

/-- What an operation makes of a table: a statement that has succeeded changes it. -/
def replayStatement (rows : List Row) : (Σ o : Op, o.Res) → List Row
  | ⟨.sql s, (.ok _ : Except SqlException s.Result)⟩ => (s.exec rows).2
  | _ => rows

section Statements

variable {users : List Row} {id id' L n : String}

private theorem rowsWhere_insertedRow :
    Stmt.rowsWhere (users ++ [LeetoDB.insertedRow id' n L]) .discordId id =
      Stmt.rowsWhere users .discordId id ++ if id' = id then [LeetoDB.insertedRow id' n L] else [] := by
  rw [Stmt.rowsWhere_append]
  by_cases h : id' = id
  · simp [Stmt.rowsWhere, h]
  · simp [Stmt.rowsWhere, h]

private theorem rowsWhere_storedRow {st : FetchedStats} :
    Stmt.rowsWhere (Stmt.updateWhere users .discordId id' (st.storedRow L n id')) .discordId id =
      if id' = id then Stmt.updateWhere (Stmt.rowsWhere users .discordId id) .discordId id' (st.storedRow L n id')
      else Stmt.rowsWhere users .discordId id := by
  have hkeep : ∀ r, (st.storedRow L n id' r).str .discordId = r.str .discordId := fun r => rfl
  rw [Stmt.rowsWhere_updateWhere hkeep]
  by_cases h : id' = id
  · rw [if_pos h]
  · rw [if_neg h]
    unfold Stmt.updateWhere
    conv_rhs => rw [← List.map_id (Stmt.rowsWhere users .discordId id)]
    apply List.map_congr_left
    intro r hr
    have hid := (Stmt.mem_rowsWhere.1 hr).2
    rw [if_neg]
    · rfl
    · intro hid'
      rw [hid] at hid'
      exact h (Option.some.inj hid').symm

end Statements

variable {parse : String → Except String Json} {db : LeetoDB} {ok : AccountWorld → Label Choice AccountEvent → Prop}
  {w : AccountWorld}

/-- What an operation does to the rows of a user, by the user for whom it is performed. -/
private theorem rowsWhere_exec (hw : Reachable parse db ok w) {i : Nat} {e : AccountEvent} {o : Op} {x : Choice}
    {k : o.Res → Program Unit} {r : o.Res} {s : Accounts} (hi : w.threads[i]? = some (e, .call o k))
    (hx : Accounts.exec o x w.shared = some (r, s)) (id : String) :
    Stmt.rowsWhere s.users .discordId id =
      if e.actor = some id then replayStatement (rowsOf w id) ⟨o, r⟩ else rowsOf w id := by
  have hstep := next_step hw hi
  cases o with
  | sql st =>
    cases x with
    | fault =>
      cases hx
      exact (ite_self _).symm
    | ok =>
      cases hx
      cases e with
      | slashcommand event =>
        simp only [AccountEvent.actor, Option.some.injEq]
        cases hstep with
        | insert =>
          show Stmt.rowsWhere (w.shared.users ++ [LeetoDB.insertedRow _ _ _]) .discordId id = _
          rw [rowsWhere_insertedRow]
          split
          · rfl
          · exact List.append_nil _
        | _ => exact (ite_self _).symm
      | completion j q cc =>
        cases hstep with
        | selectOwn => exact (ite_self _).symm
        | update hq hread =>
          subst hq
          simp only [AccountEvent.actor, Option.some.injEq]
          exact rowsWhere_storedRow
      | usernameChange d n => cases hstep
  | _ =>
    have hsame : s.users = w.shared.users := by
      rcases exec_users hx with hsame | ⟨st, ho, -⟩
      · exact hsame
      · cases ho
    rw [hsame]
    exact (ite_self _).symm

/-- In every run, the rows of a user are what the statements of the threads that work for the user have made of an
empty table. -/
theorem rows_of_ownTrace (hw : Reachable parse db ok w) (id : String) :
    rowsOf w id = (w.ownTrace AccountEvent.actor id).foldl replayStatement [] := by
  refine hw.view_eq_foldl AccountEvent.actor id (fun a => Stmt.rowsWhere a.users .discordId id) replayStatement
    ?_ ?_ ?_
  · intro w e s p _ ha
    show Stmt.rowsWhere s.users .discordId id = _
    rw [arrive_users ha]
  · intro w i x e o k r s hw hi hx he
    exact (rowsWhere_exec hw hi hx id).trans (if_pos he)
  · intro w i x e o k r s hw hi hx he
    exact (rowsWhere_exec hw hi hx id).trans (if_neg he)

/-- A run in which two users have come to their rows. -/
theorem rows_of_ownTrace_two :
    ∃ w, Reachable sampleParse ⟨true⟩ (fun _ _ => True) w ∧ w.shared.users.length = 2 ∧
      (rowsOf w "2").map (·.str .leetcodeUsername) = [some "b"] ∧
      rowsOf w "2" = (w.ownTrace AccountEvent.actor "2").foldl replayStatement [] := by
  have hrun : ((accounts sampleParse ⟨true⟩).run (fun _ _ => True) AccountWorld.initial nameTaken).any
      (fun w => w.shared.users.length = 2 ∧ (rowsOf w "2").map (·.str .leetcodeUsername) = [some "b"]) =
        true := by decide +kernel
  obtain ⟨w, hw, htest⟩ := System.Reach.exists_of_run hrun
  obtain ⟨hlength, hrows⟩ := of_decide_eq_true htest
  exact ⟨w, hw, hlength, hrows, rows_of_ownTrace hw "2"⟩

end LeetBot
