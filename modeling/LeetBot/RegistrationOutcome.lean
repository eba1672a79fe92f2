import LeetBot.AccountSteps

/-!
# The outcome of a registration

What one run of `/register user` does to the table, for every table, every outcome of the description request and
every pattern of faults.
-/

namespace LeetBot

open Interleave

variable {parse : String → Except String Json} {db : LeetoDB} {desc : Option String} {event : SlashCommand}
  {L u d : String} {a a' : Accounts} {t : Trace Op Op.Res} {m : Message}

/-- The system in which the description that a registration awaits is `desc`. -/
def described (parse : String → Except String Json) (db : LeetoDB) (desc : Option String) :
    System Op Op.Res Accounts Choice AccountEvent where
  exec
    | .await _, _, a => some (desc, a)
    | o, x, a => Accounts.exec o x a
  arrive := Accounts.arrive parse db

/-- A row with the ids and names of a registration and nothing else. -/
structure RegisteredRow (discordId discordUser leetcodeUser : String) (r : Row) : Prop where
  discordId : r.str .discordId = some discordId
  discordUsername : r.str .discordUsername = some discordUser
  leetcodeUsername : r.str .leetcodeUsername = some leetcodeUser
  strs : ∀ c, c ∉ [StrColumn.discordId, .discordUsername, .leetcodeUsername] → r.str c = none
  ints : ∀ c, r.int c = none

private theorem registeredRow_insertedRow (discordId discordUser leetcodeUser : String) :
    RegisteredRow discordId discordUser leetcodeUser
      (LeetoDB.insertedRow discordId discordUser leetcodeUser) where
  discordId := rfl
  discordUsername := rfl
  leetcodeUsername := rfl
  strs c hc := by cases c <;> first | rfl | simp at hc
  ints _ := rfl

/-- How a registration with the LeetCode name `L` ends that found the table of `a` and left that of `a'`: it says that
it was successful exactly when the row of the user has been appended, which the user did not have, and the description
has the text; otherwise the table is what it was. -/
structure Outcome (event : SlashCommand) (L : String) (desc : Option String) (a a' : Accounts)
    (t : Trace Op Op.Res) : Prop where
  replied : (texts t).getLast?.isSome
  success : (texts t).getLast? = some (.text "Registered successfully!") ↔
    ∃ u text row, a.members.lookup event.userId = some u ∧
      a'.users = a.users ++ [row] ∧ RegisteredRow (toString event.userId) u L row ∧
      Stmt.rowsWhere a.users .discordId (toString event.userId) = [] ∧ desc = some text ∧
      ("LeetBot->[" ++ u ++ "]->Verify").toList <:+: text.toList
  unchanged : (texts t).getLast? ≠ some (.text "Registered successfully!") → a'.users = a.users

private theorem texts_append_edit : texts (t ++ [⟨.edit m, ()⟩]) = texts t ++ [m] := by
  simp [texts]

private theorem outcome_of_notice (hm : m ≠ registeredSuccessfully) (ha : a'.users = a.users) :
    Outcome event L desc a a' (t ++ [⟨.edit m, ()⟩]) := by
  have hlast : (texts (t ++ [⟨.edit m, ()⟩])).getLast? = some m := by
    rw [texts_append_edit, List.getLast?_append, List.getLast?_singleton, Option.some_or]
  refine ⟨by simp [hlast], ⟨fun h => absurd (Option.some.inj (hlast.symm.trans h)) hm, ?_⟩, fun _ => ha⟩
  rintro ⟨u, text, row, -, hnew, -⟩
  rw [ha] at hnew
  exact absurd (congrArg List.length hnew) (by simp)

private theorem outcome_of_success {text : String} (hu : a.members.lookup event.userId = some u)
    (ha : a'.users = a.users ++ [LeetoDB.insertedRow (toString event.userId) u L])
    (hnone : Stmt.rowsWhere a.users .discordId (toString event.userId) = []) (hdesc : desc = some text)
    (hver : hasVerification u text) :
    Outcome event L desc a a' (t ++ [⟨.edit registeredSuccessfully, ()⟩]) := by
  have hlast : (texts (t ++ [⟨.edit registeredSuccessfully, ()⟩])).getLast? = some registeredSuccessfully := by
    rw [texts_append_edit, List.getLast?_append, List.getLast?_singleton, Option.some_or]
  refine ⟨by simp [hlast], ⟨fun _ => ?_, fun _ => hlast⟩, fun h => absurd hlast h⟩
  exact ⟨u, text, _, hu, ha, registeredRow_insertedRow _ _ _, hnone, hdesc, hasVerification_iff.1 hver⟩

/-! ### The methods -/

section Methods

private theorem described_sql {st : Stmt} {α : Type} {Q : α → Trace Op Op.Res → Accounts → Prop}
    {f : Except SqlException st.Result → Program α}
    (hok : (described parse db desc).Ends Q (f (.ok (st.exec a.users).1))
      (t ++ [⟨.sql st, .ok (st.exec a.users).1⟩]) { a with users := (st.exec a.users).2 })
    (hfault : (described parse db desc).Ends Q (f (.error .mk)) (t ++ [⟨.sql st, .error .mk⟩]) a) :
    (described parse db desc).Ends Q (.call (.sql st) f) t a := by
  intro x
  cases x with
  | ok => exact ⟨_, _, rfl, hok⟩
  | fault => exact ⟨_, _, rfl, hfault⟩

private theorem ends_getLeetcodeUsername :
    (described parse db desc).Ends (fun _ _ s => s = a) (db.getLeetcodeUsername d) t a := by
  unfold LeetoDB.getLeetcodeUsername
  by_cases hdb : db.connected
  · simp only [hdb, Bool.not_true, Bool.false_eq_true, if_false, selectWhere_bind]
    refine described_sql ?_ rfl
    simp only [Stmt.exec]
    cases Stmt.rowsWhere a.users .discordId d <;> rfl
  · simp only [hdb, Bool.not_false, if_true]
    rfl

private theorem ends_registerUser :
    (described parse db desc).Ends (fun success _ s => if success then
        Stmt.rowsWhere a.users .discordId d = [] ∧ s.users = a.users ++ [LeetoDB.insertedRow d u L]
      else s.users = a.users) (db.registerUser d u L) t a := by
  unfold LeetoDB.registerUser
  by_cases hdb : db.connected
  · simp only [hdb, Bool.not_true, Bool.false_eq_true, if_false, selectCount_bind]
    refine described_sql ?_ rfl
    simp only [Stmt.exec]
    by_cases hcount : 0 < (Stmt.rowsWhere a.users .discordId d).length
    · simp only [hcount, if_true]
      rfl
    · simp only [hcount, if_false, insertInto_bind]
      have hnone : Stmt.rowsWhere a.users .discordId d = [] := by
        simpa using hcount
      exact described_sql ⟨hnone, rfl⟩ rfl
  · simp only [hdb, Bool.not_false, if_true]
    rfl

end Methods

/-! ### The command -/

section Command

private theorem described_edit {Q : Unit → Trace Op Op.Res → Accounts → Prop} {k : Unit → Program Unit}
    (h : (described parse db desc).Ends Q (k ()) (t ++ [⟨.edit m, ()⟩]) a) :
    (described parse db desc).Ends Q (.call (.edit m) k) t a :=
  fun _ => ⟨(), a, rfl, h⟩

private theorem ends_notice (hm : m ≠ registeredSuccessfully) (ha : a'.users = a.users) :
    (described parse db desc).Ends (fun _ t s => Outcome event L desc a s t) (edit m) t a' :=
  described_edit (outcome_of_notice hm ha)

private theorem ends_registerMember (hu : a.members.lookup event.userId = some u) :
    (described parse db desc).Ends (fun _ t s => Outcome event L desc a s t)
      (registerMember db event.userId L u) t a := by
  unfold registerMember
  by_cases hempty : u.isEmpty
  · simp only [hempty, if_true]
    exact ends_notice (by decide) rfl
  simp only [hempty, Bool.false_eq_true, if_false]
  rw [System.ends_bind]
  refine ends_getLeetcodeUsername.mono fun name t₁ s hs => ?_
  subst hs
  by_cases hsame : L == name.getD ""
  · simp only [hsame, if_true]
    exact ends_notice (by decide) rfl
  simp only [hsame, Bool.false_eq_true, if_false, makePromise_bind, request_bind, await_bind]
  -- the promise and the request do not touch the table
  refine fun _ => ⟨_, _, rfl, fun _ => ⟨_, _, rfl, fun _ => ⟨desc, _, rfl, ?_⟩⟩⟩
  rcases desc with _ | text
  · exact ends_notice (by decide) rfl
  by_cases hver : hasVerification u text
  · simp only [hver, Bool.not_true, Bool.false_eq_true, if_false]
    rw [System.ends_bind]
    refine ends_registerUser.mono fun success t₂ s' hs' => ?_
    cases success with
    | true => exact described_edit (outcome_of_success hu hs'.2 hs'.1 rfl hver)
    | false => exact ends_notice (by decide) hs'
  · simp only [hver, Bool.not_false, if_true]
    exact ends_notice (verification_ne u _ (.inr rfl)) rfl

/-- Every run of `/register user` ends, and its last text tells what it did to the table. -/
theorem registration_outcome {subcommand : Subcommand} {rest : List Subcommand}
    (hoptions : event.options = subcommand :: rest) (huser : subcommand.name = "user") (xs : Nat → Choice) :
    ∃ t a', (described parse db desc).alone xs (handleRegistryCommands db event) a = some ((), t, a') ∧
      Outcome event (leetcodeName subcommand.options) desc a a' t := by
  have hends : (described parse db desc).Ends
      (fun _ t s => Outcome event (leetcodeName subcommand.options) desc a s t)
        (handleRegistryCommands db event) [] a := by
    unfold handleRegistryCommands
    simp only [hoptions, huser, beq_self_eq_true, if_true, edit_bind, memberUsername_bind]
    refine described_edit fun x => ?_
    cases x with
    | fault => exact ⟨none, a, rfl, ends_notice (by decide) rfl⟩
    | ok =>
      refine ⟨a.members.lookup event.userId, a, rfl, ?_⟩
      cases hu : a.members.lookup event.userId with
      | none => exact ends_notice (by decide) rfl
      | some u => exact ends_registerMember hu
  obtain ⟨⟨⟩, t, a', hrun, houtcome⟩ := hends.alone xs
  exact ⟨t, a', hrun, houtcome⟩

end Command

/-- `/register user leetcode_name:a` of user 1. -/
def annRegisters : SlashCommand := ⟨1, "register", [⟨"user", [⟨"leetcode_name", .string "a"⟩]⟩]⟩

/-- The cache knows user 1 as `ann`, and nobody is registered. -/
def annKnown : Accounts := ⟨[], [(1, "ann")], [], []⟩

/-- The description in which `ann` is verified. -/
def annVerifies : Option String := some "LeetBot->[ann]->Verify"

theorem registration_outcome_ann :
    ∃ t a', (described sampleParse ⟨true⟩ annVerifies).alone (fun _ => .ok)
        (handleRegistryCommands ⟨true⟩ annRegisters) annKnown = some ((), t, a') ∧
      Outcome annRegisters "a" annVerifies annKnown a' t ∧ (texts t).getLast? = some registeredSuccessfully := by
  have hoptions : annRegisters.options = [⟨"user", [⟨"leetcode_name", .string "a"⟩]⟩] := rfl
  obtain ⟨t, a', hrun, houtcome⟩ : ∃ t a', (described sampleParse ⟨true⟩ annVerifies).alone (fun _ => .ok)
      (handleRegistryCommands ⟨true⟩ annRegisters) annKnown = some ((), t, a') ∧
        Outcome annRegisters (leetcodeName [⟨"leetcode_name", .string "a"⟩]) annVerifies annKnown a' t :=
    registration_outcome hoptions rfl _
  have hlast : ((described sampleParse ⟨true⟩ annVerifies).alone (fun _ => .ok)
      (handleRegistryCommands ⟨true⟩ annRegisters) annKnown).any
        (fun x => decide ((texts x.2.1).getLast? = some registeredSuccessfully)) = true := by
    decide +kernel
  rw [hrun] at hlast
  exact ⟨t, a', hrun, houtcome, of_decide_eq_true hlast⟩

end LeetBot
