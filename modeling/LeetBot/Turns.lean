import LeetBot.AccountSteps
import LeetBot.Lineage

/-!
# Who asks, and who answers

A second list of what a thread may do, about requests and answers: a thread issues at most one request, a command
asks only for names that it has read from a row of its own user, and a thread that ends has shown something, handed
the matter on, or set its promise.
-/

namespace LeetBot

open Interleave

namespace Request

def retryCount : Request → Nat
  | description _ _ n | profile _ _ _ n | dailyQuestion _ n | activity _ n => n

/-- The LeetCode name that a request is about. -/
def name : Request → String
  | description L _ _ | profile L _ _ _ | dailyQuestion L _ | activity L _ => L

/-- Whether a retry passes on the next count, and not its own. -/
def advances : Request → Bool
  | activity _ _ => false
  | _ => true

/-- The request that a retry issues. -/
def again (r : Request) : Request := r.withCount (if r.advances then r.retryCount + 1 else r.retryCount)

/-- Whether a request is for a description. -/
def describes : Request → Bool
  | description _ _ _ => true
  | _ => false

end Request

/-- The command has read the name from a row of its user. -/
def ReadsOwnName (event : SlashCommand) (t : Trace Op Op.Res) (L : String) : Prop :=
  ∃ row rest, ⟨.sql (.select .discordId (toString event.userId)), .ok (row :: rest)⟩ ∈ t ∧
    row.getString .leetcodeUsername = L

/-- The request that a slash command issues which has performed `t`. -/
def Asks (event : SlashCommand) (t : Trace Op Op.Res) (q : Request) : Prop :=
  q.retryCount = 0 ∧
    match q with
    | .description L p _ => event.registers = some L ∧ t.getLast? = some ⟨.makePromise, p⟩
    | .profile L _ d _ => d = toString event.userId ∧ ReadsOwnName event t L
    | .dailyQuestion L _ => ReadsOwnName event t L
    | .activity L _ => ReadsOwnName event t L

/-- The next operation of a slash command that has performed `t`. -/
def CommandTurn (event : SlashCommand) (t : Trace Op Op.Res) : Op → Prop
  | .request q => requested t = [] ∧ Asks event t q
  | .await p => ∃ L, t.getLast? = some ⟨.request (.description L p 0), ()⟩
  | .setValue _ _ => False
  | _ => True

/-- The next operation of the completion lambda of `r` on `cc` that has performed `t`. -/
def CompletionTurn (r : Request) (cc : HttpCompletion) (t : Trace Op Op.Res) : Op → Prop
  | .request q => t = [] ∧ rateLimited cc ∧ r.retryCount < 3 ∧ q = r.again
  | .setValue p _ => requested t = [] ∧ ∃ L n, r = .description L p n
  | .makePromise => False
  | .await _ => False
  | _ => True

def AccountTurn (e : AccountEvent) (t : Trace Op Op.Res) (o : Op) : Prop :=
  match e with
  | .slashcommand event => CommandTurn event t o
  | .completion _ r cc => CompletionTurn r cc t o
  | .usernameChange _ _ => False

/-- The last thing that has happened is that the user was shown a message. -/
def Answered (t : Trace Op Op.Res) : Prop := ∃ m, t.getLast? = some ⟨.edit m, ()⟩

/-- The last thing that has happened is a request other than for a description. -/
def HandsOver (t : Trace Op Op.Res) : Prop := ∃ q, t.getLast? = some ⟨.request q, ()⟩ ∧ q.describes = false

/-- A command that the bot does not have, or one whose user it does not find. -/
def Silent (event : SlashCommand) (t : Trace Op Op.Res) : Prop :=
  event.commandName ∉ ["ping", "info", "register", "leetcode"] ∨
    event.commandName = "leetcode" ∧ ⟨.memberUsername event.userId, none⟩ ∈ t

/-- How a thread ends. -/
def TurnEnd (e : AccountEvent) (t : Trace Op Op.Res) : Prop :=
  match e with
  | .slashcommand event => Answered t ∨ HandsOver t ∨ Silent event t
  | .completion _ r _ =>
      (∃ q, t.getLast? = some ⟨.request q, ()⟩) ∨
        match r with
        | .description _ p _ => ∃ desc x, ⟨.setValue p desc, x⟩ ∈ t
        | _ => Answered t
  | .usernameChange _ _ => True

section Traces

variable {t : Trace Op Op.Res} {o : Op} {x : o.Res} {m : Message}

private theorem answered_concat : Answered (t ++ [⟨.edit m, ()⟩]) := ⟨m, List.getLast?_concat⟩

theorem requested_concat (ho : ∀ q, o ≠ .request q) : requested (t ++ [⟨o, x⟩]) = requested t := by
  unfold requested
  rw [List.filterMap_append, List.filterMap_cons_none, List.filterMap_nil, List.append_nil]
  cases o with
  | request q => exact absurd rfl (ho q)
  | _ => rfl

end Traces

/-! ### The commands -/

/-- An SQL statement. -/
def Op.IsSql (o : Op) : Prop := ∃ s, o = .sql s

section Methods

variable {db : LeetoDB} {discordId discordUsername leetcodeUser : String}

theorem only_registerUser : (db.registerUser discordId discordUsername leetcodeUser).Only Op.IsSql := by
  unfold LeetoDB.registerUser
  split
  · trivial
  · rw [selectCount_bind]
    refine ⟨⟨_, rfl⟩, fun (r : Except SqlException Nat) => ?_⟩
    rcases r with _ | count
    · trivial
    · dsimp only
      split
      · trivial
      · refine ⟨⟨_, rfl⟩, fun r => ?_⟩
        rcases r with _ | _ <;> trivial

theorem only_statsExist : (db.statsExist discordUsername).Only Op.IsSql := by
  unfold LeetoDB.statsExist
  split
  · trivial
  · refine ⟨⟨_, rfl⟩, fun r => ?_⟩
    rcases r with _ | _ | ⟨row, rest⟩ <;> trivial

theorem only_getLeetcodeProfile : (db.getLeetcodeProfile discordUsername).Only Op.IsSql := by
  unfold LeetoDB.getLeetcodeProfile
  split
  · trivial
  · refine ⟨⟨_, rfl⟩, fun r => ?_⟩
    rcases r with _ | _ | ⟨row, rest⟩ <;> trivial

theorem only_storeProfile {L n d : String} {s : FetchedStats} : (storeProfile db L n d s).Only Op.IsSql := by
  unfold storeProfile LeetoDB.updateProfile
  split
  · trivial
  · refine ⟨⟨_, rfl⟩, fun r => ?_⟩
    rcases r with _ | _ | ⟨row, rest⟩
    · trivial
    · trivial
    · refine ⟨⟨_, rfl⟩, fun r => ?_⟩
      rcases r with _ | _ <;> trivial

end Methods

section Commands

variable {db : LeetoDB} {event : SlashCommand} {t : Trace Op Op.Res}

private theorem turn_of_sql {α : Type} {p : Program α} (h : p.Only Op.IsSql) :
    p.Follows (CommandTurn event) (fun _ t' => requested t' = requested t ∧ t ⊆ t') t := by
  refine h.follows (T := fun t' => requested t' = requested t ∧ t ⊆ t') ?_ ⟨rfl, List.Subset.refl t⟩
  rintro o t' ⟨s, rfl⟩ ⟨hreq, hsub⟩
  refine ⟨trivial, fun r => ⟨?_, fun x hx => List.mem_append_left _ (hsub hx)⟩⟩
  rw [requested_concat (fun q hq => by cases hq), hreq]

private theorem turn_getLeetcodeUsername :
    (db.getLeetcodeUsername (toString event.userId)).Follows (CommandTurn event)
      (fun name t' => requested t' = requested t ∧ (name.getD "" ≠ "" → ReadsOwnName event t' (name.getD ""))) t := by
  unfold LeetoDB.getLeetcodeUsername
  split
  · exact ⟨rfl, fun h => absurd rfl h⟩
  · refine ⟨trivial, fun r => ?_⟩
    have hreq : requested (t ++ [⟨.sql (.select .discordId (toString event.userId)), r⟩]) = requested t :=
      requested_concat fun q hq => by cases hq
    rcases r with _ | _ | ⟨row, rest⟩
    · exact ⟨hreq, fun h => absurd rfl h⟩
    · exact ⟨hreq, fun h => absurd rfl h⟩
    · exact ⟨hreq, fun _ => ⟨row, rest, List.mem_concat_self, rfl⟩⟩

private theorem turn_edit {Q : Trace Op Op.Res → Prop} {m : Message} (h : ∀ t, Answered t → Q t) :
    (edit m).Follows (CommandTurn event) (fun _ => Q) t :=
  ⟨trivial, fun _ => h _ answered_concat⟩

private theorem turn_registerMember {L u : String} (hreg : event.registers = some L) (ht : requested t = []) :
    (registerMember db event.userId L u).Follows (CommandTurn event) (fun _ => Answered) t := by
  unfold registerMember
  split
  · exact turn_edit fun _ h => h
  rw [Prog.follows_bind]
  refine turn_getLeetcodeUsername.mono fun name t₁ h₁ => ?_
  simp only [makePromise_bind, request_bind, await_bind]
  split
  · exact turn_edit fun _ h => h
  have hreq : ∀ p : Nat, requested (t₁ ++ [⟨.makePromise, p⟩]) = [] := fun p =>
    (requested_concat fun q hq => by cases hq).trans (h₁.1.trans ht)
  refine ⟨trivial, fun (p : Nat) => ⟨⟨hreq p, rfl, hreg, List.getLast?_concat⟩, fun _ =>
    ⟨⟨L, List.getLast?_concat⟩, fun desc => ?_⟩⟩⟩
  rcases desc with _ | text
  · exact turn_edit fun _ h => h
  dsimp only
  split
  · exact turn_edit fun _ h => h
  · refine Prog.follows_bind.2 ((turn_of_sql only_registerUser).mono fun success t₂ _ => ?_)
    cases success <;> exact turn_edit fun _ h => h

private theorem turn_handleRegistryCommands (hcmd : event.commandName = "register") :
    (handleRegistryCommands db event).Follows (CommandTurn event) (fun _ => Answered) [] := by
  unfold handleRegistryCommands
  rcases hopts : event.options with _ | ⟨subcommand, rest⟩
  · exact turn_edit fun _ h => h
  by_cases huser : subcommand.name = "user"
  · have hreg : event.registers = some (leetcodeName subcommand.options) := by
      simp [SlashCommand.registers, hopts, hcmd, huser]
    simp only [huser, beq_self_eq_true, if_true, edit_bind, memberUsername_bind]
    refine ⟨trivial, fun _ => ⟨trivial, fun username => ?_⟩⟩
    rcases username with _ | u
    · exact turn_edit fun _ h => h
    · exact turn_registerMember hreg rfl
  · simp only [beq_iff_eq, huser, if_false]
    exact turn_edit fun _ h => h

/-- How a `/leetcode` command ends that finds its user. -/
def AnsweredOrHandedOver (t : Trace Op Op.Res) : Prop := Answered t ∨ HandsOver t

private theorem turn_withLeetcodeUsername {s : String} {f : String → Program Unit} (ht : requested t = [])
    (hf : ∀ L t', requested t' = [] → ReadsOwnName event t' L →
      (f L).Follows (CommandTurn event) (fun _ => AnsweredOrHandedOver) t') :
    (withLeetcodeUsername db event.userId s f).Follows (CommandTurn event) (fun _ => AnsweredOrHandedOver) t := by
  unfold withLeetcodeUsername
  rw [Prog.follows_bind]
  refine turn_getLeetcodeUsername.mono fun name t₁ h₁ => ?_
  dsimp only
  split
  · exact turn_edit fun _ => .inl
  · rename_i hname
    have hne : name.getD "" ≠ "" := fun h => hname (by simp [h])
    exact hf _ t₁ (h₁.1.trans ht) (h₁.2 hne)

private theorem turn_request {q : Request} (ht : requested t = []) (hq : Asks event t q) (hd : q.describes = false) :
    (request q).Follows (CommandTurn event) (fun _ => AnsweredOrHandedOver) t :=
  ⟨⟨ht, hq⟩, fun _ => .inr ⟨q, List.getLast?_concat, hd⟩⟩

private theorem ReadsOwnName.mono {t' : Trace Op Op.Res} {L : String} (h : ReadsOwnName event t L) (hsub : t ⊆ t') :
    ReadsOwnName event t' L := by
  obtain ⟨row, rest, hmem, hL⟩ := h
  exact ⟨row, rest, hsub hmem, hL⟩

private theorem turn_handleProfile {u : String} (ht : requested t = []) :
    (handleProfile db event.userId u).Follows (CommandTurn event) (fun _ => AnsweredOrHandedOver) t := by
  refine turn_withLeetcodeUsername ht fun L t₁ h₁ hL => ?_
  rw [edit_bind]
  refine ⟨trivial, fun _ => ?_⟩
  rw [Prog.follows_bind]
  refine (turn_of_sql only_statsExist).mono fun stats t₂ h₂ => ?_
  cases stats with
  | true =>
    simp only [if_true]
    rw [Prog.follows_bind]
    refine (turn_of_sql only_getLeetcodeProfile).mono fun profile t₃ _ => ?_
    cases profile <;> exact turn_edit fun _ => .inl
  | false =>
    have hreq : requested t₂ = [] := h₂.1.trans ((requested_concat fun q hq => by cases hq).trans h₁)
    exact turn_request hreq ⟨rfl, rfl, hL.mono fun x hx => h₂.2 (List.mem_append_left _ hx)⟩ rfl

private theorem turn_handleLeetcodeCommands (hcmd : event.commandName = "leetcode") :
    (handleLeetcodeCommands db event).Follows (CommandTurn event)
      (fun _ => TurnEnd (.slashcommand event)) [] := by
  unfold handleLeetcodeCommands
  refine ⟨trivial, fun username => ?_⟩
  rcases username with _ | u
  · exact .inr (.inr (.inr ⟨hcmd, List.mem_singleton_self _⟩))
  have hend : ∀ {p : Program Unit} {t}, p.Follows (CommandTurn event) (fun _ => AnsweredOrHandedOver) t →
      p.Follows (CommandTurn event) (fun _ => TurnEnd (.slashcommand event)) t := fun h =>
    h.mono fun _ _ h => h.imp_right .inl
  rcases event.options with _ | ⟨subcommand, rest⟩
  · exact turn_edit fun _ => .inl
  have hreq : requested ([] ++ [(⟨.memberUsername event.userId, some u⟩ : Σ o : Op, o.Res)]) = [] := rfl
  dsimp only
  split
  · exact hend (turn_handleProfile hreq)
  split
  · exact hend (turn_withLeetcodeUsername hreq fun L _ ht hL =>
      turn_request (q := .profile L u (toString event.userId) 0) ht ⟨rfl, rfl, hL⟩ rfl)
  split
  · exact hend (turn_withLeetcodeUsername hreq fun L _ ht hL =>
      turn_request (q := .dailyQuestion L 0) ht ⟨rfl, hL⟩ rfl)
  split
  · exact hend (turn_withLeetcodeUsername hreq fun L _ ht hL =>
      turn_request (q := .activity L 0) ht ⟨rfl, hL⟩ rfl)
  · exact turn_edit fun _ => .inl

private theorem turn_handleSlashCommands :
    (handleSlashCommands db event).Follows (CommandTurn event) (fun _ => TurnEnd (.slashcommand event)) [] := by
  unfold handleSlashCommands
  split
  · exact turn_edit fun _ => .inl
  split
  · unfold handleInfoCommands
    split
    · exact turn_edit fun _ => .inl
    · split <;> exact turn_edit fun _ => .inl
  split
  · rename_i hregister
    exact (turn_handleRegistryCommands (by simpa using hregister)).mono fun _ _ => .inl
  split
  · rename_i hleetcode
    exact turn_handleLeetcodeCommands (by simpa using hleetcode)
  · refine .inr (.inr (.inl ?_))
    simp_all

end Commands

/-! ### The completion lambdas -/

section Completions

variable {parse : String → Except String Json} {db : LeetoDB} {r : Request} {cc : HttpCompletion}
  {t : Trace Op Op.Res}

/-- The end of a completion lambda that handles a response for a description, once the promise is set. -/
def SetsPromise (p : Nat) (t : Trace Op Op.Res) : Prop := requested t = [] ∧ ∃ desc x, ⟨.setValue p desc, x⟩ ∈ t

private theorem turn_setValue {L : String} {p n : Nat} (desc : Option String) (ht : requested t = []) :
    (setValue p desc).run.Follows (CompletionTurn (.description L p n) cc) (fun _ => SetsPromise p) t := by
  refine ⟨⟨ht, L, n, rfl⟩, fun x => ⟨?_, desc, x, List.mem_concat_self⟩⟩
  rw [requested_concat (fun q hq => by cases hq), ht]

private theorem turn_descriptionLambda (L : String) (p n : Nat) (cc : HttpCompletion) :
    (descriptionLambda parse L p n cc).run.Follows (CompletionTurn (.description L p n) cc)
      (fun _ => TurnEnd (.completion 0 (.description L p n) cc)) [] := by
  have hdone : ∀ t, SetsPromise p t → TurnEnd (.completion 0 (.description L p n) cc) t := by
    rintro t ⟨-, desc, x, hx⟩
    exact .inr ⟨desc, x, hx⟩
  have hset : ∀ (desc : Option String) t, requested t = [] → (setValue p desc).run.Follows
      (CompletionTurn (.description L p n) cc) (fun _ => TurnEnd (.completion 0 (.description L p n) cc)) t :=
    fun desc t ht => (turn_setValue desc ht).mono fun _ => hdone
  unfold descriptionLambda fetchLeetCodeDescription
  split
  · rename_i m h
    split at h
    · cases h
    split at h
    · cases h
    split at h
    · rename_i hlim
      cases h
      obtain ⟨hlim, hn⟩ := Bool.and_eq_true_iff.1 hlim
      exact ⟨⟨rfl, hlim, of_decide_eq_true hn, rfl⟩, fun _ => .inl ⟨_, rfl⟩⟩
    · cases h
  · rename_i q h
    split at h
    · cases h
      exact hset none [] rfl
    split at h
    · cases h
      simp only [ExceptT.run_tryCatch, run_describeUser]
      rw [Prog.follows_bind]
      cases readDescription parse cc.body with
      | error what => exact hset none [] rfl
      | ok found =>
        cases found with
        | some v =>
          refine (turn_setValue v rfl).mono fun y t ht => ?_
          rcases y with _ | _
          · exact hset none t ht.1
          · exact hdone t ht
        | none =>
          refine ⟨trivial, fun _ => ?_⟩
          rw [ExceptT.run_bind, Prog.follows_bind]
          refine (turn_setValue none rfl).mono fun y t ht => ?_
          rcases y with _ | _
          · exact hset none t ht.1
          · refine (turn_setValue none ht.1).mono fun y t ht => ?_
            rcases y with _ | _
            · exact hset none t ht.1
            · exact hdone t ht
    split at h
    · cases h
    · cases h
      exact hset none [] rfl

private theorem turn_edit_completion {Q : Trace Op Op.Res → Prop} {m : Message} (h : ∀ t, Answered t → Q t) :
    (edit m).Follows (CompletionTurn r cc) (fun _ => Q) t :=
  ⟨trivial, fun _ => h _ answered_concat⟩

private theorem turn_branch {limited : Bool} {m : Nat} {a : Program Unit} {failure : Message}
    {again : Nat → Program Unit}
    (hend : ∀ t, Answered t → TurnEnd (.completion 0 r cc) t) (hlim : limited = true → rateLimited cc = true)
    (hagain : again m = request r.again) (ha : a.Follows (CompletionTurn r cc) (fun _ => Answered) []) :
    (match if cc.status == 200 then Reaction.handled a
        else if limited && decide (r.retryCount < 3) then .retry m
        else .handled (edit failure) with
      | .retry n => again n
      | .handled p => p).Follows (CompletionTurn r cc) (fun _ => TurnEnd (.completion 0 r cc)) [] := by
  by_cases hok : cc.status == 200
  · simp only [hok, if_true]
    exact ha.mono fun _ => hend
  by_cases hretry : limited && decide (r.retryCount < 3)
  · simp only [hok, hretry, Bool.false_eq_true, if_true, if_false, hagain]
    obtain ⟨h1, h2⟩ := Bool.and_eq_true_iff.1 hretry
    exact ⟨⟨rfl, hlim h1, of_decide_eq_true h2, rfl⟩, fun _ => .inl ⟨_, rfl⟩⟩
  · simp only [hok, hretry, Bool.false_eq_true, if_false]
    exact turn_edit_completion hend

private theorem turn_completionLambda (r : Request) (cc : HttpCompletion) :
    (completionLambda parse db r cc).Follows (CompletionTurn r cc) (fun _ => TurnEnd (.completion 0 r cc)) [] := by
  have hlim : (cc.status == 429) = true → rateLimited cc = true := fun h => by simp [rateLimited, h]
  unfold completionLambda
  cases r with
  | description L p n =>
    simp only
    rw [Prog.follows_bind]
    exact (turn_descriptionLambda L p n cc).mono fun _ _ h => h
  | profile L name d n =>
    refine turn_branch (r := .profile L name d n) (fun _ => .inr) hlim rfl ?_
    cases readProfile parse L cc.body with
    | error what => exact turn_edit_completion fun _ h => h
    | ok found =>
      rcases found with m | s
      · exact turn_edit_completion fun _ h => h
      · simp only
        rw [Prog.follows_bind]
        refine (only_storeProfile.follows (T := fun _ => True) ?_ trivial).mono fun updated t _ => ?_
        · rintro o t ⟨s, rfl⟩ -
          exact ⟨trivial, fun _ => trivial⟩
        · cases updated with
          | true => exact turn_edit_completion fun _ h => h
          | false => exact ⟨trivial, fun _ => turn_edit_completion fun _ h => h⟩
  | dailyQuestion L n =>
    refine turn_branch (r := .dailyQuestion L n) (fun _ => .inr) id rfl ?_
    cases readDailyQuestion parse cc.body <;> exact turn_edit_completion fun _ h => h
  | activity L n =>
    refine turn_branch (r := .activity L n) (fun _ => .inr) id rfl ?_
    cases readActivity parse L cc.body <;> exact turn_edit_completion fun _ h => h

end Completions

/-- Every program that an event starts keeps to the list. -/
theorem turn_arrive (parse : String → Except String Json) (db : LeetoDB) (e : AccountEvent) (a a' : Accounts)
    (p : Program Unit) (h : (accounts parse db).arrive e a = some (a', p)) :
    p.Follows (AccountTurn e) (fun _ => TurnEnd e) [] := by
  cases e with
  | slashcommand event =>
    cases h
    exact turn_handleSlashCommands
  | completion k r cc =>
    simp only [accounts, Accounts.arrive] at h
    split at h
    · cases h
      exact turn_completionLambda r cc
    · cases h
  | usernameChange d n =>
    cases h
    trivial

end LeetBot
