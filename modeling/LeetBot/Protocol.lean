import LeetBot.DescriptionFetch

/-!
# What a thread may do

Every operation of a slash command and of a completion lambda, with what the thread must have done before it.
The programs are looked at here, once; what follows about the shared state rests on these two lists.
-/

namespace LeetBot

open Interleave

/-- The next operation of a slash command that has performed `t`. -/
inductive CommandStep (db : LeetoDB) (event : SlashCommand) (t : Trace Op Op.Res) : Op → Prop
  | memberUsername : CommandStep db event t (.memberUsername event.userId)
  | selectOwn : CommandStep db event t (.sql (.select .discordId (toString event.userId)))
  | selectName {n : String} (hread : ⟨.memberUsername event.userId, some n⟩ ∈ t) :
      CommandStep db event t (.sql (.select .discordUsername n))
  /-- An empty name gets this far only when a name is registered. -/
  | count {L : String} (hreg : event.registers = some L)
      (hL : L = "" → ∃ row rest, ⟨.sql (.select .discordId (toString event.userId)), .ok (row :: rest)⟩ ∈ t) :
      CommandStep db event t (.sql (.selectCount .discordId (toString event.userId)))
  | insert {L u text : String} {p : Nat} (hdb : db.connected) (hreg : event.registers = some L)
      (hread : ⟨.memberUsername event.userId, some u⟩ ∈ t) (hp : ⟨.makePromise, p⟩ ∈ t)
      (hasked : ⟨.request (.description L p 0), ()⟩ ∈ t) (htext : ⟨.await p, some text⟩ ∈ t)
      (hver : hasVerification u text)
      (hcount : t.getLast? = some ⟨.sql (.selectCount .discordId (toString event.userId)), .ok (0 : Nat)⟩) :
      CommandStep db event t (.sql (.insert LeetoDB.insertColumns [.str (toString event.userId), .str u, .str L]))
  | makePromise : CommandStep db event t .makePromise
  | await {p : Nat} : CommandStep db event t (.await p)
  | description {L : String} {p : Nat} (hreg : event.registers = some L) (hp : ⟨.makePromise, p⟩ ∈ t) :
      CommandStep db event t (.request (.description L p 0))
  | profile {L n : String} {row : Row} {rest : List Row} (hread : ⟨.memberUsername event.userId, some n⟩ ∈ t)
      (hrow : ⟨.sql (.select .discordId (toString event.userId)), .ok (row :: rest)⟩ ∈ t)
      (hL : row.getString .leetcodeUsername = L) (hne : L ≠ "") :
      CommandStep db event t (.request (.profile L n (toString event.userId) 0))
  | dailyQuestion {L : String} : CommandStep db event t (.request (.dailyQuestion L 0))
  | activity {L : String} : CommandStep db event t (.request (.activity L 0))
  | info {m : Message} (h : event.commandName = "info") (herror : m ≠ profileError) :
      CommandStep db event t (.edit m)
  | notice {m : Message} (hembeds : m.embeds = []) (herror : m ≠ profileError) (hreg : m ≠ registeredSuccessfully) :
      CommandStep db event t (.edit m)
  | registered {L u : String} (hreg : event.registers = some L)
      (hinsert : ⟨.sql (.insert LeetoDB.insertColumns [.str (toString event.userId), .str u, .str L]), .ok ()⟩ ∈ t) :
      CommandStep db event t (.edit registeredSuccessfully)
  | profileError {n : String} {answer : Except SqlException (List Row)}
      (hselect : ⟨.sql (.select .discordUsername n), answer⟩ ∈ t) (hnone : ∀ row rest, answer ≠ .ok (row :: rest)) :
      CommandStep db event t (.edit profileError)
  | profileShown {L n : String} {row : Row} {rest : List Row}
      (hselect : ⟨.sql (.select .discordUsername n), .ok (row :: rest)⟩ ∈ t) :
      CommandStep db event t (.edit (profileMessage L (LeetoDB.rowProfile row)))

/-- A request with another count. -/
def Request.withCount (r : Request) (n : Nat) : Request :=
  match r with
  | .description username promise _ => .description username promise n
  | .profile username discordUsername discordId _ => .profile username discordUsername discordId n
  | .dailyQuestion username _ => .dailyQuestion username n
  | .activity username _ => .activity username n

/-- The next operation of the completion lambda of `r` on `cc`. -/
inductive CompletionStep (parse : String → Except String Json) (r : Request) (cc : HttpCompletion) : Op → Prop
  | setValue {L : String} {p n : Nat} {desc : Option String} (hr : r = .description L p n)
      (htext : ∀ text, desc = some text → describedText parse cc = some text) :
      CompletionStep parse r cc (.setValue p desc)
  | again (n : Nat) : CompletionStep parse r cc (.request (r.withCount n))
  | selectOwn {L name d : String} {n : Nat} (hr : r = .profile L name d n) :
      CompletionStep parse r cc (.sql (.select .discordId d))
  | update {L name d : String} {n : Nat} {s : FetchedStats} (hr : r = .profile L name d n)
      (hread : readProfile parse L cc.body = .ok (.inr s)) :
      CompletionStep parse r cc (.sql (.update LeetoDB.updateColumns .discordId (s.params L name d)))
  | edit {m : Message} : CompletionStep parse r cc (.edit m)

/-- The next operation of a thread, by the event that started it. -/
def AccountStep (parse : String → Except String Json) (db : LeetoDB) (e : AccountEvent) (t : Trace Op Op.Res)
    (o : Op) : Prop :=
  match e with
  | .slashcommand event => CommandStep db event t o
  | .completion _ r cc => CompletionStep parse r cc o
  | .usernameChange _ _ => False

/-- What a profile command has done that has ended, if it has found a name for its user. -/
def ProfileEnd (event : SlashCommand) (t : Trace Op Op.Res) : Prop :=
  ∀ row rest, ⟨.sql (.select .discordId (toString event.userId)), .ok (row :: rest)⟩ ∈ t →
    row.getString .leetcodeUsername ≠ "" → profileError ∈ texts t ∨ ShowsProfile t ∨ FetchesProfile t

/-! ### The methods of `LeetoDB` -/

section Methods

variable {db : LeetoDB} {event : SlashCommand} {t : Trace Op Op.Res}

/-- A name that `getLeetcodeUsername` returns is the name of a row, and the name of a row is returned. -/
private theorem follows_getLeetcodeUsername :
    (db.getLeetcodeUsername (toString event.userId)).Follows (CommandStep db event)
      (fun name t' => t ⊆ t' ∧ (name.getD "" ≠ "" → ∃ row rest,
        ⟨.sql (.select .discordId (toString event.userId)), .ok (row :: rest)⟩ ∈ t' ∧
          row.getString .leetcodeUsername = name.getD "") ∧
        ∀ row rest, ⟨.sql (.select .discordId (toString event.userId)), .ok (row :: rest)⟩ ∈ t' →
          ⟨.sql (.select .discordId (toString event.userId)), .ok (row :: rest)⟩ ∈ t ∨
            row.getString .leetcodeUsername = name.getD "") t := by
  unfold LeetoDB.getLeetcodeUsername
  by_cases hdb : db.connected
  · simp only [hdb, Bool.not_true, Bool.false_eq_true, if_false, selectWhere_bind]
    refine ⟨.selectOwn, fun r => ?_⟩
    have hold : ∀ row rest, ⟨.sql (.select .discordId (toString event.userId)), .ok (row :: rest)⟩ ∈
        t ++ [⟨.sql (.select .discordId (toString event.userId)), r⟩] →
        ⟨.sql (.select .discordId (toString event.userId)), .ok (row :: rest)⟩ ∈ t ∨ r = .ok (row :: rest) := by
      intro row rest h
      rcases List.mem_append.1 h with h | h
      · exact .inl h
      · cases List.mem_singleton.1 h
        exact .inr rfl
    rcases r with _ | _ | ⟨row, rest⟩
    · exact ⟨by simp, fun h => absurd rfl h, fun row rest h => (hold row rest h).imp_right fun h => by cases h⟩
    · exact ⟨by simp, fun h => absurd rfl h, fun row rest h => (hold row rest h).imp_right fun h => by cases h⟩
    · exact ⟨by simp, fun _ => ⟨row, rest, by simp, rfl⟩, fun row rest h => (hold row rest h).imp_right fun h => by
        cases h
        rfl⟩
  · simp only [hdb, Bool.not_false, if_true]
    exact ⟨List.Subset.refl _, fun h => absurd rfl h, fun row rest h => .inl h⟩

/-- `registerUser` inserts only after it has counted no row. -/
private theorem follows_registerUser {L u text : String} {p : Nat} (hreg : event.registers = some L)
    (hL : L = "" → ∃ row rest, ⟨.sql (.select .discordId (toString event.userId)), .ok (row :: rest)⟩ ∈ t)
    (hread : ⟨.memberUsername event.userId, some u⟩ ∈ t) (hp : ⟨.makePromise, p⟩ ∈ t)
    (hasked : ⟨.request (.description L p 0), ()⟩ ∈ t) (htext : ⟨.await p, some text⟩ ∈ t)
    (hver : hasVerification u text) :
    (db.registerUser (toString event.userId) u L).Follows (CommandStep db event)
      (fun (success : Bool) t' => success →
        ⟨.sql (.insert LeetoDB.insertColumns [.str (toString event.userId), .str u, .str L]), .ok ()⟩ ∈ t') t := by
  unfold LeetoDB.registerUser
  by_cases hdb : db.connected
  · simp only [hdb, Bool.not_true, Bool.false_eq_true, if_false, selectCount_bind]
    refine ⟨.count hreg hL, fun (r : Except SqlException Nat) => ?_⟩
    rcases r with _ | count
    · exact fun h => absurd h Bool.false_ne_true
    · by_cases hcount : 0 < count
      · simp only [hcount, if_true]
        exact fun h => absurd h Bool.false_ne_true
      · obtain rfl : count = 0 := by omega
        simp only [Nat.lt_irrefl, if_false, insertInto_bind]
        refine ⟨.insert (p := p) hdb hreg ?_ ?_ ?_ ?_ hver List.getLast?_concat, fun r => ?_⟩
        any_goals exact List.mem_append_left _ ‹_›
        rcases r with _ | _
        · exact fun h => absurd h Bool.false_ne_true
        · exact fun _ => List.mem_concat_self
  · simp only [hdb, Bool.not_false, if_true]
    exact fun h => absurd h Bool.false_ne_true

private theorem follows_statsExist {n : String} (hread : ⟨.memberUsername event.userId, some n⟩ ∈ t) :
    (db.statsExist n).Follows (CommandStep db event) (fun stats t' => t ⊆ t' ∧ (stats = true → db.connected)) t := by
  unfold LeetoDB.statsExist
  by_cases hdb : db.connected
  · simp only [hdb, Bool.not_true, Bool.false_eq_true, if_false, selectWhere_bind]
    refine ⟨.selectName hread, fun r => ?_⟩
    rcases r with _ | _ | ⟨row, rest⟩ <;> exact ⟨List.subset_append_left _ _, fun _ => trivial⟩
  · simp only [hdb, Bool.not_false, if_true]
    exact ⟨List.Subset.refl _, fun h => absurd h Bool.false_ne_true⟩

/-- A profile that `getLeetcodeProfile` returns is that of the first row selected, and there is no other reason to
return none. -/
private theorem follows_getLeetcodeProfile {n : String} (hread : ⟨.memberUsername event.userId, some n⟩ ∈ t) :
    (db.getLeetcodeProfile n).Follows (CommandStep db event)
      (fun profile t' => db.connected →
        match profile with
        | none => ∃ answer : Except SqlException (List Row), ⟨.sql (.select .discordUsername n), answer⟩ ∈ t' ∧
            ∀ row rest, answer ≠ .ok (row :: rest)
        | some p => ∃ row rest, ⟨.sql (.select .discordUsername n), .ok (row :: rest)⟩ ∈ t' ∧
            p = LeetoDB.rowProfile row) t := by
  unfold LeetoDB.getLeetcodeProfile
  by_cases hdb : db.connected
  · simp only [hdb, Bool.not_true, Bool.false_eq_true, if_false, selectWhere_bind]
    refine ⟨.selectName hread, fun r => ?_⟩
    rcases r with what | _ | ⟨row, rest⟩
    · exact fun _ => ⟨.error what, List.mem_concat_self, fun row rest h => by cases h⟩
    · exact fun _ => ⟨.ok [], List.mem_concat_self, fun row rest h => by cases h⟩
    · exact fun _ => ⟨row, rest, List.mem_concat_self, rfl⟩
  · simp only [hdb, Bool.not_false, if_true]
    exact fun h => absurd h Bool.false_ne_true

end Methods

/-! ### The commands -/

section Commands

variable (db : LeetoDB) (event : SlashCommand)

private theorem follows_notice {t : Trace Op Op.Res} {s : String} (herror : Message.text s ≠ profileError)
    (hreg : Message.text s ≠ registeredSuccessfully) :
    (edit (.text s)).Follows (CommandStep db event) (fun _ _ => True) t :=
  ⟨.notice rfl herror hreg, fun _ => trivial⟩

/-- The text about the missing verification begins with another letter than the two messages. -/
theorem verification_ne (u : String) (m : Message) (hm : m = profileError ∨ m = registeredSuccessfully) :
    Message.text ("Verification not found in profile. Please add: " ++ verificationText u) ≠ m := by
  intro h
  have hhead : m.content.toList.head? = some 'V' := by
    rw [← h]
    simp [Message.text]
  rcases hm with rfl | rfl
  · exact absurd hhead (by decide)
  · exact absurd hhead (by decide)

private theorem follows_registerMember {L u : String} {t : Trace Op Op.Res} (hreg : event.registers = some L)
    (hread : ⟨.memberUsername event.userId, some u⟩ ∈ t) :
    (registerMember db event.userId L u).Follows (CommandStep db event) (fun _ _ => True) t := by
  unfold registerMember
  by_cases hu : u.isEmpty
  · simp only [hu, if_true]
    exact follows_notice db event (by decide) (by decide)
  simp only [hu, Bool.false_eq_true, if_false]
  rw [Prog.follows_bind]
  refine follows_getLeetcodeUsername.mono fun name t₁ h₁ => ?_
  obtain ⟨hsub, hrow, -⟩ := h₁
  by_cases hsame : L == name.getD ""
  · simp only [hsame, if_true]
    exact follows_notice db event (by decide) (by decide)
  simp only [hsame, Bool.false_eq_true, if_false, makePromise_bind, request_bind, await_bind]
  refine ⟨.makePromise, fun (p : Nat) => ⟨.description hreg List.mem_concat_self, fun _ => ⟨.await, fun desc => ?_⟩⟩⟩
  rcases desc with _ | text
  · exact follows_notice db event (by decide) (by decide)
  by_cases hver : hasVerification u text
  · simp only [hver, Bool.not_true, Bool.false_eq_true, if_false]
    rw [Prog.follows_bind]
    refine (follows_registerUser (p := p) hreg ?_ ?_ ?_ ?_ ?_ hver).mono fun success t₂ hinsert => ?_
    · rintro rfl
      obtain ⟨row, rest, hmem, -⟩ := hrow fun h => hsame (by simp [h])
      exact ⟨row, rest, by simp [hmem]⟩
    · simp [hsub hread]
    · simp
    · exact List.mem_append_left _ List.mem_concat_self
    · exact List.mem_concat_self
    · cases success with
      | true => exact ⟨.registered hreg (hinsert rfl), fun _ => trivial⟩
      | false => exact follows_notice db event (by decide) (by decide)
  · simp only [hver, Bool.not_false, if_true]
    exact follows_notice db event (verification_ne u _ (.inl rfl)) (verification_ne u _ (.inr rfl))

private theorem follows_handleRegistryCommands (hcmd : event.commandName = "register") :
    (handleRegistryCommands db event).Follows (CommandStep db event) (fun _ _ => True) [] := by
  unfold handleRegistryCommands
  rcases hopts : event.options with _ | ⟨subcommand, rest⟩
  · exact follows_notice db event (by decide) (by decide)
  by_cases huser : subcommand.name = "user"
  · have hreg : event.registers = some (leetcodeName subcommand.options) := by
      simp [SlashCommand.registers, hopts, hcmd, huser]
    simp only [huser, beq_self_eq_true, if_true, edit_bind, memberUsername_bind]
    refine ⟨.notice rfl (by decide) (by decide), fun _ => ⟨.memberUsername, fun username => ?_⟩⟩
    rcases username with _ | u
    · exact follows_notice db event (by decide) (by decide)
    · exact follows_registerMember db event hreg List.mem_concat_self
  · simp only [beq_iff_eq, huser, if_false]
    exact follows_notice db event (by decide) (by decide)

section Leetcode

variable {u : String} {t : Trace Op Op.Res}

private theorem follows_withLeetcodeUsername {Q : Trace Op Op.Res → Prop} {s : String} {f : String → Program Unit}
    (herror : Message.text s ≠ profileError) (hreg : Message.text s ≠ registeredSuccessfully)
    (hnone : ∀ t', (∀ row rest, ⟨.sql (.select .discordId (toString event.userId)), .ok (row :: rest)⟩ ∈ t' →
      ⟨.sql (.select .discordId (toString event.userId)), .ok (row :: rest)⟩ ∈ t ∨
        row.getString .leetcodeUsername = "") → Q (t' ++ [⟨.edit (.text s), ()⟩]))
    (hf : ∀ L row rest t', t ⊆ t' →
      ⟨.sql (.select .discordId (toString event.userId)), .ok (row :: rest)⟩ ∈ t' →
      row.getString .leetcodeUsername = L → L ≠ "" → (f L).Follows (CommandStep db event) (fun _ => Q) t') :
    (withLeetcodeUsername db event.userId s f).Follows (CommandStep db event) (fun _ => Q) t := by
  unfold withLeetcodeUsername
  rw [Prog.follows_bind]
  refine follows_getLeetcodeUsername.mono fun name t' h => ?_
  obtain ⟨hsub, hrow, hall⟩ := h
  by_cases hname : (name.getD "").isEmpty
  · simp only [hname, if_true]
    refine ⟨.notice rfl herror hreg, fun _ => hnone t' ?_⟩
    rw [String.isEmpty_iff.1 hname] at hall
    exact hall
  · simp only [hname, Bool.false_eq_true, if_false]
    have hne : name.getD "" ≠ "" := fun h => hname (by simp [h])
    obtain ⟨row, rest, hmem, hL⟩ := hrow hne
    exact hf _ row rest t' hsub hmem hL hne

/-- When the user is registered, `/leetcode profile` ends with an error, a profile or a request. -/
private theorem follows_handleProfile (hread : ⟨.memberUsername event.userId, some u⟩ ∈ t)
    (hfresh : ∀ answer, ⟨.sql (.select .discordId (toString event.userId)), answer⟩ ∉ t) :
    (handleProfile db event.userId u).Follows (CommandStep db event) (fun _ => ProfileEnd event) t := by
  refine follows_withLeetcodeUsername db event (by decide) (by decide) (fun t' hall row rest hrow hne => ?_)
    fun L row rest t₁ hsub hmem hL hne => ?_
  · rcases List.mem_append.1 hrow with hrow | hrow
    · rcases hall row rest hrow with hold | hempty
      · exact absurd hold (hfresh _)
      · exact absurd hempty hne
    · cases List.mem_singleton.1 hrow
  rw [edit_bind]
  refine ⟨.notice rfl (by decide) (by decide), fun _ => ?_⟩
  rw [Prog.follows_bind]
  refine (follows_statsExist (List.mem_append_left _ (hsub hread))).mono fun stats t₂ h₂ => ?_
  obtain ⟨hsub₂, hdb⟩ := h₂
  have hread₂ : ⟨.memberUsername event.userId, some u⟩ ∈ t₂ := hsub₂ (List.mem_append_left _ (hsub hread))
  cases stats with
  | true =>
    simp only [if_true]
    rw [Prog.follows_bind]
    refine (follows_getLeetcodeProfile hread₂).mono fun profile t₃ h₃ => ?_
    cases profile with
    | none =>
      obtain ⟨answer, hselect, hnone⟩ := h₃ (hdb rfl)
      exact ⟨.profileError hselect hnone, fun _ _ _ _ _ => .inl (by simp [texts])⟩
    | some p =>
      obtain ⟨row, rest, hselect, rfl⟩ := h₃ (hdb rfl)
      refine ⟨.profileShown hselect, fun _ _ _ _ _ => .inr (.inl ⟨L, u, row, rest, ?_, by simp [texts]⟩)⟩
      exact List.mem_append_left _ hselect
  | false =>
    simp only [Bool.false_eq_true, if_false]
    refine ⟨.profile hread₂ (hsub₂ (List.mem_append_left _ hmem)) hL hne, fun _ _ _ _ _ => .inr (.inr ?_)⟩
    exact ⟨L, u, toString event.userId, by simp [requested]⟩

private theorem follows_handleUpdateprofile (hread : ⟨.memberUsername event.userId, some u⟩ ∈ t) :
    (handleUpdateprofile db event.userId u).Follows (CommandStep db event) (fun _ _ => True) t :=
  follows_withLeetcodeUsername db event (by decide) (by decide) (fun _ _ => trivial) fun _ _ _ _ hsub hmem hL hne =>
    ⟨.profile (hsub hread) hmem hL hne, fun _ => trivial⟩

private theorem follows_handleDailyquestion :
    (handleDailyquestion db event.userId).Follows (CommandStep db event) (fun _ _ => True) t :=
  follows_withLeetcodeUsername db event (by decide) (by decide) (fun _ _ => trivial) fun _ _ _ _ _ _ _ _ =>
    ⟨.dailyQuestion, fun _ => trivial⟩

private theorem follows_handleActivity :
    (handleActivity db event.userId).Follows (CommandStep db event) (fun _ _ => True) t :=
  follows_withLeetcodeUsername db event (by decide) (by decide) (fun _ _ => trivial) fun _ _ _ _ _ _ _ _ =>
    ⟨.activity, fun _ => trivial⟩

end Leetcode

private theorem follows_handleLeetcodeCommands :
    (handleLeetcodeCommands db event).Follows (CommandStep db event) (fun _ _ => True) [] := by
  unfold handleLeetcodeCommands
  rw [memberUsername_bind]
  refine ⟨.memberUsername, fun username => ?_⟩
  rcases username with _ | u
  · trivial
  have hread : (⟨.memberUsername event.userId, some u⟩ : Σ o : Op, o.Res) ∈
      [⟨.memberUsername event.userId, some u⟩] := List.mem_singleton_self _
  rcases event.options with _ | ⟨subcommand, rest⟩
  · exact follows_notice db event (by decide) (by decide)
  simp only
  split
  · refine (follows_handleProfile db event hread fun answer h => ?_).mono fun _ _ _ => trivial
    cases List.mem_singleton.1 h
  split
  · exact follows_handleUpdateprofile db event hread
  split
  · exact follows_handleDailyquestion db event
  split
  · exact follows_handleActivity db event
  · exact follows_notice db event (by decide) (by decide)

private theorem follows_handleSlashCommands :
    (handleSlashCommands db event).Follows (CommandStep db event) (fun _ _ => True) [] := by
  unfold handleSlashCommands
  split
  · exact follows_notice db event (by decide) (by decide)
  split
  · rename_i hinfo
    have hcmd : event.commandName = "info" := by simpa using hinfo
    unfold handleInfoCommands
    split
    · exact follows_notice db event (by decide) (by decide)
    · split <;> exact ⟨.info hcmd (by decide), fun _ => trivial⟩
  split
  · rename_i hregister
    exact follows_handleRegistryCommands db event (by simpa using hregister)
  split
  · exact follows_handleLeetcodeCommands db event
  · trivial

/-- What `/leetcode profile` has done when it has ended. -/
theorem follows_asksForProfile (hasks : event.asksForProfile) :
    (handleSlashCommands db event).Follows (CommandStep db event) (fun _ => ProfileEnd event) [] := by
  rw [handleSlashCommands_of_asksForProfile db hasks, memberUsername_bind]
  refine ⟨.memberUsername, fun username => ?_⟩
  rcases username with _ | u
  · intro row rest hrow
    cases List.mem_singleton.1 hrow
  · refine follows_handleProfile db event (List.mem_singleton_self _) fun answer h => ?_
    cases List.mem_singleton.1 h

end Commands

/-! ### The completion lambdas -/

section Completions

variable (parse : String → Except String Json) (db : LeetoDB)

/-- The lambda of a description request passes on only what the completion carries. -/
private theorem follows_descriptionLambda (L : String) (p n : Nat) (cc : HttpCompletion) (t : Trace Op Op.Res) :
    (descriptionLambda parse L p n cc).run.Follows (fun _ => CompletionStep parse (.description L p n) cc)
      (fun _ _ => True) t := by
  have hset : ∀ desc : Option String, (∀ text, desc = some text → describedText parse cc = some text) →
      ∀ t, (setValue p desc).run.Follows (fun _ => CompletionStep parse (.description L p n) cc)
        (fun _ _ => True) t :=
    fun desc hdesc t => ⟨.setValue rfl hdesc, fun _ => trivial⟩
  have hnone : ∀ t, (setValue p none).run.Follows (fun _ => CompletionStep parse (.description L p n) cc)
      (fun _ _ => True) t := hset none fun text h => by cases h
  unfold descriptionLambda fetchLeetCodeDescription
  by_cases hsize : maxResponseBytes < cc.bodySize
  · simp only [hsize, if_true]
    exact hnone t
  by_cases hok : cc.status = 200
  · simp only [hsize, hok, beq_self_eq_true, if_true, if_false, ExceptT.run_tryCatch, run_describeUser]
    rw [Prog.follows_bind]
    -- after the block, its exception is handled by one more call
    cases hread : readDescription parse cc.body with
    | error what => exact hnone t
    | ok found =>
      cases found with
      | some v =>
        have htext := describedText_of_read hok (Nat.not_lt.1 hsize) hread
        refine (hset v (fun text h => by rw [htext, h]) t).mono fun r t _ => ?_
        rcases r with _ | _
        · exact hnone t
        · trivial
      | none =>
        refine ⟨.edit, fun _ => ?_⟩
        rw [ExceptT.run_bind, Prog.follows_bind]
        refine (hnone _).mono fun r t _ => ?_
        rcases r with _ | _
        · exact hnone t
        · refine (hnone t).mono fun r t _ => ?_
          rcases r with _ | _
          · exact hnone t
          · trivial
  · simp only [hsize, hok, beq_iff_eq, if_false]
    by_cases hlim : rateLimited cc && n < 3
    · simp only [hlim, if_true]
      exact ⟨.again (n + 1), fun _ => trivial⟩
    · simp only [hlim, Bool.false_eq_true, if_false]
      exact hnone t

private theorem follows_storeProfile {L name d : String} {n : Nat} {cc : HttpCompletion} {s : FetchedStats}
    (hread : readProfile parse L cc.body = .ok (.inr s)) (t : Trace Op Op.Res) :
    (storeProfile db L name d s).Follows (fun _ => CompletionStep parse (.profile L name d n) cc)
      (fun _ _ => True) t := by
  unfold storeProfile LeetoDB.updateProfile
  by_cases hdb : db.connected
  · simp only [hdb, Bool.not_true, Bool.false_eq_true, if_false, selectWhere_bind]
    refine ⟨.selectOwn rfl, fun r => ?_⟩
    rcases r with _ | _ | ⟨row, rest⟩
    · trivial
    · trivial
    · refine ⟨.update rfl hread, fun r => ?_⟩
      rcases r with _ | _ <;> trivial
  · simp only [hdb, Bool.not_false, if_true]
    trivial

private theorem follows_completionLambda (r : Request) (cc : HttpCompletion) :
    (completionLambda parse db r cc).Follows (fun _ => CompletionStep parse r cc) (fun _ _ => True) [] := by
  unfold completionLambda
  cases r with
  | description L p n =>
    simp only
    rw [Prog.follows_bind]
    exact (follows_descriptionLambda parse L p n cc []).mono fun _ _ _ => trivial
  | profile L name d n =>
    simp only [fetchLeetCodeProfile]
    by_cases hok : cc.status == 200
    · simp only [hok, if_true]
      cases hread : readProfile parse L cc.body with
      | error what => exact ⟨.edit, fun _ => trivial⟩
      | ok found =>
        rcases found with m | s
        · exact ⟨.edit, fun _ => trivial⟩
        · simp only
          rw [Prog.follows_bind]
          refine (follows_storeProfile parse db hread []).mono fun updated t _ => ?_
          cases updated with
          | true => exact ⟨.edit, fun _ => trivial⟩
          | false => exact ⟨.edit, fun _ => ⟨.edit, fun _ => trivial⟩⟩
    · simp only [hok, Bool.false_eq_true, if_false]
      by_cases hlim : cc.status == 429 && n < 3
      · simp only [hlim, if_true]
        exact ⟨.again (n + 1), fun _ => trivial⟩
      · simp only [hlim, Bool.false_eq_true, if_false]
        exact ⟨.edit, fun _ => trivial⟩
  | dailyQuestion L n =>
    simp only [fetchLeetCodeDailyQuestion]
    by_cases hok : cc.status == 200
    · simp only [hok, if_true]
      cases readDailyQuestion parse cc.body <;> exact ⟨.edit, fun _ => trivial⟩
    · simp only [hok, Bool.false_eq_true, if_false]
      by_cases hlim : rateLimited cc && n < 3
      · simp only [hlim, if_true]
        exact ⟨.again (n + 1), fun _ => trivial⟩
      · simp only [hlim, Bool.false_eq_true, if_false]
        exact ⟨.edit, fun _ => trivial⟩
  | activity L n =>
    simp only [fetchLeetCodeActivity]
    by_cases hok : cc.status == 200
    · simp only [hok, if_true]
      cases readActivity parse L cc.body <;> exact ⟨.edit, fun _ => trivial⟩
    · simp only [hok, Bool.false_eq_true, if_false]
      by_cases hlim : rateLimited cc && n < 3
      · simp only [hlim, if_true]
        exact ⟨.again n, fun _ => trivial⟩
      · simp only [hlim, Bool.false_eq_true, if_false]
        exact ⟨.edit, fun _ => trivial⟩

/-- Every program that an event starts keeps to the two lists. -/
theorem follows_arrive (e : AccountEvent) (a a' : Accounts) (p : Program Unit)
    (h : (accounts parse db).arrive e a = some (a', p)) :
    p.Follows (AccountStep parse db e) (fun _ _ => True) [] := by
  cases e with
  | slashcommand event =>
    cases h
    exact follows_handleSlashCommands db event
  | completion k r cc =>
    simp only [accounts, Accounts.arrive] at h
    split at h
    · cases h
      exact follows_completionLambda parse db r cc
    · cases h
  | usernameChange userId username =>
    cases h
    trivial

end Completions

end LeetBot
