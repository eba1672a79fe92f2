import LeetBot.ButtonIds
import LeetBot.ClickAnswers
import LeetBot.DailyQuestion
import LeetBot.PageTexts
import LeetBot.Replies

/-!
# Buttons and menus

The messages of the commands carry the buttons of a daily question and the menu of the languages, and the messages of
the message components the buttons that turn a page.  Any user may use them at any later time, whatever has happened
since.  Each of these buttons is answered by exactly one response, and each entry of a menu is a language that the
handler knows.
-/

namespace LeetBot

open Interleave EventMachine Loops

/-! ### What stands below a message -/

/-- The ids of the buttons of a message. -/
def Message.buttonIds (m : Message) : List String :=
  m.rows.flatten.filterMap fun
    | .button _ customId => some customId
    | .selectmenu .. => none

/-- The entries of the menus of a message. -/
def Message.menuEntries (m : Message) : List String :=
  m.rows.flatten.flatMap fun
    | .button .. => []
    | .selectmenu _ _ options => options

/-- The rows that the bot puts below a message. -/
inductive Controls : List (List Component) → Prop
  | none : Controls []
  | question (titleSlug : String) : Controls [[.mkButton "Solution" ("solution_id:" ++ titleSlug),
      .mkButton "Description" ("description_id:" ++ titleSlug)],
      [.selectmenu "Select solution language" "solution_language_dropdown" languages]]
  | pages (owner : Snowflake) : Controls [pageButtons owner]

/-- An operation that shows only such rows. -/
abbrev ShowsControls : Op → Prop := Op.Shows fun m => Controls m.rows

/-! ### The messages of the commands -/

section Commands

variable {parse : String → Except String Json} {db : LeetoDB} {event : SlashCommand}

private theorem only_text {s : String} : (edit (.text s)).Only ShowsControls := only_edit Controls.none

private theorem only_handleInfoCommands : (handleInfoCommands event).Only ShowsControls := by
  unfold handleInfoCommands
  split
  · exact only_text
  split
  · exact only_edit Controls.none
  · exact only_text

private theorem only_handleRegistryCommands : (handleRegistryCommands db event).Only ShowsControls := by
  unfold handleRegistryCommands
  split
  · exact only_text
  split
  · simp only [edit_bind, memberUsername_bind]
    refine ⟨Op.shows_edit.2 Controls.none, fun _ => ⟨Op.shows_of_ne (by simp), fun username => ?_⟩⟩
    cases username with
    | none => exact only_text
    | some username =>
      apply only_registerMember
      intro m hm
      simp only [registrationMessages, List.mem_cons, List.not_mem_nil, or_false] at hm
      rcases hm with rfl | rfl | rfl | rfl | rfl | rfl <;> exact Controls.none
  · exact only_text

private theorem only_handleLeetcodeCommands : (handleLeetcodeCommands db event).Only ShowsControls := by
  unfold handleLeetcodeCommands
  rw [memberUsername_bind]
  refine ⟨Op.shows_of_ne (by simp), fun username => ?_⟩
  cases username with
  | none => trivial
  | some username =>
    dsimp only
    split
    · exact only_text
    split
    · exact only_handleProfile Controls.none Controls.none Controls.none fun _ _ => Controls.none
    split
    · exact only_withLeetcodeUsername Controls.none fun _ => only_request
    split
    · exact only_withLeetcodeUsername Controls.none fun _ => only_request
    split
    · exact only_withLeetcodeUsername Controls.none fun _ => only_request
    · exact only_text

private theorem controls_handleSlashCommands : (handleSlashCommands db event).Only ShowsControls := by
  unfold handleSlashCommands
  split
  · exact only_text
  split
  · exact only_handleInfoCommands
  split
  · exact only_handleRegistryCommands
  split
  · exact only_handleLeetcodeCommands
  · trivial

end Commands

/-! ### What the responses say -/

section Readers

variable {parse : String → Except String Json} {username languageSlug body : String}

private theorem controls_readDailyQuestion : Yields (fun m => Controls m.rows) (readDailyQuestion parse body) := by
  unfold readDailyQuestion
  refine yields_bind fun response => yields_bind fun data => yields_bind fun lacks => ?_
  split
  · exact yields_pure Controls.none
  refine yields_bind fun recent => ?_
  split
  · exact yields_pure Controls.none
  refine yields_bind fun daily => yields_bind fun x => yields_bind fun date => yields_bind fun y =>
    yields_bind fun link => yields_bind fun question => yields_bind fun acRate => yields_bind fun difficulty =>
    yields_bind fun id => yields_bind fun title => yields_bind fun titleSlug => yields_bind fun z =>
    yields_bind fun paidOnly => yields_bind fun topics => ?_
  dsimp only
  split <;> exact yields_bind fun tags => yields_bind fun completed => yields_pure (Controls.question titleSlug)

private theorem controls_readActivity : Yields (fun m => Controls m.rows) (readActivity parse username body) := by
  unfold readActivity
  refine yields_bind fun response => yields_bind fun data => yields_bind fun lacks => ?_
  split
  · exact yields_pure Controls.none
  refine yields_bind fun matchedUser => yields_bind fun activity => ?_
  split
  · exact yields_pure Controls.none
  refine yields_bind fun x => yields_bind fun streak => yields_bind fun y => yields_bind fun days =>
    yields_bind fun profile => ?_
  split
  · exact yields_pure Controls.none
  exact yields_bind fun avatarUrl => yields_pure Controls.none

private theorem controls_inl {α : Type} (s : String) :
    ∀ m, (.inl (.text s) : Message ⊕ α) = .inl m → Controls m.rows := by
  rintro m ⟨⟩
  exact Controls.none

private theorem controls_readProfile :
    Yields (fun found => ∀ m, found = .inl m → Controls m.rows) (readProfile parse username body) := by
  unfold readProfile
  refine yields_bind fun response => yields_bind fun data => yields_bind fun lacks => ?_
  split
  · exact yields_pure (controls_inl _)
  refine yields_bind fun matchedUser => yields_bind fun name => yields_bind fun submitStats =>
    yields_bind fun lacks => ?_
  split
  · exact yields_pure (controls_inl _)
  refine yields_bind fun profileInfo => ?_
  split
  · exact yields_pure (controls_inl _)
  refine yields_bind fun ranking => yields_bind fun avatar => yields_bind fun name => yields_bind fun country =>
    yields_bind fun tags => ?_
  dsimp only
  split <;> exact yields_bind fun skills => yields_bind fun x => yields_bind fun stats => yields_pure nofun

private theorem controls_readSolutions :
    Yields (fun found => ∀ m, found = .inl m → Controls m.rows) (readSolutions parse languageSlug body) := by
  unfold readSolutions
  refine yields_bind fun response => yields_bind fun data => ?_
  split
  · exact yields_pure (controls_inl _)
  refine yields_bind fun questionSolutions => yields_bind fun solutions => ?_
  split
  · exact yields_pure (controls_inl _)
  split
  · exact yields_pure (controls_inl _)
  exact yields_bind fun found => yields_pure fun m hm => nomatch hm

private theorem controls_readQuestionDescription :
    Yields (fun m => Controls m.rows) (readQuestionDescription parse body) := by
  unfold readQuestionDescription
  refine yields_bind fun response => yields_bind fun data => ?_
  split
  · exact yields_pure Controls.none
  refine yields_bind fun problem => ?_
  split
  · exact yields_pure Controls.none
  refine yields_bind fun content => yields_bind fun schemas => ?_
  split
  · exact yields_pure Controls.none
  · exact yields_bind fun embed => yields_pure Controls.none

end Readers

/-! ### The completion lambdas -/

section Lambdas

variable {parse : String → Except String Json} {db : LeetoDB} {cc : HttpCompletion}

private theorem only_setValue {p : Nat} {desc : Option String} : (setValue p desc).run.Only ShowsControls :=
  ⟨Op.shows_of_ne (by simp), fun _ => trivial⟩

private theorem only_descriptionLambda {L : String} {p n : Nat} :
    (descriptionLambda parse L p n cc).run.Only ShowsControls := by
  have htext : Op.Shows (fun m => Controls m.rows) (.edit (.text ("User `" ++ L ++ "` not found on LeetCode."))) :=
    Op.shows_edit.2 Controls.none
  unfold descriptionLambda fetchLeetCodeDescription
  split
  · exact only_request
  · rename_i q h
    split at h
    · cases h
      exact only_setValue
    split at h
    · cases h
      rw [ExceptT.run_tryCatch, run_describeUser]
      refine Prog.Only.bind ?_ ?_
      · rcases readDescription parse cc.body with what | (_ | v)
        · trivial
        · refine ⟨htext, fun _ => ?_⟩
          rw [ExceptT.run_bind]
          apply only_setValue.bind
          rintro (_ | _)
          · trivial
          · exact only_setValue
        · exact only_setValue
      · -- an exception of the block is handled by one more call
        rintro (_ | _)
        · exact only_setValue
        · trivial
    split at h
    · cases h
    · cases h
      exact only_setValue

private theorem only_branch {ok limited : Bool} {n : Nat} {a : Program Unit} {failure : String}
    {again : Nat → Request} (ha : a.Only ShowsControls) :
    (match if ok then Reaction.handled a else if limited then .retry n else .handled (edit (.text failure)) with
      | .retry n => request (again n)
      | .handled p => p).Only ShowsControls := by
  split
  · exact only_request
  · rename_i p h
    split at h
    · cases h
      exact ha
    split at h
    · cases h
    · cases h
      exact only_text

private theorem controls_completionLambda (r : Request) : (completionLambda parse db r cc).Only ShowsControls := by
  unfold completionLambda
  cases r with
  | description L p n => exact only_descriptionLambda.bind fun _ => trivial
  | profile L name d n =>
    apply only_branch
    cases hread : readProfile parse L cc.body with
    | error what => exact only_text
    | ok found =>
      rcases found with m | s
      · exact only_edit (controls_readProfile _ hread m rfl)
      apply (only_of_sql only_storeProfile).bind
      intro updated
      cases updated with
      | true => exact only_edit Controls.none
      | false => exact ⟨Op.shows_edit.2 Controls.none, fun _ => only_edit Controls.none⟩
  | dailyQuestion L n =>
    apply only_branch
    cases hread : readDailyQuestion parse cc.body with
    | error what => exact only_text
    | ok m => exact only_edit (controls_readDailyQuestion _ hread)
  | activity L n =>
    apply only_branch
    cases hread : readActivity parse L cc.body with
    | error what => exact only_text
    | ok m => exact only_edit (controls_readActivity _ hread)

end Lambdas

private theorem controls_arrive (parse : String → Except String Json) (db : LeetoDB) (e : AccountEvent)
    (a a' : Accounts)
    (p : Program Unit) (h : (accounts parse db).arrive e a = some (a', p)) : p.Only ShowsControls := by
  cases e with
  | slashcommand event =>
    cases h
    exact controls_handleSlashCommands
  | completion k r cc =>
    simp only [accounts, Accounts.arrive] at h
    split at h
    · cases h
      exact controls_completionLambda r
    · cases h
  | usernameChange userId username =>
    cases h
    trivial

/-! ### The messages of the message components -/

section Components

variable {parse : String → Except String Json} {s : Interactive} {u : Snowflake}

/-- The messages in a list of answers have such rows. -/
def AnswersControls (answers : List Answer) : Prop := ∀ x ∈ answers, ∀ m, x.message = some m → Controls m.rows

private theorem answersControls_nil : AnswersControls [] := nofun

private theorem answersControls_singleton {x : Answer} :
    AnswersControls [x] ↔ ∀ m, x.message = some m → Controls m.rows :=
  List.forall_mem_singleton

private theorem controls_handleSolutionButtonClick (customId : String) :
    AnswersControls (handleSolutionButtonClick s u customId).2 := by
  have hissued : ∀ r, AnswersControls [.thinking, .requested r] := by
    intro r x hx m hm
    simp only [List.mem_cons, List.not_mem_nil, or_false] at hx
    rcases hx with rfl | rfl <;> cases hm
  unfold handleSolutionButtonClick
  split
  · split
    · rw [answersControls_singleton]
      rintro m ⟨⟩
      exact Controls.none
    · exact hissued _
  split
  · exact hissued _
  · exact answersControls_nil

private theorem controls_handleSolutionsPageButton (pages : PerUserPage) (id : String) :
    AnswersControls (handleSolutionsPageButton pages u id).2 := by
  unfold handleSolutionsPageButton
  split
  · exact answersControls_nil
  split
  · exact answersControls_nil
  split
  · rw [answersControls_singleton]
    rintro m ⟨⟩
    exact Controls.none
  dsimp only
  split
  · exact answersControls_nil
  · rw [answersControls_singleton]
    rintro m ⟨⟩
    exact Controls.pages _

/-- A page or a text is shown for the solutions of a response. -/
private theorem controls_fetchSolution {languageSlug : String} {n : Nat} {cc : HttpCompletion} {action : PageAction}
    (h : fetchLeetCodeDailyQuestionSolution parse u languageSlug n cc = .handled action) (pages : PerUserPage) :
    ∀ m, (action pages).2 = some m → Controls m.rows := by
  unfold fetchLeetCodeDailyQuestionSolution at h
  split at h
  · cases h
    dsimp only
    cases hread : readSolutions parse languageSlug cc.body with
    | error what =>
      rintro m ⟨⟩
      exact Controls.none
    | ok found =>
      rcases found with text | solutions
      · rintro m ⟨⟩
        exact controls_readSolutions _ hread text rfl
      · intro m hm
        obtain ⟨content, -, rfl⟩ := Option.map_eq_some_iff.1 hm
        exact Controls.pages u
  split at h
  · cases h
  · cases h
    rintro m ⟨⟩
    exact Controls.none

private theorem controls_fetchDescription {n : Nat} {cc : HttpCompletion} {m : Message}
    (h : fetchLeetCodeDailyQuestionDescription parse n cc = .handled m) : Controls m.rows := by
  unfold fetchLeetCodeDailyQuestionDescription at h
  split at h
  · cases h
    cases hread : readQuestionDescription parse cc.body with
    | error what => exact Controls.none
    | ok m => exact controls_readQuestionDescription _ hread
  split at h
  · cases h
  · cases h
    exact Controls.none

private theorem controls_onCompletion (r : ButtonRequest) (cc : HttpCompletion) :
    AnswersControls (onCompletion parse s u r cc).2 := by
  have hissued : ∀ r, AnswersControls [.requested r] := by
    intro r
    rw [answersControls_singleton]
    rintro m ⟨⟩
  cases r with
  | solution titleSlug languageSlug n =>
    unfold onCompletion
    dsimp only
    split
    · exact hissued _
    · rename_i action hfetch
      intro x hx m hm
      obtain ⟨shown, hshown, rfl⟩ := List.mem_map.1 hx
      cases hm
      exact controls_fetchSolution hfetch s.pages _ (Option.mem_toList.1 hshown)
  | description titleSlug n =>
    unfold onCompletion
    dsimp only
    split
    · exact hissued _
    · rename_i shown hfetch
      rw [answersControls_singleton]
      rintro m ⟨⟩
      exact controls_fetchDescription hfetch

private theorem controls_interact (i : Interaction) : AnswersControls (interact parse s u i).2 := by
  cases i with
  | selectLanguage selected =>
    simp only [interact, handleSolutionDropdown]
    split
    · rw [answersControls_singleton]
      rintro m ⟨⟩
      exact Controls.none
    · rw [answersControls_singleton]
      rintro m ⟨⟩
      exact Controls.none
  | clickButton customId =>
    intro x hx
    rcases List.mem_append.1 hx with hx | hx
    · exact controls_handleSolutionButtonClick customId x hx
    · exact controls_handleSolutionsPageButton _ customId x hx
  | completion k cc =>
    simp only [interact]
    split
    · exact answersControls_nil
    · exact controls_onCompletion _ cc

end Components

/-! ### What is shown -/

/-- A message that a command, a completion lambda or a message component has shown in some run. -/
inductive Shown (parse : String → Except String Json) (db : LeetoDB) : Message → Prop
  | command {w : AccountWorld} {i : Nat} {m : Message} (hw : Reachable parse db (fun _ _ => True) w)
      (hm : m ∈ replies w i) : Shown parse db m
  | component {es : List UserEvent} {o : Snowflake × Answer} {m : Message}
      (ho : o ∈ (run (interactStep parse) .initial es).2) (hm : o.2.message = some m) : Shown parse db m

private theorem Shown.controls {parse : String → Except String Json} {db : LeetoDB} {m : Message}
    (h : Shown parse db m) :
    Controls m.rows := by
  cases h with
  | command hw hm =>
    obtain ⟨e, -, hshows⟩ := hw.performed_only (controls_arrive parse db · · · ·) (mem_replies.1 hm)
    exact hshows m rfl
  | component ho hm =>
    obtain ⟨s, e, ho⟩ := exists_step_of_mem_run ho
    obtain ⟨x, hx, rfl⟩ := List.mem_map.1 ho
    exact controls_interact e.2 x hx m hm

/-! ### Clicks -/

section Clicks

variable {parse : String → Except String Json} {customId entry : String}

/-- A click of any user, after any events, gets exactly one response. -/
def Responds (parse : String → Except String Json) (customId : String) : Prop :=
  ∀ es u, (interact parse (reached parse es) u (.clickButton customId)).2.countP Answer.isResponse = 1

/-- An id that starts one operation is responded to: the page that a button turns to can be built. -/
private theorem responds_of_operationsOf {op : ButtonOperation} (h : operationsOf customId = some [op]) :
    Responds parse customId := by
  intro es u
  simp only [interact]
  rw [onButtonClick_of_operationsOf h, performAll_singleton]
  cases op with
  | solutionRequest titleSlug =>
    unfold ButtonOperation.perform
    cases (reached parse es).userLanguageMap u <;> rfl
  | descriptionRequest titleSlug => rfl
  | pageTurn owner d =>
    unfold ButtonOperation.perform
    dsimp only
    split
    · rfl
    · rename_i hown
      obtain rfl : u = owner := not_not.1 hown
      obtain ⟨k, hk⟩ := represents_reached parse u es
      have hbuild := buildSolutionsPage_cursor (c := d.move (accessed k))
      rw [Direction.move_entries] at hbuild
      rw [hk.getD_solutions, hk.getD_page, turnPage_position, hbuild]
      rfl

private theorem operationsOf_question (titleSlug : String) :
    (∃ slug, operationsOf (utf8substr 100 ("solution_id:" ++ titleSlug)) = some [.solutionRequest slug]) ∧
      ∃ slug, operationsOf (utf8substr 100 ("description_id:" ++ titleSlug)) = some [.descriptionRequest slug] := by
  rw [utf8substr_append (by decide), utf8substr_append (by decide)]
  constructor
  · have hdirection : ∀ text, pageDirection ("solution_id:" ++ text) = none := by
      intro text
      simp [pageDirection, startsWith]
    rw [operationsOf, pageTurnsOf, hdirection, requestsOf, if_pos (startsWith_append _ _)]
    exact ⟨_, rfl⟩
  · have hdirection : ∀ text, pageDirection ("description_id:" ++ text) = none := by
      intro text
      simp [pageDirection, startsWith]
    have hsolution : ∀ text, ¬ startsWith ("description_id:" ++ text) "solution_id:" := by
      intro text
      simp [startsWith]
    rw [operationsOf, pageTurnsOf, hdirection, requestsOf, if_neg (hsolution _), if_pos (startsWith_append _ _)]
    exact ⟨_, rfl⟩

private theorem responds_of_controls {m : Message} (h : Controls m.rows) : ∀ id ∈ m.buttonIds, Responds parse id := by
  unfold Message.buttonIds
  generalize m.rows = rows at h
  cases h with
  | none => exact nofun
  | question titleSlug =>
    obtain ⟨⟨_, hsolution⟩, _, hdescription⟩ := operationsOf_question titleSlug
    show ∀ id ∈ [utf8substr 100 ("solution_id:" ++ titleSlug), utf8substr 100 ("description_id:" ++ titleSlug)],
      Responds parse id
    simp only [List.forall_mem_cons]
    exact ⟨responds_of_operationsOf hsolution, responds_of_operationsOf hdescription, nofun⟩
  | pages owner =>
    show ∀ id ∈ [(ButtonTarget.page owner .prev).customId, (ButtonTarget.page owner .next).customId],
      Responds parse id
    simp only [List.forall_mem_cons]
    exact ⟨responds_of_operationsOf (operationsOf_customId _), responds_of_operationsOf (operationsOf_customId _),
      nofun⟩

/-- An entry of a menu sets the language of the user, and the answer says so. -/
def SetsLanguage (parse : String → Except String Json) (entry : String) : Prop :=
  ∃ languageSlug, dropdownMap.lookup entry = some languageSlug ∧
    ∀ s u, interact parse s u (.selectLanguage entry) =
      ({ s with userLanguageMap := Function.update s.userLanguageMap u (some languageSlug) },
        [.reply (Message.text ("Language set to: " ++ entry)).setEphemeral])

private theorem setsLanguage_of_controls {m : Message} (h : Controls m.rows) :
    ∀ entry ∈ m.menuEntries, SetsLanguage parse entry := by
  have hlanguages : ∀ entry ∈ languages, SetsLanguage parse entry := by
    intro entry hmem
    obtain ⟨languageSlug, hslug⟩ : ∃ languageSlug, dropdownMap.lookup entry = some languageSlug := by
      have hall : ∀ entry ∈ languages, (dropdownMap.lookup entry).isSome := by decide
      exact Option.isSome_iff_exists.1 (hall entry hmem)
    refine ⟨languageSlug, hslug, fun s u => ?_⟩
    simp only [interact, handleSolutionDropdown, hslug]
  unfold Message.menuEntries
  generalize m.rows = rows at h
  cases h with
  | none =>
    intro entry hmem
    cases hmem
  | question titleSlug =>
    show ∀ entry ∈ languages ++ [], SetsLanguage parse entry
    rwa [List.append_nil]
  | pages owner =>
    intro entry hmem
    cases hmem

end Clicks

/-- Every button that is ever shown, in whatever run of the commands or of the message components, answers every
click: of any user and in every state that the message components reach, a click gets exactly one response.  Every
entry of a menu that is ever shown sets the language of the user who selects it. -/
theorem controls_work {parse : String → Except String Json} {db : LeetoDB} {m : Message} (h : Shown parse db m) :
    (∀ id ∈ m.buttonIds, ∀ es u,
        (interact parse (reached parse es) u (.clickButton id)).2.countP Answer.isResponse = 1) ∧
      ∀ entry ∈ m.menuEntries, ∃ languageSlug, dropdownMap.lookup entry = some languageSlug ∧
        ∀ s u, interact parse s u (.selectLanguage entry) =
          ({ s with userLanguageMap := Function.update s.userLanguageMap u (some languageSlug) },
            [.reply (Message.text ("Language set to: " ++ entry)).setEphemeral]) :=
  ⟨responds_of_controls h.controls, setsLanguage_of_controls h.controls⟩

def questionParse (body : String) : Except String Json :=
  if body = "" then .ok (dailyResponse mixedItems) else sampleParse body

/-- User 1 registers and asks for the daily question. -/
def askForQuestion : List (Label Choice AccountEvent) :=
  [.event (.usernameChange 1 "ann"), .event (registerCommand 1 "a")] ++ proceed 1 5 ++
    [.event (.completion 0 (.description "a" 0 0) ⟨200, describedBody⟩)] ++ proceed 2 1 ++ proceed 1 4 ++
    [.event (leetcodeCommand 1 "dailyquestion")] ++ proceed 3 3 ++
    [.event (.completion 1 (.dailyQuestion "a" 0) ⟨200, ""⟩)] ++ proceed 4 1

/-- The buttons of a daily question, and the languages of its menu. -/
theorem controls_work_question :
    ∃ m : Message, m.buttonIds = ["solution_id:two-sum", "description_id:two-sum"] ∧ "C++" ∈ m.menuEntries ∧
      (∀ id ∈ m.buttonIds, ∀ es u,
        (interact questionParse (reached questionParse es) u (.clickButton id)).2.countP Answer.isResponse = 1) ∧
      ∀ entry ∈ m.menuEntries, ∃ languageSlug, dropdownMap.lookup entry = some languageSlug ∧
        ∀ s u, interact questionParse s u (.selectLanguage entry) =
          ({ s with userLanguageMap := Function.update s.userLanguageMap u (some languageSlug) },
            [.reply (Message.text ("Language set to: " ++ entry)).setEphemeral]) := by
  have hrun : ((accounts questionParse ⟨true⟩).run (fun _ _ => True) AccountWorld.initial askForQuestion).any
      (fun w => (replies w 4).any fun m => m.buttonIds = ["solution_id:two-sum", "description_id:two-sum"] ∧
        "C++" ∈ m.menuEntries) = true := by decide +kernel
  obtain ⟨w, hw, htest⟩ := System.Reach.exists_of_run hrun
  obtain ⟨m, hm, hparts⟩ := List.any_eq_true.1 htest
  obtain ⟨hids, hentries⟩ := of_decide_eq_true hparts
  have hshown : Shown questionParse ⟨true⟩ m := .command hw hm
  exact ⟨m, hids, hentries, controls_work hshown⟩

end LeetBot
