import LeetBot.Noninterference

/-!
# The answers to an interaction

A click that is acknowledged with "thinking" is answered by one edit of the original response, when the request that
it has issued completes for good.  Until then that request, or the last repetition of it, is in flight.  No
interaction is responded to twice.

Every lambda has captured the event of the click that its request was issued for, and answers through it.  So the bot
is run here with the captured events (`Capturing`); an interaction is named by the number of its event.
-/

namespace LeetBot

open EventMachine

/-- An answer that responds to the interaction itself. -/
def Answer.isResponse : Answer → Bool
  | .reply _ | .thinking | .updateMessage _ => true
  | .editOriginal _ | .requested _ => false

/-- The button with this id asks for the request. -/
def AsksFor (customId : String) : ButtonRequest → Prop
  | .solution titleSlug _ _ => startsWith customId "solution_id:" ∧ titleSlug = slugOf customId "solution_id:"
  | .description titleSlug _ => startsWith customId "description_id:" ∧ titleSlug = slugOf customId "description_id:"

section Handlers

variable {parse : String → Except String Json} {s : Interactive} {u : Snowflake}

/-- A completion issues the same request again, or it edits the original response. -/
theorem onCompletion_cases (parse : String → Except String Json) (u : Snowflake) (r : ButtonRequest)
    (cc : HttpCompletion) :
    (∀ s, onCompletion parse s u r cc = (s.issue u r, [.requested r])) ∨
      ∀ s, ∃ pages m, onCompletion parse s u r cc = ({ s with pages }, [.editOriginal m]) := by
  cases r with
  | solution titleSlug languageSlug n =>
    rcases onCompletion_solution_cases parse u titleSlug languageSlug n cc with
      ⟨-, hstep⟩ | ⟨-, m, -, hstep⟩ | ⟨solutions, -, -, hstep⟩
    · exact .inl hstep
    · right
      intro s
      exact ⟨s.pages, m, hstep s⟩
    · right
      intro s
      -- the first page can be built, even of no solutions
      obtain ⟨content, hcontent⟩ : ∃ content, buildSolutionsPage solutions 0 = some content := by
        cases solutions with
        | nil => exact ⟨_, buildSolutionsPage_of_le (p := 0) (Nat.zero_le _)⟩
        | cons sol sols =>
          have hpos : 0 < (sol :: sols).length := Nat.succ_pos _
          exact ⟨_, buildSolutionsPage_of_lt hpos⟩
      refine ⟨s.pages.store u solutions, pageMessage .yellowOrange u content, ?_⟩
      rw [hstep, hcontent]
      rfl
  | description titleSlug n =>
    simp only [onCompletion, fetchLeetCodeDailyQuestionDescription]
    by_cases hok : cc.status == 200
    · right
      intro s
      simp only [hok, if_true]
      exact ⟨s.pages, _, rfl⟩
    · by_cases hlim : rateLimited cc && n < 3
      · left
        intro s
        simp only [hok, hlim, Bool.false_eq_true, if_false, if_true]
      · right
        intro s
        simp only [hok, hlim, Bool.false_eq_true, if_false]
        exact ⟨s.pages, _, rfl⟩

private theorem handleSolutionButtonClick_cases (s : Interactive) (u : Snowflake) (customId : String) :
    (∃ r, AsksFor customId r ∧
        handleSolutionButtonClick s u customId = (s.issue u r, [.thinking, .requested r])) ∨
      (∃ m, handleSolutionButtonClick s u customId = (s, [.reply m])) ∨
      handleSolutionButtonClick s u customId = (s, []) := by
  unfold handleSolutionButtonClick
  split
  · rename_i hstarts
    split
    · exact .inr (.inl ⟨_, rfl⟩)
    · refine .inl ⟨_, ?_, rfl⟩
      exact ⟨hstarts, rfl⟩
  · split
    · rename_i hstarts
      refine .inl ⟨_, ?_, rfl⟩
      exact ⟨hstarts, rfl⟩
    · exact .inr (.inr rfl)

private theorem handleSolutionsPageButton_answers (pages : PerUserPage) (u : Snowflake) (id : String) :
    (∃ m, (handleSolutionsPageButton pages u id).2 = [.reply m]) ∨
      (∃ m, (handleSolutionsPageButton pages u id).2 = [.updateMessage m]) ∨
      (handleSolutionsPageButton pages u id).2 = [] := by
  unfold handleSolutionsPageButton
  split
  · exact .inr (.inr rfl)
  · split
    · exact .inr (.inr rfl)
    · split
      · exact .inl ⟨_, rfl⟩
      · simp only
        split
        · exact .inr (.inr rfl)
        · exact .inr (.inl ⟨_, rfl⟩)

/-- No id is both that of a button of the daily question and that of a page button. -/
theorem handleSolutionButtonClick_of_pageDirection {customId : String} {d : Direction}
    (h : pageDirection customId = some d) (s : Interactive) : handleSolutionButtonClick s u customId = (s, []) := by
  obtain ⟨pre, hpre, hstarts⟩ : ∃ pre, pre ∈ ["solution_prev_page:", "solution_next_page:"] ∧
      startsWith customId pre = true := by
    unfold pageDirection at h
    split at h
    · exact ⟨_, List.mem_cons_self, ‹_›⟩
    · split at h
      · exact ⟨_, List.mem_cons_of_mem _ List.mem_cons_self, ‹_›⟩
      · cases h
  have hother : ∀ other ∈ ["solution_id:", "description_id:"], startsWith customId other = false := by
    intro other hmem
    cases htrue : startsWith customId other with
    | false => rfl
    | true =>
      -- both are beginnings of the id, so that one begins with the other
      have hcases := List.prefix_or_prefix_of_prefix (List.isPrefixOf_iff_prefix.1 htrue)
        (List.isPrefixOf_iff_prefix.1 hstarts)
      have hapart : ∀ pre ∈ ["solution_prev_page:", "solution_next_page:"],
          ∀ other ∈ ["solution_id:", "description_id:"],
            ¬ (other.toList <+: pre.toList ∨ pre.toList <+: other.toList) := by decide
      exact absurd hcases (hapart pre hpre other hmem)
  unfold handleSolutionButtonClick
  rw [hother _ List.mem_cons_self, hother _ (List.mem_cons_of_mem _ List.mem_cons_self)]
  rfl

end Handlers

/-! ### One interaction -/

section Interact

variable {parse : String → Except String Json} {s : Interactive} {u : Snowflake}

/-- What an interaction that is no completion answers, and what it leaves in flight. -/
private theorem interact_cases (parse : String → Except String Json) (s : Interactive) (u : Snowflake)
    {i : Interaction} (h : ∀ k cc, i ≠ .completion k cc) :
    (∃ customId r, i = .clickButton customId ∧ AsksFor customId r ∧
        (interact parse s u i).1.inflight u = s.inflight u ++ [r] ∧
        (interact parse s u i).2 = [.thinking, .requested r]) ∨
      (interact parse s u i).1.inflight u = s.inflight u ∧
        ((interact parse s u i).2 = [] ∨ (∃ m, (interact parse s u i).2 = [.reply m]) ∨
          ∃ m, (interact parse s u i).2 = [.updateMessage m]) := by
  cases i with
  | selectLanguage selected =>
    right
    simp only [interact, handleSolutionDropdown]
    split
    · exact ⟨rfl, .inr (.inl ⟨_, rfl⟩)⟩
    · exact ⟨rfl, .inr (.inl ⟨_, rfl⟩)⟩
  | clickButton customId =>
    simp only [interact, onButtonClick]
    cases hd : pageDirection customId with
    | none =>
      have hpage : ∀ pages, (handleSolutionsPageButton pages u customId).2 = [] := by
        intro pages
        simp [handleSolutionsPageButton, hd]
      rw [hpage]
      rcases handleSolutionButtonClick_cases s u customId with ⟨r, hasks, hstep⟩ | ⟨m, hstep⟩ | hstep
      · rw [hstep]
        exact .inl ⟨customId, r, rfl, hasks, by simp [Interactive.issue], rfl⟩
      · rw [hstep]
        exact .inr ⟨rfl, .inr (.inl ⟨m, rfl⟩)⟩
      · rw [hstep]
        exact .inr ⟨rfl, .inl rfl⟩
    | some d =>
      rw [handleSolutionButtonClick_of_pageDirection hd]
      right
      rcases handleSolutionsPageButton_answers s.pages u customId with ⟨m, hpage⟩ | ⟨m, hpage⟩ | hpage
      · exact ⟨rfl, .inr (.inl ⟨m, hpage⟩)⟩
      · exact ⟨rfl, .inr (.inr ⟨m, hpage⟩)⟩
      · exact ⟨rfl, .inl hpage⟩
  | completion k cc => exact absurd rfl (h k cc)

private theorem interact_completion {k : Nat} {r : ButtonRequest} (parse : String → Except String Json)
    (cc : HttpCompletion) (hr : (s.inflight u)[k]? = some r) :
    ((interact parse s u (.completion k cc)).1.inflight u = (s.inflight u).eraseIdx k ++ [r] ∧
        (interact parse s u (.completion k cc)).2 = [.requested r]) ∨
      (interact parse s u (.completion k cc)).1.inflight u = (s.inflight u).eraseIdx k ∧
        ∃ m, (interact parse s u (.completion k cc)).2 = [.editOriginal m] := by
  simp only [interact, hr]
  rcases onCompletion_cases parse u r cc with hstep | hstep
  · rw [hstep]
    exact .inl ⟨by simp [Interactive.issue], rfl⟩
  · obtain ⟨pages, m, hstep⟩ := hstep { s with
      inflight := Function.update s.inflight u ((s.inflight u).eraseIdx k) }
    rw [hstep]
    exact .inr ⟨by simp, m, rfl⟩

private theorem interact_completion_none {k : Nat} {cc : HttpCompletion} (hr : (s.inflight u)[k]? = none) :
    interact parse s u (.completion k cc) = (s, []) := by
  simp only [interact, hr]

end Interact

/-! ### Captured events -/

/-- The bot, the number of events so far, and for each request in flight the number of the event that its lambda has
captured. -/
structure Capturing where
  bot : Interactive
  received : Nat
  captured : Snowflake → List Nat

def Capturing.initial : Capturing := ⟨.initial, 0, fun _ => []⟩

/-- The requests in flight of a user, each with the event that its lambda has captured. -/
def Capturing.waiting (s : Capturing) (u : Snowflake) : List (Nat × ButtonRequest) :=
  (s.captured u).zip (s.bot.inflight u)

/-- An answer, through the event of an interaction. -/
structure Sent where
  interaction : Nat
  user : Snowflake
  answer : Answer
deriving DecidableEq

def Answer.isRequest : Answer → Bool
  | .requested _ => true
  | _ => false

/-- The event through which an event is answered: a handler has its own, a lambda has the one it has captured. -/
def Capturing.answersTo (s : Capturing) (u : Snowflake) : Interaction → Option Nat
  | .completion k _ => (s.captured u)[k]?
  | .selectLanguage _ | .clickButton _ => some s.received

/-- The events that the other lambdas of the user have captured. -/
def Capturing.others (s : Capturing) (u : Snowflake) : Interaction → List Nat
  | .completion k _ => (s.captured u).eraseIdx k
  | .selectLanguage _ | .clickButton _ => s.captured u

/-- An event of the bot: every lambda of a request that is issued captures the event that is being answered. -/
def Capturing.step (parse : String → Except String Json) (s : Capturing) (e : UserEvent) : Capturing × List Sent :=
  let (bot, answers) := interact parse s.bot e.1 e.2
  match s.answersTo e.1 e.2 with
  | none => (⟨bot, s.received + 1, s.captured⟩, [])
  | some n =>
    let issued := List.replicate (answers.countP Answer.isRequest) n
    (⟨bot, s.received + 1, Function.update s.captured e.1 (s.others e.1 e.2 ++ issued)⟩,
      answers.map fun x => ⟨n, e.1, x⟩)

/-- The click `n` of the user is acknowledged. -/
def acknowledges (n : Nat) (u : Snowflake) (x : Sent) : Bool :=
  x.interaction == n && x.user == u && x.answer == .thinking

/-- The original response to the click `n` of the user is edited. -/
def edits (n : Nat) (u : Snowflake) (x : Sent) : Bool :=
  x.interaction == n && x.user == u && match x.answer with
    | .editOriginal _ => true
    | _ => false

/-- The interaction `n` is responded to. -/
def responds (n : Nat) (x : Sent) : Bool := x.interaction == n && x.answer.isResponse

section Step

variable {parse : String → Except String Json} {s : Capturing} {u v : Snowflake} {i : Interaction} {e : UserEvent}
  {n : Nat}

/-- There is one captured event for each request in flight. -/
def Capturing.Paired (s : Capturing) : Prop := ∀ u, (s.captured u).length = (s.bot.inflight u).length

private theorem step_of_answersTo (h : s.answersTo u i = some n) :
    s.step parse (u, i) = (⟨(interact parse s.bot u i).1, s.received + 1, Function.update s.captured u
        (s.others u i ++ List.replicate ((interact parse s.bot u i).2.countP Answer.isRequest) n)⟩,
      (interact parse s.bot u i).2.map fun x => ⟨n, u, x⟩) := by
  simp only [Capturing.step, h]

private theorem step_of_answersTo_eq_none (h : s.answersTo u i = none) :
    s.step parse (u, i) = (⟨(interact parse s.bot u i).1, s.received + 1, s.captured⟩, []) := by
  simp only [Capturing.step, h]

@[simp] theorem step_bot (e : UserEvent) : (s.step parse e).1.bot = (interactStep parse s.bot e).1 := by
  obtain ⟨u, i⟩ := e
  cases h : s.answersTo u i with
  | none => simp [step_of_answersTo_eq_none h, interactStep]
  | some n => simp [step_of_answersTo h, interactStep]

@[simp] theorem step_received (e : UserEvent) : (s.step parse e).1.received = s.received + 1 := by
  obtain ⟨u, i⟩ := e
  cases h : s.answersTo u i with
  | none => rw [step_of_answersTo_eq_none h]
  | some n => rw [step_of_answersTo h]

private theorem step_captured_of_ne (h : v ≠ u) : (s.step parse (v, i)).1.captured u = s.captured u := by
  cases hi : s.answersTo v i with
  | none => rw [step_of_answersTo_eq_none hi]
  | some n => simp [step_of_answersTo hi, Function.update_of_ne (Ne.symm h)]

private theorem step_waiting_of_ne (h : v ≠ u) : (s.step parse (v, i)).1.waiting u = s.waiting u := by
  have hview : (interactStep parse s.bot (v, i)).1.inflight u = s.bot.inflight u :=
    congrArg UserView.inflight (viewOf_interact h parse i)
  rw [Capturing.waiting, step_captured_of_ne h, step_bot, hview]
  rfl

private theorem step_waiting (h : s.answersTo u i = some n) :
    (s.step parse (u, i)).1.waiting u = (s.others u i ++
      List.replicate ((interact parse s.bot u i).2.countP Answer.isRequest) n).zip
        ((interact parse s.bot u i).1.inflight u) := by
  simp [Capturing.waiting, step_of_answersTo h]

private theorem captured_eq (hs : s.Paired) : s.captured u = (s.waiting u).map Prod.fst := by
  rw [Capturing.waiting, List.map_fst_zip (hs u).le]

private theorem zip_eraseIdx {α β : Type} (l : List α) (m : List β) (k : Nat) :
    (l.eraseIdx k).zip (m.eraseIdx k) = (l.zip m).eraseIdx k := by
  induction l generalizing m k with
  | nil => simp
  | cons a l ih =>
    cases m with
    | nil => simp
    | cons b m =>
      cases k with
      | zero => rfl
      | succ k => simp [ih]

/-- How an event is answered through the event `n`, and what waits after it. -/
inductive Capturing.Handled (parse : String → Except String Json) (s : Capturing) (u : Snowflake) (i : Interaction)
    (n : Nat) : Prop where
  /-- The handler of a click issues a request. -/
  | issued (customId : String) (r : ButtonRequest) (click : i = .clickButton customId) (own : n = s.received)
      (asks : AsksFor customId r) (waits : (s.step parse (u, i)).1.waiting u = s.waiting u ++ [(n, r)])
      (answers : (interact parse s.bot u i).2 = [.thinking, .requested r])
  /-- The handler of an interaction responds, or does nothing. -/
  | responded (handler : ∀ k cc, i ≠ .completion k cc) (own : n = s.received)
      (waits : (s.step parse (u, i)).1.waiting u = s.waiting u)
      (answers : (interact parse s.bot u i).2 = [] ∨ (∃ m, (interact parse s.bot u i).2 = [.reply m]) ∨
        ∃ m, (interact parse s.bot u i).2 = [.updateMessage m])
  /-- A lambda issues its request again. -/
  | repeated (r : ButtonRequest) (others : List (Nat × ButtonRequest)) (held : ((n, r) :: others).Perm (s.waiting u))
      (waits : (s.step parse (u, i)).1.waiting u = others ++ [(n, r)])
      (answers : (interact parse s.bot u i).2 = [.requested r])
  /-- A lambda edits the original response. -/
  | edited (m : Message) (r : ButtonRequest) (others : List (Nat × ButtonRequest))
      (held : ((n, r) :: others).Perm (s.waiting u)) (waits : (s.step parse (u, i)).1.waiting u = others)
      (answers : (interact parse s.bot u i).2 = [.editOriginal m])

private theorem handled_of_ne_completion (parse : String → Except String Json) (hs : s.Paired)
    (hi : ∀ k cc, i ≠ .completion k cc) (h : s.answersTo u i = some s.received)
    (hothers : s.others u i = s.captured u) :
    s.Handled parse u i s.received ∧ ((interact parse s.bot u i).1.inflight u).length =
      (s.others u i).length + (interact parse s.bot u i).2.countP Answer.isRequest := by
  rcases interact_cases parse s.bot u hi with ⟨customId, r, hclick, hasks, hleft, hans⟩ | ⟨hleft, hans⟩
  · have hone : (interact parse s.bot u i).2.countP Answer.isRequest = 1 := by
      rw [hans]
      rfl
    refine ⟨.issued customId r hclick rfl hasks ?_ hans, by simp [hleft, hone, hothers, hs u]⟩
    rw [step_waiting h, hleft, hone, hothers, List.zip_append (hs u)]
    rfl
  · have hnone : (interact parse s.bot u i).2.countP Answer.isRequest = 0 := by
      rcases hans with hans | ⟨m, hans⟩ | ⟨m, hans⟩ <;> simp [hans, Answer.isRequest]
    refine ⟨.responded hi rfl ?_ hans, by simp [hleft, hnone, hothers, hs u]⟩
    rw [step_waiting h, hleft, hnone, hothers]
    simp [Capturing.waiting]

private theorem handled_of_completion {k : Nat} {cc : HttpCompletion} (parse : String → Except String Json)
    (hs : s.Paired) (h : s.answersTo u (.completion k cc) = some n) :
    s.Handled parse u (.completion k cc) n ∧ ((interact parse s.bot u (.completion k cc)).1.inflight u).length =
      (s.others u (.completion k cc)).length +
        (interact parse s.bot u (.completion k cc)).2.countP Answer.isRequest := by
  obtain ⟨hlt, hn⟩ := List.getElem?_eq_some_iff.1 h
  have hlt' : k < (s.bot.inflight u).length := (hs u).symm ▸ hlt
  obtain ⟨r, hr⟩ : ∃ r, (s.bot.inflight u)[k]? = some r := ⟨_, List.getElem?_eq_getElem hlt'⟩
  have hlength : ((s.captured u).eraseIdx k).length = ((s.bot.inflight u).eraseIdx k).length := by
    rw [List.length_eraseIdx, List.length_eraseIdx, hs u]
  have hheld : ((n, r) :: (s.waiting u).eraseIdx k).Perm (s.waiting u) := by
    have hget : (s.waiting u)[k]? = some (n, r) := List.getElem?_zip_eq_some.2 ⟨h, hr⟩
    obtain ⟨hltw, hw⟩ := List.getElem?_eq_some_iff.1 hget
    rw [← hw]
    exact List.getElem_cons_eraseIdx_perm hltw
  rcases interact_completion parse cc hr with ⟨hleft, hans⟩ | ⟨hleft, m, hans⟩
  · refine ⟨.repeated r _ hheld ?_ hans, by simp [hleft, hans, Answer.isRequest, Capturing.others, hlength]⟩
    rw [step_waiting h, hleft, hans, Capturing.others, List.zip_append hlength, zip_eraseIdx]
    rfl
  · refine ⟨.edited m r _ hheld ?_ hans, by simp [hleft, hans, Answer.isRequest, Capturing.others, hlength]⟩
    rw [step_waiting h, hleft, hans, Capturing.others]
    simp [Answer.isRequest, Capturing.waiting, zip_eraseIdx]

private theorem handled_of_answersTo (parse : String → Except String Json) (hs : s.Paired)
    (h : s.answersTo u i = some n) :
    s.Handled parse u i n ∧ ((interact parse s.bot u i).1.inflight u).length =
      (s.others u i).length + (interact parse s.bot u i).2.countP Answer.isRequest := by
  cases i with
  | completion k cc => exact handled_of_completion parse hs h
  | selectLanguage selected =>
    obtain rfl := Option.some.inj h
    exact handled_of_ne_completion parse hs (by simp) rfl rfl
  | clickButton customId =>
    obtain rfl := Option.some.inj h
    exact handled_of_ne_completion parse hs (by simp) rfl rfl

private theorem interact_of_answersTo_eq_none (hs : s.Paired) (h : s.answersTo u i = none) :
    interact parse s.bot u i = (s.bot, []) := by
  cases i with
  | completion k cc =>
    have hr : (s.bot.inflight u)[k]? = none := by
      have hle : (s.captured u).length ≤ k := List.getElem?_eq_none_iff.1 h
      rw [List.getElem?_eq_none_iff, ← hs u]
      exact hle
    exact interact_completion_none hr
  | selectLanguage selected => cases h
  | clickButton customId => cases h

private theorem paired_step (parse : String → Except String Json) (hs : s.Paired) (e : UserEvent) :
    (s.step parse e).1.Paired := by
  obtain ⟨v, i⟩ := e
  intro u
  by_cases hv : v = u
  · subst hv
    cases h : s.answersTo v i with
    | none =>
      rw [step_of_answersTo_eq_none h, interact_of_answersTo_eq_none hs h]
      exact hs v
    | some n =>
      rw [step_of_answersTo h]
      simp [(handled_of_answersTo parse hs h).2]
  · have hview : (interactStep parse s.bot (v, i)).1.inflight u = s.bot.inflight u :=
      congrArg UserView.inflight (viewOf_interact hv parse i)
    rw [step_captured_of_ne hv, step_bot, hview]
    exact hs u

private theorem step_sent (hs : s.Paired) (e : UserEvent) :
    (s.step parse e).2.map (fun x => (x.user, x.answer)) = (interactStep parse s.bot e).2 := by
  obtain ⟨u, i⟩ := e
  cases h : s.answersTo u i with
  | none => rw [step_of_answersTo_eq_none h, interactStep, interact_of_answersTo_eq_none hs h]; rfl
  | some n => simp [step_of_answersTo h, interactStep]

private theorem user_of_mem_step {x : Sent} (hx : x ∈ (s.step parse (v, i)).2) :
    x.user = v ∧ s.answersTo v i = some x.interaction := by
  cases h : s.answersTo v i with
  | none =>
    rw [step_of_answersTo_eq_none h] at hx
    cases hx
  | some n =>
    rw [step_of_answersTo h] at hx
    obtain ⟨a, -, rfl⟩ := List.mem_map.1 hx
    exact ⟨rfl, rfl⟩

/-- An acknowledged click waits for its request, until the original response is edited. -/
private theorem step_balance (n : Nat) (u : Snowflake) (hs : s.Paired) (e : UserEvent) :
    (s.captured u).count n + (s.step parse e).2.countP (acknowledges n u) =
      ((s.step parse e).1.captured u).count n + (s.step parse e).2.countP (edits n u) := by
  obtain ⟨v, i⟩ := e
  by_cases hv : v = u
  · subst hv
    rw [captured_eq (paired_step parse hs (v, i)), captured_eq hs]
    cases h : s.answersTo v i with
    | none =>
      rw [step_of_answersTo_eq_none h, interact_of_answersTo_eq_none hs h]
      rfl
    | some m =>
      have hsent : (s.step parse (v, i)).2 = (interact parse s.bot v i).2.map fun x => ⟨m, v, x⟩ := by
        rw [step_of_answersTo h]
      rw [hsent]
      rcases (handled_of_answersTo parse hs h).1 with
        ⟨-, r, -, -, -, hwaits, hans⟩ | ⟨-, -, hwaits, hans | ⟨x, hans⟩ | ⟨x, hans⟩⟩ |
        ⟨r, others, hheld, hwaits, hans⟩ | ⟨x, r, others, hheld, hwaits, hans⟩
      · simp [hans, hwaits, acknowledges, edits, List.countP_cons, List.count_cons]
      · simp [hans, hwaits]
      · simp [hans, hwaits, acknowledges, edits]
      · simp [hans, hwaits, acknowledges, edits]
      -- the captured event of the request is taken out, and comes back with the repeated request
      · simp [hans, hwaits, ← (hheld.map Prod.fst).count_eq n, acknowledges, edits, List.count_cons]
      · simp [hans, hwaits, ← (hheld.map Prod.fst).count_eq n, acknowledges, edits, List.countP_cons,
          List.count_cons]
  · have hnone : ∀ p : Sent → Bool, (∀ x : Sent, x.user = v → p x = false) →
        (s.step parse (v, i)).2.countP p = 0 := by
      intro p hp
      rw [List.countP_eq_zero]
      intro x hx
      simp [hp x (user_of_mem_step hx).1]
    rw [step_captured_of_ne hv, hnone _ (by simp +contextual [acknowledges, hv]),
      hnone _ (by simp +contextual [edits, hv])]

private theorem step_responds (parse : String → Except String Json) (n : Nat) (hs : s.Paired) (e : UserEvent) :
    (s.step parse e).2.countP (responds n) ≤ if n = s.received then 1 else 0 := by
  obtain ⟨u, i⟩ := e
  cases h : s.answersTo u i with
  | none => simp [step_of_answersTo_eq_none h]
  | some m =>
    rw [step_of_answersTo h]
    rcases (handled_of_answersTo parse hs h).1 with
      ⟨-, r, -, rfl, -, -, hans⟩ | ⟨-, rfl, -, hans | ⟨x, hans⟩ | ⟨x, hans⟩⟩ | ⟨r, -, -, -, hans⟩ |
      ⟨x, -, -, -, -, hans⟩
    · by_cases hn : n = s.received <;> simp [hans, responds, Answer.isResponse, hn, Ne.symm]
    · simp [hans]
    · by_cases hn : n = s.received <;> simp [hans, responds, Answer.isResponse, hn, Ne.symm]
    · by_cases hn : n = s.received <;> simp [hans, responds, Answer.isResponse, hn, Ne.symm]
    · simp [hans, responds, Answer.isResponse]
    · simp [hans, responds, Answer.isResponse]

end Step

/-! ### Runs -/

section Run

variable {parse : String → Except String Json} {s : Capturing}

private theorem run_bot (parse : String → Except String Json) (hs : s.Paired) (es : List UserEvent) :
    (run (Capturing.step parse) s es).1.bot = (run (interactStep parse) s.bot es).1 ∧
      (run (Capturing.step parse) s es).2.map (fun x => (x.user, x.answer)) =
        (run (interactStep parse) s.bot es).2 := by
  induction es generalizing s with
  | nil => exact ⟨rfl, rfl⟩
  | cons e es ih =>
    obtain ⟨hbot, hsent⟩ := ih (paired_step parse hs e)
    rw [run_cons, run_cons, List.map_append, hbot, hsent, step_bot, step_sent hs]
    exact ⟨rfl, rfl⟩

private theorem run_responds (parse : String → Except String Json) (n : Nat) (hs : s.Paired) (es : List UserEvent) :
    (run (Capturing.step parse) s es).2.countP (responds n) ≤ if n < s.received then 0 else 1 := by
  induction es generalizing s with
  | nil => exact Nat.zero_le _
  | cons e es ih =>
    have hfirst := step_responds parse n hs e
    have hrest := ih (paired_step parse hs e)
    rw [run_cons, List.countP_append]
    rw [step_received] at hrest
    split_ifs at * <;> omega

/-- The events so far have been counted, and what waits is the request of a click of its user, with this click. -/
structure Captures (es : List UserEvent) (s : Capturing) : Prop where
  received : s.received = es.length
  clicks : ∀ u, ∀ p ∈ s.waiting u,
    ∃ customId, es[p.1]? = some (u, .clickButton customId) ∧ AsksFor customId p.2

/-- What is sent is an answer to a click of its user, or the response to a selection of the user. -/
def AnswersOwn (es : List UserEvent) (x : Sent) : Prop :=
  (∃ customId, es[x.interaction]? = some (x.user, .clickButton customId)) ∨
    (∃ selected, es[x.interaction]? = some (x.user, .selectLanguage selected)) ∧ x.answer.isResponse ∧
      x.answer ≠ .thinking

private theorem getElem?_append_of_eq_some {es es' : List UserEvent} {e : UserEvent} {n : Nat} (h : es[n]? = some e) :
    (es ++ es')[n]? = some e := by
  have hlt : n < es.length := (List.getElem?_eq_some_iff.1 h).1
  rwa [List.getElem?_append_left hlt]

/-- One more event: what it captures and what it sends. -/
private theorem captures_step {es : List UserEvent} (parse : String → Except String Json) (hs : s.Paired)
    (h : Captures es s) (e : UserEvent) :
    Captures (es ++ [e]) (s.step parse e).1 ∧ ∀ x ∈ (s.step parse e).2, AnswersOwn (es ++ [e]) x := by
  obtain ⟨v, i⟩ := e
  have hreceived : (s.step parse (v, i)).1.received = (es ++ [(v, i)]).length := by
    rw [step_received, h.received, List.length_append, List.length_singleton]
  have hlast : (es ++ [(v, i)])[s.received]? = some (v, i) := by
    rw [h.received]
    simp
  have hold : ∀ u, ∀ p ∈ s.waiting u,
      ∃ customId, (es ++ [(v, i)])[p.1]? = some (u, .clickButton customId) ∧ AsksFor customId p.2 := by
    intro u p hp
    obtain ⟨customId, hclick, hasks⟩ := h.clicks u p hp
    exact ⟨customId, getElem?_append_of_eq_some hclick, hasks⟩
  -- only what waits for the user of the event can be new
  have hclicks : (∀ p ∈ (s.step parse (v, i)).1.waiting v, p ∈ s.waiting v ∨
        ∃ customId, i = .clickButton customId ∧ p.1 = s.received ∧ AsksFor customId p.2) →
      Captures (es ++ [(v, i)]) (s.step parse (v, i)).1 := by
    intro hnew
    refine ⟨hreceived, fun u p hp => ?_⟩
    by_cases hv : v = u
    · subst hv
      rcases hnew p hp with hp | ⟨customId, rfl, hp, hasks⟩
      · exact hold v p hp
      · rw [hp]
        exact ⟨customId, hlast, hasks⟩
    · rw [step_waiting_of_ne hv] at hp
      exact hold u p hp
  cases hto : s.answersTo v i with
  | none =>
    rw [step_of_answersTo_eq_none hto, interact_of_answersTo_eq_none hs hto] at hclicks ⊢
    exact ⟨hclicks fun p hp => .inl hp, fun x hx => (List.not_mem_nil hx).elim⟩
  | some n =>
    have hsent : ∀ x ∈ (s.step parse (v, i)).2, ∃ a ∈ (interact parse s.bot v i).2, x = ⟨n, v, a⟩ := by
      intro x hx
      rw [step_of_answersTo hto] at hx
      obtain ⟨a, ha, rfl⟩ := List.mem_map.1 hx
      exact ⟨a, ha, rfl⟩
    rcases (handled_of_answersTo parse hs hto).1 with
      ⟨customId, r, rfl, rfl, hasks, hwaits, hans⟩ | ⟨hhandler, rfl, hwaits, hans⟩ |
      ⟨r, others, hheld, hwaits, hans⟩ | ⟨m, r, others, hheld, hwaits, hans⟩
    · refine ⟨hclicks fun p hp => ?_, fun x hx => ?_⟩
      · rw [hwaits, List.mem_append, List.mem_singleton] at hp
        rcases hp with hp | rfl
        · exact .inl hp
        · exact .inr ⟨customId, rfl, rfl, hasks⟩
      · obtain ⟨a, -, rfl⟩ := hsent x hx
        exact .inl ⟨customId, hlast⟩
    · refine ⟨hclicks fun p hp => .inl (hwaits ▸ hp), fun x hx => ?_⟩
      have hresponse : ∀ a ∈ (interact parse s.bot v i).2, a.isResponse ∧ a ≠ .thinking := by
        rcases hans with hans | ⟨m, hans⟩ | ⟨m, hans⟩ <;> simp [hans, Answer.isResponse]
      obtain ⟨a, ha, rfl⟩ := hsent x hx
      cases i with
      | selectLanguage selected => exact .inr ⟨⟨selected, hlast⟩, hresponse a ha⟩
      | clickButton customId => exact .inl ⟨customId, hlast⟩
      | completion k cc => exact absurd rfl (hhandler k cc)
    · obtain ⟨customId, hclick, -⟩ := hold v (n, r) (hheld.subset List.mem_cons_self)
      refine ⟨hclicks fun p hp => .inl (hheld.subset ?_), fun x hx => ?_⟩
      · rw [hwaits, List.mem_append, List.mem_singleton] at hp
        exact List.mem_cons.2 hp.symm
      · obtain ⟨a, -, rfl⟩ := hsent x hx
        exact .inl ⟨customId, hclick⟩
    · obtain ⟨customId, hclick, -⟩ := hold v (n, r) (hheld.subset List.mem_cons_self)
      refine ⟨hclicks fun p hp => .inl (hheld.subset (List.mem_cons_of_mem _ (hwaits ▸ hp))), fun x hx => ?_⟩
      obtain ⟨a, -, rfl⟩ := hsent x hx
      exact .inl ⟨customId, hclick⟩

private theorem AnswersOwn.append {es es' : List UserEvent} {x : Sent} (h : AnswersOwn es x) :
    AnswersOwn (es ++ es') x := by
  rcases h with ⟨customId, h⟩ | ⟨⟨selected, h⟩, hresponse⟩
  · exact .inl ⟨customId, getElem?_append_of_eq_some h⟩
  · exact .inr ⟨⟨selected, getElem?_append_of_eq_some h⟩, hresponse⟩

private theorem run_answersOwn {es : List UserEvent} (hs : s.Paired) (h : Captures es s) (es' : List UserEvent) :
    Captures (es ++ es') (run (Capturing.step parse) s es').1 ∧
      ∀ x ∈ (run (Capturing.step parse) s es').2, AnswersOwn (es ++ es') x := by
  induction es' generalizing s es with
  | nil =>
    rw [List.append_nil]
    exact ⟨h, fun x hx => (List.not_mem_nil hx).elim⟩
  | cons e es' ih =>
    obtain ⟨hnext, hsent⟩ := captures_step parse hs h e
    obtain ⟨hrest, hanswers⟩ := ih (paired_step parse hs e) hnext
    rw [run_cons, List.append_cons]
    refine ⟨hrest, fun x hx => ?_⟩
    rcases List.mem_append.1 hx with hx | hx
    · exact (hsent x hx).append
    · exact hanswers x hx

end Run

private theorem paired_initial : Capturing.initial.Paired := fun _ => rfl

private theorem captures_initial : Captures [] .initial := ⟨rfl, fun _ _ hp => (List.not_mem_nil hp).elim⟩

/-- In every run, what is sent answers an interaction of its user, and every lambda of a request in flight holds the
click that the request was issued for.  An interaction gets at most one response.  A click that has been acknowledged
has got exactly one edit of the original response or has its request in flight, and not both; and no other interaction
has got one, or waits for one. -/
theorem clicks_answered (parse : String → Except String Json) (es : List UserEvent) :
    (run (Capturing.step parse) .initial es).1.bot = (run (interactStep parse) .initial es).1 ∧
      (run (Capturing.step parse) .initial es).2.map (fun x => (x.user, x.answer)) =
        (run (interactStep parse) .initial es).2 ∧
      (∀ u, ((run (Capturing.step parse) .initial es).1.captured u).length =
        ((run (interactStep parse) .initial es).1.inflight u).length) ∧
      (∀ u, ∀ p ∈ (run (Capturing.step parse) .initial es).1.waiting u,
        ∃ customId, es[p.1]? = some (u, .clickButton customId) ∧ AsksFor customId p.2) ∧
      (∀ x ∈ (run (Capturing.step parse) .initial es).2, AnswersOwn es x) ∧
      ∀ n u, (run (Capturing.step parse) .initial es).2.countP (responds n) ≤ 1 ∧
        (run (Capturing.step parse) .initial es).2.countP (acknowledges n u) =
          (run (Capturing.step parse) .initial es).2.countP (edits n u) +
            ((run (Capturing.step parse) .initial es).1.captured u).count n ∧
        (run (Capturing.step parse) .initial es).2.countP (acknowledges n u) ≤ 1 := by
  obtain ⟨hbot, hsent⟩ := run_bot parse paired_initial es
  have hpaired : (run (Capturing.step parse) .initial es).1.Paired :=
    run_invariant (I := Capturing.Paired) (fun _ e h => paired_step parse h e) paired_initial es
  obtain ⟨hcaptures, howner⟩ := run_answersOwn paired_initial captures_initial es
  refine ⟨hbot, hsent, fun u => ?_, hcaptures.clicks, howner, fun n u => ?_⟩
  · rw [hpaired u, hbot]
    rfl
  · have hresponds := run_responds parse n paired_initial es
    have hbalance := run_balance (I := Capturing.Paired) (fun _ e h => paired_step parse h e)
      (fun _ e h => step_balance n u h e) paired_initial es
    have hle : (run (Capturing.step parse) .initial es).2.countP (acknowledges n u) ≤
        (run (Capturing.step parse) .initial es).2.countP (responds n) := by
      refine List.countP_mono_left fun x _ hx => ?_
      simp only [acknowledges, Bool.and_eq_true, beq_iff_eq] at hx
      simp [responds, hx.1.1, hx.2, Answer.isResponse]
    have hnone : (Capturing.initial.captured u).count n = 0 := rfl
    have hone : (run (Capturing.step parse) .initial es).2.countP (responds n) ≤ 1 := hresponds
    exact ⟨hone, by omega, hle.trans hone⟩

/-- A user clicks a button, LeetCode limits the rate, the user clicks again, and the second request completes. -/
theorem second_click_answered :
    let events : List UserEvent := [(1, .clickButton "description_id:two-sum"), (1, .completion 0 ⟨429, ""⟩),
      (1, .clickButton "description_id:two-sum"), (1, .completion 1 ⟨200, ""⟩)]
    let final := run (Capturing.step fun _ => .error "") .initial events
    (final.2.countP (acknowledges 0 1) = 1 ∧ final.2.countP (edits 0 1) = 0 ∧
        final.1.waiting 1 = [(0, .description "two-sum" 0)]) ∧
      final.2.countP (acknowledges 2 1) = 1 ∧ final.2.countP (edits 2 1) = 1 ∧
      ∃ customId, events[2]? = some (1, .clickButton customId) := by
  intro events final
  obtain ⟨-, -, -, -, howner, hcounts⟩ := clicks_answered (fun _ => .error "") events
  have hfirst : final.2.countP (acknowledges 0 1) = 1 := by decide +kernel
  have hsecond : final.2.countP (edits 2 1) = 1 := by decide +kernel
  have hwaiting : final.1.waiting 1 = [(0, .description "two-sum" 0)] := by decide +kernel
  have hcaptured : final.1.captured 1 = [0] := by decide +kernel
  have hcount0 := (hcounts 0 1).2.1
  have hcount2 := (hcounts 2 1).2.1
  obtain ⟨x, hx, hedit⟩ := List.countP_pos_iff.1 (Nat.lt_of_lt_of_eq Nat.one_pos hsecond.symm)
  have hacknowledged : final.2.countP (acknowledges 2 1) = 1 := by
    rw [hcount2, hsecond, hcaptured]
    rfl
  refine ⟨⟨hfirst, ?_, hwaiting⟩, hacknowledged, hsecond, ?_⟩
  · rw [hfirst, hcaptured] at hcount0
    simpa using hcount0.symm
  · simp only [edits, Bool.and_eq_true, beq_iff_eq] at hedit
    obtain ⟨⟨hinteraction, huser⟩, hanswer⟩ := hedit
    rcases howner x hx with h | ⟨-, hresponse, -⟩
    · rwa [hinteraction, huser] at h
    · cases ha : x.answer <;> simp [ha, Answer.isResponse] at hanswer hresponse

end LeetBot
