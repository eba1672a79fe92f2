import LeetBot.PageTexts

/-!
# Several messages with solutions

The solutions are kept by user, and the buttons below a message carry the user.  So all messages of a user page
through one list, the one that was fetched last, with one position: what is stored by user represents the newest
message of that user.
-/

namespace LeetBot

open EventMachine

/-! ### Messages in a chat -/

/-- A message that a fetch has created, with its user and the solutions that were fetched. -/
structure SolutionMessage where
  owner : Snowflake
  solutions : List Solution
deriving DecidableEq

/-- The bot, and the messages with solutions that it has created so far. -/
structure Chat where
  bot : Interactive
  messages : List SolutionMessage

def Chat.initial : Chat := ⟨.initial, []⟩

/-- What happens in a chat: user `v` clicks a page button of message `m`, or a user does something else. -/
inductive ChatEvent where
  | click (v : Snowflake) (m : Nat) (d : Direction)
  | other (e : UserEvent)

/-- The id of a page button of a user. -/
def pageButtonId (owner : Snowflake) : Direction → String
  | .prev => utf8substr 100 ("solution_prev_page:" ++ toString owner)
  | .next => utf8substr 100 ("solution_next_page:" ++ toString owner)

/-- A fetch that stores solutions creates a message. -/
def created (parse : String → Except String Json) (s : Interactive) (e : UserEvent) : List SolutionMessage :=
  ((storedBy parse e.1 s e).map fun solutions => ⟨e.1, solutions⟩).toList

/-- A click is what the bot makes of the id of the button. -/
def Chat.step (parse : String → Except String Json) (c : Chat) : ChatEvent → Chat × List (Snowflake × Answer)
  | .click v m d =>
    match c.messages[m]? with
    | none => (c, [])
    | some message =>
      let (bot, out) := interactStep parse c.bot (v, .clickButton (pageButtonId message.owner d))
      (⟨bot, c.messages⟩, out)
  | .other e =>
    let (bot, out) := interactStep parse c.bot e
    (⟨bot, c.messages ++ created parse c.bot e⟩, out)

/-- The solutions of the newest message of a user. -/
def newestOf (messages : List SolutionMessage) (u : Snowflake) : List Solution :=
  ((messages.filter fun m => m.owner = u).getLast?.map SolutionMessage.solutions).getD []

/-- The page position of a message: the one that is stored for its user. -/
def Chat.position (c : Chat) (m : Nat) : Option Int :=
  (c.messages[m]?).bind fun message => c.bot.pages.solutionCurrentPage message.owner

/-- The text is that of a page that begins with the entry of one of the solutions, cut as a description is. -/
def ShowsOneOf (solutions : List Solution) (text : String) : Prop :=
  ∃ (i : Nat) (solution : Solution) (rest : String), solution ∈ solutions ∧
    text = utf8substr 4096 (solutionText i solution ++ rest)

/-- A click on a message shows one of its own solutions. -/
def ShowsOwn (parse : String → Except String Json) (c : Chat) (v : Snowflake) (m : Nat) (d : Direction) : Prop :=
  ∀ message, c.messages[m]? = some message → ∀ x ∈ pagesSent (c.step parse (.click v m d)).2,
    ShowsOneOf message.solutions x.2

/-- A click on a message leaves the positions of all other messages as they are. -/
def KeepsOthers (parse : String → Except String Json) (c : Chat) (v : Snowflake) (m : Nat) (d : Direction) : Prop :=
  ∀ j, j ≠ m → (c.step parse (.click v m d)).1.position j = c.position j

/-- A click on a message shows one of the solutions of the newest message of the same user, if there are any, and
leaves the positions of the messages of other users as they are. -/
structure TurnsNewest (parse : String → Except String Json) (c : Chat) (v : Snowflake) (m : Nat) (d : Direction) :
    Prop where
  shown : ∀ message, c.messages[m]? = some message → ∀ x ∈ pagesSent (c.step parse (.click v m d)).2,
    newestOf c.messages message.owner ≠ [] → ShowsOneOf (newestOf c.messages message.owner) x.2
  others : ∀ j, (c.messages[j]?).map SolutionMessage.owner ≠ (c.messages[m]?).map SolutionMessage.owner →
    (c.step parse (.click v m d)).1.position j = c.position j

/-- A property of the clicks on messages in a run. -/
def EachClick (parse : String → Except String Json)
    (P : Chat → Snowflake → Nat → Direction → Prop) (es : List ChatEvent) : Prop :=
  EachStep (Chat.step parse) (fun c e => ∀ v m d, e = .click v m d → P c v m d) .initial es

private theorem pageButtons_eq (u : Snowflake) :
    pageButtons u = [.button arrowLeft (pageButtonId u .prev), .button arrowRight (pageButtonId u .next)] := rfl

/-! ### What is kept by user -/

section Newest

variable {parse : String → Except String Json} {c : Chat} {e : UserEvent} {u v : Snowflake} {d : Direction}
  {messages : List SolutionMessage} {message : SolutionMessage} {m j : Nat} {k : Option (Cursor Solution)}

private theorem newestOf_append_self (message : SolutionMessage) :
    newestOf (messages ++ [message]) message.owner = message.solutions := by
  simp [newestOf]

private theorem newestOf_append_of_ne (h : message.owner ≠ u) :
    newestOf (messages ++ [message]) u = newestOf messages u := by
  simp [newestOf, h]

private theorem ownTurn_pageButtonId (u : Snowflake) (d : Direction) :
    ownTurn u (u, .clickButton (pageButtonId u d)) = some d := by
  obtain ⟨prevId, nextId, hbuttons, hprev, hnext⟩ := ownTurn_pageButtons u
  rw [pageButtons_eq] at hbuttons
  simp only [List.cons.injEq, Component.button.injEq, true_and, and_true] at hbuttons
  obtain ⟨rfl, rfl⟩ := hbuttons
  cases d with
  | prev => exact hprev
  | next => exact hnext

/-- What the maps hold for a user is a cursor in the solutions of the user's newest message. -/
def Newest (c : Chat) : Prop :=
  ∀ u, ∃ k, Represents c.bot.pages u k ∧ (accessed k).entries = newestOf c.messages u

private theorem newest_initial : Newest .initial := fun _ => ⟨none, ⟨rfl, rfl⟩, rfl⟩

/-- A fetch of a user makes the fetched solutions those of the newest message, and a turn keeps the solutions. -/
private theorem entries_pageEvent (hk : (accessed k).entries = newestOf c.messages u) :
    (accessed ((pageEvent parse u c.bot e).elim k fun x => some (x.apply k))).entries =
      newestOf (c.messages ++ created parse c.bot e) u := by
  by_cases hu : e.1 = u
  · subst hu
    cases hstored : storedBy parse e.1 c.bot e with
    | some solutions =>
      simp only [pageEvent, created, hstored, Option.elim_some, Option.map_some, Option.toList_some]
      exact (newestOf_append_self ⟨e.1, solutions⟩).symm
    | none =>
      simp only [pageEvent, created, hstored, Option.elim_none, Option.map_none, Option.toList_none, List.append_nil]
      rw [← hk]
      cases ownTurn e.1 e with
      | none => rfl
      | some d => exact d.move_entries
  · rw [pageEvent_of_ne hu, Option.elim_none, hk, created]
    cases storedBy parse e.1 c.bot e with
    | none => rw [Option.map_none, Option.toList_none, List.append_nil]
    | some solutions =>
      rw [Option.map_some, Option.toList_some]
      exact (newestOf_append_of_ne hu).symm

private theorem created_clickButton (id : String) : created parse c.bot (v, .clickButton id) = [] := rfl

private theorem newest_step (h : Newest c) (e : ChatEvent) : Newest (c.step parse e).1 := by
  intro u
  obtain ⟨k, hk, hentries⟩ := h u
  cases e with
  | other e => exact ⟨_, (represents_step parse hk e).1, entries_pageEvent hentries⟩
  | click v m d =>
    cases hm : c.messages[m]? with
    | none =>
      simp only [Chat.step, hm]
      exact ⟨k, hk, hentries⟩
    | some message =>
      simp only [Chat.step, hm]
      refine ⟨_, (represents_step parse hk _).1, (entries_pageEvent hentries).trans ?_⟩
      rw [created_clickButton, List.append_nil]

/-! ### What a click does -/

/-- The id of a page button is read back. -/
theorem read_pageButtonId (u : Snowflake) (d : Direction) :
    pageOwner (pageButtonId u d) = some u ∧ pageDirection (pageButtonId u d) = some d := by
  have hturn := ownTurn_pageButtonId u d
  simp only [ownTurn, true_and] at hturn
  split at hturn
  · rename_i howner
    exact ⟨howner, hturn⟩
  · cases hturn

private theorem pageEvent_pageButtonId (s : Interactive) (w : Snowflake) :
    pageEvent parse u s (v, .clickButton (pageButtonId w d)) =
      if v = u ∧ w = u then some (.turned d) else none := by
  obtain ⟨howner, hdirection⟩ := read_pageButtonId w d
  simp only [pageEvent, storedBy, ownTurn, Option.elim_none, howner, hdirection, Option.some.injEq]
  split <;> rfl

private theorem pagesSent_click (hm : c.messages[m]? = some message) (hk : Represents c.bot.pages v k) :
    pagesSent (c.step parse (.click v m d)).2 =
      if message.owner = v then [(v, utf8substr 4096 (pageText (d.move (accessed k))))] else [] := by
  simp only [Chat.step, hm]
  rw [pagesSent_interactStep hk, pageEvent_pageButtonId]
  simp only [true_and]
  split <;> rfl

private theorem showsOneOf_pageText {x : Cursor Solution} (h : x.entries ≠ []) :
    ShowsOneOf x.entries (utf8substr 4096 (pageText x)) := by
  have hpos : 0 < x.entries.length := List.length_pos_of_ne_nil h
  have hlt : x.position < x.entries.length := by
    have := x.inside
    omega
  refine ⟨x.position, x.entries[x.position], pageFooter x.position x.entries.length, List.getElem_mem hlt, ?_⟩
  rw [← solutionEntry_eq_solutionText, pageText, List.getElem?_eq_getElem hlt]

private theorem position_click (h : Newest c)
    (hj : (c.messages[j]?).map SolutionMessage.owner ≠ (c.messages[m]?).map SolutionMessage.owner) :
    (c.step parse (.click v m d)).1.position j = c.position j := by
  cases hm : c.messages[m]? with
  | none => simp only [Chat.step, hm]
  | some message =>
    simp only [Chat.step, hm, Chat.position]
    cases hother : c.messages[j]? with
    | none => rfl
    | some other =>
      rw [hm, hother, Option.map_some, Option.map_some, ne_eq, Option.some.injEq] at hj
      obtain ⟨k, hk, -⟩ := h other.owner
      have hafter := (represents_step parse hk (v, .clickButton (pageButtonId message.owner d))).1
      rw [pageEvent_pageButtonId, if_neg fun hsame => hj hsame.2.symm, Option.elim_none] at hafter
      rw [Option.bind_some, Option.bind_some, hafter.page, hk.page]

private theorem turnsNewest (h : Newest c) : TurnsNewest parse c v m d := by
  refine ⟨fun message hm x hx hne => ?_, fun j hj => position_click h hj⟩
  obtain ⟨k, hk, hentries⟩ := h v
  rw [pagesSent_click hm hk] at hx
  split at hx
  · rename_i howner
    subst howner
    obtain rfl := List.mem_singleton.1 hx
    have hmove : (d.move (accessed k)).entries = newestOf c.messages message.owner := d.move_entries.trans hentries
    rw [← hmove] at hne ⊢
    exact showsOneOf_pageText hne
  · cases hx

/-- In every run, a click on a message turns a page of the newest message of the same user. -/
theorem clicks_turn_newest (parse : String → Except String Json) (es : List ChatEvent) :
    EachClick parse (TurnsNewest parse) es :=
  eachStep_of_invariant (I := Newest) (fun _ e h => newest_step h e) (fun _ _ h _ _ _ _ => turnsNewest h)
    newest_initial es

private theorem prefix_of_showsOneOf {solutions : List Solution} {text : String} {p : Nat} {page : List Char}
    (h : ShowsOneOf solutions text) (hpage : text.toList = Nat.toDigits 10 p ++ '.' :: page) :
    ∃ solution ∈ solutions, ∃ tail, page <+: " Title: ".toList ++ (solution.title.toList ++ tail) := by
  obtain ⟨i, solution, rest, hsolution, rfl⟩ := h
  have hnumber : (toString (i + 1)).toList = Nat.toDigits 10 (i + 1) := Nat.toList_repr
  obtain ⟨tail, htail⟩ : ∃ tail, (solutionText i solution ++ rest).toList =
      Nat.toDigits 10 (i + 1) ++ '.' :: (" Title: ".toList ++ (solution.title.toList ++ tail)) := by
    simp only [solutionText, String.toList_append, hnumber, List.append_assoc]
    exact ⟨_, rfl⟩
  obtain ⟨cut, hcut⟩ := List.take_prefix 4096 (solutionText i solution ++ rest).toList
  rw [toList_utf8substr] at hpage
  rw [hpage, htail, List.append_assoc, List.cons_append] at hcut
  -- both numbers end at the first point
  rcases Delimited.append_cons_eq_append_cons (point_notMem_toDigits (i + 1)) hcut with ⟨-, hrest⟩ | ⟨mid, hmid, -⟩
  · exact ⟨solution, hsolution, tail, cut, hrest⟩
  · exact absurd (hmid ▸ by simp) (point_notMem_toDigits p)

end Newest

/-! ### Two messages of one user -/

/-- A request for the first problem gets one solution, one for the second gets two. -/
def twoProblemsParse (body : String) : Except String Json :=
  let solution (title : String) (id : Int) : Json := .object [("title", .string title), ("post", .object [
    ("id", .number id), ("status", .null), ("creationDate", .number 5), ("voteCount", .number 3),
    ("content", .string "x")])]
  let solutions : List Json := if body = "a" then [solution "A" 1] else [solution "B" 2, solution "B" 3]
  .ok (.object [("data", .object [("questionSolutions", .object [("solutions", .array solutions)])])])

/-- User 1 asks for the solutions of both problems. -/
def twoRequests : List ChatEvent :=
  [.other (1, .selectLanguage "C++"), .other (1, .clickButton "solution_id:a"),
    .other (1, .clickButton "solution_id:b"), .other (1, .completion 0 ⟨200, "a"⟩),
    .other (1, .completion 0 ⟨200, "b"⟩)]

/-- A click on the message of the first problem shows a solution of the second one, and turns the page of both
messages. -/
theorem click_turns_newer_message :
    ¬ EachClick twoProblemsParse (ShowsOwn twoProblemsParse) (twoRequests ++ [.click 1 0 .next]) ∧
      ¬ EachClick twoProblemsParse (KeepsOthers twoProblemsParse) (twoRequests ++ [.click 1 0 .next]) := by
  constructor
  · rintro ⟨-, -, -, -, -, h, -⟩
    have hshown := h 1 0 .next rfl ⟨1, [⟨"A", "x", "", 3, 1, 5⟩]⟩ (by decide +kernel)
      (1, "2. Title: B, id: 3, status: , created at: 5, vote count: 3, solution: x\n\nPage 2 / 2") (by decide +kernel)
    have htext : "2. Title: B, id: 3, status: , created at: 5, vote count: 3, solution: x\n\nPage 2 / 2".toList =
        Nat.toDigits 10 2 ++
          '.' :: " Title: B, id: 3, status: , created at: 5, vote count: 3, solution: x\n\nPage 2 / 2".toList := by
      have hdigits : Nat.toDigits 10 2 = ['2'] := by decide
      simp [hdigits]
    obtain ⟨solution, hsolution, tail, htitle⟩ := prefix_of_showsOneOf hshown htext
    obtain rfl := List.mem_singleton.1 hsolution
    simp at htitle
  · rintro ⟨-, -, -, -, -, h, -⟩
    exact absurd (h 1 0 .next rfl 1 (by decide)) (by decide +kernel)

end LeetBot
