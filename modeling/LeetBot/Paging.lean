import LeetBot.Cursor
import LeetBot.Noninterference

/-!
# Paging through solutions

For each user the two page maps hold a cursor in the solutions that were fetched last for that user.  A completed
fetch starts a new cursor, a click of the user on one of the user's own buttons moves it, and nothing else touches
it; so the page never leaves the vector, and between two fetches it is a clamped walk from the first page.
-/

namespace LeetBot

open EventMachine

variable {parse : String → Except String Json} {s : Interactive} {pages : PerUserPage} {u : Snowflake}
  {c : Cursor Solution} {k : Option (Cursor Solution)} {e : UserEvent}

/-! ### Cursors in the page maps -/

/-- The maps hold the cursor for the user; without one, the user is in neither of them. -/
structure Represents (pages : PerUserPage) (u : Snowflake) (k : Option (Cursor Solution)) : Prop where
  solutions : pages.userSolutionPages u = k.map (·.entries)
  page : pages.solutionCurrentPage u = k.map fun c => (c.position : Int)

/-- The cursor that an access to the maps finds or makes. -/
def accessed (k : Option (Cursor Solution)) : Cursor Solution := k.getD (.start [])

/-- What a page button does to the cursor. -/
def Direction.move : Direction → Cursor Solution → Cursor Solution
  | .prev => Cursor.prev
  | .next => Cursor.next

@[simp] theorem Direction.move_entries (d : Direction) : (d.move c).entries = c.entries := by
  cases d <;> rfl

/-- The comparison of the signed page with the unsigned size stops the page at the end. -/
theorem turnPage_position (d : Direction) : turnPage c.entries.length c.position d = (d.move c).position := by
  have hinside := c.inside
  cases d with
  | prev =>
    simp only [turnPage, Direction.move, Cursor.prev_position]
    split <;> omega
  | next =>
    have hsize : toSizeT (((c.position : Int) + 1) * 1) = c.position + 1 := by
      unfold toSizeT
      split <;> omega
    simp only [turnPage, Direction.move, Cursor.next_position, hsize]
    split <;> omega

/-- The text of the page that the cursor stands on. -/
def pageText (c : Cursor Solution) : String :=
  match c.entries[c.position]? with
  | some solution => solutionEntry c.position solution ++ pageFooter c.position c.entries.length
  | none => pageFooter c.position c.entries.length

/-- The loop of `buildSolutionsPage` stays inside the vector. -/
theorem buildSolutionsPage_cursor : buildSolutionsPage c.entries c.position = some (pageText c) := by
  unfold pageText
  by_cases h : c.position < c.entries.length
  · rw [buildSolutionsPage_of_lt h, List.getElem?_eq_getElem h]
  · rw [buildSolutionsPage_of_le (Nat.not_lt.1 h), List.getElem?_eq_none (Nat.not_lt.1 h)]

theorem Represents.getD_solutions (h : Represents pages u k) :
    (pages.userSolutionPages u).getD [] = (accessed k).entries := by
  rw [h.solutions]
  cases k <;> rfl

theorem Represents.getD_page (h : Represents pages u k) :
    (pages.solutionCurrentPage u).getD 0 = (accessed k).position := by
  rw [h.page]
  cases k <;> rfl

/-! ### What an event does to a cursor -/

/-- What happens to the cursor of a user. -/
inductive PageEvent where
  | stored (solutions : List Solution)
  | turned (d : Direction)

def PageEvent.apply : PageEvent → Option (Cursor Solution) → Cursor Solution
  | .stored solutions, _ => .start solutions
  | .turned d, k => d.move (accessed k)

/-- The direction of a click of the user on an own page button. -/
def ownTurn (u : Snowflake) (e : UserEvent) : Option Direction :=
  match e with
  | (v, .clickButton id) => if v = u ∧ pageOwner id = some u then pageDirection id else none
  | _ => none

/-- The solutions that an event stores for the user: those in a completion of an own request. -/
def storedBy (parse : String → Except String Json) (u : Snowflake) (s : Interactive) (e : UserEvent) :
    Option (List Solution) :=
  match e with
  | (v, .completion i cc) =>
    if v = u ∧ cc.status = 200 then
      match (s.inflight u)[i]? with
      | some (.solution _ languageSlug _) =>
        match readSolutions parse languageSlug cc.body with
        | .ok (.inr solutions) => some solutions
        | _ => none
      | _ => none
    else none
  | _ => none

/-- What an event is for the cursor of a user. -/
def pageEvent (parse : String → Except String Json) (u : Snowflake) (s : Interactive) (e : UserEvent) :
    Option PageEvent :=
  (storedBy parse u s e).elim ((ownTurn u e).map .turned) fun solutions => some (.stored solutions)

/-! ### The ids of the buttons -/

private theorem digitsValue_eq (cs : List Char) : digitsValue cs = Nat.ofDigitChars 10 cs 0 := by
  simp [digitsValue, Nat.ofDigitChars]

private theorem toList_toString (u : Snowflake) : (toString u).toList = Nat.toDigits 10 u.toNat := Nat.toList_repr

theorem stoull_toString (u : Snowflake) : stoull (toString u) = some u := by
  have hdigit : ∀ c ∈ Nat.toDigits 10 u.toNat, c.isDigit := fun c hc =>
    Nat.isDigit_of_mem_toDigits (by decide) (by decide) hc
  have hvalue : digitsValue (Nat.toDigits 10 u.toNat) = u.toNat := by
    rw [digitsValue_eq, Nat.ofDigitChars_ten_toDigits]
  have htake : (Nat.toDigits 10 u.toNat).takeWhile Char.isDigit = Nat.toDigits 10 u.toNat :=
    List.takeWhile_eq_self_iff.2 hdigit
  have hlt : u.toNat < 2 ^ 64 := u.toNat_lt
  unfold stoull
  rw [toList_toString]
  cases hcs : Nat.toDigits 10 u.toNat with
  | nil => exact absurd hcs Nat.toDigits_ne_nil
  | cons c cs =>
    have hc : c.isDigit := hdigit c (by simp [hcs])
    have hspace : isSpace c = false := by
      simp only [Char.isDigit, Bool.and_eq_true, decide_eq_true_eq, ge_iff_le, UInt32.le_iff_toNat_le] at hc
      have hlow : 48 ≤ c.toNat := hc.1
      have hne : c ≠ ' ' := by
        rintro rfl
        exact absurd hlow (by decide)
      simp only [isSpace, Bool.or_eq_false_iff, Bool.and_eq_false_iff, beq_eq_false_iff_ne, decide_eq_false_iff_not]
      exact ⟨hne, .inr (by omega)⟩
    have hminus : c ≠ '-' := by rintro rfl; exact absurd hc (by decide)
    have hplus : c ≠ '+' := by rintro rfl; exact absurd hc (by decide)
    rw [List.dropWhile_cons_of_neg (by simp [hspace])]
    rw [hcs] at htake hvalue
    dsimp only
    split
    · rename_i heq
      exact absurd (List.cons.inj heq).1 hminus
    · rename_i heq
      exact absurd (List.cons.inj heq).1 hplus
    · have hsize : decide (2 ^ 64 ≤ u.toNat) = false := decide_eq_false (Nat.not_le.2 hlt)
      rw [htake, hvalue, hsize]
      simp

private theorem pageOwner_of_toString (pre : String) (hpre : ':' ∉ pre.toList) (u : Snowflake) :
    pageOwner (pre ++ ":" ++ toString u) = some u := by
  have hlist : (pre ++ ":" ++ toString u).toList = pre.toList ++ ':' :: (toString u).toList := by simp
  have hcolon : (pre ++ ":" ++ toString u).toList.idxOf ':' = pre.toList.length := by
    rw [hlist, List.idxOf_append_of_notMem hpre, List.idxOf_cons_self, Nat.add_zero]
  have hdrop : substr (pre ++ ":" ++ toString u) (pre.toList.length + 1) = toString u := by
    unfold substr
    rw [hlist, List.drop_append]
    simp
  rw [pageOwner, hcolon, hdrop, stoull_toString]

/-- The buttons below a page carry whole ids, and a click of their user on them turns the page. -/
theorem ownTurn_pageButtons (u : Snowflake) :
    ∃ prevId nextId, pageButtons u = [.button arrowLeft prevId, .button arrowRight nextId] ∧
      ownTurn u (u, .clickButton prevId) = some .prev ∧ ownTurn u (u, .clickButton nextId) = some .next := by
  have hdigits : (toString u).toList.length ≤ 20 := by
    rw [toList_toString]
    exact (Nat.length_toDigits_le_iff (by decide) (by decide)).2 (Nat.lt_trans u.toNat_lt (by decide))
  refine ⟨"solution_prev_page:" ++ toString u, "solution_next_page:" ++ toString u, ?_, ?_, ?_⟩
  · have hid : ∀ pre : String, pre.toList.length ≤ 80 → utf8substr 100 (pre ++ toString u) = pre ++ toString u := by
      intro pre hpre
      refine utf8substr_of_le ?_
      rw [String.length_append, ← String.length_toList, ← String.length_toList]
      omega
    have harrows : utf8substr 80 arrowLeft = arrowLeft ∧ utf8substr 80 arrowRight = arrowRight := by decide
    simp only [pageButtons, Component.mkButton, hid "solution_prev_page:" (by decide),
      hid "solution_next_page:" (by decide), harrows]
  · have howner : pageOwner ("solution_prev_page:" ++ toString u) = some u :=
      pageOwner_of_toString "solution_prev_page" (by decide) u
    have hdirection : pageDirection ("solution_prev_page:" ++ toString u) = some .prev := by
      simp [pageDirection, startsWith]
    simp [ownTurn, howner, hdirection]
  · have howner : pageOwner ("solution_next_page:" ++ toString u) = some u :=
      pageOwner_of_toString "solution_next_page" (by decide) u
    have hdirection : pageDirection ("solution_next_page:" ++ toString u) = some .next := by
      simp [pageDirection, startsWith]
    simp [ownTurn, howner, hdirection]

/-- Only the completion of an own request for solutions stores any. -/
theorem completion_of_stored {solutions : List Solution} (h : storedBy parse u s e = some solutions) :
    ∃ j cc titleSlug languageSlug n, e = (u, .completion j cc) ∧
      (s.inflight u)[j]? = some (.solution titleSlug languageSlug n) := by
  obtain ⟨v, i⟩ := e
  cases i with
  | completion j cc =>
    simp only [storedBy] at h
    split at h
    · rename_i hown
      obtain ⟨rfl, -⟩ := hown
      split at h
      · rename_i titleSlug languageSlug n hj
        exact ⟨j, cc, titleSlug, languageSlug, n, rfl, hj⟩
      · cases h
    · cases h
  | _ => cases h

/-- Such a completion stores what it has read. -/
theorem storedBy_completion {j n : Nat} {titleSlug languageSlug : String} {cc : HttpCompletion}
    {solutions : List Solution} (hj : (s.inflight u)[j]? = some (.solution titleSlug languageSlug n)) :
    storedBy parse u s (u, .completion j cc) = some solutions ↔
      cc.status = 200 ∧ readSolutions parse languageSlug cc.body = .ok (.inr solutions) := by
  simp only [storedBy, true_and, hj]
  by_cases hok : cc.status = 200
  · simp only [hok, if_true, true_and]
    rcases readSolutions parse languageSlug cc.body with what | m | found <;> simp
  · simp [hok]

/-! ### The handlers -/

/-- The messages that answers put in place of the one with the clicked button. -/
def updates (answers : List Answer) : List Message :=
  answers.filterMap fun
    | .updateMessage m => some m
    | _ => none

@[simp] theorem updates_append (xs ys : List Answer) : updates (xs ++ ys) = updates xs ++ updates ys :=
  List.filterMap_append

/-- An answer that shows no page: a reply in plain text, or a request. -/
def Answer.Plain : Answer → Prop
  | .reply m => m.embeds = []
  | .thinking | .requested _ => True
  | .updateMessage _ | .editOriginal _ => False

private theorem updates_of_plain {answers : List Answer} (h : ∀ x ∈ answers, x.Plain) : updates answers = [] := by
  rw [updates, List.filterMap_eq_nil_iff]
  intro x hx
  have hplain := h x hx
  cases x with
  | updateMessage m => exact hplain.elim
  | _ => rfl

theorem handleSolutionDropdown_pages (s : Interactive) (u : Snowflake) (selected : String) :
    (handleSolutionDropdown s u selected).1.pages = s.pages ∧
      ∀ x ∈ (handleSolutionDropdown s u selected).2, x.Plain := by
  unfold handleSolutionDropdown
  split <;> exact ⟨rfl, by simp [Answer.Plain, Message.text, Message.setEphemeral]⟩

/-- The click of a user on an own button turns the page and shows it. -/
theorem handleSolutionsPageButton_own (h : Represents pages u k) {id : String} {d : Direction}
    (hd : pageDirection id = some d) (howner : pageOwner id = some u) :
    Represents (handleSolutionsPageButton pages u id).1 u (some (d.move (accessed k))) ∧
      (handleSolutionsPageButton pages u id).2 =
        [.updateMessage (pageMessage .brightGold u (pageText (d.move (accessed k))))] := by
  have hturn : turnPage (accessed k).entries.length ((pages.solutionCurrentPage u).getD 0) d =
      (d.move (accessed k)).position := by
    rw [h.getD_page, turnPage_position]
  have hbuild : buildSolutionsPage (accessed k).entries (d.move (accessed k)).position =
      some (pageText (d.move (accessed k))) := by
    rw [← buildSolutionsPage_cursor, Direction.move_entries]
  simp only [handleSolutionsPageButton, hd, howner, ne_eq, not_true_eq_false, if_false, h.getD_solutions, hturn,
    hbuild]
  exact ⟨⟨by simp, by simp⟩, trivial⟩

theorem handleSolutionsPageButton_other (pages : PerUserPage) {id : String}
    (h : pageOwner id = some u → pageDirection id = none) :
    (handleSolutionsPageButton pages u id).1 = pages ∧ ∀ x ∈ (handleSolutionsPageButton pages u id).2, x.Plain := by
  unfold handleSolutionsPageButton
  split
  · exact ⟨rfl, by simp⟩
  · rename_i direction hd
    split
    · exact ⟨rfl, by simp⟩
    · rename_i userId howner
      by_cases hv : u = userId
      · subst hv
        rw [h howner] at hd
        cases hd
      · rw [if_pos hv]
        exact ⟨rfl, by simp [Answer.Plain, Message.text, Message.setEphemeral]⟩

/-- The buttons of the daily question do not touch the pages. -/
theorem handleSolutionButtonClick_pages (s : Interactive) (u : Snowflake) (id : String) :
    (handleSolutionButtonClick s u id).1.pages = s.pages ∧ ∀ x ∈ (handleSolutionButtonClick s u id).2, x.Plain := by
  unfold handleSolutionButtonClick
  split
  · split <;> exact ⟨rfl, by simp [Answer.Plain, Message.text, Message.setEphemeral]⟩
  · split <;> exact ⟨rfl, by simp [Answer.Plain]⟩

private theorem onCompletion_description (parse : String → Except String Json) (s : Interactive) (u : Snowflake)
    (titleSlug : String) (n : Nat) (cc : HttpCompletion) :
    (onCompletion parse s u (.description titleSlug n) cc).1.pages = s.pages ∧
      updates (onCompletion parse s u (.description titleSlug n) cc).2 = [] := by
  simp only [onCompletion]
  split <;> exact ⟨rfl, rfl⟩

/-- The page that a turn shows. -/
def turned (u : Snowflake) (c : Cursor Solution) (d : Direction) : Message :=
  pageMessage .brightGold u (pageText (d.move c))

/-- What an event of the user does to the user's cursor, and the page it shows. -/
private theorem interact_own (parse : String → Except String Json) (h : Represents s.pages u k) (i : Interaction) :
    Represents (interact parse s u i).1.pages u ((pageEvent parse u s (u, i)).elim k fun x => some (x.apply k)) ∧
      updates (interact parse s u i).2 = ((ownTurn u (u, i)).map (turned u (accessed k))).toList := by
  cases i with
  | selectLanguage selected =>
    obtain ⟨hpages, hplain⟩ := handleSolutionDropdown_pages s u selected
    simp only [interact, updates_of_plain hplain, hpages]
    exact ⟨h, rfl⟩
  | clickButton id =>
    obtain ⟨hpages, hplain⟩ := handleSolutionButtonClick_pages s u id
    simp only [interact, onButtonClick, updates_append, updates_of_plain hplain, hpages, List.nil_append]
    by_cases howner : pageOwner id = some u
    · cases hd : pageDirection id with
      | none =>
        obtain ⟨hsame, hother⟩ := handleSolutionsPageButton_other (u := u) s.pages fun _ => hd
        rw [hsame, updates_of_plain hother]
        simp [pageEvent, storedBy, ownTurn, hd, h]
      | some d =>
        obtain ⟨hmoved, hshown⟩ := handleSolutionsPageButton_own h hd howner
        rw [hshown]
        simp [pageEvent, storedBy, ownTurn, hd, howner, hmoved, PageEvent.apply, turned, updates]
    · obtain ⟨hsame, hother⟩ := handleSolutionsPageButton_other s.pages fun h => absurd h howner
      rw [hsame, updates_of_plain hother]
      simp [pageEvent, storedBy, ownTurn, howner, h]
  | completion j cc =>
    simp only [interact]
    cases hk : (s.inflight u)[j]? with
    | none => simp [pageEvent, storedBy, ownTurn, hk, h, updates]
    | some r =>
      have hrest : Represents
          { s with inflight := Function.update s.inflight u ((s.inflight u).eraseIdx j) }.pages u k := h
      cases r with
      | solution titleSlug languageSlug n =>
        have hnone : (∀ solutions, ¬ (cc.status = 200 ∧ readSolutions parse languageSlug cc.body =
            .ok (.inr solutions))) → pageEvent parse u s (u, .completion j cc) = none := by
          intro hread
          have hstored : storedBy parse u s (u, .completion j cc) = none :=
            Option.eq_none_iff_forall_ne_some.2 fun solutions h => hread solutions ((storedBy_completion hk).1 h)
          simp [pageEvent, hstored, ownTurn]
        dsimp only
        rcases onCompletion_solution_cases parse u titleSlug languageSlug n cc with
          ⟨hbad, hstep⟩ | ⟨hread, m, -, hstep⟩ | ⟨solutions, hok, hread, hstep⟩
        · rw [hstep, hnone fun solutions h => hbad h.1]
          exact ⟨hrest, rfl⟩
        · rw [hstep, hnone fun solutions h => hread h.1 solutions h.2]
          exact ⟨hrest, rfl⟩
        · have hstored : storedBy parse u s (u, .completion j cc) = some solutions :=
            (storedBy_completion hk).2 ⟨hok, hread⟩
          rw [hstep]
          simp only [pageEvent, hstored, Option.elim_some, PageEvent.apply]
          refine ⟨⟨by simp [PerUserPage.store], by simp [PerUserPage.store]⟩, ?_⟩
          cases buildSolutionsPage solutions 0 <;> rfl
      | description titleSlug n =>
        obtain ⟨hsame, hnone⟩ := onCompletion_description parse
          { s with inflight := Function.update s.inflight u ((s.inflight u).eraseIdx j) } u titleSlug n cc
        simp only [hsame, hnone]
        simp [pageEvent, storedBy, ownTurn, hk, h]

/-! ### Runs -/

/-- The page messages that user `u` receives. -/
def updatesFor (u : Snowflake) (out : List (Snowflake × Answer)) : List Message :=
  updates ((out.filter fun o => o.1 = u).map Prod.snd)

@[simp] theorem updatesFor_append (xs ys : List (Snowflake × Answer)) :
    updatesFor u (xs ++ ys) = updatesFor u xs ++ updatesFor u ys := by
  simp [updatesFor]

/-- What another user does is no event for the cursor of this one. -/
theorem pageEvent_of_ne (h : e.1 ≠ u) : pageEvent parse u s e = none := by
  obtain ⟨v, i⟩ := e
  cases i <;> simp [pageEvent, storedBy, ownTurn, h]

/-- What an event does to the cursor of a user, and the page it shows that user. -/
theorem represents_step (parse : String → Except String Json) (h : Represents s.pages u k) (e : UserEvent) :
    Represents (interactStep parse s e).1.pages u ((pageEvent parse u s e).elim k fun x => some (x.apply k)) ∧
      updatesFor u (interactStep parse s e).2 = ((ownTurn u e).map (turned u (accessed k))).toList := by
  obtain ⟨v, i⟩ := e
  by_cases hv : v = u
  · subst hv
    obtain ⟨hown, hshown⟩ := interact_own parse h i
    refine ⟨hown, ?_⟩
    rw [← hshown]
    simp [updatesFor, interactStep, List.filter_map, Function.comp_def]
  · -- the events of the others do not reach the entries of this user
    have hview := viewOf_interact (s := s) hv parse i
    simp only [Interactive.viewOf, UserView.mk.injEq] at hview
    have hturn : ownTurn u (v, i) = none := by
      cases i <;> simp [ownTurn, hv]
    refine ⟨?_, by simp [updatesFor, updates, interactStep, hturn, hv]⟩
    rw [pageEvent_of_ne hv]
    exact ⟨hview.2.1.trans h.solutions, hview.2.2.1.trans h.page⟩

/-- What the events of a run are for the cursor of a user. -/
def pageEvents (parse : String → Except String Json) (u : Snowflake) : Interactive → List UserEvent → List PageEvent
  | _, [] => []
  | s, e :: es => (pageEvent parse u s e).toList ++ pageEvents parse u (interactStep parse s e).1 es

def ownTurns (u : Snowflake) (es : List UserEvent) : List Direction := es.filterMap (ownTurn u)

private theorem represents_run (parse : String → Except String Json) (h : Represents s.pages u k)
    (es : List UserEvent) :
    Represents (run (interactStep parse) s es).1.pages u
      ((pageEvents parse u s es).foldl (fun k x => some (x.apply k)) k) := by
  induction es generalizing s k with
  | nil => exact h
  | cons e es ih =>
    have hnext := ih (represents_step parse h e).1
    rw [run_cons, pageEvents, List.foldl_append]
    cases hx : pageEvent parse u s e with
    | none => simpa [hx] using hnext
    | some x => simpa [hx] using hnext

def reached (parse : String → Except String Json) (es : List UserEvent) : Interactive :=
  (run (interactStep parse) .initial es).1

private theorem reached_append (es es' : List UserEvent) :
    reached parse (es ++ es') = (run (interactStep parse) (reached parse es) es').1 := by
  rw [reached, run_append, reached]

/-- In every run, the maps hold a cursor for every user in them. -/
theorem represents_reached (parse : String → Except String Json) (u : Snowflake) (es : List UserEvent) :
    ∃ k, Represents (reached parse es).pages u k :=
  ⟨_, represents_run (k := none) parse ⟨rfl, rfl⟩ es⟩

/-! ### Between two fetches -/

private theorem pageEvent_eq_turn (hkeep : ∀ solutions, .stored solutions ∉ (pageEvent parse u s e).toList) :
    pageEvent parse u s e = (ownTurn u e).map .turned := by
  cases hstored : storedBy parse u s e with
  | none => simp [pageEvent, hstored]
  | some solutions => exact absurd (hkeep solutions) (by simp [pageEvent, hstored])

private theorem pageEvents_eq_turns {es : List UserEvent}
    (hkeep : ∀ solutions, .stored solutions ∉ pageEvents parse u s es) :
    pageEvents parse u s es = (ownTurns u es).map .turned := by
  induction es generalizing s with
  | nil => rfl
  | cons e es ih =>
    simp only [pageEvents, List.mem_append, not_or] at hkeep
    have hhead := pageEvent_eq_turn fun solutions => (hkeep solutions).1
    rw [pageEvents, ih fun solutions => (hkeep solutions).2, hhead, ownTurns, ownTurns, List.filterMap_cons]
    cases ownTurn u e <;> rfl

/-- One step of a walk by 1 that is clamped to the pages of `n` solutions. -/
def clampedStep (n : Nat) (p : Int) : Direction → Int
  | .prev => max 0 (min (max n 1 - 1) (p - 1))
  | .next => max 0 (min (max n 1 - 1) (p + 1))

theorem Direction.move_position (d : Direction) :
    ((d.move c).position : Int) = clampedStep c.entries.length c.position d := by
  cases d with
  | prev => exact Cursor.prev_position_clamped
  | next => exact Cursor.next_position_clamped

/-- The cursor after a list of clicks. -/
def walk (c : Cursor Solution) (ds : List Direction) : Cursor Solution := ds.foldl (fun c d => d.move c) c

@[simp] theorem walk_entries (ds : List Direction) : (walk c ds).entries = c.entries := by
  induction ds generalizing c with
  | nil => rfl
  | cons d ds ih => rw [walk, List.foldl_cons, ← walk, ih, Direction.move_entries]

private theorem walk_position (ds : List Direction) :
    ((walk c ds).position : Int) = ds.foldl (clampedStep c.entries.length) c.position := by
  induction ds generalizing c with
  | nil => rfl
  | cons d ds ih =>
    rw [walk, List.foldl_cons, ← walk, ih, Direction.move_entries, Direction.move_position, List.foldl_cons]

private theorem foldl_turned (ds : List Direction) :
    (ds.map .turned).foldl (fun k (x : PageEvent) => some (x.apply k)) (some c) = some (walk c ds) := by
  induction ds generalizing c with
  | nil => rfl
  | cons d ds ih => exact ih

/-- The messages that show the pages of a walk, after each click. -/
def shownAlong (u : Snowflake) : Cursor Solution → List Direction → List Message
  | _, [] => []
  | c, d :: ds => turned u c d :: shownAlong u (d.move c) ds

/-- The pages that a user sees while nothing is stored for that user. -/
private theorem updatesFor_run (h : Represents s.pages u (some c)) {es : List UserEvent}
    (hkeep : ∀ solutions, .stored solutions ∉ pageEvents parse u s es) :
    updatesFor u (run (interactStep parse) s es).2 = shownAlong u c (ownTurns u es) := by
  induction es generalizing s c with
  | nil => rfl
  | cons e es ih =>
    simp only [pageEvents, List.mem_append, not_or] at hkeep
    have hhead := pageEvent_eq_turn fun solutions => (hkeep solutions).1
    have htail := fun solutions => (hkeep solutions).2
    obtain ⟨hnext, hshown⟩ := represents_step parse h e
    rw [hhead] at hnext
    rw [run_cons, updatesFor_append, hshown, ownTurns, List.filterMap_cons, ← ownTurns]
    cases hturn : ownTurn u e with
    | none =>
      rw [hturn] at hnext
      rw [ih hnext htail]
      rfl
    | some d =>
      rw [hturn] at hnext
      rw [ih hnext htail]
      rfl

private theorem shownAlong_next (k : Nat) :
    shownAlong u c (.replicate k .next) =
      (List.range k).map fun j => pageMessage .brightGold u (pageText (Cursor.next^[j + 1] c)) := by
  induction k generalizing c with
  | zero => rfl
  | succ k ih =>
    rw [List.replicate_succ, shownAlong, ih, List.range_succ_eq_map, List.map_cons, List.map_map]
    rfl

/-! ### After a fetch -/

/-- A fetch that stores solutions shows the first page. -/
theorem answers_of_stored {solutions : List Solution} (h : storedBy parse u s e = some solutions) :
    (interactStep parse s e).2 =
      [(u, .editOriginal (pageMessage .yellowOrange u (pageText (.start solutions))))] := by
  obtain ⟨j, cc, titleSlug, languageSlug, n, rfl, hj⟩ := completion_of_stored h
  obtain ⟨hok, hread⟩ := (storedBy_completion hj).1 h
  have hbuild : buildSolutionsPage solutions 0 = some (pageText (.start solutions)) :=
    buildSolutionsPage_cursor (c := .start solutions)
  simp only [interactStep, interact, hj]
  rcases onCompletion_solution_cases parse u titleSlug languageSlug n cc with
    ⟨hbad, -⟩ | ⟨hnone, -⟩ | ⟨found, -, hfound, hstep⟩
  · exact absurd hok hbad
  · exact absurd hread (hnone hok solutions)
  · cases hread.symm.trans hfound
    rw [hstep, hbuild]
    rfl

/-- The descriptions of the embeds of a message. -/
def Message.descriptions (m : Message) : List String := m.embeds.map Embed.description

private theorem descriptions_pageMessage (color : Color) (u : Snowflake) (text : String) :
    (pageMessage color u text).descriptions = [.ofList (text.toList.take 4096)] := rfl

/-- What is said about the solution with index `k`: its number and all that is known of it. -/
def solutionText (k : Nat) (solution : Solution) : String :=
  toString (k + 1) ++ ". Title: " ++ solution.title ++ ", id: " ++ toString solution.id ++ ", status: " ++
    solution.status ++ ", created at: " ++ toString solution.creationDate ++ ", vote count: " ++
    toString solution.voteCount ++ ", solution: " ++ solution.content ++ "\n"

theorem toString_natCast_succ (k : Nat) : toString ((k : Int) + 1) = toString (k + 1) := rfl

theorem solutionEntry_eq_solutionText (k : Nat) (solution : Solution) :
    solutionEntry k solution = solutionText k solution := by
  simp only [solutionEntry, solutionText, toString_natCast_succ]

theorem pageFooter_natCast (k n : Nat) :
    pageFooter k n = "\nPage " ++ toString (k + 1) ++ " / " ++ toString n := by
  simp only [pageFooter, toString_natCast_succ, Nat.add_sub_cancel, Nat.div_one]

private theorem pageText_iterate_next {solutions : List Solution} {k : Nat} (h : k < solutions.length) :
    pageText (Cursor.next^[k] (.start solutions)) =
      solutionText k solutions[k] ++ ("\nPage " ++ toString (k + 1) ++ " / " ++ toString solutions.length) := by
  unfold pageText
  rw [Cursor.iterate_next_start h, Cursor.iterate_next_entries, Cursor.start_entries, List.getElem?_eq_getElem h,
    ← solutionEntry_eq_solutionText, ← pageFooter_natCast]

private theorem pageTexts_eq_mapIdx {solutions : List Solution} (h : solutions ≠ []) :
    pageText (.start solutions) ::
        (List.range (solutions.length - 1)).map (fun j => pageText (Cursor.next^[j + 1] (.start solutions))) =
      solutions.mapIdx fun k solution =>
        solutionText k solution ++ ("\nPage " ++ toString (k + 1) ++ " / " ++ toString solutions.length) := by
  have hpos : 0 < solutions.length := List.length_pos_of_ne_nil h
  refine List.ext_getElem (by simp; omega) fun k hk hk' => ?_
  rw [List.getElem_mapIdx]
  cases k with
  | zero => exact pageText_iterate_next (k := 0) hpos
  | succ k =>
    rw [List.getElem_cons_succ, List.getElem_map, List.getElem_range]
    exact pageText_iterate_next (by simpa using hk')

private theorem descriptions_pages {solutions : List Solution} (h : solutions ≠ []) :
    (pageMessage .yellowOrange u (pageText (.start solutions)) ::
        (List.range (solutions.length - 1)).map fun j =>
          pageMessage .brightGold u (pageText (Cursor.next^[j + 1] (.start solutions)))).map Message.descriptions =
      solutions.mapIdx fun k solution => [.ofList ((solutionText k solution ++
        ("\nPage " ++ toString (k + 1) ++ " / " ++ toString solutions.length)).toList.take 4096)] := by
  have htexts := congrArg (List.map fun text : String => [String.ofList (text.toList.take 4096)])
    (pageTexts_eq_mapIdx h)
  rw [List.map_cons, List.map_map] at htexts ⊢
  rw [descriptions_pageMessage]
  refine htexts.trans (List.ext_getElem (by simp) fun k hk hk' => ?_)
  rw [List.getElem_map, List.getElem_mapIdx, List.getElem_mapIdx]

/-- In every run, the page of every user in the maps is one of the pages of that user's solutions, and can be built.
After a fetch has stored solutions for a user, and until the next one does, the page is the clamped walk of the
user's own clicks, and clicking through the pages shows the text of every solution once and in order, cut to the
length of a description. -/
theorem page_walks_between_fetches (parse : String → Except String Json) (u : Snowflake) (es : List UserEvent) :
    (∀ solutions, (reached parse es).pages.userSolutionPages u = some solutions →
        ((reached parse es).pages.solutionCurrentPage u).isSome) ∧
      (∀ p, (reached parse es).pages.solutionCurrentPage u = some p →
        ∃ solutions, (reached parse es).pages.userSolutionPages u = some solutions ∧ 0 ≤ p ∧
          (p = 0 ∨ p < solutions.length) ∧ (buildSolutionsPage solutions p).isSome) ∧
      ∀ e solutions, storedBy parse u (reached parse es) e = some solutions →
        ∀ es', (∀ later, .stored later ∉ pageEvents parse u (reached parse (es ++ [e])) es') →
          (reached parse (es ++ e :: es')).pages.userSolutionPages u = some solutions ∧
          (reached parse (es ++ e :: es')).pages.solutionCurrentPage u =
            some ((ownTurns u es').foldl (clampedStep solutions.length) 0) ∧
          (solutions ≠ [] → ownTurns u es' = .replicate (solutions.length - 1) .next →
            ∃ first, (interactStep parse (reached parse es) e).2 = [(u, .editOriginal first)] ∧
              (first :: updatesFor u (run (interactStep parse) (reached parse (es ++ [e])) es').2).map
                  Message.descriptions =
                solutions.mapIdx fun k solution => [.ofList ((solutionText k solution ++
                  ("\nPage " ++ toString (k + 1) ++ " / " ++ toString solutions.length)).toList.take 4096)]) := by
  obtain ⟨k, hk⟩ := represents_reached parse u es
  refine ⟨fun solutions h => ?_, fun p h => ?_, fun e solutions hstored es' hkeep => ?_⟩
  · rw [hk.solutions, Option.map_eq_some_iff] at h
    obtain ⟨c, rfl, -⟩ := h
    simp [hk.page]
  · rw [hk.page, Option.map_eq_some_iff] at h
    obtain ⟨c, rfl, rfl⟩ := h
    refine ⟨c.entries, hk.solutions, Int.natCast_nonneg _, ?_, by simp [buildSolutionsPage_cursor]⟩
    exact c.position_eq_zero_or_lt.imp (by omega) (by omega)
  · -- the fetch starts a new cursor, which only the own clicks move
    have hstart : Represents (reached parse (es ++ [e])).pages u (some (.start solutions)) := by
      have hnext := (represents_step parse hk e).1
      rw [reached_append, run_cons, run_nil]
      simpa [pageEvent, hstored, PageEvent.apply] using hnext
    have hend : Represents (reached parse (es ++ e :: es')).pages u
        (some (walk (.start solutions) (ownTurns u es'))) := by
      have hrun := represents_run parse hstart es'
      rw [pageEvents_eq_turns hkeep, foldl_turned, ← reached_append, List.append_assoc] at hrun
      exact hrun
    refine ⟨?_, ?_, fun hne hnext => ?_⟩
    · rw [hend.solutions, Option.map_some, walk_entries, Cursor.start_entries]
    · rw [hend.page, Option.map_some, walk_position, Cursor.start_entries, Cursor.start_position]
      rfl
    · refine ⟨_, answers_of_stored hstored, ?_⟩
      rw [updatesFor_run hstart hkeep, hnext, shownAlong_next]
      exact descriptions_pages hne

/-- A response with two solutions. -/
def solutionsParse (_ : String) : Except String Json :=
  let solution (id : Int) : Json := .object [("title", .string "A solution"), ("post", .object [("id", .number id),
    ("status", .null), ("creationDate", .number 5), ("voteCount", .number 3), ("content", .string "x")])]
  .ok (.object [("data", .object [("questionSolutions", .object [("solutions", .array [solution 1, solution 2])])])])

/-- User 1 fetches the solutions and clicks on `next`, and user 2 clicks on the same button. -/
theorem second_page_shown :
    (reached solutionsParse [(1, .selectLanguage "C++"), (1, .clickButton "solution_id:two-sum"),
        (1, .completion 0 ⟨200, ""⟩), (2, .clickButton "solution_next_page:1"),
        (1, .clickButton "solution_next_page:1")]).pages.solutionCurrentPage 1 = some 1 ∧
      ∃ first, (interactStep solutionsParse (reached solutionsParse [(1, .selectLanguage "C++"),
          (1, .clickButton "solution_id:two-sum")]) (1, .completion 0 ⟨200, ""⟩)).2 = [(1, .editOriginal first)] ∧
        (first :: updatesFor 1 (run (interactStep solutionsParse) (reached solutionsParse
            [(1, .selectLanguage "C++"), (1, .clickButton "solution_id:two-sum"), (1, .completion 0 ⟨200, ""⟩)])
            [(2, .clickButton "solution_next_page:1"), (1, .clickButton "solution_next_page:1")]).2).map
          Message.descriptions =
          [["1. Title: A solution, id: 1, status: , created at: 5, vote count: 3, solution: x\n\nPage 1 / 2"],
            ["2. Title: A solution, id: 2, status: , created at: 5, vote count: 3, solution: x\n\nPage 2 / 2"]] := by
  have hstored : storedBy solutionsParse 1 (reached solutionsParse [(1, .selectLanguage "C++"),
      (1, .clickButton "solution_id:two-sum")]) (1, .completion 0 ⟨200, ""⟩) =
        some [⟨"A solution", "x", "", 3, 1, 5⟩, ⟨"A solution", "x", "", 3, 2, 5⟩] := by decide +kernel
  have hkeep : pageEvents solutionsParse 1 (reached solutionsParse ([(1, .selectLanguage "C++"),
      (1, .clickButton "solution_id:two-sum")] ++ [(1, .completion 0 ⟨200, ""⟩)]))
        [(2, .clickButton "solution_next_page:1"), (1, .clickButton "solution_next_page:1")] =
          [.turned .next] := by rfl
  have hturns : ownTurns 1 [(2, .clickButton "solution_next_page:1"), (1, .clickButton "solution_next_page:1")] =
      [.next] := by decide +kernel
  obtain ⟨-, -, hbetween⟩ := page_walks_between_fetches solutionsParse 1 [(1, .selectLanguage "C++"),
    (1, .clickButton "solution_id:two-sum")]
  obtain ⟨-, hpage, hshown⟩ := hbetween _ _ hstored [(2, .clickButton "solution_next_page:1"),
    (1, .clickButton "solution_next_page:1")] (by rw [hkeep]; simp)
  obtain ⟨first, hfirst, htexts⟩ := hshown (by simp) hturns
  exact ⟨hpage, first, hfirst, htexts⟩

end LeetBot
