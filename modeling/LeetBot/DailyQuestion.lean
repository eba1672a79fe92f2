import LeetBot.QuestionAPI
import LeetBot.TypedMembers

/-!
# The daily question

What `fetchLeetCodeDailyQuestion` shows for a response with a complete question: the question, with the progress
that the list of recent submissions tells, and without it when that list is empty.
-/

namespace LeetBot

open Interleave Loops

/-! ### Complete responses -/

namespace Json

/-- A topic tag has the two texts that are read. -/
def readableTag (tag : Json) : Bool := tag.required "name" isText && tag.required "slug" isText

/-- The topic tags, as the loop over them sees them. -/
def topicTags (question : Json) : List Json := ((question.member "topicTags").getD null).elements

/-- The three members of a recent submission are there, each null or a text. -/
def typedSubmission (item : Json) : Bool :=
  ["id", "title", "timestamp"].all fun key => item.required key fun v => v.isNull || v.isText

/-- A recent submission with no null in it, to the question with the given title. -/
def completes (title : String) (item : Json) : Bool :=
  item.has "id" && item.has "timestamp" && decide ((item.member "title").bind text = some title)

end Json

/-- What `daily` in a complete response says, with the title of the question. -/
structure CompleteDaily (daily : Json) (title : String) : Prop where
  date : daily.required "date" Json.isText
  link : daily.required "link" Json.isText
  question : ∃ question, daily.member "question" = some question ∧ question.member "title" = some (.string title) ∧
    question.optional "acRate" Json.isDouble ∧ question.optional "difficulty" Json.isText ∧
    question.optional "questionFrontendId" Json.isText ∧ question.optional "titleSlug" Json.isText ∧
    question.required "isPaidOnly" Json.isBool ∧ question.topicTags.all Json.readableTag

/-- A response with a complete daily question and a list of recent submissions. -/
structure CompleteResponse (response : Json) (title : String) (items : List Json) : Prop where
  daily : ∃ daily, response.path ["data", "daily"] = some daily ∧ CompleteDaily daily title
  recent : response.path ["data", "recent"] = some (.array items)
  typed : items.all Json.typedSubmission

/-- The message that shows a daily question and the progress. -/
structure ShowsDaily (m : Message) (title progress : String) : Prop where
  content : m.content = ""
  embed : ∃ e id, m.embeds = [e] ∧ e.title = utf8substr 256 ("Daily Question | id -> " ++ id ++ ": " ++ title) ∧
    e.fields.map Field.name = ["Date", "Difficulty", "Acceptance Rate", "Paid only?", "Progress", "URL"] ∧
    ⟨"Progress", progress, false⟩ ∈ e.fields
  rows : m.rows.length = 2

section Reading

variable {item tag question response : Json} {title body : String} {items : List Json}
  {parse : String → Except String Json}

/-- One round of the loop over the recent submissions. -/
private theorem recentStep_of_typed (h : item.typedSubmission) (completedDaily : String) :
    recentStep title completedDaily item =
      .ok (if item.completes title then "Completed " ++ whiteCheckMark else completedDaily) := by
  simp only [Json.typedSubmission, List.all_cons, List.all_nil, Bool.and_true, Bool.and_eq_true, Json.required,
    Option.any_eq_true] at h
  obtain ⟨⟨id, hid, -⟩, ⟨t, ht, htext⟩, time, htime, -⟩ := h
  simp only [recentStep, Json.constIndex_eq_ok_iff.2 hid, Json.constIndex_eq_ok_iff.2 ht,
    Json.constIndex_eq_ok_iff.2 htime,
    Json.completes, Json.has, hid, ht, htime, Option.any_some, Option.bind_some, ok_bind]
  cases t with
  | null =>
    -- without a title nothing is completed
    cases id.isNull <;> simp [Json.text, pure, Except.pure]
  | string text =>
    have hnull : (Json.string text).isNull = false := rfl
    by_cases hidnull : id.isNull
    · simp [hidnull, pure, Except.pure]
    by_cases htimenull : time.isNull
    · simp [hidnull, htimenull, hnull, pure, Except.pure]
    · simp [hidnull, htimenull, hnull, Json.getString, Json.text, ok_bind, pure, Except.pure]
  | _ => simp [Json.isNull, Json.isText] at htext

private theorem foldlM_recentStep (h : items.all Json.typedSubmission) (completedDaily : String) :
    items.foldlM (recentStep title) completedDaily =
      .ok (if items.any (Json.completes title) then "Completed " ++ whiteCheckMark else completedDaily) := by
  rw [← foldl_ite_any]
  exact foldlM_eq_ok_foldl (fun acc item hitem => recentStep_of_typed (List.all_eq_true.1 h item hitem) acc) _

private theorem exists_topicStep_iff {acc : String × String} :
    (∃ acc', topicStep acc tag = .ok acc') ↔ tag.readableTag := by
  simp only [topicStep, bind_eq_ok_iff, pure_eq_ok_iff, Json.readableTag, Bool.and_eq_true, Json.required,
    Option.any_eq_true, ← Json.exists_getString_iff, Json.constIndex_eq_ok_iff]
  constructor
  · rintro ⟨-, name, hname, s, hs, slug, hslug, s', hs', -⟩
    exact ⟨⟨name, hname, s, hs⟩, slug, hslug, s', hs'⟩
  · rintro ⟨⟨name, hname, s, hs⟩, slug, hslug, s', hs'⟩
    exact ⟨_, name, hname, s, hs, slug, hslug, s', hs', rfl⟩

private theorem exists_topicTags (h : question.topicTags.all Json.readableTag) :
    ∃ tags, (if ((question.member "topicTags").getD .null).isNull || ((question.member "topicTags").getD .null).empty
      then pure ("None", "None") else question.topicTags.foldlM topicStep ("", "")) =
        (.ok tags : Except String _) := by
  have hstep : ∀ acc tag, (∃ acc', topicStep acc tag = .ok acc') ↔ tag.readableTag := fun _ _ => exists_topicStep_iff
  split
  · exact ⟨_, rfl⟩
  · exact (exists_foldlM_eq_ok_iff hstep).2 (List.all_eq_true.1 h)

private theorem lacksQuestion_of_complete {data daily : Json} (hdaily : data.member "daily" = some daily)
    (h : CompleteDaily daily title) : lacksQuestion data = .ok false := by
  obtain ⟨question, hquestion, htitle, -⟩ := h.question
  have hq : question ≠ .null := by
    rintro rfl
    cases htitle
  have hd : daily ≠ .null := by
    rintro rfl
    cases hquestion
  rw [lacksQuestion, Json.lacks_eq_false_iff.2 ⟨daily, hdaily, hd⟩, ok_bind, Json.index_of_member hdaily]
  exact Json.lacks_eq_false_iff.2 ⟨question, hquestion, hq⟩

private theorem CompleteResponse.data (h : CompleteResponse response title items) :
    ∃ data daily, response.member "data" = some data ∧ data.member "daily" = some daily ∧
      data.member "recent" = some (.array items) ∧ CompleteDaily daily title := by
  obtain ⟨⟨daily, hpath, hcomplete⟩, hrecent, -⟩ := h
  simp only [Json.path, Option.bind_eq_some_iff, Option.some.injEq, exists_eq_right] at hpath hrecent
  obtain ⟨data, hdata, hdaily⟩ := hpath
  obtain ⟨data', hdata', hrecent⟩ := hrecent
  cases hdata.symm.trans hdata'
  exact ⟨data, daily, hdata, hdaily, hrecent, hcomplete⟩

/-- With recent submissions, everything is read, and the question is shown. -/
private theorem readDailyQuestion_of_complete (hparse : parse body = .ok response)
    (h : CompleteResponse response title items) (hne : items ≠ []) :
    ∃ m, readDailyQuestion parse body = .ok m ∧ ShowsDaily m title
      (if items.any (Json.completes title) then "Completed " ++ whiteCheckMark
        else "Not recently completed " ++ crossMark) := by
  obtain ⟨data, daily, hdata, hdaily, hrecent, hcomplete⟩ := h.data
  have hlacks := lacksQuestion_of_complete hdaily hcomplete
  have hloop : items.foldlM (recentStep title) ("Not recently completed " ++ crossMark) = .ok _ :=
    foldlM_recentStep h.typed _
  obtain ⟨hdate, hlink, question, hquestion, htitle, hrate, hdifficulty, hid, hslug, hpaid, htags⟩ := hcomplete
  have hempty : ((Json.array items).isNull || (Json.array items).empty) = false := by
    cases items with
    | nil => exact absurd rfl hne
    | cons item items => rfl
  have hmembers : question.hasMembers := Json.hasMembers_of_member htitle
  have htext : ∀ key, question.optional key Json.isText →
      ∃ s, question.memberOr key "Unknown" Json.getString = .ok s :=
    fun key hkey => (Json.exists_memberOr_iff fun _ => Json.exists_getString_iff).2 ⟨hmembers, hkey⟩
  have hrate : ∃ q, question.memberOr "acRate" 0 Json.getDouble = .ok q :=
    (Json.exists_memberOr_iff fun _ => Json.exists_getDouble_iff).2 ⟨hmembers, hrate⟩
  have htitle : question.memberOr "title" "Unknown" Json.getString = .ok title := by
    rw [Json.memberOr, Json.index_of_member htitle]
    rfl
  obtain ⟨rate, hrate⟩ := hrate
  obtain ⟨difficulty, hdifficulty⟩ := htext _ hdifficulty
  obtain ⟨id, hid⟩ := htext _ hid
  obtain ⟨slug, hslug⟩ := htext _ hslug
  obtain ⟨v, hdate, hv⟩ := Option.any_eq_true _ _ |>.1 hdate
  obtain ⟨date, hv⟩ := Json.exists_getString_iff.2 hv
  obtain ⟨v', hlink, hv'⟩ := Option.any_eq_true _ _ |>.1 hlink
  obtain ⟨link, hv'⟩ := Json.exists_getString_iff.2 hv'
  obtain ⟨v'', hpaid, hv''⟩ := Option.any_eq_true _ _ |>.1 hpaid
  obtain ⟨paid, hv''⟩ := Json.exists_getBool_iff.2 hv''
  obtain ⟨tags, htags⟩ := exists_topicTags htags
  unfold readDailyQuestion
  simp only [hparse, ok_bind, Json.index_of_member hdata, Json.index_of_member hdaily, Json.index_of_member hrecent,
    Json.index_of_member hquestion, hlacks, Bool.false_eq_true, if_false, hempty, Json.index_of_member hdate,
    Json.index_of_member hlink, hv, hv', hrate, hdifficulty, hid, htitle, hslug, Json.index_of_member hpaid, hv'',
    Json.index_of_hasMembers hmembers]
  have hcut : ∀ done : Bool, utf8substr 1024 (if done then "Completed " ++ whiteCheckMark else
      "Not recently completed " ++ crossMark) = if done then "Completed " ++ whiteCheckMark else
      "Not recently completed " ++ crossMark := by
    intro done
    cases done <;> rfl
  have hname : utf8substr 256 "Progress" = "Progress" := rfl
  refine ⟨_, ite_bind_eq_ok_iff.2 ⟨tags, htags, bind_eq_ok_iff.2 ⟨_, hloop, rfl⟩⟩, rfl,
    ⟨_, id, rfl, rfl, rfl, ?_⟩, rfl⟩
  simp only [Embed.addField_fields, Embed.setThumbnail_fields, List.mem_append, List.mem_singleton, hcut, hname,
    true_or, or_true]

private theorem readDailyQuestion_of_empty (hparse : parse body = .ok response)
    (h : CompleteResponse response title []) :
    readDailyQuestion parse body = .ok (.text "Could not get user's recent submissions.") := by
  obtain ⟨data, daily, hdata, hdaily, hrecent, hcomplete⟩ := h.data
  unfold readDailyQuestion
  simp only [hparse, ok_bind, Json.index_of_member hdata, Json.index_of_member hrecent,
    lacksQuestion_of_complete hdaily hcomplete, Bool.false_eq_true, if_false]
  rfl

/-- The reply to a complete response tells whether one of the recent submissions is to the daily question; without
recent submissions it says so, and does not show the question. -/
theorem dailyQuestion_reply {cc : HttpCompletion} (hstatus : cc.status = 200) (hparse : parse cc.body = .ok response)
    (h : CompleteResponse response title items) (k : Nat) :
    (items = [] → fetchLeetCodeDailyQuestion parse k cc =
      .handled (edit (.text "Could not get user's recent submissions."))) ∧
    (items ≠ [] → ∃ m, fetchLeetCodeDailyQuestion parse k cc = .handled (edit m) ∧ ShowsDaily m title
      (if items.any (Json.completes title) then "Completed " ++ whiteCheckMark
        else "Not recently completed " ++ crossMark)) := by
  have hstatus : (cc.status == 200) = true := beq_iff_eq.2 hstatus
  constructor
  · rintro rfl
    simp only [fetchLeetCodeDailyQuestion, hstatus, if_true, readDailyQuestion_of_empty hparse h]
  · intro hne
    obtain ⟨m, hread, hm⟩ := readDailyQuestion_of_complete hparse h hne
    refine ⟨m, ?_, hm⟩
    simp only [fetchLeetCodeDailyQuestion, hstatus, if_true, hread]

end Reading

/-- A recent submission. -/
def recentSubmission (id title timestamp : Json) : Json :=
  .object [("id", id), ("title", title), ("timestamp", timestamp)]

/-- A response with the daily question `Two Sum`. -/
def dailyResponse (items : List Json) : Json :=
  .object [("data", .object [
    ("daily", .object [("date", .string "2025-06-01"), ("link", .string "/problems/two-sum/"),
      ("question", .object [("acRate", .number 55), ("title", .string "Two Sum"), ("titleSlug", .string "two-sum"),
        ("isPaidOnly", .boolean false), ("topicTags", .array [])])]),
    ("recent", .array items)])]

private theorem completeResponse_dailyResponse {items : List Json} (h : items.all Json.typedSubmission) :
    CompleteResponse (dailyResponse items) "Two Sum" items :=
  ⟨⟨_, rfl, rfl, rfl, _, rfl, rfl, rfl, rfl, rfl, rfl, rfl, rfl⟩, rfl, h⟩

/-- A partial entry, the daily question, and another question after it. -/
def mixedItems : List Json :=
  [recentSubmission .null (.string "Two Sum") (.string "1"),
    recentSubmission (.string "7") (.string "Two Sum") (.string "2"),
    recentSubmission (.string "6") (.string "Add Two Numbers") (.string "1")]

def mixedParse (_ : String) : Except String Json := .ok (dailyResponse mixedItems)

theorem dailyQuestion_completed :
    ∃ m, fetchLeetCodeDailyQuestion mixedParse 0 ⟨200, ""⟩ = .handled (edit m) ∧
      ShowsDaily m "Two Sum" ("Completed " ++ whiteCheckMark) := by
  have hitems : mixedItems.all Json.typedSubmission := by decide
  have hany : mixedItems.any (Json.completes "Two Sum") := by decide
  have hparse : mixedParse (⟨200, ""⟩ : HttpCompletion).body = .ok (dailyResponse mixedItems) := rfl
  have hreply := (dailyQuestion_reply rfl hparse (completeResponse_dailyResponse hitems) 0).2 (by decide)
  rwa [if_pos hany] at hreply

/-- A user without accepted submissions is not shown the daily question. -/
theorem dailyQuestion_refused :
    CompleteResponse (dailyResponse []) "Two Sum" [] ∧
      ∀ m, fetchLeetCodeDailyQuestion (fun _ => .ok (dailyResponse [])) 0 ⟨200, ""⟩ = .handled (edit m) →
        ∀ progress, ¬ ShowsDaily m "Two Sum" progress := by
  refine ⟨completeResponse_dailyResponse rfl, fun m hm progress hshows => ?_⟩
  have hempty : fetchLeetCodeDailyQuestion (fun _ => .ok (dailyResponse [])) 0 ⟨200, ""⟩ =
      .handled (edit (.text "Could not get user's recent submissions.")) := rfl
  have hedit : edit m = edit (.text "Could not get user's recent submissions.") :=
    Reaction.handled.inj (hm.symm.trans hempty)
  cases hedit
  exact absurd hshows.content (by decide)

end LeetBot
