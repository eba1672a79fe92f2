import LeetBot.AccountSteps
import LeetBot.FetchCache
import LeetBot.SubmissionStats
import LeetBot.TypedMembers

/-!
# The reply to a fetched profile

The lambda of `fetchLeetCodeProfile` shows an error and returns in every case but one: after a failed update it goes
on and shows the statistics.  So the user is told what happened exactly when it does not come to that.
-/

namespace LeetBot

open Interleave Loops

/-! ### Responses with statistics -/

namespace Json

/-- An entry of the list of submissions at which the loop does not throw. -/
def readableSubmission (entry : Json) : Bool :=
  entry.hasMembers &&
    (!(entry.has "difficulty" && entry.has "count" && entry.has "submissions") ||
      (entry.required "difficulty" isText && entry.required "count" isInt &&
        (decide ((entry.member "difficulty").bind text ≠ some "All") || entry.required "submissions" isInt)))

/-- The skill tags, as the loop over them sees them. -/
def skillTags (profileInfo : Json) : List Json := ((profileInfo.member "skillTags").getD null).elements

/-- `profileInfo` has members, and those that are read have their types. -/
def readableInfo (profileInfo : Json) : Bool :=
  !profileInfo.isNull && profileInfo.hasMembers && profileInfo.optional "ranking" isInt &&
    profileInfo.optional "userAvatar" isText && profileInfo.optional "realName" isText &&
    profileInfo.optional "countryName" isText && profileInfo.skillTags.all isText

/-- The response has statistics, and everything that is read in them has its type. -/
def carriesStats (response : Json) : Bool :=
  (response.path ["data", "matchedUser"]).any fun matchedUser =>
    matchedUser.optional "username" isText && matchedUser.required "profileInfo" readableInfo &&
      (matchedUser.path ["submitStats", "acSubmissionNum"]).any fun v =>
        !v.isNull && v.elements.all readableSubmission

end Json

section Carries

variable {entry profileInfo matchedUser response : Json} {l : SubmissionLoop}

private theorem exists_submissionStep_iff : (∃ l', submissionStep l entry = .ok l') ↔ entry.readableSubmission := by
  by_cases hmembers : entry.hasMembers
  · have hname : (entry.member "difficulty").bind Json.text = ((entry.member "difficulty").getD .null).text := by
      cases entry.member "difficulty" <;> rfl
    simp only [submissionStep, Json.index_of_hasMembers hmembers, bind_eq_ok_iff, Except.ok.injEq, exists_eq_left',
      Json.readableSubmission, hmembers, Json.has_eq, hname, Json.required_eq Json.isText rfl,
      Json.required_eq Json.isInt rfl]
    generalize (entry.member "difficulty").getD .null = d
    generalize (entry.member "count").getD .null = c
    generalize (entry.member "submissions").getD .null = s
    have hcomplete : (!(!d.isNull && !c.isNull && !s.isNull)) = (d.isNull || c.isNull || s.isNull) := by
      cases d.isNull <;> cases c.isNull <;> cases s.isNull <;> rfl
    rw [hcomplete]
    by_cases hnull : d.isNull || c.isNull || s.isNull
    · -- an entry with a null is skipped
      simp [hnull, pure_eq_ok_iff]
    · simp only [hnull, Bool.false_eq_true, if_false, Bool.true_and, Bool.false_or, Bool.and_eq_true]
      cases d with
      | string difficulty =>
        simp only [Json.getString, Json.isText, Json.text, Json.isInt_eq_isOk]
        rcases hc : c.getInt with _ | count <;> rcases hs : s.getInt with _ | total <;>
          by_cases hall : difficulty = "All" <;>
            simp [hc, hs, hall, Except.isOk, Except.toBool, bind, Except.bind, pure, Except.pure]
      | _ => simp [Json.getString, Json.isText]
  · have hthrows : ¬ ∃ l', submissionStep l entry = .ok l' := by
      rintro ⟨l', h⟩
      obtain ⟨d, hd, -⟩ := bind_eq_ok_iff.1 h
      exact hmembers (Json.exists_index_iff.1 ⟨d, hd⟩)
    simp [hthrows, Json.readableSubmission, hmembers]

private theorem exists_skillStats_iff (tags : Json) :
    (∃ skills, (if tags.empty then pure "None" else joinStrings ", " tags.elements) = Except.ok skills) ↔
      tags.elements.all Json.isText := by
  rw [List.all_eq_true]
  by_cases hempty : tags.empty
  · simp [hempty, Json.elements_of_empty hempty, pure_eq_ok_iff]
  · simp only [hempty, Bool.false_eq_true, if_false]
    exact Json.exists_joinStrings_iff

private theorem exists_readHeader_iff (hmembers : matchedUser.hasMembers)
    (hinfo : matchedUser.member "profileInfo" = some profileInfo) (hnull : profileInfo.isNull = false) :
    (∃ header, readHeader matchedUser = .ok header) ↔
      matchedUser.optional "username" Json.isText ∧ profileInfo.readableInfo := by
  have htext : ∀ (j : Json) (key : String), (∃ s, j.memberOr key "Unknown" Json.getString = .ok s) ↔
      j.hasMembers ∧ j.optional key Json.isText :=
    fun j key => Json.exists_memberOr_iff fun _ => Json.exists_getString_iff
  have hint : (∃ i, profileInfo.memberOr "ranking" (-1) Json.getInt = .ok i) ↔
      profileInfo.hasMembers ∧ profileInfo.optional "ranking" Json.isInt :=
    Json.exists_memberOr_iff fun _ => Json.exists_getInt_iff
  simp only [readHeader, Json.index_of_member hinfo, bind_eq_ok_iff, ite_bind_eq_ok_iff, pure_eq_ok_iff,
    Except.ok.injEq, exists_eq_left', Json.readableInfo, hnull, Bool.not_false, Bool.true_and, Bool.and_eq_true]
  constructor
  · rintro ⟨header, name, hname, ranking, hranking, avatar, havatar, realName, hreal, country, hcountry, tags, htags,
      skills, hskills, -⟩
    obtain ⟨hhas, hranking⟩ := hint.1 ⟨ranking, hranking⟩
    rw [Json.index_of_hasMembers hhas] at htags
    cases htags
    exact ⟨((htext _ _).1 ⟨name, hname⟩).2, ⟨⟨⟨⟨hhas, hranking⟩, ((htext _ _).1 ⟨avatar, havatar⟩).2⟩,
      ((htext _ _).1 ⟨realName, hreal⟩).2⟩, ((htext _ _).1 ⟨country, hcountry⟩).2⟩,
      (exists_skillStats_iff _).1 ⟨skills, hskills⟩⟩
  · rintro ⟨hname, ⟨⟨⟨⟨hhas, hranking⟩, havatar⟩, hreal⟩, hcountry⟩, hskills⟩
    obtain ⟨name, hname⟩ := (htext _ _).2 ⟨hmembers, hname⟩
    obtain ⟨ranking, hranking⟩ := hint.2 ⟨hhas, hranking⟩
    obtain ⟨avatar, havatar⟩ := (htext _ _).2 ⟨hhas, havatar⟩
    obtain ⟨realName, hreal⟩ := (htext _ _).2 ⟨hhas, hreal⟩
    obtain ⟨country, hcountry⟩ := (htext _ _).2 ⟨hhas, hcountry⟩
    obtain ⟨skills, hskills⟩ := (exists_skillStats_iff _).2 hskills
    exact ⟨_, name, hname, ranking, hranking, avatar, havatar, realName, hreal, country, hcountry, _,
      Json.index_of_hasMembers hhas _, skills, hskills, rfl⟩

private theorem exists_foldlM_submissionStep_iff {entries : List Json} :
    (∃ l', entries.foldlM submissionStep l = .ok l') ↔ entries.all Json.readableSubmission := by
  rw [List.all_eq_true]
  have hstep : ∀ l entry, (∃ l', submissionStep l entry = .ok l') ↔ entry.readableSubmission :=
    fun _ _ => exists_submissionStep_iff
  exact exists_foldlM_eq_ok_iff hstep

/-- When the lambda reads statistics. -/
private theorem exists_readProfile_iff {parse : String → Except String Json} {L body : String} :
    (∃ s, readProfile parse L body = .ok (.inr s)) ↔
      ∃ response, parse body = .ok response ∧ response.carriesStats := by
  simp only [readProfile_eq_ok_iff, Json.carriesStats, Option.any_eq_true, Bool.and_eq_true, Json.required, Json.has,
    Bool.not_eq_true']
  constructor
  · rintro ⟨s, response, matchedUser, v, header, l, hparse, hmatched, hv, hne, ⟨info, hinfo, hnull⟩, hheader,
      hloop, -⟩
    obtain ⟨hname, hreadable⟩ :=
      (exists_readHeader_iff (Json.hasMembers_of_member hinfo) hinfo hnull).1 ⟨header, hheader⟩
    refine ⟨response, hparse, matchedUser, hmatched, ⟨hname, info, hinfo, hreadable⟩, v, hv, ?_,
      exists_foldlM_submissionStep_iff.1 ⟨l, hloop⟩⟩
    rwa [← Bool.not_eq_true, Json.isNull_iff]
  · rintro ⟨response, hparse, matchedUser, hmatched, ⟨hname, info, hinfo, hreadable⟩, v, hv, hne, hentries⟩
    have hnull : info.isNull = false := by
      simp only [Json.readableInfo, Bool.and_eq_true, Bool.not_eq_true'] at hreadable
      exact hreadable.1.1.1.1.1.1
    obtain ⟨header, hheader⟩ :=
      (exists_readHeader_iff (Json.hasMembers_of_member hinfo) hinfo hnull).2 ⟨hname, hreadable⟩
    obtain ⟨l, hloop⟩ := exists_foldlM_submissionStep_iff.2 hentries
    refine ⟨_, response, matchedUser, v, header, l, hparse, hmatched, hv, ?_, ⟨info, hinfo, hnull⟩, hheader,
      hloop, rfl⟩
    rintro rfl
    cases hne

end Carries

/-! ### The update -/

/-- `updateProfile` fails: there is no connection, the first or the second statement throws, or the user has no
row. -/
def UpdateFails (db : LeetoDB) (discordId : String) (xs : Nat → Choice) (users : List Row) : Prop :=
  ¬ db.connected ∨ xs 0 = .fault ∨ Stmt.rowsWhere users .discordId discordId = [] ∨ xs 1 = .fault

section Update

variable {parse : String → Except String Json} {db : LeetoDB} {L n d : String} {k : Nat} {cc : HttpCompletion}
  {xs : Nat → Choice} {a : Accounts} {s : FetchedStats}

/-- The call of `updateProfile` ends without a text, having changed nothing or the rows of the user. -/
private theorem alone_storeProfile (parse : String → Except String Json) (db : LeetoDB) (L n d : String)
    (xs : Nat → Choice) (a : Accounts) (s : FetchedStats) :
    ∃ t, texts t = [] ∧
      (UpdateFails db d xs a.users → (accounts parse db).alone xs (storeProfile db L n d s) a = some (false, t, a)) ∧
      (¬ UpdateFails db d xs a.users → (accounts parse db).alone xs (storeProfile db L n d s) a =
        some (true, t, { a with users := Stmt.updateWhere a.users .discordId d (s.storedRow L n d) })) := by
  unfold storeProfile LeetoDB.updateProfile UpdateFails
  by_cases hdb : db.connected
  · simp only [hdb, Bool.not_true, Bool.false_eq_true, if_false, selectWhere_bind, not_true_eq_false, false_or]
    rcases hx : xs 0 with _ | _
    · have hselect : (accounts parse db).exec (.sql (.select .discordId d)) (xs 0) a =
          some (.ok (Stmt.rowsWhere a.users .discordId d), a) := exec_of_ok hx
      rcases hrows : Stmt.rowsWhere a.users .discordId d with _ | ⟨row, rest⟩
      · rw [hrows] at hselect
        exact ⟨_, rfl, fun _ => System.alone_call_of_exec hselect rfl, fun h => absurd (.inr (.inl rfl)) h⟩
      · rw [hrows] at hselect
        rcases hx₁ : xs 1 with _ | _
        · exact ⟨_, rfl, by simp, fun _ =>
            System.alone_call_of_exec hselect (System.alone_call_of_exec (exec_of_ok hx₁) rfl)⟩
        · exact ⟨_, rfl, fun _ =>
            System.alone_call_of_exec hselect (System.alone_call_of_exec (exec_of_fault hx₁) rfl), by simp⟩
    · exact ⟨_, rfl, fun _ => System.alone_call_of_exec (exec_of_fault hx) rfl, by simp⟩
  · exact ⟨[], rfl, by simp [hdb], by simp [hdb]⟩

end Update

/-! ### The reply -/

/-- The errors that the lambda shows. -/
inductive ProfileFailure (username : String) : Message → Prop
  | noUser : ProfileFailure username (.text ("User `" ++ username ++ "` not found on LeetCode."))
  | noStats : ProfileFailure username (.text ("No submission stats available for " ++ username))
  | noInfo : ProfileFailure username (.text ("No profile info available for " ++ username))
  | update : ProfileFailure username (.text "Update failure.")
  | parse (what : String) : ProfileFailure username (.text ("Error parsing LeetCode response: " ++ what))
  | http (status : Nat) :
      ProfileFailure username (.text ("Failed to fetch LeetCode profile (HTTP " ++ toString status ++ ")"))

private theorem ProfileFailure.ne_ofEmbed {L : String} {m : Message} (h : ProfileFailure L m) (e : Embed) :
    m ≠ .ofEmbed e := by
  cases h <;> exact fun hm => absurd (congrArg Message.embeds hm) (List.cons_ne_nil _ _).symm

section Reply

variable {parse : String → Except String Json} {db : LeetoDB} {L n d : String} {k : Nat} {cc : HttpCompletion}
  {xs : Nat → Choice} {a : Accounts} {s : FetchedStats}

private theorem profileFailure_of_read {m : Message} (h : readProfile parse L cc.body = .ok (.inl m)) :
    ProfileFailure L m := by
  unfold readProfile at h
  simp only [bind_eq_ok_iff] at h
  obtain ⟨response, -, data, -, missing, -, h⟩ := h
  split at h
  · cases h
    exact .noUser
  simp only [bind_eq_ok_iff] at h
  obtain ⟨matchedUser, -, name, -, submitStats, -, missing', -, h⟩ := h
  split at h
  · cases h
    exact .noStats
  simp only [bind_eq_ok_iff] at h
  obtain ⟨profileInfo, -, h⟩ := h
  split at h
  · cases h
    exact .noInfo
  simp only [bind_eq_ok_iff, ite_bind_eq_ok_iff, pure_eq_ok_iff, reduceCtorEq, and_false, exists_false] at h

variable (parse db L n d cc xs a s) in
/-- The response carries the statistics `s`, and `updateProfile` returns true for them. -/
def Stores : Prop :=
  cc.status = 200 ∧ readProfile parse L cc.body = .ok (.inr s) ∧
    ∃ t a', (accounts parse db).alone xs (storeProfile db L n d s) a = some (true, t, a')

variable (parse db L n d k cc xs a) in
/-- The lambda shows one text: the statistics if and only if `updateProfile` returned true for them, which are then
those in the rows of the user, and otherwise an error. -/
def ReportsUpdate : Prop :=
  ∃ m t a', (accounts parse db).alone xs (completionLambda parse db (.profile L n d k) cc) a = some ((), t, a') ∧
    texts t = [m] ∧
    ((∃ s, readProfile parse L cc.body = .ok (.inr s) ∧ m = .ofEmbed s.embed) ↔
      ∃ s, Stores parse db L n d cc xs a s) ∧
    (∀ s, Stores parse db L n d cc xs a s → m = .ofEmbed s.embed ∧
      a'.users = Stmt.updateWhere a.users .discordId d (s.storedRow L n d)) ∧
    ((∀ s, ¬ Stores parse db L n d cc xs a s) → ProfileFailure L m)

/-- The run of the lambda when the response carries statistics. -/
private theorem alone_completionLambda_of_read (hstatus : cc.status = 200)
    (hread : readProfile parse L cc.body = .ok (.inr s)) :
    (UpdateFails db d xs a.users →
      ∃ t, (accounts parse db).alone xs (completionLambda parse db (.profile L n d k) cc) a = some ((), t, a) ∧
        texts t = [.text "Update failure.", .ofEmbed s.embed]) ∧
    (¬ UpdateFails db d xs a.users →
      ∃ t, (accounts parse db).alone xs (completionLambda parse db (.profile L n d k) cc) a =
        some ((), t, { a with users := Stmt.updateWhere a.users .discordId d (s.storedRow L n d) }) ∧
        texts t = [.ofEmbed s.embed]) := by
  simp only [completionLambda, fetchLeetCodeProfile_of_read hstatus hread]
  obtain ⟨t, ht, hfail, hstore⟩ := alone_storeProfile parse db L n d xs a s
  constructor
  · intro h
    refine ⟨t ++ [⟨.edit (.text "Update failure."), ()⟩, ⟨.edit (.ofEmbed s.embed), ()⟩],
      System.alone_bind (hfail h), ?_⟩
    simp only [texts, List.filterMap_append] at ht ⊢
    rw [ht]
    rfl
  · intro h
    refine ⟨t ++ [⟨.edit (.ofEmbed s.embed), ()⟩], System.alone_bind (hstore h), ?_⟩
    simp only [texts, List.filterMap_append] at ht ⊢
    rw [ht]
    rfl

private theorem not_reportsUpdate (hstatus : cc.status = 200) (hread : readProfile parse L cc.body = .ok (.inr s))
    (hfails : UpdateFails db d xs a.users) : ¬ ReportsUpdate parse db L n d k cc xs a := by
  rintro ⟨m, t, a', hrun, htexts, -⟩
  obtain ⟨t', hrun', htexts'⟩ := (alone_completionLambda_of_read hstatus hread).1 hfails
  cases hrun.symm.trans hrun'
  cases htexts.symm.trans htexts'

private theorem reportsUpdate_of_failure {m : Message} (hm : ProfileFailure L m)
    (hrun : completionLambda parse db (.profile L n d k) cc = edit m)
    (hnone : ∀ s, cc.status = 200 → readProfile parse L cc.body ≠ .ok (.inr s)) :
    ReportsUpdate parse db L n d k cc xs a := by
  have hstores : ∀ s, ¬ Stores parse db L n d cc xs a s := fun s h => hnone s h.1 h.2.1
  refine ⟨m, [⟨.edit m, ()⟩], a, by rw [hrun]; rfl, rfl, ⟨?_, ?_⟩, fun s h => absurd h (hstores s), fun _ => hm⟩
  · rintro ⟨s, -, hs⟩
    exact absurd hs (hm.ne_ofEmbed _)
  · rintro ⟨s, hs⟩
    exact absurd hs (hstores s)

/-- A completion that is not retried is reported exactly when it does not come to a failed update. -/
theorem reportsUpdate_iff (hdone : ¬ (cc.status = 429 ∧ k < 3)) :
    ReportsUpdate parse db L n d k cc xs a ↔
      ¬ (cc.status = 200 ∧ (∃ response, parse cc.body = .ok response ∧ response.carriesStats) ∧
        UpdateFails db d xs a.users) := by
  rw [← exists_readProfile_iff (L := L)]
  constructor
  · rintro h ⟨hstatus, ⟨s, hread⟩, hfails⟩
    exact not_reportsUpdate hstatus hread hfails h
  intro h
  by_cases hstatus : cc.status = 200
  · cases hread : readProfile parse L cc.body with
    | error what =>
      refine reportsUpdate_of_failure (.parse what) ?_ fun s _ hs => by cases hread.symm.trans hs
      simp [completionLambda, fetchLeetCodeProfile, hstatus, hread]
    | ok found =>
      rcases found with m | s
      · refine reportsUpdate_of_failure (profileFailure_of_read hread) ?_ fun s _ hs => by cases hread.symm.trans hs
        simp [completionLambda, fetchLeetCodeProfile, hstatus, hread]
      · have hok : ¬ UpdateFails db d xs a.users := fun hfails => h ⟨hstatus, ⟨s, hread⟩, hfails⟩
        obtain ⟨t, hrun, htexts⟩ := (alone_completionLambda_of_read (n := n) (k := k) hstatus hread).2 hok
        obtain ⟨t', -, -, hstore⟩ := alone_storeProfile parse db L n d xs a s
        have hstores : Stores parse db L n d cc xs a s := ⟨hstatus, hread, t', _, hstore hok⟩
        refine ⟨_, t, _, hrun, htexts, ⟨fun _ => ⟨s, hstores⟩, fun _ => ⟨s, hread, rfl⟩⟩, ?_, fun hnone =>
          absurd hstores (hnone s)⟩
        intro s' h'
        cases hread.symm.trans h'.2.1
        exact ⟨rfl, rfl⟩
  · refine reportsUpdate_of_failure (.http cc.status) ?_ fun s hs => absurd hs hstatus
    have hlim : (cc.status == 429 && decide (k < 3)) = false := by
      rw [← Bool.not_eq_true]
      simpa using hdone
    simp [completionLambda, fetchLeetCodeProfile, hstatus, hlim]

end Reply

/-- A table with one row that has not been filled yet. -/
def annRegistered : Accounts := ⟨[LeetoDB.insertedRow "1" "ann" "a"], [], [], []⟩

theorem reportsUpdate_ann :
    ReportsUpdate sampleParse ⟨true⟩ "a" "ann" "1" 0 ⟨200, statsBody⟩ (fun _ => .ok) annRegistered := by
  refine (reportsUpdate_iff (by decide)).2 ?_
  rintro ⟨-, -, h⟩
  revert h
  simp [UpdateFails, annRegistered, Stmt.rowsWhere]

/-- When the `UPDATE` throws, the user sees the statistics, which are not in the table. -/
theorem stats_shown_after_failed_update :
    ¬ ReportsUpdate sampleParse ⟨true⟩ "a" "ann" "1" 0 ⟨200, statsBody⟩
      (fun i => if i = 1 then .fault else .ok) annRegistered := by
  obtain ⟨s, hread⟩ : ∃ s, readProfile sampleParse "a" (⟨200, statsBody⟩ : HttpCompletion).body = .ok (.inr s) :=
    ⟨_, rfl⟩
  exact not_reportsUpdate rfl hread (.inr (.inr (.inr rfl)))

end LeetBot
