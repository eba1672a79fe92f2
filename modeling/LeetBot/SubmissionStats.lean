import LeetBot.JsonPaths
import LeetBot.Loops

/-!
# The statistics of a profile

What `fetchLeetCodeProfile` makes of the list `acSubmissionNum`: each count it passes to `updateProfile` is that of
the last complete entry of its name, and when no name occurs twice the order of the entries does not matter.
-/

namespace LeetBot

open Loops

/-! ### Entries -/

/-- The difficulty of an entry that has one, and a count and submissions. -/
def Json.submissionName (entry : Json) : Option String :=
  if entry.has "count" && entry.has "submissions" then (entry.member "difficulty").bind Json.text else none

/-- The last complete entry with a name. -/
def lastNamed (name : String) (entries : List Json) : Option Json :=
  (entries.filter fun entry => entry.submissionName = some name).getLast?

/-- What the last complete entry with a name has in a member, and 0 if there is none. -/
def lastOf (name key : String) (entries : List Json) : Int :=
  ((lastNamed name entries).map fun entry => entry.intAt key).getD 0

/-- What an entry writes into one of the variables of the loop. -/
def written (name key : String) (entry : Json) : Option Int :=
  if entry.submissionName = some name then some (toInt32 (entry.intAt key)) else none

/-- The variables of the loop after an entry that does not make it throw. -/
def SubmissionLoop.record (l : SubmissionLoop) (entry : Json) : SubmissionLoop where
  totalSubmissions := (written "All" "submissions" entry).getD l.totalSubmissions
  profile := { l.profile with
    easySolved := (written "Easy" "count" entry).getD l.profile.easySolved
    mediumSolved := (written "Medium" "count" entry).getD l.profile.mediumSolved
    hardSolved := (written "Hard" "count" entry).getD l.profile.hardSolved }
  embed := (entry.submissionName.map fun name => l.embed.addField (capitalize name)
    (toString (toInt32 (entry.intAt "count")) ++ " solved") true).getD l.embed

/-- The loop does not throw at the entry. -/
def Json.ReadableSubmission (entry : Json) : Prop := ∃ l l', submissionStep l entry = .ok l'

section Step

variable {entry v : Json} {key : String} {l l' : SubmissionLoop}

theorem Json.has_of_index (h : entry.index key = .ok v) : entry.has key = !v.isNull := by
  obtain ⟨-, rfl⟩ := Json.index_eq_ok_iff.1 h
  unfold Json.has
  cases entry.member key <;> rfl

theorem Json.intAt_of_index {i : Int} (h : entry.index key = .ok v) (hi : v.getInt = .ok i) :
    toInt32 (entry.intAt key) = i := by
  have hv : v ≠ .null := by
    rintro rfl
    cases hi
  rw [Json.intAt, Json.member_of_index h hv, Json.intValue_of_getInt hi]
  rfl

private theorem Json.submissionName_of_index {d c s : Json} (hd : entry.index "difficulty" = .ok d)
    (hc : entry.index "count" = .ok c) (hs : entry.index "submissions" = .ok s) :
    entry.submissionName = if c.isNull || s.isNull then none else d.text := by
  rw [Json.submissionName, Json.has_of_index hc, Json.has_of_index hs, Json.member_bind_of_index rfl hd]
  cases c.isNull <;> cases s.isNull <;> rfl

private theorem profile_eq (difficulty : String) (count : Int) (p : UserProfile) :
    (if difficulty == "Easy" then { p with easySolved := count }
      else if difficulty == "Medium" then { p with mediumSolved := count }
      else if difficulty == "Hard" then { p with hardSolved := count }
      else p) =
    { p with
      easySolved := if difficulty = "Easy" then count else p.easySolved
      mediumSolved := if difficulty = "Medium" then count else p.mediumSolved
      hardSolved := if difficulty = "Hard" then count else p.hardSolved } := by
  by_cases heasy : difficulty = "Easy"
  · simp [heasy]
  by_cases hmedium : difficulty = "Medium"
  · simp [hmedium]
  by_cases hhard : difficulty = "Hard"
  · simp [hhard]
  · simp [heasy, hmedium, hhard]

private theorem record_of_some {difficulty : String} (h : entry.submissionName = some difficulty) :
    l.record entry = {
      totalSubmissions := if difficulty = "All" then toInt32 (entry.intAt "submissions") else l.totalSubmissions
      profile := { l.profile with
        easySolved := if difficulty = "Easy" then toInt32 (entry.intAt "count") else l.profile.easySolved
        mediumSolved := if difficulty = "Medium" then toInt32 (entry.intAt "count") else l.profile.mediumSolved
        hardSolved := if difficulty = "Hard" then toInt32 (entry.intAt "count") else l.profile.hardSolved }
      embed := l.embed.addField (capitalize difficulty) (toString (toInt32 (entry.intAt "count")) ++ " solved")
        true } := by
  have hwritten : ∀ name key (otherwise : Int), (written name key entry).getD otherwise =
      if difficulty = name then toInt32 (entry.intAt key) else otherwise := by
    intro name key otherwise
    simp only [written, h, Option.some.injEq]
    split <;> rfl
  simp only [SubmissionLoop.record, hwritten, h, Option.map_some, Option.getD_some]

private theorem record_of_submissionStep (h : submissionStep l entry = .ok l') : l' = l.record entry := by
  unfold submissionStep at h
  simp only [profile_eq, bind_eq_ok_iff] at h
  obtain ⟨d, hd, c, hc, s, hs, h⟩ := h
  have hname := Json.submissionName_of_index hd hc hs
  by_cases hnull : d.isNull || c.isNull || s.isNull
  · -- an entry with a null is skipped
    have hnone : entry.submissionName = none := by
      rw [hname]
      by_cases hcs : c.isNull || s.isNull
      · simp [hcs]
      · have hd' : d.isNull := by simpa [Bool.or_assoc, hcs] using hnull
        rw [Json.isNull_iff.1 hd']
        simp [Json.text]
    simp only [hnull, if_true, pure_eq_ok_iff] at h
    simp [SubmissionLoop.record, written, hnone, ← h]
  · simp only [hnull, Bool.false_eq_true, if_false, bind_eq_ok_iff, hd, hc, hs, Except.ok.injEq, exists_eq_left'] at h
    obtain ⟨difficulty, hdifficulty, count, hcount, h⟩ := h
    have hsome : entry.submissionName = some difficulty := by
      simp only [Bool.or_assoc, Bool.or_eq_true, not_or] at hnull
      simp [hname, hnull, Json.text_of_getString hdifficulty]
    have hcount' : toInt32 (entry.intAt "count") = count := Json.intAt_of_index hc hcount
    rw [record_of_some hsome, hcount']
    by_cases hall : difficulty = "All"
    · simp only [hall, beq_self_eq_true, if_true, bind_eq_ok_iff, pure_eq_ok_iff, Except.ok.injEq,
        exists_eq_left'] at h ⊢
      obtain ⟨total, htotal, rfl⟩ := h
      rw [Json.intAt_of_index hs htotal]
    · simp only [hall, beq_iff_eq, if_false, bind_eq_ok_iff, pure_eq_ok_iff, exists_eq_left'] at h ⊢
      exact h.symm

private theorem void_submissionStep (l l₁ : SubmissionLoop) (entry : Json) :
    (fun _ => ()) <$> submissionStep l entry = (fun _ => ()) <$> submissionStep l₁ entry := by
  unfold submissionStep
  simp only [map_bind, apply_ite (Functor.map _), map_pure, pure_bind]

private theorem submissionStep_eq_ok_iff :
    submissionStep l entry = .ok l' ↔ entry.ReadableSubmission ∧ l' = l.record entry := by
  constructor
  · intro h
    exact ⟨⟨l, l', h⟩, record_of_submissionStep h⟩
  · rintro ⟨⟨l₁, l₁', h⟩, rfl⟩
    have hvoid := void_submissionStep l l₁ entry
    rw [h] at hvoid
    cases hl : submissionStep l entry with
    | error what =>
      rw [hl] at hvoid
      cases hvoid
    | ok l₂ => rw [record_of_submissionStep hl]

end Step

/-! ### The loop -/

section Loop

variable {entries entries' : List Json} {l l' : SubmissionLoop} {name key : String}

private theorem getLast?_filterMap_written :
    (entries.filterMap (written name key)).getLast?.getD 0 = toInt32 (lastOf name key entries) := by
  have hfilter : entries.filterMap (written name key) =
      (entries.filter fun entry => entry.submissionName = some name).map fun entry => toInt32 (entry.intAt key) := by
    rw [← List.filterMap_eq_map, List.filterMap_filter]
    refine List.filterMap_congr fun entry _ => ?_
    simp [written]
  rw [hfilter, List.getLast?_map, lastOf, lastNamed]
  cases (entries.filter fun entry => entry.submissionName = some name).getLast? <;> rfl

private theorem foldlM_submissionStep_eq_ok_iff : entries.foldlM submissionStep l = .ok l' ↔
    (∀ entry ∈ entries, entry.ReadableSubmission) ∧ l' = entries.foldl SubmissionLoop.record l :=
  foldlM_eq_ok_iff fun l entry l' => @submissionStep_eq_ok_iff entry l l'

private theorem foldl_record {f : SubmissionLoop → Int}
    (hf : ∀ l entry, f (l.record entry) = (written name key entry).getD (f l)) (h0 : f l = 0) :
    f (entries.foldl SubmissionLoop.record l) = toInt32 (lastOf name key entries) := by
  calc f (entries.foldl SubmissionLoop.record l)
      = entries.foldl (fun i entry => (written name key entry).getD i) (f l) :=
        (List.foldl_hom f fun l entry => (hf l entry).symm).symm
    _ = toInt32 (lastOf name key entries) := by rw [foldl_getD, h0, getLast?_filterMap_written]

end Loop

/-! ### The response -/

/-- What the lambda reads next to the list of submissions. -/
structure ProfileHeader where
  leetcodeUsername : String
  ranking : Int
  userAvatar : String
  realName : String
  countryName : String
  skillStats : String

def readHeader (matchedUser : Json) : Except String ProfileHeader := do
  let leetcodeUsername ← matchedUser.memberOr "username" "Unknown" Json.getString
  let profileInfo ← matchedUser.index "profileInfo"
  let ranking ← profileInfo.memberOr "ranking" (-1) Json.getInt
  let userAvatar ← profileInfo.memberOr "userAvatar" "Unknown" Json.getString
  let realName ← profileInfo.memberOr "realName" "Unknown" Json.getString
  let countryName ← profileInfo.memberOr "countryName" "Unknown" Json.getString
  let skillTags ← profileInfo.index "skillTags"
  let skillStats ← if skillTags.empty then pure "None" else joinStrings ", " skillTags.elements
  return { leetcodeUsername, ranking, userAvatar, realName, countryName, skillStats }

namespace ProfileHeader

/-- The variables of the loop before the first round. -/
def loop (h : ProfileHeader) : SubmissionLoop where
  totalSubmissions := 0
  profile := {}
  embed := ({} : Embed) |>.setTitle (h.leetcodeUsername ++ "'s LeetCode Stats") |>.setColor .orangeRed

/-- The statistics, with what the loop has left in its variables. -/
def stats (h : ProfileHeader) (l : SubmissionLoop) : FetchedStats where
  totalSubmissions := l.totalSubmissions
  ranking := h.ranking
  userAvatar := h.userAvatar
  realName := h.realName
  countryName := h.countryName
  skillStats := h.skillStats
  profile := l.profile
  embed := l.embed
    |>.addField "Ranking" (toString h.ranking)
    |>.addField "Name" h.realName
    |>.addField "Country" h.countryName
    |>.addField "Skills" h.skillStats
    |>.addField "Total accepted submissions" (toString l.totalSubmissions)
    |>.setThumbnail h.userAvatar

end ProfileHeader

section Response

variable {parse : String → Except String Json} {L body : String} {s : FetchedStats}

/-- A response with statistics: the list of submissions, and what is next to it. -/
theorem readProfile_eq_ok_iff : readProfile parse L body = .ok (.inr s) ↔
    ∃ response matchedUser v header l, parse body = .ok response ∧
      response.path ["data", "matchedUser"] = some matchedUser ∧
      matchedUser.path ["submitStats", "acSubmissionNum"] = some v ∧ v ≠ .null ∧ matchedUser.has "profileInfo" ∧
      readHeader matchedUser = .ok header ∧ v.elements.foldlM submissionStep header.loop = .ok l ∧
      s = header.stats l := by
  unfold readProfile readHeader
  simp only [bind_eq_ok_iff, ite_inl_eq_ok_iff, ite_bind_eq_ok_iff, pure_eq_ok_iff, Bool.not_eq_true, Sum.inr.injEq]
  constructor
  · rintro ⟨response, hparse, data, hdata, _, hlacks, rfl, matchedUser, hmatched, name, hname, submitStats, hstats, _,
      hlacks', rfl, profileInfo, hinfo, hnull, ranking, hranking, avatar, havatar, realName, hreal, country, hcountry,
      tags, htags, skills, hskills, v, hv, l, hloop, rfl⟩
    obtain ⟨matchedUser', hmember, hne⟩ := Json.lacks_eq_false_iff.1 hlacks
    obtain ⟨v', hmember', hne'⟩ := Json.lacks_eq_false_iff.1 hlacks'
    cases hmatched.symm.trans (Json.index_of_member hmember)
    cases hv.symm.trans (Json.index_of_member hmember')
    have hdata' : response.member "data" = some data := Json.member_of_index hdata (by rintro rfl; cases hmember)
    have hstats' : matchedUser.member "submitStats" = some submitStats :=
      Json.member_of_index hstats (by rintro rfl; cases hmember')
    refine ⟨response, matchedUser, v, ⟨name, ranking, avatar, realName, country, skills⟩, l, hparse, ?_, ?_, hne', ?_,
      ⟨name, hname, profileInfo, hinfo, ranking, hranking, avatar, havatar, realName, hreal, country, hcountry, tags,
        htags, skills, hskills, rfl⟩, hloop, rfl⟩
    · simp [Json.path, hdata', hmember]
    · simp [Json.path, hstats', hmember']
    · rw [Json.has_of_index hinfo, hnull]
      rfl
  · rintro ⟨response, matchedUser, v, header, l, hparse, hpath, hpath', hne, hhas, ⟨name, hname, profileInfo, hinfo,
      ranking, hranking, avatar, havatar, realName, hreal, country, hcountry, tags, htags, skills, hskills, rfl⟩,
      hloop, rfl⟩
    simp only [Json.path, Option.bind_eq_some_iff, Option.some.injEq, exists_eq_right] at hpath hpath'
    obtain ⟨data, hdata, hmatched⟩ := hpath
    obtain ⟨submitStats, hstats, hv⟩ := hpath'
    have hmatched_ne : matchedUser ≠ .null := by
      rintro rfl
      cases hstats
    rw [Json.has_of_index hinfo, Bool.not_eq_true'] at hhas
    exact ⟨response, hparse, data, Json.index_of_member hdata, false,
      Json.lacks_eq_false_iff.2 ⟨matchedUser, hmatched, hmatched_ne⟩, rfl, matchedUser, Json.index_of_member hmatched,
      name, hname, submitStats, Json.index_of_member hstats, false, Json.lacks_eq_false_iff.2 ⟨v, hv, hne⟩, rfl,
      profileInfo, hinfo, hhas, ranking, hranking, avatar, havatar, realName, hreal, country, hcountry, tags, htags,
      skills, hskills, v, Json.index_of_member hv, l, hloop, rfl⟩

/-- The variables of the loop after a list of entries. -/
theorem counts_of_foldlM {header : ProfileHeader} {v : Json} {l : SubmissionLoop}
    (h : v.elements.foldlM submissionStep header.loop = .ok l) :
    l.profile.easySolved = toInt32 (lastOf "Easy" "count" v.elements) ∧
      l.profile.mediumSolved = toInt32 (lastOf "Medium" "count" v.elements) ∧
      l.profile.hardSolved = toInt32 (lastOf "Hard" "count" v.elements) ∧
      l.totalSubmissions = toInt32 (lastOf "All" "submissions" v.elements) := by
  obtain ⟨-, rfl⟩ := foldlM_submissionStep_eq_ok_iff.1 h
  exact ⟨foldl_record (f := fun l => l.profile.easySolved) (fun _ _ => rfl) rfl,
    foldl_record (f := fun l => l.profile.mediumSolved) (fun _ _ => rfl) rfl,
    foldl_record (f := fun l => l.profile.hardSolved) (fun _ _ => rfl) rfl,
    foldl_record (f := fun l => l.totalSubmissions) (fun _ _ => rfl) rfl⟩

end Response

/-! ### The call of `updateProfile` -/

/-- Where a response has the list of submissions. -/
def submissionPath : List String := ["data", "matchedUser", "submitStats", "acSubmissionNum"]

def totalSolved (entries : List Json) : Int :=
  lastOf "Easy" "count" entries + lastOf "Medium" "count" entries + lastOf "Hard" "count" entries

/-- The integers of the complete entries, and the sum of the solved counts, are values of an `int`. -/
structure SubmissionsFit (entries : List Json) : Prop where
  integers : ∀ entry ∈ entries, entry.submissionName.isSome →
    FitsInt32 (entry.intAt "count") ∧ FitsInt32 (entry.intAt "submissions")
  total : FitsInt32 (totalSolved entries)

/-- The call of `updateProfile` with the numbers of a list of submissions. -/
def updateWith (db : LeetoDB) (username discordUsername discordId : String) (entries : List Json)
    (s : FetchedStats) : Program Bool :=
  db.updateProfile discordId discordUsername (lastOf "Easy" "count" entries) (lastOf "Medium" "count" entries)
    (lastOf "Hard" "count" entries) (lastOf "All" "submissions" entries) username (totalSolved entries) s.ranking
    s.realName s.countryName s.skillStats s.userAvatar

/-- What the lambda shows after the call. -/
def replyToUpdate (s : FetchedStats) (updated : Bool) : Program Unit := do
  if !updated then
    edit (.text "Update failure.")
  edit (.ofEmbed s.embed)

section Call

variable {parse : String → Except String Json} {db : LeetoDB} {L n d : String} {k : Nat} {cc cc' : HttpCompletion}
  {response : Json} {entries entries' : List Json} {s : FetchedStats}

theorem fetchLeetCodeProfile_of_read (hstatus : cc.status = 200)
    (hread : readProfile parse L cc.body = .ok (.inr s)) :
    fetchLeetCodeProfile parse db L n d k cc = .handled (storeProfile db L n d s >>= replyToUpdate s) := by
  unfold fetchLeetCodeProfile
  rw [if_pos (beq_iff_eq.2 hstatus), hread]
  rfl

private theorem lastOf_fits {key : String} (name : String)
    (h : ∀ entry ∈ entries, entry.submissionName.isSome → FitsInt32 (entry.intAt key)) :
    FitsInt32 (lastOf name key entries) := by
  unfold lastOf lastNamed
  cases hlast : (entries.filter fun entry => entry.submissionName = some name).getLast? with
  | none => exact (by decide : FitsInt32 0)
  | some entry =>
    obtain ⟨hmem, hname⟩ := List.mem_filter.1 (List.mem_of_getLast? hlast)
    exact h entry hmem (by simp [of_decide_eq_true hname])

theorem path_submissionPath {matchedUser v : Json}
    (hmatched : response.path ["data", "matchedUser"] = some matchedUser)
    (hv : matchedUser.path ["submitStats", "acSubmissionNum"] = some v) : response.path submissionPath = some v := by
  show response.path (["data", "matchedUser"] ++ ["submitStats", "acSubmissionNum"]) = some v
  rw [Json.path_append, hmatched]
  exact hv

private theorem storeProfile_eq_updateWith (hparse : parse cc.body = .ok response)
    (hpath : response.path submissionPath = some (.array entries)) (hfit : SubmissionsFit entries)
    (hread : readProfile parse L cc.body = .ok (.inr s)) :
    storeProfile db L n d s = updateWith db L n d entries s := by
  obtain ⟨response', matchedUser, v, header, l, hparse', hmatched, hv, -, -, -, hloop, rfl⟩ :=
    readProfile_eq_ok_iff.1 hread
  cases hparse.symm.trans hparse'
  obtain rfl : v = .array entries := Option.some.inj ((path_submissionPath hmatched hv).symm.trans hpath)
  obtain ⟨heasy, hmedium, hhard, htotal⟩ := counts_of_foldlM hloop
  have hcount := fun name => toInt32_eq_self_iff.2 (lastOf_fits name fun e he hs => (hfit.integers e he hs).1)
  have hsubmissions := toInt32_eq_self_iff.2 (lastOf_fits "All" fun e he hs => (hfit.integers e he hs).2)
  have hsum := toInt32_eq_self_iff.2 hfit.total
  simp only [storeProfile, updateWith, FetchedStats.userProfile, ProfileHeader.stats, heasy, hmedium, hhard, htotal,
    Json.elements, hcount, hsubmissions]
  rw [← totalSolved, hsum]

private theorem readHeader_replaceAt (j v : Json) :
    readHeader (j.replaceAt v ["submitStats", "acSubmissionNum"]) = readHeader j := by
  have hmemberOr : ∀ {α : Type} (key : String) (otherwise : α) (get : Json → Except String α), key ≠ "submitStats" →
      (j.replaceAt v ["submitStats", "acSubmissionNum"]).memberOr key otherwise get =
        j.memberOr key otherwise get := by
    intro α key otherwise get hkey
    rw [Json.memberOr, Json.replaceAt, Json.index_updateMember_of_ne _ hkey]
    rfl
  have hindex : (j.replaceAt v ["submitStats", "acSubmissionNum"]).index "profileInfo" = j.index "profileInfo" :=
    Json.index_updateMember_of_ne _ (by decide)
  rw [readHeader, hmemberOr _ _ _ (by decide), hindex]
  rfl

/-- A response with the entries in another order is read too, with the same next to the list. -/
private theorem readProfile_of_perm (hparse : parse cc.body = .ok response)
    (hpath : response.path submissionPath = some (.array entries)) (hperm : entries.Perm entries')
    (hparse' : parse cc'.body = .ok (response.replaceAt (.array entries') submissionPath))
    (hread : readProfile parse L cc.body = .ok (.inr s)) :
    ∃ s', readProfile parse L cc'.body = .ok (.inr s') ∧ s'.ranking = s.ranking ∧ s'.realName = s.realName ∧
      s'.countryName = s.countryName ∧ s'.skillStats = s.skillStats ∧ s'.userAvatar = s.userAvatar := by
  obtain ⟨response', matchedUser, v, header, l, hparse₁, hmatched, hv, -, hinfo, hheader, hloop, rfl⟩ :=
    readProfile_eq_ok_iff.1 hread
  cases hparse.symm.trans hparse₁
  obtain rfl : v = .array entries := Option.some.inj ((path_submissionPath hmatched hv).symm.trans hpath)
  obtain ⟨hreadable, -⟩ := foldlM_submissionStep_eq_ok_iff.1 hloop
  have hmatched' : (response.replaceAt (.array entries') submissionPath).path ["data", "matchedUser"] =
      some (matchedUser.replaceAt (.array entries') ["submitStats", "acSubmissionNum"]) := by
    have hreplaced := Json.path_replaceAt (j := response) (v := .array entries') ["data", "matchedUser"]
      ["submitStats", "acSubmissionNum"]
    rw [hmatched] at hreplaced
    exact hreplaced
  have hv' : (matchedUser.replaceAt (.array entries') ["submitStats", "acSubmissionNum"]).path
      ["submitStats", "acSubmissionNum"] = some (.array entries') := by
    have hreplaced :=
      Json.path_replaceAt (j := matchedUser) (v := .array entries') ["submitStats", "acSubmissionNum"] []
    rw [hv] at hreplaced
    exact hreplaced
  have hinfo' : (matchedUser.replaceAt (.array entries') ["submitStats", "acSubmissionNum"]).has "profileInfo" := by
    rw [Json.has, Json.replaceAt, Json.member_updateMember_of_ne _ (by decide)]
    exact hinfo
  have hloop' : entries'.foldlM submissionStep header.loop = .ok (entries'.foldl SubmissionLoop.record header.loop) :=
    foldlM_submissionStep_eq_ok_iff.2 ⟨fun entry h => hreadable entry (hperm.mem_iff.2 h), rfl⟩
  refine ⟨_, readProfile_eq_ok_iff.2 ⟨_, _, .array entries', header, _, hparse', hmatched', hv', Json.noConfusion,
    hinfo', ?_, hloop', rfl⟩, rfl, rfl, rfl, rfl, rfl⟩
  rw [readHeader_replaceAt, hheader]

private theorem lastOf_of_perm (hdistinct : (entries.filterMap Json.submissionName).Nodup)
    (hperm : entries.Perm entries') (name key : String) : lastOf name key entries = lastOf name key entries' := by
  rw [lastOf, lastOf, lastNamed, lastNamed, getLast?_filter_of_perm (length_filter_le_one hdistinct name) hperm]

/-- What a response with statistics makes the lambda pass to `updateProfile`: the numbers of the last complete entry
of each name.  When no name occurs in two of them, the order of the entries does not matter. -/
theorem updateProfile_arguments (hstatus : cc.status = 200) (hparse : parse cc.body = .ok response)
    (hpath : response.path submissionPath = some (.array entries)) (hfit : SubmissionsFit entries)
    (hread : readProfile parse L cc.body = .ok (.inr s)) :
    (∀ db n d k, fetchLeetCodeProfile parse db L n d k cc =
        .handled (updateWith db L n d entries s >>= replyToUpdate s)) ∧
      ((entries.filterMap Json.submissionName).Nodup → ∀ entries' cc', entries.Perm entries' → cc'.status = 200 →
        parse cc'.body = .ok (response.replaceAt (.array entries') submissionPath) →
        ∃ s', ∀ db n d k, fetchLeetCodeProfile parse db L n d k cc' =
          .handled (updateWith db L n d entries s >>= replyToUpdate s')) := by
  refine ⟨fun db n d k => ?_, fun hdistinct entries' cc' hperm hstatus' hparse' => ?_⟩
  · rw [fetchLeetCodeProfile_of_read hstatus hread, storeProfile_eq_updateWith hparse hpath hfit hread]
  · obtain ⟨s', hread', hranking, hreal, hcountry, hskills, havatar⟩ :=
      readProfile_of_perm hparse hpath hperm hparse' hread
    have hlast : ∀ name key, lastOf name key entries' = lastOf name key entries :=
      fun name key => (lastOf_of_perm hdistinct hperm name key).symm
    have htotal : totalSolved entries' = totalSolved entries := by
      simp only [totalSolved, hlast]
    have hfit' : SubmissionsFit entries' :=
      ⟨fun entry h => hfit.integers entry (hperm.mem_iff.2 h), htotal ▸ hfit.total⟩
    have hpath' :
        (response.replaceAt (.array entries') submissionPath).path submissionPath = some (.array entries') := by
      have hreplaced := Json.path_replaceAt (j := response) (v := .array entries') submissionPath []
      rw [hpath] at hreplaced
      exact hreplaced
    refine ⟨s', fun db n d k => ?_⟩
    rw [fetchLeetCodeProfile_of_read hstatus' hread', storeProfile_eq_updateWith hparse' hpath' hfit' hread']
    simp only [updateWith, hlast, htotal, hranking, hreal, hcountry, hskills, havatar]

end Call

/-- An entry of `acSubmissionNum`. -/
def submissionEntry (difficulty : String) (count submissions : Int) : Json :=
  .object [("difficulty", .string difficulty), ("count", .number count), ("submissions", .number submissions)]

/-- A response with the given entries. -/
def statsResponse (entries : List Json) : Json :=
  .object [("data", .object [("matchedUser", .object [
    ("submitStats", .object [("acSubmissionNum", .array entries)]),
    ("profileInfo", .object [("ranking", .number 7)])])])]

/-- Entries of which one is not complete. -/
def annEntries : List Json :=
  [submissionEntry "All" 3 9, submissionEntry "Easy" 2 5, .object [("difficulty", .string "Hard")]]

/-- A response with these entries, and one with the same entries in another order. -/
def statsParse (body : String) : Except String Json :=
  .ok (statsResponse (if body = "" then annEntries else annEntries.reverse))

/-- In both orders, the same is passed on. -/
theorem updateProfile_arguments_ann :
    ∃ s s', ∀ db n d k,
      fetchLeetCodeProfile statsParse db "a" n d k ⟨200, ""⟩ =
          .handled (updateWith db "a" n d annEntries s >>= replyToUpdate s) ∧
        fetchLeetCodeProfile statsParse db "a" n d k ⟨200, "r"⟩ =
          .handled (updateWith db "a" n d annEntries s >>= replyToUpdate s') ∧
        lastOf "Easy" "count" annEntries = 2 ∧ totalSolved annEntries = 2 := by
  obtain ⟨s, hread⟩ : ∃ s, readProfile statsParse "a" (⟨200, ""⟩ : HttpCompletion).body = .ok (.inr s) := ⟨_, rfl⟩
  have hfit : SubmissionsFit annEntries := by
    refine ⟨?_, by decide⟩
    intro entry hentry _
    simp only [annEntries, List.mem_cons, List.not_mem_nil, or_false] at hentry
    rcases hentry with rfl | rfl | rfl <;> decide
  obtain ⟨hcall, hperm⟩ := updateProfile_arguments rfl rfl rfl hfit hread
  obtain ⟨s', hcall'⟩ := hperm (by decide) annEntries.reverse ⟨200, "r"⟩ (List.reverse_perm _).symm rfl rfl
  exact ⟨s, s', fun db n d k => ⟨hcall db n d k, hcall' db n d k, by decide, by decide⟩⟩

end LeetBot
