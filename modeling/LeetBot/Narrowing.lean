import LeetBot.SolutionsFetch
import LeetBot.SubmissionStats

/-!
# Numbers that are too large

`get<int>()` keeps 32 bits of a number, and the solved counts are added as values of an `int`.  What is stored is what
the response says exactly when the numbers of the response, and their sums, are values of an `int`.
-/

namespace LeetBot

open Loops

/-! ### Profiles -/

/-- The list of submissions of a response. -/
def Json.submissions (response : Json) : List Json := ((response.path submissionPath).map Json.elements).getD []

/-- The ranking of a response, and -1 if there is none. -/
def Json.ranking (response : Json) : Int :=
  match response.path ["data", "matchedUser", "profileInfo"] with
  | some info => if info.has "ranking" then info.intAt "ranking" else -1
  | none => -1

/-- The integers that are passed to `updateProfile` are those of the response, the total is the sum of the solved
counts, and no addition overflows. -/
structure ProfileNumbersKept (response : Json) (p : UserProfile) : Prop where
  easySolved : p.easySolved = lastOf "Easy" "count" response.submissions
  mediumSolved : p.mediumSolved = lastOf "Medium" "count" response.submissions
  hardSolved : p.hardSolved = lastOf "Hard" "count" response.submissions
  submissions : p.submissions = lastOf "All" "submissions" response.submissions
  ranking : p.ranking = response.ranking
  totalSolved : p.totalSolved = totalSolved response.submissions
  first_sum : FitsInt32 (p.easySolved + p.mediumSolved)
  second_sum : FitsInt32 (p.easySolved + p.mediumSolved + p.hardSolved)

/-- The numbers of a response, and the sums of its solved counts, are values of an `int`. -/
structure ProfileNumbersFit (response : Json) : Prop where
  easySolved : FitsInt32 (lastOf "Easy" "count" response.submissions)
  mediumSolved : FitsInt32 (lastOf "Medium" "count" response.submissions)
  hardSolved : FitsInt32 (lastOf "Hard" "count" response.submissions)
  submissions : FitsInt32 (lastOf "All" "submissions" response.submissions)
  ranking : FitsInt32 response.ranking
  first_sum : FitsInt32 (lastOf "Easy" "count" response.submissions + lastOf "Medium" "count" response.submissions)
  second_sum : FitsInt32 (totalSolved response.submissions)

section Profile

variable {parse : String → Except String Json} {L body : String} {response : Json} {s : FetchedStats}

private theorem int_of_memberOr {j : Json} {key : String} {i : Int} (h : j.memberOr key (-1) Json.getInt = .ok i) :
    i = toInt32 (if j.has key then j.intAt key else -1) := by
  rw [Json.memberOr, bind_eq_ok_iff] at h
  obtain ⟨v, hv, hi⟩ := h
  rw [Json.has_of_index hv]
  unfold Json.getOr at hi
  split at hi
  · rename_i hnull
    cases hi
    simp only [hnull]
    rfl
  · rename_i hnull
    simp only [hnull, Bool.not_false, if_true]
    exact (Json.intAt_of_index hv hi).symm

/-- Every number of the response is cut to 32 bits. -/
theorem numbers_of_readProfile (hparse : parse body = .ok response)
    (hread : readProfile parse L body = .ok (.inr s)) :
    s.profile.easySolved = toInt32 (lastOf "Easy" "count" response.submissions) ∧
      s.profile.mediumSolved = toInt32 (lastOf "Medium" "count" response.submissions) ∧
      s.profile.hardSolved = toInt32 (lastOf "Hard" "count" response.submissions) ∧
      s.totalSubmissions = toInt32 (lastOf "All" "submissions" response.submissions) ∧
      s.ranking = toInt32 response.ranking := by
  obtain ⟨response', matchedUser, v, header, l, hparse', hmatched, hv, -, hinfo, hheader, hloop, rfl⟩ :=
    readProfile_eq_ok_iff.1 hread
  cases hparse.symm.trans hparse'
  have hlist : response.submissions = v.elements := by
    rw [Json.submissions, path_submissionPath hmatched hv]
    rfl
  obtain ⟨heasy, hmedium, hhard, htotal⟩ := counts_of_foldlM hloop
  rw [hlist]
  refine ⟨heasy, hmedium, hhard, htotal, ?_⟩
  unfold readHeader at hheader
  simp only [bind_eq_ok_iff, ite_bind_eq_ok_iff, pure_eq_ok_iff] at hheader
  obtain ⟨name, -, info, hindex, ranking, hranking, avatar, -, realName, -, country, -, tags, -, skills, -, rfl⟩ :=
    hheader
  have hinfo' : info ≠ .null := by
    rintro rfl
    rw [Json.has_of_index hindex] at hinfo
    cases hinfo
  have hpath : response.path ["data", "matchedUser", "profileInfo"] = some info := by
    show response.path (["data", "matchedUser"] ++ ["profileInfo"]) = some info
    rw [Json.path_append, hmatched]
    simp [Json.path, Json.member_of_index hindex hinfo']
  rw [Json.ranking, hpath]
  exact int_of_memberOr hranking

private theorem profileNumbersKept_iff (hparse : parse body = .ok response)
    (hread : readProfile parse L body = .ok (.inr s)) :
    ProfileNumbersKept response s.userProfile ↔ ProfileNumbersFit response := by
  obtain ⟨heasy, hmedium, hhard, hsubmissions, hranking⟩ := numbers_of_readProfile hparse hread
  constructor
  · intro h
    have hfits : ∀ {i j : Int}, i = toInt32 j → i = j → FitsInt32 j :=
      fun hcut hkept => toInt32_eq_self_iff.1 (hcut.symm.trans hkept)
    refine ⟨hfits heasy h.easySolved, hfits hmedium h.mediumSolved, hfits hhard h.hardSolved,
      hfits hsubmissions h.submissions, hfits hranking h.ranking, ?_, ?_⟩
    · rw [← h.easySolved, ← h.mediumSolved]
      exact h.first_sum
    · rw [totalSolved, ← h.easySolved, ← h.mediumSolved, ← h.hardSolved]
      exact h.second_sum
  · intro h
    have heasy' : s.userProfile.easySolved = _ := heasy.trans (toInt32_eq_self_iff.2 h.easySolved)
    have hmedium' : s.userProfile.mediumSolved = _ := hmedium.trans (toInt32_eq_self_iff.2 h.mediumSolved)
    have hhard' : s.userProfile.hardSolved = _ := hhard.trans (toInt32_eq_self_iff.2 h.hardSolved)
    have hsum : s.userProfile.easySolved + s.userProfile.mediumSolved + s.userProfile.hardSolved =
        totalSolved response.submissions := by
      rw [heasy', hmedium', hhard', totalSolved]
    refine ⟨heasy', hmedium', hhard', hsubmissions.trans (toInt32_eq_self_iff.2 h.submissions),
      hranking.trans (toInt32_eq_self_iff.2 h.ranking), ?_, ?_, hsum ▸ h.second_sum⟩
    · show toInt32 (s.userProfile.easySolved + s.userProfile.mediumSolved + s.userProfile.hardSolved) = _
      rw [hsum]
      exact toInt32_eq_self_iff.2 h.second_sum
    · rw [heasy', hmedium']
      exact h.first_sum

end Profile

/-! ### Solutions -/

/-- The integer at a path. -/
def Json.intAtPath (j : Json) (keys : List String) : Int := ((j.path keys).map Json.intValue).getD 0

/-- The elements of a response that have a post. -/
def Json.posts (response : Json) : List Json :=
  (((response.path solutionsPath).map Json.elements).getD []).filter fun sol => sol.has "post"

/-- The integers of a stored solution are those of the element it was read from. -/
structure SolutionNumbersKept (sol : Json) (solution : Solution) : Prop where
  id : solution.id = sol.intAtPath ["post", "id"]
  voteCount : solution.voteCount = sol.intAtPath ["post", "voteCount"]
  creationDate : solution.creationDate = sol.intAtPath ["post", "creationDate"]

/-- The integers of an element are values of an `int`. -/
structure SolutionNumbersFit (sol : Json) : Prop where
  id : FitsInt32 (sol.intAtPath ["post", "id"])
  voteCount : FitsInt32 (sol.intAtPath ["post", "voteCount"])
  creationDate : FitsInt32 (sol.intAtPath ["post", "creationDate"])

section Solutions

variable {parse : String → Except String Json} {languageSlug body : String} {response sol : Json}
  {solution : Solution} {solutions : List Solution}

private theorem solutionNumbersKept_iff (h : sol.solution languageSlug = some solution) :
    SolutionNumbersKept sol solution ↔ SolutionNumbersFit sol := by
  rw [Json.solution, Option.bind_eq_some_iff] at h
  obtain ⟨post, hpost, h⟩ := h
  have hint : ∀ key, sol.intAtPath ["post", key] = post.intAt key := by
    intro key
    rw [Json.intAtPath, Json.path_cons, hpost, Option.bind_some, Json.path_cons]
    cases hmember : post.member key <;> simp [Json.path, Json.intAt, hmember]
  by_cases hnull : post.isNull
  · simp [hnull] at h
  · simp only [hnull, Bool.false_eq_true, if_false, Option.some.injEq] at h
    subst h
    have hcut : ∀ key, toInt32 (post.intAt key) = sol.intAtPath ["post", key] ↔
        FitsInt32 (sol.intAtPath ["post", key]) := by
      intro key
      rw [hint, toInt32_eq_self_iff]
    constructor
    · rintro ⟨hid, hvote, hdate⟩
      exact ⟨(hcut _).1 hid, (hcut _).1 hvote, (hcut _).1 hdate⟩
    · rintro ⟨hid, hvote, hdate⟩
      exact ⟨(hcut _).2 hid, (hcut _).2 hvote, (hcut _).2 hdate⟩

/-- A response with solutions has kept the numbers of exactly those posts whose numbers are not too large. -/
private theorem solutionsKept_iff (hparse : parse body = .ok response)
    (hread : readSolutions parse languageSlug body = .ok (.inr solutions)) :
    List.Forall₂ SolutionNumbersKept response.posts solutions ↔ ∀ sol ∈ response.posts, SolutionNumbersFit sol := by
  obtain ⟨response', v, hparse', hpath, -, -, rfl⟩ := readSolutions_eq_ok_iff.1 hread
  cases hparse.symm.trans hparse'
  have hposts : response.posts = v.elements.filter fun sol => sol.has "post" := by
    rw [Json.posts, hpath]
    rfl
  rw [hposts, forall₂_filter_filterMap_iff fun sol => (@solution_isSome languageSlug sol).symm]
  simp only [List.mem_filter, and_imp]
  refine forall₂_congr fun sol hmem => ?_
  constructor
  · intro h hpost
    rw [← @solution_isSome languageSlug sol, Option.isSome_iff_exists] at hpost
    obtain ⟨solution, hsolution⟩ := hpost
    exact (solutionNumbersKept_iff hsolution).1 (h solution hsolution)
  · intro h solution hsolution
    have hpost : sol.has "post" := by
      rw [← @solution_isSome languageSlug sol, hsolution]
      rfl
    exact (solutionNumbersKept_iff hsolution).2 (h hpost)

end Solutions

/-! ### Both -/

/-- What is passed to `updateProfile`, and what is stored of the solutions, has the numbers of the response exactly
when these, and the sums of the solved counts, are values of an `int`. -/
theorem numbers_kept_iff (parse : String → Except String Json) :
    (∀ L body response s, parse body = .ok response → readProfile parse L body = .ok (.inr s) →
        (ProfileNumbersKept response s.userProfile ↔ ProfileNumbersFit response)) ∧
      ∀ languageSlug body response solutions, parse body = .ok response →
        readSolutions parse languageSlug body = .ok (.inr solutions) →
        (List.Forall₂ SolutionNumbersKept response.posts solutions ↔
          ∀ sol ∈ response.posts, SolutionNumbersFit sol) :=
  ⟨fun _ _ _ _ hparse hread => profileNumbersKept_iff hparse hread,
    fun _ _ _ _ hparse hread => solutionsKept_iff hparse hread⟩

/-- A response with one solution, created at the given time. -/
def datedParse (creationDate : Int) (_ : String) : Except String Json :=
  .ok (.object [("data", .object [("questionSolutions", .object [("solutions", .array [
    .object [("title", .string "A solution"), ("post", .object [("id", .number 1), ("status", .null),
      ("creationDate", .number creationDate), ("voteCount", .number 3), ("content", .string "x")])]])])])])

/-- Small numbers are kept by both. -/
theorem numbers_kept_small :
    (∃ response s, statsParse "" = .ok response ∧ readProfile statsParse "a" "" = .ok (.inr s) ∧
        ProfileNumbersKept response s.userProfile) ∧
      ∃ response solutions, datedParse 5 "" = .ok response ∧
        readSolutions (datedParse 5) "cpp" "" = .ok (.inr solutions) ∧
        List.Forall₂ SolutionNumbersKept response.posts solutions := by
  constructor
  · obtain ⟨s, hread⟩ : ∃ s, readProfile statsParse "a" "" = .ok (.inr s) := ⟨_, rfl⟩
    refine ⟨_, s, rfl, hread, ((numbers_kept_iff statsParse).1 "a" "" _ s rfl hread).2 ?_⟩
    constructor <;> decide
  · obtain ⟨solutions, hread⟩ : ∃ solutions, readSolutions (datedParse 5) "cpp" "" = .ok (.inr solutions) := ⟨_, rfl⟩
    refine ⟨_, solutions, rfl, hread, ((numbers_kept_iff (datedParse 5)).2 "cpp" "" _ solutions rfl hread).2 ?_⟩
    intro sol hsol
    rw [List.mem_singleton.1 hsol]
    constructor <;> decide

/-- A solution that is created in 2038 is stored with a time before 1970. -/
theorem creationDate_not_kept :
    ∃ response solutions, datedParse 2147483648 "" = .ok response ∧
      readSolutions (datedParse 2147483648) "cpp" "" = .ok (.inr solutions) ∧
      solutions.map Solution.creationDate = [-2147483648] ∧
      ¬ List.Forall₂ SolutionNumbersKept response.posts solutions := by
  obtain ⟨solutions, hread, hdate⟩ : ∃ solutions,
      readSolutions (datedParse 2147483648) "cpp" "" = .ok (.inr solutions) ∧
        solutions.map Solution.creationDate = [-2147483648] := ⟨_, rfl, rfl⟩
  refine ⟨_, solutions, rfl, hread, hdate, fun hkept => ?_⟩
  have hfit := (solutionsKept_iff rfl hread).1 hkept _ (List.mem_singleton_self _)
  exact absurd hfit.creationDate (by decide)

end LeetBot
