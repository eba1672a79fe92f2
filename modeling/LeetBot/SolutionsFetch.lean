import LeetBot.Handlers
import LeetBot.JsonPaths
import LeetBot.Loops

/-!
# A fetch of solutions

The loop over the elements of `solutions` may throw at any of them.  Nothing is stored before it has ended, so a
completion either leaves the pages alone or stores all solutions of the response.
-/

namespace LeetBot

open Loops

/-! ### Elements -/

/-- The solution in an element that has a post. -/
def Json.solution (languageSlug : String) (sol : Json) : Option Solution :=
  (sol.member "post").bind fun post =>
    if post.isNull then none
    else some {
      title := sol.textAt "title"
      content := removeNewLines (post.textAt "content") languageSlug
      status := post.textAt "status"
      voteCount := toInt32 (post.intAt "voteCount")
      id := toInt32 (post.intAt "id")
      creationDate := toInt32 (post.intAt "creationDate") }

/-- The loop does not throw at the element. -/
def Json.ReadableSolution (languageSlug : String) (sol : Json) : Prop := ∃ r, readSolution languageSlug sol = .ok r

section Step

variable {j v : Json} {key languageSlug : String} {sol : Json} {sols sols' : List Solution}

private theorem Json.member_of_constIndex (h : j.constIndex key = .ok v) : j.member key = some v := by
  cases j with
  | object m =>
    simp only [constIndex] at h
    split at h
    · rename_i w hw
      rw [Json.member, hw, Except.ok.inj h]
    · cases h
  | _ => cases h

private theorem Json.textAt_of_constIndex {s : String} (h : j.constIndex key = .ok v)
    (hs : v.getOr "" getString = .ok s) :
    j.textAt key = s := by
  rw [textAt, member_of_constIndex h, Option.bind_some]
  unfold getOr at hs
  split at hs
  · rename_i hnull
    rw [isNull_iff.1 hnull]
    exact Except.ok.inj hs
  · rw [text_of_getString hs]
    rfl

private theorem Json.intAt_of_constIndex {i : Int} (h : j.constIndex key = .ok v) (hi : v.getInt = .ok i) :
    toInt32 (j.intAt key) = i := by
  rw [intAt, member_of_constIndex h, intValue_of_getInt hi]
  rfl

private theorem solution_of_readSolution {r : Option Solution} (h : readSolution languageSlug sol = .ok r) :
    r = sol.solution languageSlug := by
  unfold readSolution at h
  simp only [bind_eq_ok_iff] at h
  obtain ⟨t, ht, title, htitle, post, hpost, h⟩ := h
  rw [Json.solution, Json.member_of_constIndex hpost, Option.bind_some]
  by_cases hnull : post.isNull
  · simp only [hnull, if_true, pure_eq_ok_iff] at h ⊢
    exact h.symm
  · simp only [hnull, Bool.false_eq_true, if_false, bind_eq_ok_iff, pure_eq_ok_iff] at h ⊢
    obtain ⟨i, hi, id, hid, st, hst, status, hstatus, c, hc, creationDate, hdate, vc, hvc, voteCount, hvote, ct, hct,
      content, hcontent, rfl⟩ := h
    rw [Json.textAt_of_constIndex ht htitle, Json.textAt_of_constIndex hct hcontent,
      Json.textAt_of_constIndex hst hstatus, Json.intAt_of_constIndex hvc hvote, Json.intAt_of_constIndex hi hid,
      Json.intAt_of_constIndex hc hdate]

/-- The solutions of the response are those of the elements with a post. -/
theorem solution_isSome : (sol.solution languageSlug).isSome = sol.has "post" := by
  unfold Json.solution Json.has
  cases sol.member "post" with
  | none => rfl
  | some post => cases post <;> rfl

private theorem solutionStep_eq_ok_iff : solutionStep languageSlug sols sol = .ok sols' ↔
    sol.ReadableSolution languageSlug ∧ sols' = sols ++ (sol.solution languageSlug).toList := by
  unfold solutionStep
  rw [bind_eq_ok_iff]
  constructor
  · rintro ⟨r, hr, h⟩
    refine ⟨⟨r, hr⟩, ?_⟩
    rw [← solution_of_readSolution hr]
    cases r with
    | none => rw [← pure_eq_ok_iff.1 h, Option.toList_none, List.append_nil]
    | some solution => exact (pure_eq_ok_iff.1 h).symm
  · rintro ⟨⟨r, hr⟩, rfl⟩
    refine ⟨r, hr, ?_⟩
    rw [← solution_of_readSolution hr]
    cases r <;> simp [pure_eq_ok_iff]

end Step

/-! ### The response -/

/-- Where a response has the list of solutions. -/
def solutionsPath : List String := ["data", "questionSolutions", "solutions"]

section Response

variable {parse : String → Except String Json} {languageSlug body : String} {solutions : List Solution}

/-- A response with solutions, and what the loop makes of them. -/
theorem readSolutions_eq_ok_iff : readSolutions parse languageSlug body = .ok (.inr solutions) ↔
    ∃ response v, parse body = .ok response ∧ response.path solutionsPath = some v ∧ v.empty = false ∧
      (∀ sol ∈ v.elements, sol.ReadableSolution languageSlug) ∧
      solutions = v.elements.filterMap (Json.solution languageSlug) := by
  have hloop : ∀ v : Json, v.elements.foldlM (solutionStep languageSlug) [] = .ok solutions ↔
      (∀ sol ∈ v.elements, sol.ReadableSolution languageSlug) ∧
        solutions = v.elements.filterMap (Json.solution languageSlug) := by
    intro v
    rw [foldlM_eq_ok_iff fun sols sol sols' => @solutionStep_eq_ok_iff languageSlug sol sols sols',
      foldl_append_toList, List.nil_append]
  unfold readSolutions
  simp only [bind_eq_ok_iff, ite_inl_eq_ok_iff, pure_eq_ok_iff, Sum.inr.injEq, exists_eq_right, hloop,
    Bool.not_eq_true]
  constructor
  · rintro ⟨response, hparse, data, hdata, hnull, questionSolutions, hquestion, v, hv, hnull', hempty, h⟩
    have hv' : v ≠ .null := by
      rintro rfl
      cases hnull'
    have hmember := Json.member_of_index hv hv'
    have hquestion' : questionSolutions ≠ .null := by
      rintro rfl
      cases hmember
    have hmember' := Json.member_of_index hquestion hquestion'
    have hdata' : data ≠ .null := by
      rintro rfl
      cases hnull
    refine ⟨response, v, hparse, ?_, hempty, h⟩
    simp [solutionsPath, Json.path, Json.member_of_index hdata hdata', hmember', hmember]
  · rintro ⟨response, v, hparse, hpath, hempty, h⟩
    simp only [solutionsPath, Json.path, Option.bind_eq_some_iff, Option.some.injEq, exists_eq_right] at hpath
    obtain ⟨data, hdata, questionSolutions, hquestion, hv⟩ := hpath
    refine ⟨response, hparse, data, Json.index_of_member hdata, ?_, questionSolutions,
      Json.index_of_member hquestion, v, Json.index_of_member hv, ?_, hempty, h⟩
    · cases data <;> first | rfl | cases hquestion
    · cases v <;> first | rfl | cases hempty

end Response

/-! ### The pages -/

private theorem pages_onCompletion (parse : String → Except String Json) (s : Interactive) (userId : Snowflake)
    (titleSlug languageSlug : String) (retryCount : Nat) (cc : HttpCompletion) :
    (onCompletion parse s userId (.solution titleSlug languageSlug retryCount) cc).1.pages = s.pages ∨
      ∃ response v, cc.status = 200 ∧ parse cc.body = .ok response ∧ response.path solutionsPath = some v ∧
        (onCompletion parse s userId (.solution titleSlug languageSlug retryCount) cc).1.pages =
          s.pages.store userId (v.elements.filterMap (Json.solution languageSlug)) := by
  rcases onCompletion_solution_cases parse userId titleSlug languageSlug retryCount cc with
    ⟨-, hstep⟩ | ⟨-, m, -, hstep⟩ | ⟨solutions, hok, hread, hstep⟩
  · rw [hstep]
    exact .inl rfl
  · rw [hstep]
    exact .inl rfl
  · obtain ⟨response, v, hparse, hpath, -, -, rfl⟩ := readSolutions_eq_ok_iff.1 hread
    rw [hstep]
    exact .inr ⟨response, v, hok, hparse, hpath, rfl⟩

/-- A completion leaves both maps as they are, or it sets the entries of its user to the solutions of the response, in
order, and to the first page.  The entries of the others stay in either case. -/
theorem pages_kept_or_stored (parse : String → Except String Json) (s : Interactive) (userId : Snowflake)
    (titleSlug languageSlug : String) (retryCount : Nat) (cc : HttpCompletion) :
    ∃ pages, (onCompletion parse s userId (.solution titleSlug languageSlug retryCount) cc).1.pages = pages ∧
      (pages = s.pages ∨ ∃ response v, cc.status = 200 ∧ parse cc.body = .ok response ∧
        response.path solutionsPath = some v ∧
        pages.userSolutionPages userId = some (v.elements.filterMap (Json.solution languageSlug)) ∧
        pages.solutionCurrentPage userId = some 0) ∧
      ∀ other, other ≠ userId → pages.userSolutionPages other = s.pages.userSolutionPages other ∧
        pages.solutionCurrentPage other = s.pages.solutionCurrentPage other := by
  refine ⟨_, rfl, ?_⟩
  rcases pages_onCompletion parse s userId titleSlug languageSlug retryCount cc with h |
    ⟨response, v, hok, hparse, hpath, h⟩
  · rw [h]
    exact ⟨.inl rfl, fun _ _ => ⟨rfl, rfl⟩⟩
  · rw [h]
    refine ⟨.inr ⟨response, v, hok, hparse, hpath, Function.update_self .., Function.update_self ..⟩, ?_⟩
    intro other hother
    exact ⟨Function.update_of_ne hother .., Function.update_of_ne hother ..⟩

end LeetBot
