import LeetBot.QuestionAPI

/-!
# Retries

A completion lambda that meets a rate limit issues its request again.  `retry n cc` is the `retry_count` of the
request that a lambda issues for the completion `cc`, if it issues one, where its own request had the count `n`.
-/

namespace LeetBot

section Requests

variable (retry : Nat → HttpCompletion → Option Nat)

/-- The number of requests that a request with the count `n` and its retries make for the given completions. -/
def requests : Nat → List HttpCompletion → Nat
  | _, [] => 1
  | n, cc :: ccs =>
      match retry n cc with
      | some m => requests m ccs + 1
      | none => 1

/-- The last of the given completions, if it is the first that is not retried. -/
def settled : Nat → List HttpCompletion → Option HttpCompletion
  | _, [] => none
  | n, cc :: ccs =>
      match retry n cc with
      | some m => settled m ccs
      | none => if ccs = [] then some cc else none

variable {retry}

private theorem requests_le_of_advances (h : ∀ n cc m, retry n cc = some m → n < 3 ∧ m = n + 1)
    (ccs : List HttpCompletion) {n : Nat} (hn : n ≤ 3) : requests retry n ccs + n ≤ 4 := by
  induction ccs generalizing n with
  | nil => simp only [requests]; omega
  | cons cc ccs ih =>
    unfold requests
    split
    · rename_i m hm
      obtain ⟨hlt, rfl⟩ := h n cc m hm
      have hle := ih (n := n + 1) (by omega)
      omega
    · omega

private theorem requests_of_stuck (h : ∀ cc, retry 0 cc = if rateLimited cc then some 0 else none)
    (ccs : List HttpCompletion) : requests retry 0 ccs = (ccs.takeWhile rateLimited).length + 1 := by
  induction ccs with
  | nil => rfl
  | cons cc ccs ih =>
    unfold requests
    rw [h]
    by_cases hcc : rateLimited cc
    · simp [hcc, ih]
    · simp [hcc]

end Requests

/-- The first four completions are all rate limits. -/
def FourLimits (ccs : List HttpCompletion) : Prop := 4 ≤ ccs.length ∧ ∀ cc ∈ ccs.take 4, rateLimited cc

private theorem le_length_takeWhile {α : Type} {p : α → Bool} {k : Nat} {l : List α} :
    k ≤ (l.takeWhile p).length ↔ k ≤ l.length ∧ ∀ x ∈ l.take k, p x := by
  induction l generalizing k with
  | nil => simp +contextual
  | cons x l ih =>
    cases k with
    | zero => simp
    | succ k =>
      by_cases hx : p x
      · simp [hx, ih]
      · simp [hx]

/-- The six functions that send a request, with what their completion lambdas capture besides the count. -/
inductive Fetcher where
  | description (username : String) (callback : Option String → Throwing Unit)
  | profile (username discordUsername discordId : String)
  | dailyQuestion
  | activity (username : String)
  | dailyQuestionSolution (userId : Snowflake) (languageSlug : String)
  | dailyQuestionDescription

namespace Fetcher

variable (parse : String → Except String Json) (db : LeetoDB)

/-- The count of the request that the completion lambda issues. -/
def retry : Fetcher → Nat → HttpCompletion → Option Nat
  | description username callback, n, cc => (fetchLeetCodeDescription parse username callback n cc).retried
  | profile username discordUsername discordId, n, cc =>
      (fetchLeetCodeProfile parse db username discordUsername discordId n cc).retried
  | dailyQuestion, n, cc => (fetchLeetCodeDailyQuestion parse n cc).retried
  | activity username, n, cc => (fetchLeetCodeActivity parse username n cc).retried
  | dailyQuestionSolution userId languageSlug, n, cc =>
      (fetchLeetCodeDailyQuestionSolution parse userId languageSlug n cc).retried
  | dailyQuestionDescription, n, cc => (fetchLeetCodeDailyQuestionDescription parse n cc).retried

/-- Whether the retry passes on the next count, and not its own. -/
def advances : Fetcher → Bool
  | description _ _ | profile _ _ _ | dailyQuestion => true
  | activity _ | dailyQuestionSolution _ _ | dailyQuestionDescription => false

variable {parse db} {f : Fetcher}

section Branch

variable {α : Type} {a b : α}

private theorem count_of_branch {handled limited : Bool} {n m : Nat}
    (h : (if handled then Reaction.handled a else if limited && decide (n < 3) then .retry (n + 1)
      else .handled b).retried = some m) : n < 3 ∧ m = n + 1 := by
  by_cases hdone : handled
  · simp [hdone, Reaction.retried] at h
  · by_cases hlim : limited && decide (n < 3)
    · simp only [hdone, hlim, Bool.false_eq_true, if_true, if_false] at h
      cases h
      exact ⟨of_decide_eq_true (Bool.and_eq_true_iff.1 hlim).2, rfl⟩
    · simp [hdone, hlim, Reaction.retried] at h

private theorem stuck_of_branch (cc : HttpCompletion) :
    (if cc.status == 200 then Reaction.handled a else if rateLimited cc && decide (0 < 3) then .retry 0
      else .handled b).retried = if rateLimited cc then some 0 else none := by
  by_cases hok : cc.status = 200
  · have hlim : rateLimited cc = false := by simp [rateLimited, hok]
    simp [hok, hlim, Reaction.retried]
  · by_cases hlim : rateLimited cc <;> simp [hok, hlim, Reaction.retried]

end Branch

private theorem retry_of_advances (hf : f.advances) {n m : Nat} {cc : HttpCompletion}
    (h : f.retry parse db n cc = some m) : n < 3 ∧ m = n + 1 := by
  cases f with
  | description username callback =>
    simp only [retry, fetchLeetCodeDescription] at h
    split at h
    · cases h
    · exact count_of_branch h
  | profile username discordUsername discordId => exact count_of_branch h
  | dailyQuestion => exact count_of_branch h
  | _ => cases hf

private theorem retry_of_not_advances (hf : ¬ f.advances) (cc : HttpCompletion) :
    f.retry parse db 0 cc = if rateLimited cc then some 0 else none := by
  cases f with
  | activity username => exact stuck_of_branch cc
  | dailyQuestionSolution userId languageSlug => exact stuck_of_branch cc
  | dailyQuestionDescription => exact stuck_of_branch cc
  | _ => simp [advances] at hf

private theorem requests_le_four_iff (ccs : List HttpCompletion) :
    requests (f.retry parse db) 0 ccs ≤ 4 ↔ f.advances ∨ ¬ FourLimits ccs := by
  by_cases hf : f.advances
  · have hretry : ∀ n cc m, f.retry parse db n cc = some m → n < 3 ∧ m = n + 1 := fun n cc m => retry_of_advances hf
    have hle := requests_le_of_advances hretry ccs (Nat.zero_le 3)
    simp only [hf, true_or, iff_true]
    omega
  · have hlen : 4 ≤ (ccs.takeWhile rateLimited).length ↔ FourLimits ccs := le_length_takeWhile
    rw [requests_of_stuck (retry_of_not_advances hf), ← hlen]
    simp only [hf, Bool.false_eq_true, false_or]
    omega

variable (parse db f)

/-- A call with the default count makes at most four requests, for every list and for every endless stream of
completions, exactly when its retries advance the count or the first four completions are not all rate limits. -/
theorem bounded_requests_iff :
    (∀ ccs, requests (f.retry parse db) 0 ccs ≤ 4 ↔ f.advances ∨ ¬ FourLimits ccs) ∧
      ∀ stream : Nat → HttpCompletion,
        (∀ n, requests (f.retry parse db) 0 ((List.range n).map stream) ≤ 4) ↔
          f.advances ∨ ∃ n < 4, ¬ rateLimited (stream n) := by
  refine ⟨requests_le_four_iff, fun stream => ?_⟩
  simp only [requests_le_four_iff]
  by_cases hf : f.advances
  · simp [hf]
  · simp only [hf, Bool.false_eq_true, false_or]
    constructor
    · intro h
      by_contra hall
      push Not at hall
      refine h 4 ⟨by simp, ?_⟩
      intro cc hcc
      obtain ⟨n, hn, rfl⟩ := List.mem_map.1 (List.mem_of_mem_take hcc)
      simpa using hall n (List.mem_range.1 hn)
    · rintro ⟨n, hn, hlim⟩ m ⟨hlen, hall⟩
      simp only [List.length_map, List.length_range] at hlen
      refine hlim (hall _ ?_)
      rw [List.mem_iff_getElem]
      exact ⟨n, by simp; omega, by simp⟩

/-- Four rate limits make an activity request go out five times. -/
theorem four_limits_exceed :
    ¬ requests ((activity "a").retry (fun _ => .error "") ⟨true⟩) 0 (List.replicate 4 ⟨429, ""⟩) ≤ 4 := by
  decide

end Fetcher

end LeetBot
