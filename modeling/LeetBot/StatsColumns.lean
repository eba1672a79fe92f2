import LeetBot.AccountSteps
import LeetBot.FetchCache
import LeetBot.Narrowing

/-!
# All statistics or none

`statsExist` looks at four columns and `getLeetcodeProfile` reads ten.  In every run a row has either all of them, and
then the total is the sum of the solved counts, or none: a registration leaves them all NULL, and an update sets them
all.
-/

namespace LeetBot

open Interleave

/-! ### Rows -/

/-- The text columns that an update sets and a registration does not. -/
def statsTexts : List StrColumn := [.realName, .countryName, .skillTags, .avatarUrl]

namespace Row

/-- What `statsExist` tests. -/
def HasCounts (r : Row) : Prop :=
  r.isNull .easySolved = false ∧ r.isNull .mediumSolved = false ∧ r.isNull .hardSolved = false ∧
    r.isNull .totalSolved = false

/-- Every column of the statistics has a value, and the total is the sum of the solved counts. -/
structure Filled (r : Row) : Prop where
  ints : ∀ c, (r.int c).isSome
  texts : ∀ c ∈ statsTexts, (r.str c).isSome
  total : r.getInt .totalSolved = r.getInt .easySolved + r.getInt .mediumSolved + r.getInt .hardSolved

/-- Every column of the statistics is NULL. -/
structure Blank (r : Row) : Prop where
  ints : ∀ c, r.int c = none
  texts : ∀ c ∈ statsTexts, r.str c = none

variable {r : Row}

private theorem Filled.hasCounts (h : r.Filled) : r.HasCounts := by
  have hnull : ∀ c, r.isNull c = false := fun c => by simp [isNull, h.ints c]
  exact ⟨hnull _, hnull _, hnull _, hnull _⟩

private theorem Blank.not_hasCounts (h : r.Blank) : ¬ r.HasCounts := by
  rintro ⟨heasy, -⟩
  simp [isNull, h.ints] at heasy

end Row

private theorem blank_insertedRow (discordId discordUser leetcodeUser : String) :
    (LeetoDB.insertedRow discordId discordUser leetcodeUser).Blank := by
  refine ⟨fun _ => rfl, ?_⟩
  simp only [statsTexts, List.forall_mem_cons]
  exact ⟨rfl, rfl, rfl, rfl, fun c hc => absurd hc List.not_mem_nil⟩

private theorem filled_storedRow {s : FetchedStats} {L n d : String} {r : Row}
    (hsum : FitsInt32 (s.profile.easySolved + s.profile.mediumSolved + s.profile.hardSolved)) :
    (s.storedRow L n d r).Filled := by
  refine ⟨fun c => ?_, ?_, ?_⟩
  · cases c <;> rfl
  · simp only [statsTexts, List.forall_mem_cons]
    exact ⟨rfl, rfl, rfl, rfl, fun c hc => absurd hc List.not_mem_nil⟩
  · exact toInt32_eq_self_iff.2 hsum

/-! ### Runs -/

/-- The solved counts of a response and their sum are values of an `int`. -/
structure CountsFit (response : Json) : Prop where
  easySolved : FitsInt32 (lastOf "Easy" "count" response.submissions)
  mediumSolved : FitsInt32 (lastOf "Medium" "count" response.submissions)
  hardSolved : FitsInt32 (lastOf "Hard" "count" response.submissions)
  total : FitsInt32 (totalSolved response.submissions)

instance (response : Json) : Decidable (CountsFit response) :=
  decidable_of_iff (FitsInt32 (lastOf "Easy" "count" response.submissions) ∧
      FitsInt32 (lastOf "Medium" "count" response.submissions) ∧
      FitsInt32 (lastOf "Hard" "count" response.submissions) ∧ FitsInt32 (totalSolved response.submissions))
    ⟨fun ⟨h1, h2, h3, h4⟩ => ⟨h1, h2, h3, h4⟩, fun ⟨h1, h2, h3, h4⟩ => ⟨h1, h2, h3, h4⟩⟩

/-- When a profile request completes, the counts of the response fit. -/
def EventFits (parse : String → Except String Json) : AccountEvent → Prop
  | .completion _ (.profile _ _ _ _) cc => ∀ response ∈ (parse cc.body).toOption, CountsFit response
  | _ => True

/-- The condition on a run: the counts of every completed profile request fit. -/
def CompletionsFit (parse : String → Except String Json) (_ : AccountWorld) : Label Choice AccountEvent → Prop
  | .event e => EventFits parse e
  | .run _ _ => True

instance (parse : String → Except String Json) : ∀ e, Decidable (EventFits parse e)
  | .slashcommand _ => inferInstanceAs (Decidable True)
  | .completion _ (.profile _ _ _ _) cc =>
      inferInstanceAs (Decidable (∀ response ∈ (parse cc.body).toOption, CountsFit response))
  | .completion _ (.description _ _ _) _ => inferInstanceAs (Decidable True)
  | .completion _ (.dailyQuestion _ _) _ => inferInstanceAs (Decidable True)
  | .completion _ (.activity _ _) _ => inferInstanceAs (Decidable True)
  | .usernameChange _ _ => inferInstanceAs (Decidable True)

instance (parse : String → Except String Json) (w : AccountWorld) : ∀ l, Decidable (CompletionsFit parse w l)
  | .event e => inferInstanceAs (Decidable (EventFits parse e))
  | .run _ _ => inferInstanceAs (Decidable True)

section Runs

variable {parse : String → Except String Json} {db : LeetoDB} {w w' : AccountWorld} {l : Label Choice AccountEvent}

private theorem filled_of_updating (hw : Reachable parse db (CompletionsFit parse) w) {i : Nat} {L name d : String}
    {st : FetchedStats} (h : Updating w i L name d st) (r : Row) : (st.storedRow L name d r).Filled := by
  obtain ⟨j, n, cc, s, harrived, hread, hparams⟩ := read_of_updating hw h
  have hfits : EventFits parse (.completion j (.profile L name d n) cc) := hw.forall_arrived (fun _ _ h => h) harrived
  obtain ⟨response, -, -, -, -, hparse, -⟩ := readProfile_eq_ok_iff.1 hread
  obtain ⟨heasy, hmedium, hhard, htotal⟩ := hfits response (by simp [hparse, Except.toOption])
  obtain ⟨heasy', hmedium', hhard', -⟩ := numbers_of_readProfile hparse hread
  have hstored : st.storedRow L name d r = s.storedRow L name d r := by
    rw [FetchedStats.storedRow, FetchedStats.storedRow, hparams]
  rw [hstored]
  refine filled_storedRow ?_
  rw [heasy', hmedium', hhard', toInt32_eq_self_iff.2 heasy, toInt32_eq_self_iff.2 hmedium,
    toInt32_eq_self_iff.2 hhard]
  exact htotal

private theorem filled_or_blank_step (hw : Reachable parse db (CompletionsFit parse) w)
    (hrows : ∀ r ∈ w.shared.users, r.Filled ∨ r.Blank) (hs : (accounts parse db).step w l = some w') :
    ∀ r ∈ w'.shared.users, r.Filled ∨ r.Blank := by
  intro r hr
  rcases users_step hw hs with hsame | ⟨i, x, event, L, u, -, -, hnew⟩ | ⟨i, L, name, d, st, hupdating, hnew⟩
  · exact hrows r (hsame ▸ hr)
  · rw [hnew] at hr
    rcases List.mem_append.1 hr with hr | hr
    · exact hrows r hr
    · rw [List.mem_singleton.1 hr]
      exact .inr (blank_insertedRow _ _ _)
  · rw [hnew] at hr
    rcases Stmt.mem_updateWhere.1 hr with ⟨hr, -⟩ | ⟨r₀, -, -, rfl⟩
    · exact hrows r hr
    · exact .inl (filled_of_updating hw hupdating r₀)

/-- In every run, a row with the four counts has all columns of the statistics, and the total is the sum of the
solved counts; the other rows have none of them. -/
theorem all_stats_or_none (hw : Reachable parse db (CompletionsFit parse) w) :
    ∀ r ∈ w.shared.users, (r.HasCounts → r.Filled) ∧ (¬ r.HasCounts → r.Blank) := by
  have hrows : ∀ r ∈ w.shared.users, r.Filled ∨ r.Blank := by
    induction hw with
    | refl => exact fun r hr => absurd hr List.not_mem_nil
    | step hw _ hs ih => exact filled_or_blank_step hw ih hs
  intro r hr
  rcases hrows r hr with h | h
  · exact ⟨fun _ => h, fun hnone => absurd h.hasCounts hnone⟩
  · exact ⟨fun hall => absurd hall h.not_hasCounts, fun _ => h⟩

end Runs

/-- A run in which a user registers and updates the profile. -/
theorem all_stats_or_none_registered :
    ∃ w, Reachable sampleParse ⟨true⟩ (CompletionsFit sampleParse) w ∧
      (∃ r ∈ w.shared.users, r.int .ranking = some 7) ∧
      ∀ r ∈ w.shared.users, (r.HasCounts → r.Filled) ∧ (¬ r.HasCounts → r.Blank) := by
  have hrun : ((accounts sampleParse ⟨true⟩).run (CompletionsFit sampleParse) AccountWorld.initial
      registerAndUpdate).any (fun w => w.shared.users.any fun r => decide (r.int .ranking = some 7)) = true := by
    decide +kernel
  obtain ⟨w, hw, hstored⟩ := System.Reach.exists_of_run hrun
  exact ⟨w, hw, by simpa using hstored, all_stats_or_none hw⟩

end LeetBot
