import LeetBot.AccountSteps
import LeetBot.Answers

/-!
# A fetched profile and the table

`updateProfile` binds thirteen values by position, and four methods read them back by column.  What they read is what
was fetched.
-/

namespace LeetBot

open Interleave

variable {parse : String → Except String Json} {db : LeetoDB} {a a' : Accounts} {L n d : String} {s : FetchedStats}

/-- Every field of a profile is read from the column it was stored in. -/
theorem rowProfile_storedRow (r : Row) : LeetoDB.rowProfile (s.storedRow L n d r) = s.userProfile := rfl

private theorem isNull_storedRow (r : Row) (c : IntColumn) : (s.storedRow L n d r).isNull c = false := by
  cases c <;> rfl

private theorem stored_of_true {xs : Nat → Choice} {t : Trace Op Op.Res}
    (h : (accounts parse db).alone xs (storeProfile db L n d s) a = some (true, t, a')) :
    db.connected ∧ a' = { a with users := Stmt.updateWhere a.users .discordId d (s.storedRow L n d) } := by
  unfold storeProfile LeetoDB.updateProfile at h
  by_cases hdb : db.connected
  · simp only [hdb, Bool.not_true, Bool.false_eq_true, if_false, selectWhere_bind] at h
    refine ⟨hdb, ?_⟩
    obtain ⟨(rows : Except SqlException (List Row)), a₁, t₁, hselect, hrest, -⟩ := System.alone_call_eq_some h
    rcases rows with _ | _ | ⟨row, rest⟩
    · cases hrest
    · cases hrest
    · obtain ⟨-, rfl⟩ := exec_select hselect
      simp only [updateWhere_bind] at hrest
      obtain ⟨(done : Except SqlException Unit), a₂, t₂, hupdate, hend, -⟩ := System.alone_call_eq_some hrest
      rcases done with _ | _
      · cases hend
      · cases hend
        exact exec_update hupdate
  · simp only [hdb, Bool.not_false, if_true] at h
    cases h

private theorem rowsWhere_name_of_stored {users : List Row}
    (hother : ∀ row ∈ users, row.str .discordUsername = some n → row.str .discordId = some d) :
    Stmt.rowsWhere (Stmt.updateWhere users .discordId d (s.storedRow L n d)) .discordUsername n =
      Stmt.rowsWhere (Stmt.updateWhere users .discordId d (s.storedRow L n d)) .discordId d := by
  refine List.filter_congr fun r hr => ?_
  rcases Stmt.mem_updateWhere.1 hr with ⟨hr, hne⟩ | ⟨r₀, -, hid, rfl⟩
  · have hname : r.str .discordUsername ≠ some n := fun h => hne (hother r hr h)
    simp [hname, hne]
  · simp [hid]

/-- When a fetched profile has been stored for a user with one row, under a name that no other row has, all four
methods read what was fetched, and the rows of the others are as before. -/
theorem read_of_stored {xs : Nat → Choice} {t : Trace Op Op.Res}
    (hone : (Stmt.rowsWhere a.users .discordId d).length = 1)
    (hother : ∀ row ∈ a.users, row.str .discordUsername = some n → row.str .discordId = some d)
    (hstore : (accounts parse db).alone xs (storeProfile db L n d s) a = some (true, t, a')) :
    answer parse db (db.getLeetcodeProfile n) a' = some (some s.userProfile) ∧
      answer parse db (db.getLeetcodeUsername d) a' = some (some L) ∧
      answer parse db (db.getLeetcodeAvatar d) a' = some (some s.userProfile.avatarUrl) ∧
      answer parse db (db.statsExist n) a' = some true ∧
      a'.users.length = a.users.length ∧
      ∀ (k : Nat) (row : Row), a.users[k]? = some row → row.str .discordId ≠ some d → a'.users[k]? = some row := by
  obtain ⟨hdb, rfl⟩ := stored_of_true hstore
  obtain ⟨row, hrow⟩ := List.length_eq_one_iff.1 hone
  have hid : row.str .discordId = some d := (Stmt.mem_rowsWhere.1 (hrow ▸ List.mem_singleton_self row)).2
  -- the only row that the readers find, by either key
  have hown : Stmt.rowsWhere (Stmt.updateWhere a.users .discordId d (s.storedRow L n d)) .discordId d =
      [s.storedRow L n d row] := by
    rw [Stmt.rowsWhere_updateWhere (f := s.storedRow L n d) fun r => rfl, hrow]
    simp [Stmt.updateWhere, hid]
  have hname : Stmt.rowsWhere (Stmt.updateWhere a.users .discordId d (s.storedRow L n d)) .discordUsername n =
      [s.storedRow L n d row] := by
    rw [rowsWhere_name_of_stored hother, hown]
  refine ⟨?_, ?_, ?_, ?_, Stmt.length_updateWhere, fun k r hr hne => ?_⟩
  · rw [answer, undisturbed_getLeetcodeProfile hdb, hname]
    simp [rowProfile_storedRow]
  · rw [answer, undisturbed_getLeetcodeUsername hdb, hown]
    simp [Row.getString]
  · rw [answer, undisturbed_getLeetcodeAvatar hdb, hown]
    rfl
  · rw [answer, undisturbed_statsExist hdb, hname]
    simp [isNull_storedRow]
  · simp [Stmt.updateWhere, hr, hne]

/-- Statistics that a response can carry. -/
def annStats : FetchedStats where
  totalSubmissions := 9
  ranking := 7
  userAvatar := "https://assets/ann.png"
  realName := "Ann"
  countryName := "Norway"
  skillStats := "None"
  profile := { easySolved := 3, mediumSolved := 2, hardSolved := 1 }
  embed := {}

/-- The profile of a user, next to a row of somebody else. -/
theorem read_of_stored_ann :
    ∃ t a', (accounts sampleParse ⟨true⟩).alone (fun _ => .ok) (storeProfile ⟨true⟩ "a" "ann" "1" annStats)
        ⟨[LeetoDB.insertedRow "2" "eve" "e", LeetoDB.insertedRow "1" "ann" "a"], [], [], []⟩ = some (true, t, a') ∧
      answer sampleParse ⟨true⟩ (LeetoDB.getLeetcodeProfile ⟨true⟩ "ann") a' = some (some annStats.userProfile) ∧
      annStats.userProfile.totalSolved = 6 ∧ a'.users[0]? = some (LeetoDB.insertedRow "2" "eve" "e") := by
  have hone : (Stmt.rowsWhere [LeetoDB.insertedRow "2" "eve" "e", LeetoDB.insertedRow "1" "ann" "a"]
      .discordId "1").length = 1 := by decide
  have hother : ∀ row ∈ [LeetoDB.insertedRow "2" "eve" "e", LeetoDB.insertedRow "1" "ann" "a"],
      row.str .discordUsername = some "ann" → row.str .discordId = some "1" := by decide
  obtain ⟨t, a', hstore⟩ : ∃ t a', (accounts sampleParse ⟨true⟩).alone (fun _ => .ok)
      (storeProfile ⟨true⟩ "a" "ann" "1" annStats)
      ⟨[LeetoDB.insertedRow "2" "eve" "e", LeetoDB.insertedRow "1" "ann" "a"], [], [], []⟩ =
        some (true, t, a') := ⟨_, _, rfl⟩
  obtain ⟨hprofile, -, -, -, -, hsame⟩ := read_of_stored hone hother hstore
  exact ⟨t, a', hstore, hprofile, by decide, hsame 0 _ rfl (by decide)⟩

end LeetBot
