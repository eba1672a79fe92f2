import LeetBot.Directory
import LeetBot.FetchCache
import LeetBot.Refinement
import LeetBot.UniqueRegistration

/-!
# The table as a directory

What the `users` table is for: a directory of accounts, one for each Discord user, linked to a LeetCode name.  The
methods of `LeetoDB` compute the operations of such a directory, or fail without effect.  In a run in which
registrations count alone, the table is that of a directory, and what the threads do to it are the steps of one.
-/

namespace LeetBot

open Interleave

abbrev UserDirectory := Directory String String String UserProfile

/-! ### Rows and accounts -/

/-- What `updateProfile` makes of a row. -/
def profileRow (discordId discordUsername leetcodeUsername : String) (p : UserProfile) (r : Row) : Row :=
  r.assign LeetoDB.updateColumns [.str discordUsername, .int p.easySolved, .int p.mediumSolved, .int p.hardSolved,
    .str leetcodeUsername, .int p.totalSolved, .int p.ranking, .str p.realName, .str p.countryName,
    .str p.skillTags, .str p.avatarUrl, .int p.submissions, .str discordId]

/-- The row of an account. -/
def accountRow (acc : Account String String String UserProfile) : Row :=
  match acc.stats with
  | none => LeetoDB.insertedRow acc.user acc.handle acc.name
  | some p => profileRow acc.user acc.handle acc.name p (LeetoDB.insertedRow acc.user acc.handle acc.name)

/-- The table has the rows of the accounts, in their order. -/
def IsTableOf (users : List Row) (d : UserDirectory) : Prop := users = d.accounts.map accountRow

section Rows

variable {acc : Account String String String UserProfile} {users : List Row} {d : UserDirectory} {id n L : String}
  {p : UserProfile}

@[simp] theorem accountRow_discordId : (accountRow acc).str .discordId = some acc.user := by
  unfold accountRow
  split <;> rfl

@[simp] theorem accountRow_discordUsername : (accountRow acc).str .discordUsername = some acc.handle := by
  unfold accountRow
  split <;> rfl

@[simp] theorem accountRow_leetcodeUsername : (accountRow acc).str .leetcodeUsername = some acc.name := by
  unfold accountRow
  split <;> rfl

private theorem rowProfile_accountRow : LeetoDB.rowProfile (accountRow acc) = acc.stats.getD {} := by
  unfold accountRow
  split
  · rename_i h
    rw [h]
    rfl
  · rename_i p h
    rw [h]
    rfl

private theorem isNull_accountRow (c : IntColumn) : (accountRow acc).isNull c = acc.stats.isNone := by
  unfold accountRow
  split
  · rename_i h
    rw [h]
    rfl
  · rename_i p h
    rw [h]
    cases c <;> rfl

/-- An update overwrites every column but the user. -/
private theorem profileRow_congr {r r' : Row} (h : r.str .discordId = r'.str .discordId) :
    profileRow id n L p r = profileRow id n L p r' := by
  have hstr : ∀ r c, (profileRow id n L p r).str c = match c with
      | .discordId => r.str .discordId
      | .discordUsername => some n
      | .leetcodeUsername => some L
      | .realName => some p.realName
      | .countryName => some p.countryName
      | .skillTags => some p.skillTags
      | .avatarUrl => some p.avatarUrl := by
    intro r c
    cases c <;> rfl
  have hint : ∀ r c, (profileRow id n L p r).int c = match c with
      | .easySolved => some p.easySolved
      | .mediumSolved => some p.mediumSolved
      | .hardSolved => some p.hardSolved
      | .totalSolved => some p.totalSolved
      | .ranking => some p.ranking
      | .totalSubmissions => some p.submissions := by
    intro r c
    cases c <;> rfl
  apply Row.ext
  · funext c
    rw [hstr, hstr, h]
  · funext c
    rw [hint, hint]

private theorem profileRow_accountRow :
    profileRow acc.user n L p (accountRow acc) = accountRow ⟨acc.user, L, n, some p⟩ := by
  show _ = profileRow acc.user n L p (LeetoDB.insertedRow acc.user n L)
  apply profileRow_congr
  rw [accountRow_discordId, LeetoDB.insertedRow_discordId]

theorem IsTableOf.rowsWhere_discordId (h : IsTableOf users d) :
    Stmt.rowsWhere users .discordId id = (d.lookup id).toList.map accountRow := by
  rw [← Directory.filter_user, Stmt.rowsWhere, h, List.filter_map]
  congr 1
  apply List.filter_congr
  intro acc _
  simp

private theorem IsTableOf.rowsWhere_discordUsername (h : IsTableOf users d) :
    Stmt.rowsWhere users .discordUsername n = (d.accounts.filter fun acc => acc.handle = n).map accountRow := by
  rw [Stmt.rowsWhere, h, List.filter_map]
  congr 1
  apply List.filter_congr
  intro acc _
  simp

theorem IsTableOf.link (h : IsTableOf users d) (hnone : d.lookup id = none) :
    IsTableOf (users ++ [LeetoDB.insertedRow id n L]) (d.link id L n hnone) := by
  unfold IsTableOf Directory.link
  rw [h, List.map_append]
  rfl

theorem IsTableOf.refresh (h : IsTableOf users d) :
    IsTableOf (Stmt.updateWhere users .discordId id (profileRow id n L p)) (d.refresh id L n p) := by
  unfold IsTableOf Directory.refresh Stmt.updateWhere
  rw [h, List.map_map, List.map_map]
  apply List.map_congr_left
  intro acc _
  simp only [Function.comp_apply, accountRow_discordId, Option.some.injEq, Directory.refreshed]
  by_cases hid : acc.user = id
  · subst hid
    rw [if_pos rfl, if_pos rfl, profileRow_accountRow]
  · rw [if_neg hid, if_neg hid]

end Rows

/-! ### The methods of `LeetoDB` -/

/-- A call of a method. -/
inductive DbCall where
  | registerUser (discordId discordUser leetcodeUser : String)
  | getLeetcodeUsername (discordId : String)
  | statsExist (discordUsername : String)
  | getLeetcodeProfile (discordUsername : String)
  | getLeetcodeAvatar (discordId : String)
  | updateProfile (discordId discordUsername leetcodeUsername : String) (profile : UserProfile)

namespace DbCall

@[reducible] def Result : DbCall → Type
  | registerUser _ _ _ => Bool
  | getLeetcodeUsername _ => Option String
  | statsExist _ => Bool
  | getLeetcodeProfile _ => Option UserProfile
  | getLeetcodeAvatar _ => Option String
  | updateProfile _ _ _ _ => Bool

def program (db : LeetoDB) : (c : DbCall) → Program c.Result
  | registerUser discordId discordUser leetcodeUser => db.registerUser discordId discordUser leetcodeUser
  | getLeetcodeUsername discordId => db.getLeetcodeUsername discordId
  | statsExist discordUsername => db.statsExist discordUsername
  | getLeetcodeProfile discordUsername => db.getLeetcodeProfile discordUsername
  | getLeetcodeAvatar discordId => db.getLeetcodeAvatar discordId
  | updateProfile discordId discordUsername leetcodeUsername p =>
      db.updateProfile discordId discordUsername p.easySolved p.mediumSolved p.hardSolved p.submissions
        leetcodeUsername p.totalSolved p.ranking p.realName p.countryName p.skillTags p.avatarUrl

/-- What a call does to a directory, and what it answers. -/
def spec : (c : DbCall) → UserDirectory → c.Result × UserDirectory
  | registerUser discordId discordUser leetcodeUser, d =>
      if h : d.lookup discordId = none then (true, d.link discordId leetcodeUser discordUser h) else (false, d)
  | getLeetcodeUsername discordId, d => (some (((d.lookup discordId).map Account.name).getD ""), d)
  | statsExist discordUsername, d =>
      ((d.accounts.find? fun acc => acc.handle = discordUsername).all fun acc => acc.stats.isSome, d)
  | getLeetcodeProfile discordUsername, d =>
      ((d.accounts.find? fun acc => acc.handle = discordUsername).map fun acc => acc.stats.getD {}, d)
  | getLeetcodeAvatar discordId, d => ((d.lookup discordId).map fun acc => (acc.stats.getD {}).avatarUrl, d)
  | updateProfile discordId discordUsername leetcodeUsername p, d =>
      ((d.lookup discordId).isSome, d.refresh discordId leetcodeUsername discordUsername p)

/-- What a call answers that has failed. -/
def failure : (c : DbCall) → c.Result
  | registerUser _ _ _ => false
  | getLeetcodeUsername _ => none
  | statsExist _ => false
  | getLeetcodeProfile _ => none
  | getLeetcodeAvatar _ => none
  | updateProfile _ _ _ _ => false

end DbCall

/-! ### One call -/

section Call

variable {parse : String → Except String Json} {db : LeetoDB} {a : Accounts} {d : UserDirectory}
  {t : Trace Op Op.Res}

/-- A statement has thrown. -/
def Faulty (t : Trace Op Op.Res) : Prop := ∃ st e, ⟨.sql st, .error e⟩ ∈ t

/-- A call has done to the directory what it is specified to do, or it has failed and left the table as it was; and it
fails only without a connection or by an exception. -/
def Called (db : LeetoDB) (c : DbCall) (d : UserDirectory) (a : Accounts) (r : c.Result) (t : Trace Op Op.Res)
    (a' : Accounts) : Prop :=
  (r = (c.spec d).1 ∧ IsTableOf a'.users (c.spec d).2) ∨
    (r = c.failure ∧ a' = a ∧ (db.connected → Faulty t))

private theorem ends_sql {α : Type} {Q : α → Trace Op Op.Res → Accounts → Prop} {st : Stmt}
    {f : Except SqlException st.Result → Program α}
    (hok : (accounts parse db).Ends Q (f (.ok (st.exec a.users).1)) (t ++ [⟨.sql st, .ok (st.exec a.users).1⟩])
      { a with users := (st.exec a.users).2 })
    (hfault : (accounts parse db).Ends Q (f (.error .mk)) (t ++ [⟨.sql st, .error .mk⟩]) a) :
    (accounts parse db).Ends Q (.call (.sql st) f) t a := by
  intro x
  cases x with
  | ok => exact ⟨_, _, rfl, hok⟩
  | fault => exact ⟨_, _, rfl, hfault⟩

private theorem called_failure {c : DbCall} {st : Stmt} :
    Called db c d a c.failure (t ++ [⟨.sql st, .error .mk⟩]) a :=
  .inr ⟨rfl, rfl, fun _ => ⟨st, .mk, List.mem_concat_self⟩⟩

private theorem called_disconnected {c : DbCall} (hdb : ¬ db.connected) : Called db c d a c.failure t a :=
  .inr ⟨rfl, rfl, fun h => absurd h hdb⟩

private theorem ends_reader {c : DbCall} {col : StrColumn} {v : String}
    {f : Except SqlException (List Row) → Program c.Result} (h : IsTableOf a.users d)
    (hrows : f (.ok (Stmt.rowsWhere a.users col v)) = .ret (c.spec d).1) (hspec : (c.spec d).2 = d)
    (hfault : f (.error .mk) = .ret c.failure) :
    (accounts parse db).Ends (Called db c d a) (.call (.sql (.select col v)) f) t a := by
  apply ends_sql
  · show (accounts parse db).Ends _ (f (.ok (Stmt.rowsWhere a.users col v))) _ _
    rw [hrows]
    exact .inl ⟨rfl, by rw [hspec]; exact h⟩
  · show (accounts parse db).Ends _ (f (.error .mk)) _ _
    rw [hfault]
    exact called_failure

private theorem called_registerUser {discordId n L : String} (h : IsTableOf a.users d) :
    (accounts parse db).Ends (Called db (.registerUser discordId n L) d a) (db.registerUser discordId n L) t a := by
  unfold LeetoDB.registerUser
  by_cases hdb : db.connected
  · simp only [hdb, Bool.not_true, Bool.false_eq_true, if_false, selectCount_bind]
    apply ends_sql
    · simp only [Stmt.exec, h.rowsWhere_discordId, List.length_map]
      cases hlookup : d.lookup discordId with
      | some acc =>
        simp only [Option.toList_some, List.length_singleton, Nat.zero_lt_one, if_true]
        refine .inl ⟨?_, ?_⟩
        · simp [DbCall.spec, hlookup]
        · simpa [DbCall.spec, hlookup] using h
      | none =>
        simp only [Option.toList_none, List.length_nil, Nat.lt_irrefl, if_false, insertInto_bind]
        apply ends_sql
        · refine .inl ⟨?_, ?_⟩
          · simp [DbCall.spec, hlookup]
          · simp only [DbCall.spec, hlookup, dite_true]
            exact h.link hlookup
        · exact called_failure
    · exact called_failure
  · simp only [hdb, Bool.not_false, if_true]
    exact called_disconnected hdb

private theorem called_updateProfile {discordId n L : String} {p : UserProfile} (h : IsTableOf a.users d) :
    (accounts parse db).Ends (Called db (.updateProfile discordId n L p) d a)
      ((DbCall.updateProfile discordId n L p).program db) t a := by
  simp only [DbCall.program]
  unfold LeetoDB.updateProfile
  by_cases hdb : db.connected
  · simp only [hdb, Bool.not_true, Bool.false_eq_true, if_false, selectWhere_bind]
    apply ends_sql
    · simp only [Stmt.exec, h.rowsWhere_discordId]
      cases hlookup : d.lookup discordId with
      | some acc =>
        simp only [Option.toList_some, List.map_cons, List.map_nil, updateWhere_bind]
        apply ends_sql
        · refine .inl ⟨?_, ?_⟩
          · simp only [DbCall.spec, hlookup, Option.isSome_some]
          · exact h.refresh
        · exact called_failure
      | none =>
        refine .inl ⟨?_, ?_⟩
        · simp only [DbCall.spec, hlookup, Option.isSome_none]
        · simp only [DbCall.spec, Directory.refresh_of_none hlookup]
          exact h
    · exact called_failure
  · simp only [hdb, Bool.not_false, if_true]
    exact called_disconnected hdb

/-- Every method, on a table that represents a directory. -/
private theorem called_program (c : DbCall) (h : IsTableOf a.users d) :
    (accounts parse db).Ends (Called db c d a) (c.program db) t a := by
  by_cases hdb : db.connected
  · cases c with
    | registerUser discordId n L => exact called_registerUser h
    | updateProfile discordId n L p => exact called_updateProfile h
    | getLeetcodeUsername discordId =>
      simp only [DbCall.program, LeetoDB.getLeetcodeUsername, hdb, Bool.not_true, Bool.false_eq_true, if_false,
        selectWhere_bind]
      refine ends_reader h ?_ rfl rfl
      rw [h.rowsWhere_discordId]
      cases hlookup : d.lookup discordId with
      | none => simp [DbCall.spec, hlookup]
      | some acc => simp [DbCall.spec, hlookup, Row.getString]
    | statsExist n =>
      simp only [DbCall.program, LeetoDB.statsExist, hdb, Bool.not_true, Bool.false_eq_true, if_false,
        selectWhere_bind]
      refine ends_reader h ?_ rfl rfl
      rw [h.rowsWhere_discordUsername]
      simp only [DbCall.spec, ← List.head?_filter]
      cases d.accounts.filter fun acc => acc.handle = n with
      | nil => rfl
      | cons acc rest => cases hstats : acc.stats <;> simp [isNull_accountRow, hstats]
    | getLeetcodeProfile n =>
      simp only [DbCall.program, LeetoDB.getLeetcodeProfile, hdb, Bool.not_true, Bool.false_eq_true, if_false,
        selectWhere_bind]
      refine ends_reader h ?_ rfl rfl
      rw [h.rowsWhere_discordUsername]
      simp only [DbCall.spec, ← List.head?_filter]
      cases d.accounts.filter fun acc => acc.handle = n with
      | nil => rfl
      | cons acc rest => simp [rowProfile_accountRow]
    | getLeetcodeAvatar discordId =>
      simp only [DbCall.program, LeetoDB.getLeetcodeAvatar, hdb, Bool.not_true, Bool.false_eq_true, if_false,
        selectWhere_bind]
      refine ends_reader h ?_ rfl rfl
      rw [h.rowsWhere_discordId]
      cases hlookup : d.lookup discordId with
      | none => simp [DbCall.spec, hlookup]
      | some acc => simp [DbCall.spec, hlookup, ← rowProfile_accountRow, LeetoDB.rowProfile]
  · have hfailure : c.program db = .ret c.failure := by
      cases c <;>
        simp [DbCall.program, DbCall.failure, LeetoDB.registerUser, LeetoDB.getLeetcodeUsername, LeetoDB.statsExist,
          LeetoDB.getLeetcodeProfile, LeetoDB.getLeetcodeAvatar, LeetoDB.updateProfile, hdb]
    rw [hfailure]
    exact called_disconnected hdb

end Call

/-! ### Sequences of calls -/

/-- Calls with their answers. -/
abbrev Answers := List (Σ c : DbCall, c.Result)

/-- The calls, one after the other. -/
def callAll (db : LeetoDB) : List DbCall → Program Answers
  | [] => pure []
  | c :: cs => do
      let r ← c.program db
      let rs ← callAll db cs
      return ⟨c, r⟩ :: rs

/-- What the calls do to a directory when none fails. -/
def specAll : List DbCall → UserDirectory → Answers × UserDirectory
  | [], d => ([], d)
  | c :: cs, d => (⟨c, (c.spec d).1⟩ :: (specAll cs (c.spec d).2).1, (specAll cs (c.spec d).2).2)

/-- What the calls do to a directory when some may fail. -/
inductive Explains : UserDirectory → Answers → UserDirectory → Prop
  | nil (d : UserDirectory) : Explains d [] d
  | done {d d' : UserDirectory} {rs : Answers} (c : DbCall) (h : Explains (c.spec d).2 rs d') :
      Explains d (⟨c, (c.spec d).1⟩ :: rs) d'
  | failed {d d' : UserDirectory} {rs : Answers} (c : DbCall) (h : Explains d rs d') :
      Explains d (⟨c, c.failure⟩ :: rs) d'

section Calls

variable {parse : String → Except String Json} {db : LeetoDB} {a : Accounts} {d : UserDirectory}
  {t : Trace Op Op.Res}

private theorem Faulty.mono {t' : Trace Op Op.Res} (h : Faulty t) (ht : t ⊆ t') : Faulty t' := by
  obtain ⟨st, e, hmem⟩ := h
  exact ⟨st, e, ht hmem⟩

private theorem ends_subset {α : Type} {Q : α → Trace Op Op.Res → Accounts → Prop} {p : Program α}
    (h : (accounts parse db).Ends Q p t a) :
    (accounts parse db).Ends (fun r t' a' => t ⊆ t' ∧ Q r t' a') p t a := by
  induction p generalizing t a with
  | ret r => exact ⟨List.Subset.refl _, h⟩
  | call o k ih =>
    intro x
    obtain ⟨r, s, hx, hr⟩ := h x
    refine ⟨r, s, hx, (ih r hr).mono ?_⟩
    intro b t' a' hb
    exact ⟨List.Subset.trans (List.subset_append_left _ _) hb.1, hb.2⟩

/-- What a sequence of calls does. -/
def CalledAll (db : LeetoDB) (cs : List DbCall) (d : UserDirectory) (rs : Answers) (t : Trace Op Op.Res)
    (a' : Accounts) : Prop :=
  ∃ d', IsTableOf a'.users d' ∧ Explains d rs d' ∧ rs.map Sigma.fst = cs ∧
    (db.connected → ¬ Faulty t → (rs, d') = specAll cs d)

private theorem calledAll (cs : List DbCall) (h : IsTableOf a.users d) :
    (accounts parse db).Ends (CalledAll db cs d) (callAll db cs) t a := by
  induction cs generalizing d a t with
  | nil => exact ⟨d, h, .nil d, rfl, fun _ _ => rfl⟩
  | cons c cs ih =>
    unfold callAll
    rw [System.ends_bind]
    apply (called_program c h).mono
    intro r t₁ a₁ hcall
    rw [System.ends_bind]
    rcases hcall with ⟨hr, hrep⟩ | ⟨hr, rfl, hfaulty⟩
    · apply (ih hrep).mono
      rintro rs t₂ a₂ ⟨d', hrep', hexplains, hcalls, hspec⟩
      subst hr
      refine ⟨d', hrep', .done c hexplains, by simp [hcalls], ?_⟩
      intro hdb hnone
      have hrest := hspec hdb hnone
      rw [specAll, ← hrest]
    · apply (ends_subset (ih h)).mono
      rintro rs t₂ a₂ ⟨hsub, d', hrep', hexplains, hcalls, -⟩
      subst hr
      refine ⟨d', hrep', .failed c hexplains, by simp [hcalls], ?_⟩
      intro hdb hnone
      exact absurd ((hfaulty hdb).mono hsub) hnone

/-- Whatever methods are called one after the other on a table that represents a directory, and whichever statements
throw, the answers are those of the directory, but for calls that fail without effect; and when nothing throws, no
call fails. -/
theorem leetoDB_refines_directory (h : IsTableOf a.users d) (cs : List DbCall) (xs : Nat → Choice) :
    ∃ rs t a', (accounts parse db).alone xs (callAll db cs) a = some (rs, t, a') ∧ CalledAll db cs d rs t a' := by
  obtain ⟨rs, t, a', hrun, hcalled⟩ := (calledAll (t := []) cs h).alone xs
  exact ⟨rs, t, a', hrun, hcalled⟩

/-- Five calls on an empty table; the second statement throws, so that the first registration fails. -/
theorem leetoDB_refines_directory_ann :
    ∃ rs t a', (accounts sampleParse ⟨true⟩).alone (fun n => if n = 1 then .fault else .ok)
        (callAll ⟨true⟩ [.registerUser "1" "ann" "a", .registerUser "1" "ann" "b", .statsExist "ann",
          .updateProfile "1" "ann" "b" annStats.userProfile, .getLeetcodeProfile "ann"]) Accounts.initial =
        some (rs, t, a') ∧
      CalledAll ⟨true⟩ [.registerUser "1" "ann" "a", .registerUser "1" "ann" "b", .statsExist "ann",
        .updateProfile "1" "ann" "b" annStats.userProfile, .getLeetcodeProfile "ann"] Directory.empty rs t a' := by
  have hempty : IsTableOf Accounts.initial.users Directory.empty := rfl
  exact leetoDB_refines_directory hempty _ _

end Calls

end LeetBot
