import LeetBot.Accounts

/-!
# What the methods of `LeetoDB` answer

The run of a method without a fault, on a table that nobody else changes meanwhile.
-/

namespace LeetBot

open Interleave

section Alone

variable (parse : String → Except String Json) (db : LeetoDB) {α : Type}

/-- The run of a program that nothing interrupts, without a fault. -/
def undisturbed (p : Program α) (a : Accounts) : Option (α × Trace Op Op.Res × Accounts) :=
  (accounts parse db).alone (fun _ => .ok) p a

/-- What a program answers that nothing interrupts, without a fault. -/
def answer (p : Program α) (a : Accounts) : Option α := (undisturbed parse db p a).map (·.1)

end Alone

variable {parse : String → Except String Json} {db : LeetoDB} {a : Accounts} {α : Type}

@[simp] theorem undisturbed_ret {b : α} : undisturbed parse db (.ret b) a = some (b, [], a) := rfl

private theorem undisturbed_select {c : StrColumn} {v : String} {k : Except SqlException (List Row) → Program α} :
    undisturbed parse db (.call (.sql (.select c v)) k) a =
      (undisturbed parse db (k (.ok (Stmt.rowsWhere a.users c v))) a).map fun x =>
        (x.1, ⟨.sql (.select c v), .ok (Stmt.rowsWhere a.users c v)⟩ :: x.2.1, x.2.2) :=
  System.alone_call rfl

theorem undisturbed_edit {m : Message} {k : Unit → Program α} :
    undisturbed parse db (.call (.edit m) k) a =
      (undisturbed parse db (k ()) a).map fun x => (x.1, ⟨.edit m, ()⟩ :: x.2.1, x.2.2) :=
  System.alone_call rfl

theorem undisturbed_memberUsername {d : Snowflake} {k : Option String → Program α} :
    undisturbed parse db (.call (.memberUsername d) k) a =
      (undisturbed parse db (k (a.members.lookup d)) a).map fun x =>
        (x.1, ⟨.memberUsername d, a.members.lookup d⟩ :: x.2.1, x.2.2) :=
  System.alone_call rfl

theorem undisturbed_bind {β : Type} {p : Program α} {f : α → Program β} {b : α} {t : Trace Op Op.Res} {a' : Accounts}
    (h : undisturbed parse db p a = some (b, t, a')) :
    undisturbed parse db (p >>= f) a = (undisturbed parse db (f b) a').map fun x => (x.1, t ++ x.2.1, x.2.2) :=
  System.alone_bind h

/-! ### The readers -/

section Readers

variable {discordId discordUsername : String}

/-- What `getLeetcodeUsername` does: it selects the rows of the user and returns the name of the first. -/
theorem undisturbed_getLeetcodeUsername (hdb : db.connected) :
    undisturbed parse db (db.getLeetcodeUsername discordId) a =
      some (some (match Stmt.rowsWhere a.users .discordId discordId with
        | [] => ""
        | row :: _ => row.getString .leetcodeUsername),
      [⟨.sql (.select .discordId discordId), .ok (Stmt.rowsWhere a.users .discordId discordId)⟩], a) := by
  unfold LeetoDB.getLeetcodeUsername
  simp only [hdb, Bool.not_true, Bool.false_eq_true, if_false, selectWhere_bind, undisturbed_select]
  cases Stmt.rowsWhere a.users .discordId discordId <;> rfl

/-- What `statsExist` does: it is true when no row has the name. -/
theorem undisturbed_statsExist (hdb : db.connected) :
    undisturbed parse db (db.statsExist discordUsername) a =
      some ((match Stmt.rowsWhere a.users .discordUsername discordUsername with
        | [] => true
        | row :: _ => !(row.isNull .easySolved || row.isNull .mediumSolved || row.isNull .hardSolved ||
            row.isNull .totalSolved)),
      [⟨.sql (.select .discordUsername discordUsername),
        .ok (Stmt.rowsWhere a.users .discordUsername discordUsername)⟩], a) := by
  unfold LeetoDB.statsExist
  simp only [hdb, Bool.not_true, Bool.false_eq_true, if_false, selectWhere_bind, undisturbed_select]
  cases Stmt.rowsWhere a.users .discordUsername discordUsername <;> rfl

theorem undisturbed_getLeetcodeProfile (hdb : db.connected) :
    undisturbed parse db (db.getLeetcodeProfile discordUsername) a =
      some ((Stmt.rowsWhere a.users .discordUsername discordUsername).head?.map LeetoDB.rowProfile,
      [⟨.sql (.select .discordUsername discordUsername),
        .ok (Stmt.rowsWhere a.users .discordUsername discordUsername)⟩], a) := by
  unfold LeetoDB.getLeetcodeProfile
  simp only [hdb, Bool.not_true, Bool.false_eq_true, if_false, selectWhere_bind, undisturbed_select]
  cases Stmt.rowsWhere a.users .discordUsername discordUsername <;> rfl

theorem undisturbed_getLeetcodeAvatar (hdb : db.connected) :
    undisturbed parse db (db.getLeetcodeAvatar discordId) a =
      some ((Stmt.rowsWhere a.users .discordId discordId).head?.map (·.getString .avatarUrl),
      [⟨.sql (.select .discordId discordId), .ok (Stmt.rowsWhere a.users .discordId discordId)⟩], a) := by
  unfold LeetoDB.getLeetcodeAvatar
  simp only [hdb, Bool.not_true, Bool.false_eq_true, if_false, selectWhere_bind, undisturbed_select]
  cases Stmt.rowsWhere a.users .discordId discordId <;> rfl

end Readers

end LeetBot
