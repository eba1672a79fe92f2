import Mathlib.Data.List.Basic
import Mathlib.Logic.Function.Basic
import Mathlib.Tactic.Common

/-!
# The `users` table

Rows, and the four kinds of statements that `LeetoDB` prepares.  The placeholders of a statement are bound by
position, as `setString` and `setInt` bind them; a table lists its rows in the order in which they were inserted,
which is the order in which a `SELECT` returns them.  The schema is not part of the sources: no column is unique,
and a column that an `INSERT` does not name is NULL.
-/

namespace LeetBot

inductive StrColumn where
  | discordId
  | discordUsername
  | leetcodeUsername
  | realName
  | countryName
  | skillTags
  | avatarUrl
deriving DecidableEq

inductive IntColumn where
  | easySolved
  | mediumSolved
  | hardSolved
  | totalSolved
  | ranking
  | totalSubmissions
deriving DecidableEq

inductive Column where
  | str (c : StrColumn)
  | int (c : IntColumn)
deriving DecidableEq

/-- A value bound to a placeholder by `setString` or `setInt`. -/
inductive Param where
  | str (s : String)
  | int (i : Int)
deriving DecidableEq

/-- A row; `none` is NULL. -/
@[ext] structure Row where
  str : StrColumn → Option String
  int : IntColumn → Option Int

namespace Row

def null : Row := ⟨fun _ => none, fun _ => none⟩

/-- `ResultSet::isNull` -/
def isNull (r : Row) (c : IntColumn) : Bool := (r.int c).isNone

/-- `ResultSet::getString`; NULL reads as the empty string. -/
def getString (r : Row) (c : StrColumn) : String := (r.str c).getD ""

/-- `ResultSet::getInt`; NULL reads as zero. -/
def getInt (r : Row) (c : IntColumn) : Int := (r.int c).getD 0

/-- One assignment of a statement.  Every placeholder of the statements below is bound with the type of its
column; the last case does not arise. -/
def set (r : Row) : Column → Param → Row
  | .str c, .str s => { r with str := Function.update r.str c (some s) }
  | .int c, .int i => { r with int := Function.update r.int c (some i) }
  | _, _ => r

/-- The columns of a statement take the values bound to its first placeholders, in order. -/
def assign (r : Row) (columns : List Column) (params : List Param) : Row :=
  (columns.zip params).foldl (fun r x => r.set x.1 x.2) r

end Row

/-- A prepared statement with its bound placeholders. -/
inductive Stmt where
  /-- `SELECT COUNT(*) FROM users WHERE c = ?` -/
  | selectCount (c : StrColumn) (v : String)
  /-- `SELECT … FROM users WHERE c = ?` -/
  | select (c : StrColumn) (v : String)
  /-- `INSERT INTO users (columns) VALUES (?, …, ?)` -/
  | insert (columns : List Column) (params : List Param)
  /-- `UPDATE users SET columns = ? WHERE c = ?`; the last placeholder is the one of the WHERE clause. -/
  | update (columns : List Column) (c : StrColumn) (params : List Param)

namespace Stmt

def Result : Stmt → Type
  | selectCount _ _ => Nat
  | select _ _ => List Row
  | insert _ _ => Unit
  | update _ _ _ => Unit

/-- The rows that a WHERE clause selects. -/
def rowsWhere (users : List Row) (c : StrColumn) (v : String) : List Row :=
  users.filter fun r => r.str c = some v

/-- The table after an `UPDATE`. -/
def updateWhere (users : List Row) (c : StrColumn) (v : String) (f : Row → Row) : List Row :=
  users.map fun r => if r.str c = some v then f r else r

def exec (users : List Row) : (s : Stmt) → s.Result × List Row
  | selectCount c v => ((rowsWhere users c v).length, users)
  | select c v => (rowsWhere users c v, users)
  | insert columns params => ((), users ++ [Row.null.assign columns params])
  | update columns c params =>
      match params[columns.length]? with
      | some (.str v) => ((), updateWhere users c v fun r => r.assign columns params)
      | _ => ((), users)

theorem mem_rowsWhere {users : List Row} {c : StrColumn} {v : String} {r : Row} :
    r ∈ rowsWhere users c v ↔ r ∈ users ∧ r.str c = some v := by
  simp [rowsWhere]

theorem mem_updateWhere {users : List Row} {c : StrColumn} {v : String} {f : Row → Row} {r : Row} :
    r ∈ updateWhere users c v f ↔
      (r ∈ users ∧ r.str c ≠ some v) ∨ ∃ r₀ ∈ users, r₀.str c = some v ∧ r = f r₀ := by
  simp only [updateWhere, List.mem_map]
  constructor
  · rintro ⟨r₀, h, rfl⟩
    split
    · exact .inr ⟨r₀, h, ‹_›, rfl⟩
    · exact .inl ⟨h, ‹_›⟩
  · rintro (⟨h, hne⟩ | ⟨r₀, h, hv, rfl⟩)
    · exact ⟨r, h, by simp [hne]⟩
    · exact ⟨r₀, h, by simp [hv]⟩

/-- An update that keeps the column it selects by commutes with selecting by that column. -/
theorem rowsWhere_updateWhere {users : List Row} {c : StrColumn} {v v' : String} {f : Row → Row}
    (hf : ∀ r, (f r).str c = r.str c) :
    rowsWhere (updateWhere users c v f) c v' = updateWhere (rowsWhere users c v') c v f := by
  unfold rowsWhere updateWhere
  rw [List.filter_map]
  congr 1
  refine List.filter_congr fun r _ => ?_
  by_cases h : r.str c = some v
  · simp [h, hf]
  · simp [h]

theorem rowsWhere_append {users users' : List Row} {c : StrColumn} {v : String} :
    rowsWhere (users ++ users') c v = rowsWhere users c v ++ rowsWhere users' c v :=
  List.filter_append ..

@[simp] theorem length_updateWhere {users : List Row} {c : StrColumn} {v : String} {f : Row → Row} :
    (updateWhere users c v f).length = users.length :=
  List.length_map _

end Stmt

end LeetBot
