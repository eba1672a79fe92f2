import LeetBot.Dpp

/-!
# Pages of solutions

The two maps of `PerUserPage` and the text of one page.
-/

namespace LeetBot

structure Solution where
  title : String
  content : String
  status : String
  voteCount : Int
  id : Int
  creationDate : Int
deriving DecidableEq

/-- `userSolutionPages` and `solutionCurrentPage`; `none` is a user who is not in the map. -/
@[ext] structure PerUserPage where
  userSolutionPages : Snowflake → Option (List Solution)
  solutionCurrentPage : Snowflake → Option Int

def PerUserPage.empty : PerUserPage := ⟨fun _ => none, fun _ => none⟩

/-- `solutions[i]` for an `int` index; `none` is an index outside the vector. -/
def solutionAt (solutions : List Solution) (i : Int) : Option Solution :=
  if 0 ≤ i then solutions[i.toNat]? else none

/-- What the loop body appends for the solution with index `i`. -/
def solutionEntry (i : Int) (s : Solution) : String :=
  toString (i + 1) ++ ". Title: " ++ s.title ++ ", id: " ++ toString s.id ++ ", status: " ++ s.status ++
    ", created at: " ++ toString s.creationDate ++ ", vote count: " ++ toString s.voteCount ++
    ", solution: " ++ s.content ++ "\n"

/-- The line below the entries: the number of the page and the number of pages. -/
def pageFooter (currentPage : Int) (size : Nat) : String :=
  "\nPage " ++ toString (currentPage + 1) ++ " / " ++ toString ((size + 1 - 1) / 1)

/-- The loop body of `buildSolutionsPage`, for the index `first + k`. -/
def appendEntry (solutions : List Solution) (first : Int) (content : String) (k : Nat) : Option String := do
  let i := first + (k : Int)
  return content ++ solutionEntry i (← solutionAt solutions i)

/-- `none` when the loop indexes outside the vector. -/
def buildSolutionsPage (solutions : List Solution) (currentPage : Int) : Option String := do
  let perPage : Int := 1
  let first := currentPage * perPage
  let last := min (solutions.length : Int) (first + perPage)
  let content ← (List.range (last - first).toNat).foldlM (appendEntry solutions first) ""
  return content ++ pageFooter currentPage solutions.length

/-- A page inside the vector shows its one solution. -/
theorem buildSolutionsPage_of_lt {solutions : List Solution} {p : Nat} (h : p < solutions.length) :
    buildSolutionsPage solutions p = some (solutionEntry p solutions[p] ++ pageFooter p solutions.length) := by
  have hone : (min (solutions.length : Int) ((p : Int) * 1 + 1) - (p : Int) * 1).toNat = 1 := by omega
  have hloop : (List.range 1).foldlM (appendEntry solutions ((p : Int) * 1)) "" =
      some (solutionEntry p solutions[p]) := by
    simp [appendEntry, solutionAt, h]
  simp only [buildSolutionsPage, hone]
  rw [hloop]
  rfl

theorem buildSolutionsPage_of_le {solutions : List Solution} {p : Nat} (h : solutions.length ≤ p) :
    buildSolutionsPage solutions p = some (pageFooter p solutions.length) := by
  have hnone : (min (solutions.length : Int) ((p : Int) * 1 + 1) - (p : Int) * 1).toNat = 0 := by omega
  simp only [buildSolutionsPage, hnone]
  simp

end LeetBot
