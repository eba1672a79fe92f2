import LeetBot.Loops
import LeetBot.Rewriting
import Mathlib.Logic.Function.Basic

/-!
# Credential files

`readAuthFile` reads lines of the form `key=value` into a map.  A line without `=` is passed over, and of several
lines with one key the last one counts.
-/

namespace LeetBot

open Rewriting

/-- `std::getline`: the next line and what is left of the stream; `none` when nothing is left. -/
def getline : List Char → Option (List Char × List Char)
  | [] => none
  | c :: cs => some ((c :: cs).takeWhile (· ≠ '\n'), ((c :: cs).dropWhile (· ≠ '\n')).drop 1)

/-- The body of the loop. -/
def readLine (config : String → Option String) (line : List Char) : String → Option String :=
  match line.idxOf? '=' with
  | none => config
  | some equalPos =>
    let key := .ofList (line.take equalPos)
    let value := .ofList (line.drop (equalPos + 1))
    Function.update config key (some value)

private theorem eq_of_getline {stream line rest : List Char} (h : getline stream = some (line, rest)) :
    '\n' ∉ line ∧ (stream = line ++ '\n' :: rest ∨ stream ≠ [] ∧ stream = line ∧ rest = []) := by
  cases stream with
  | nil => cases h
  | cons c cs =>
    cases h
    have hsplit := List.takeWhile_append_dropWhile (p := (· ≠ '\n')) (l := c :: cs)
    refine ⟨fun hmem => by simpa using List.mem_takeWhile_imp hmem, ?_⟩
    cases hdrop : (c :: cs).dropWhile (· ≠ '\n') with
    | nil =>
      rw [hdrop, List.append_nil] at hsplit
      exact .inr ⟨List.cons_ne_nil _ _, hsplit.symm, rfl⟩
    | cons d ds =>
      have hd : d = '\n' := by
        have hhead := List.head?_dropWhile_not (· ≠ '\n') (c :: cs)
        rw [hdrop] at hhead
        simpa using hhead
      rw [hdrop, hd] at hsplit
      exact .inl hsplit.symm

private theorem length_lt_of_getline {stream line rest : List Char} (h : getline stream = some (line, rest)) :
    rest.length < stream.length := by
  rcases (eq_of_getline h).2 with rfl | ⟨hne, -, rfl⟩
  · rw [List.length_append, List.length_cons]
    omega
  · exact List.length_pos_iff.2 hne

/-- The loop over the lines of the stream. -/
def readLines (config : String → Option String) (stream : List Char) : String → Option String :=
  match _h : getline stream with
  | none => config
  | some (line, rest) => readLines (readLine config line) rest
termination_by stream.length
decreasing_by exact length_lt_of_getline _h

/-- `files` gives the contents of the files that can be opened. -/
def readAuthFile (files : String → Option String) (filename : String) : String → Option String :=
  match files filename with
  | none => fun _ => none
  | some content => readLines (fun _ => none) content.toList

/-! ### Lines -/

/-- The lines of a text, the last of which need not end with a newline. -/
def linesOf (content : String) : List (List Char) := content.toList.splitOn '\n'

/-- Before its first `=` the line has the key, and behind it the value. -/
def IsEntry (line : List Char) (key value : String) : Prop :=
  line = key.toList ++ '=' :: value.toList ∧ '=' ∉ key.toList

/-- The value in a line for a key. -/
def valueFor (key : String) (line : List Char) : Option String :=
  match line.idxOf? '=' with
  | none => none
  | some p => if key = .ofList (line.take p) then some (.ofList (line.drop (p + 1))) else none

section Lines

variable {line stream : List Char} {key value : String} {config : String → Option String}

private theorem valueFor_eq_some_iff : valueFor key line = some value ↔ IsEntry line key value := by
  by_cases hmem : '=' ∈ line
  · obtain ⟨k, w, rfl, hk⟩ := List.eq_append_cons_of_mem hmem
    have hdrop : (k ++ '=' :: w).drop (k.length + 1) = w := by
      rw [List.drop_append]
      simp
    simp only [valueFor, idxOf?_append_cons hk, List.take_left, hdrop, Option.ite_none_right_eq_some,
      Option.some.injEq]
    constructor
    · rintro ⟨rfl, rfl⟩
      simpa [IsEntry] using hk
    · rintro ⟨hline, hkey⟩
      obtain rfl : k = key.toList := append_cons_inj hk hkey hline
      obtain rfl : w = value.toList := (List.cons.inj (List.append_cancel_left hline)).2
      exact ⟨String.ofList_toList.symm, String.ofList_toList⟩
  · have hnone : line.idxOf? '=' = none := List.idxOf?_eq_none_iff.2 hmem
    simp only [valueFor, hnone, reduceCtorEq, false_iff]
    rintro ⟨rfl, -⟩
    exact hmem (by simp)

private theorem IsEntry.mem (h : IsEntry line key value) : '=' ∈ line := by
  rw [h.1]
  simp

private theorem readLine_apply (config : String → Option String) (line : List Char) (key : String) :
    readLine config line key = ((valueFor key line).map some).getD (config key) := by
  unfold readLine valueFor
  cases line.idxOf? '=' with
  | none => rfl
  | some p =>
    by_cases hkey : key = .ofList (line.take p)
    · simp [hkey]
    · simp [hkey]

/-- The loop takes the lines one after the other. -/
private theorem readLines_eq (config : String → Option String) (stream : List Char) :
    readLines config stream = (stream.splitOn '\n').foldl readLine config := by
  have hempty : ∀ config, readLines config [] = config := by
    intro config
    rw [readLines]
    rfl
  induction config, stream using readLines.induct with
  | case1 config stream h =>
    cases stream with
    | nil => exact hempty config
    | cons c cs => cases h
  | case2 config stream line rest h ih =>
    have hround : readLines config stream = readLines (readLine config line) rest := by
      rw [readLines]
      split
      · rename_i hnone
        rw [h] at hnone
        cases hnone
      · rename_i hsome
        rw [h] at hsome
        cases hsome
        rfl
    rw [hround]
    obtain ⟨hline, rfl | ⟨-, rfl, rfl⟩⟩ := eq_of_getline h
    · rw [ih, List.splitOn_append_cons_self_of_not_mem hline, List.foldl_cons]
    · rw [hempty, List.splitOn_eq_singleton hline]
      rfl

private theorem readLines_apply (stream : List Char) (key : String) :
    readLines (fun _ => none) stream key = ((stream.splitOn '\n').filterMap (valueFor key)).getLast? := by
  have hvar : ∀ lines : List (List Char), lines.foldl readLine (fun _ => none) key =
      lines.foldl (fun b line => ((valueFor key line).map some).getD b) none := fun lines =>
    (List.foldl_hom (fun config : String → Option String => config key)
      fun config line => (readLine_apply config line key).symm).symm
  rw [readLines_eq, hvar, Loops.foldl_getD, ← List.map_filterMap, List.getLast?_map]
  cases ((stream.splitOn '\n').filterMap (valueFor key)).getLast? <;> rfl

end Lines

/-! ### Round trip -/

/-- A key and a value that can be written as a line. -/
structure Credential where
  key : String
  value : String
  key_chars : ∀ c ∈ key.toList, c ≠ '=' ∧ c ≠ '\n'
  value_chars : '\n' ∉ value.toList

/-- A line of a file: a credential, or anything without `=`. -/
inductive AuthLine where
  | credential (e : Credential)
  | other (text : List Char) (chars : ∀ c ∈ text, c ≠ '=' ∧ c ≠ '\n')

def AuthLine.text : AuthLine → List Char
  | credential e => e.key.toList ++ '=' :: e.value.toList
  | other text _ => text

def AuthLine.entry? : AuthLine → Option (String × String)
  | credential e => some (e.key, e.value)
  | other _ _ => none

/-- The lines, with a newline between two of them, and one at the end or not. -/
def writeLines (finalNewline : Bool) : List AuthLine → List Char
  | [] => []
  | [line] => line.text ++ if finalNewline then ['\n'] else []
  | line :: lines => line.text ++ '\n' :: writeLines finalNewline lines

section RoundTrip

variable {text : List Char} {lines : List AuthLine}

private theorem AuthLine.newline_notMem (line : AuthLine) : '\n' ∉ line.text := by
  cases line with
  | credential e =>
    have hkey : '\n' ∉ e.key.toList := fun h => (e.key_chars _ h).2 rfl
    simp [text, hkey, e.value_chars]
  | other text chars => exact fun h => (chars _ h).2 rfl

private theorem writeLines_cons_cons (finalNewline : Bool) (line line' : AuthLine) (lines : List AuthLine) :
    writeLines finalNewline (line :: line' :: lines) =
      line.text ++ '\n' :: writeLines finalNewline (line' :: lines) := rfl

private theorem mem_splitOn_writeLines (finalNewline : Bool) (htext : '=' ∈ text) :
    text ∈ (writeLines finalNewline lines).splitOn '\n' ↔ ∃ line ∈ lines, line.text = text := by
  have hne : text ≠ [] := List.ne_nil_of_mem htext
  induction lines with
  | nil => simp [writeLines, hne]
  | cons line lines ih =>
    cases lines with
    | nil =>
      cases finalNewline with
      | false => simp [writeLines, List.splitOn_eq_singleton line.newline_notMem, eq_comm]
      | true => simp [writeLines, List.splitOn_append_cons_self_of_not_mem line.newline_notMem, hne, eq_comm]
    | cons line' lines =>
      rw [writeLines_cons_cons, List.splitOn_append_cons_self_of_not_mem line.newline_notMem, List.mem_cons,
        List.exists_mem_cons_iff]
      exact or_congr eq_comm ih

private theorem isEntry_text_iff {line : AuthLine} {key value : String} :
    IsEntry line.text key value ↔ line.entry? = some (key, value) := by
  cases line with
  | credential e =>
    have hkey : '=' ∉ e.key.toList := fun h => (e.key_chars _ h).1 rfl
    simp only [AuthLine.text, AuthLine.entry?, Option.some.injEq, Prod.mk.injEq]
    constructor
    · rintro ⟨hline, hkey'⟩
      have hkeys := append_cons_inj hkey hkey' hline
      rw [hkeys] at hline
      exact ⟨String.toList_inj.1 hkeys, String.toList_inj.1 (List.cons.inj (List.append_cancel_left hline)).2⟩
    · rintro ⟨rfl, rfl⟩
      exact ⟨rfl, hkey⟩
  | other text chars => exact iff_of_false (fun h => (chars _ h.mem).1 rfl) nofun

/-- What is read from a written file for a key. -/
private theorem readLines_writeLines {m : String → Option String} (finalNewline : Bool)
    (hm : ∀ key value, (key, value) ∈ lines.filterMap AuthLine.entry? ↔ m key = some value) :
    readLines (fun _ => none) (writeLines finalNewline lines) = m := by
  funext key
  have hvalue : ∀ value,
      value ∈ ((writeLines finalNewline lines).splitOn '\n').filterMap (valueFor key) ↔ m key = some value := by
    intro value
    rw [← hm, List.mem_filterMap, List.mem_filterMap]
    constructor
    · rintro ⟨text, htext, hentry⟩
      rw [valueFor_eq_some_iff] at hentry
      obtain ⟨line, hline, rfl⟩ := (mem_splitOn_writeLines finalNewline hentry.mem).1 htext
      exact ⟨line, hline, isEntry_text_iff.1 hentry⟩
    · rintro ⟨line, hline, hentry⟩
      rw [← isEntry_text_iff] at hentry
      exact ⟨line.text, (mem_splitOn_writeLines finalNewline hentry.mem).2 ⟨line, hline, rfl⟩,
        valueFor_eq_some_iff.2 hentry⟩
  rw [readLines_apply]
  ext value
  refine ⟨fun hlast => (hvalue value).1 (List.mem_of_getLast? hlast), fun hkey => ?_⟩
  have hne := List.ne_nil_of_mem ((hvalue value).2 hkey)
  rw [List.getLast?_eq_some_getLast hne, Option.some.injEq]
  have hlast := (hvalue _).1 (List.getLast_mem hne)
  rw [hkey] at hlast
  exact (Option.some.inj hlast).symm

end RoundTrip

/-- What `readAuthFile` reads from the lines of a map, and what it reads from any file. -/
theorem readAuthFile_spec (files : String → Option String) (filename : String) :
    (∀ (m : String → Option String) (lines : List AuthLine) (finalNewline : Bool),
        (∀ key value, (key, value) ∈ lines.filterMap AuthLine.entry? ↔ m key = some value) →
        files filename = some (.ofList (writeLines finalNewline lines)) → readAuthFile files filename = m) ∧
      ∀ content, files filename = some content → ∀ key value, readAuthFile files filename key = some value ↔
        ∃ before line after, linesOf content = before ++ line :: after ∧ IsEntry line key value ∧
          ∀ line' ∈ after, ∀ value', ¬ IsEntry line' key value' := by
  constructor
  · intro m lines finalNewline hm hfile
    rw [readAuthFile, hfile]
    dsimp only
    rw [String.toList_ofList, readLines_writeLines finalNewline hm]
  · intro content hfile key value
    rw [readAuthFile, hfile]
    dsimp only
    rw [readLines_apply, Loops.getLast?_filterMap_eq_some_iff]
    simp only [valueFor_eq_some_iff, Option.eq_none_iff_forall_ne_some, ne_eq, linesOf]

/-- A session cookie with `=` in its value, an empty line, and an id. -/
def cookieLines : List AuthLine :=
  [.credential ⟨"session", "a=b=", by simp, by simp⟩, .other [] (by simp), .credential ⟨"id", "7", by simp, by simp⟩]

def cookies (key : String) : Option String :=
  if key = "session" then some "a=b=" else if key = "id" then some "7" else none

theorem readAuthFile_cookies :
    readAuthFile (fun _ => some (.ofList (writeLines false cookieLines))) "include/cookies.env" = cookies ∧
      (readAuthFile (fun _ => some "id=7\nid=8") "include/cookies.env" "id" = some "8" ↔
        ∃ before line after, linesOf "id=7\nid=8" = before ++ line :: after ∧ IsEntry line "id" "8" ∧
          ∀ line' ∈ after, ∀ value', ¬ IsEntry line' "id" value') := by
  have hcookies : ∀ key value, (key, value) ∈ cookieLines.filterMap AuthLine.entry? ↔ cookies key = some value := by
    intro key value
    simp only [cookieLines, AuthLine.entry?, List.filterMap_cons, List.filterMap_nil, List.mem_cons, Prod.mk.injEq,
      List.not_mem_nil, or_false, cookies]
    by_cases hsession : key = "session"
    · simp [hsession, eq_comm]
    · simp [hsession, eq_comm]
  exact ⟨(readAuthFile_spec _ _).1 cookies cookieLines false hcookies rfl,
    (readAuthFile_spec _ _).2 "id=7\nid=8" rfl "id" "8"⟩

end LeetBot
