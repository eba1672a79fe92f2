import LeetBot.Nlohmann
import LeetBot.SortedMembers
import Mathlib.Data.String.Basic

/-!
# JSON values as texts

How the bot makes the body of a request: a value from an initializer list, and `dump()` of it.  The members of an
object are sorted by key, as in the `std::map` of the library.  How `dump_float` writes a float is a parameter.
-/

namespace LeetBot

open SortedMembers

namespace Json

/-! ### Initializer lists -/

/-- The member that an element of an initializer list describes, if it is an array of a text and a value. -/
def asMember : Json → Option (String × Json)
  | array [string key, v] => some (key, v)
  | _ => none

/-- `basic_json(initializer_list_t)`: an object if all elements describe members, and an array otherwise. -/
def ofInitializerList (init : List Json) : Json :=
  if init.all fun element => element.asMember.isSome then
    object (ofPairs (init.filterMap asMember))
  else
    array init

/-! ### `dump` -/

/-- A digit of `%x`. -/
def hexChar (n : Nat) : Char := Char.ofNat (if n < 10 then 0x30 + n else 0x57 + n)

/-- What `dump_escaped` writes for a code point. -/
def escapeChar (c : Char) : List Char :=
  if c == '\x08' then ['\\', 'b']
  else if c == '\t' then ['\\', 't']
  else if c == '\n' then ['\\', 'n']
  else if c == '\x0c' then ['\\', 'f']
  else if c == '\r' then ['\\', 'r']
  else if c == '"' then ['\\', '"']
  else if c == '\\' then ['\\', '\\']
  else if c.toNat ≤ 0x1F then
    ['\\', 'u', hexChar (c.toNat / 4096 % 16), hexChar (c.toNat / 256 % 16), hexChar (c.toNat / 16 % 16),
      hexChar (c.toNat % 16)]
  else [c]

def dumpEscaped (s : String) : List Char := s.toList.flatMap escapeChar

/-- A text between quotation marks. -/
def dumpString (s : String) : List Char := '"' :: (dumpEscaped s ++ ['"'])

/-- `digits_to_99` -/
def digitsTo99 (n : Nat) : List Char := [Nat.digitChar (n / 10), Nat.digitChar (n % 10)]

/-- `count_digits`, from `n_digits` on. -/
def countDigits (x nDigits : Nat) : Nat :=
  if x < 10 then nDigits
  else if x < 100 then nDigits + 1
  else if x < 1000 then nDigits + 2
  else if x < 10000 then nDigits + 3
  else countDigits (x / 10000) (nDigits + 4)

/-- The loop that writes the digits, two at a time, in front of what it has written. -/
def writeDigits (absValue : Nat) (written : List Char) : List Char :=
  if 100 ≤ absValue then writeDigits (absValue / 100) (digitsTo99 (absValue % 100) ++ written)
  else if 10 ≤ absValue then digitsTo99 absValue ++ written
  else Char.ofNat ('0'.toNat + absValue) :: written

/-- The first `n_chars` characters of the buffer, whose end the loop has written. -/
def dumpInteger (x : Int) : List Char :=
  if x = 0 then ['0']
  else
    let nChars := countDigits x.natAbs 1
    let digits := writeDigits x.natAbs []
    let buffer := List.replicate (nChars - digits.length) '\x00' ++ digits
    if x < 0 then '-' :: buffer.take nChars else buffer.take nChars

mutual

/-- `dump()` without an indentation. -/
def dump (dumpFloat : Rat → List Char) : Json → List Char
  | null => ['n', 'u', 'l', 'l']
  | boolean true => ['t', 'r', 'u', 'e']
  | boolean false => ['f', 'a', 'l', 's', 'e']
  | number i => dumpInteger i
  | numberFloat q => dumpFloat q
  | string s => dumpString s
  | array l => '[' :: (dumpElements dumpFloat l ++ [']'])
  | object m => '{' :: (dumpMembers dumpFloat m ++ ['}'])

def dumpElements (dumpFloat : Rat → List Char) : List Json → List Char
  | [] => []
  | [j] => j.dump dumpFloat
  | j :: l => j.dump dumpFloat ++ ',' :: dumpElements dumpFloat l

def dumpMembers (dumpFloat : Rat → List Char) : List (String × Json) → List Char
  | [] => []
  | [(key, j)] => dumpString key ++ ':' :: j.dump dumpFloat
  | (key, j) :: m => dumpString key ++ ':' :: (j.dump dumpFloat ++ ',' :: dumpMembers dumpFloat m)

end

/-! ### Integers -/

theorem toDigits_of_ten_le {n : Nat} (h : 10 ≤ n) :
    Nat.toDigits 10 n = Nat.toDigits 10 (n / 10) ++ [Nat.digitChar (n % 10)] :=
  Nat.toDigits_of_base_le (by decide) h

private theorem writeDigits_eq (n : Nat) (written : List Char) :
    writeDigits n written = Nat.toDigits 10 n ++ written := by
  induction n using Nat.strong_induction_on generalizing written with
  | _ n ih =>
    unfold writeDigits
    split
    · have hquot : n / 10 / 10 = n / 100 := by omega
      have htens : n % 100 / 10 = n / 10 % 10 := by omega
      have hones : n % 100 % 10 = n % 10 := by omega
      rw [ih (n / 100) (by omega), toDigits_of_ten_le (by omega : 10 ≤ n),
        toDigits_of_ten_le (by omega : 10 ≤ n / 10), hquot, digitsTo99, htens, hones]
      simp
    split
    · rename_i hle
      rw [toDigits_of_ten_le hle, Nat.toDigits_of_lt_base (by omega), digitsTo99]
      rfl
    · have hdigit : n < 10 := by omega
      have hchar : ∀ m < 10, Char.ofNat ('0'.toNat + m) = Nat.digitChar m := by decide
      rw [Nat.toDigits_of_lt_base hdigit, hchar n hdigit]
      rfl

private theorem length_toDigits_of_ten_le {n : Nat} (h : 10 ≤ n) :
    (Nat.toDigits 10 n).length = (Nat.toDigits 10 (n / 10)).length + 1 := by
  rw [toDigits_of_ten_le h, List.length_append]
  rfl

private theorem length_toDigits_of_lt_ten {n : Nat} (h : n < 10) : (Nat.toDigits 10 n).length = 1 := by
  rw [Nat.toDigits_of_lt_base h]
  rfl

/-- `count_digits` counts the digits. -/
private theorem countDigits_eq (n k : Nat) : countDigits n (k + 1) = (Nat.toDigits 10 n).length + k := by
  induction n using Nat.strong_induction_on generalizing k with
  | _ n ih =>
    unfold countDigits
    split
    · rename_i h
      rw [length_toDigits_of_lt_ten h]
      omega
    have h₁ := length_toDigits_of_ten_le (by omega : 10 ≤ n)
    split
    · have h₀ := length_toDigits_of_lt_ten (by omega : n / 10 < 10)
      omega
    have h₂ := length_toDigits_of_ten_le (by omega : 10 ≤ n / 10)
    split
    · have h₀ := length_toDigits_of_lt_ten (by omega : n / 10 / 10 < 10)
      omega
    have h₃ := length_toDigits_of_ten_le (by omega : 10 ≤ n / 10 / 10)
    split
    · have h₀ := length_toDigits_of_lt_ten (by omega : n / 10 / 10 / 10 < 10)
      omega
    have h₄ := length_toDigits_of_ten_le (by omega : 10 ≤ n / 10 / 10 / 10)
    have hquot : n / 10 / 10 / 10 / 10 = n / 10000 := by omega
    rw [hquot] at h₄
    have hrest : countDigits (n / 10000) (k + 1 + 4) = (Nat.toDigits 10 (n / 10000)).length + (k + 4) :=
      ih (n / 10000) (by omega) (k + 4)
    omega

/-- What `dump_integer` takes from its buffer is the integer in decimal notation. -/
theorem dumpInteger_eq (x : Int) :
    dumpInteger x = if x < 0 then '-' :: Nat.toDigits 10 x.natAbs else Nat.toDigits 10 x.natAbs := by
  unfold dumpInteger
  split
  · rename_i h
    subst h
    rfl
  · have hcount : countDigits x.natAbs 1 = (Nat.toDigits 10 x.natAbs).length := countDigits_eq x.natAbs 0
    simp only [writeDigits_eq, List.append_nil, hcount, Nat.sub_self, List.replicate_zero, List.nil_append,
      List.take_length]

end Json

end LeetBot
