import Mathlib.Algebra.Group.Int.Defs
import Mathlib.Algebra.Group.Nat.Defs
import Mathlib.Data.List.Basic
import Mathlib.Tactic.Common

/-!
# JSON values as the bot reads them

The values of `nlohmann::json` and the accessors the bot uses, with the texts of the exceptions they throw.  A
`std::exception` is its `what()` text, so a throwing accessor has a result in `Except String`.

Text becomes a value by `nlohmann::json::parse`, which is a parameter `parse : String → Except String Json` of
everything that reads a response: `.error` is the `parse_error` it throws, and `accept` says whether it throws.
A `std::string` is a `String`; the bytes of a body that are not text are not JSON either, so such a body is any
string that `parse` refuses.
-/

namespace LeetBot

inductive Json where
  | null
  | boolean (b : Bool)
  | number (i : Int)
  | numberFloat (q : Rat)
  | string (s : String)
  | array (elements : List Json)
  | object (members : List (String × Json))

/-- `static_cast<int>` of an integer: the 32 low bits, signed. -/
def toInt32 (i : Int) : Int := i.bmod (2 ^ 32)

namespace Json

def typeName : Json → String
  | null => "null"
  | boolean _ => "boolean"
  | number _ => "number"
  | numberFloat _ => "number"
  | string _ => "string"
  | array _ => "array"
  | object _ => "object"

def isNull : Json → Bool
  | null => true
  | _ => false

def empty : Json → Bool
  | null => true
  | array l => l.isEmpty
  | object m => m.isEmpty
  | _ => false

/-- What a range-based `for` visits: a primitive value is a range of one element, itself. -/
def elements : Json → List Json
  | null => []
  | array l => l
  | object m => m.map Prod.snd
  | j => [j]

private def indexError (j : Json) : String :=
  "[json.exception.type_error.305] cannot use operator[] with a string argument with " ++ j.typeName

/-- `operator[]` on a mutable value: null becomes an object, and a missing member is inserted as null.  Later
accesses see the inserted null just as they would see the missing member, so the new value is not returned. -/
def index (j : Json) (key : String) : Except String Json :=
  match j with
  | null => .ok null
  | object m => .ok ((m.lookup key).getD null)
  | j => .error (indexError j)

/-- `operator[]` on a const value.  The header asserts that the key is present.  A missing key, which a response with
the queried members does not have, is undefined behaviour without assertions, and stands here as an exception. -/
def constIndex (j : Json) (key : String) : Except String Json :=
  match j with
  | object m =>
      match m.lookup key with
      | some v => .ok v
      | none => .error "it != m_value.object->end()"
  | j => .error (indexError j)

private def typeError (expected : String) (j : Json) : String :=
  "[json.exception.type_error.302] type must be " ++ expected ++ ", but is " ++ j.typeName

/-- `get<std::string>()` -/
def getString : Json → Except String String
  | string s => .ok s
  | j => .error (typeError "string" j)

/-- `get<int>()`, which also converts a boolean.  A float beyond the range of `int` is undefined behaviour; LeetCode
sends integers here. -/
def getInt : Json → Except String Int
  | number i => .ok (toInt32 i)
  | numberFloat q => .ok (toInt32 (q.num.tdiv q.den))
  | boolean b => .ok (if b then 1 else 0)
  | j => .error (typeError "number" j)

/-- `get<double>()`, where a double is the rational number that is written; the rounding of decimals that no double
represents is left out. -/
def getDouble : Json → Except String Rat
  | number i => .ok i
  | numberFloat q => .ok q
  | j => .error (typeError "number" j)

/-- `get<bool>()` -/
def getBool : Json → Except String Bool
  | boolean b => .ok b
  | j => .error (typeError "boolean" j)

/-- `j.is_null() ? otherwise : j.get<T>()` -/
def getOr {α : Type} (otherwise : α) (get : Json → Except String α) (j : Json) : Except String α :=
  if j.isNull then .ok otherwise else get j

@[simp] theorem isNull_null : null.isNull = true := rfl

theorem isNull_iff {j : Json} : j.isNull = true ↔ j = null := by
  cases j <;> simp [isNull]

@[simp] theorem index_null (key : String) : null.index key = .ok null := rfl

@[simp] theorem index_object (m : List (String × Json)) (key : String) :
    (object m).index key = .ok ((m.lookup key).getD null) := rfl

end Json

/-- `nlohmann::json::accept` -/
def accept (parse : String → Except String Json) (body : String) : Bool :=
  match parse body with
  | .ok _ => true
  | .error _ => false

end LeetBot
