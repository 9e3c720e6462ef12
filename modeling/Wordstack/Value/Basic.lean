import Wordstack.Numeral
import Wordstack.Source.Lexeme

/-!
# Values

Every literal, every array element, every input and every output of a word is a value.  Arrays and
scopes are shared, so a value holds only the identity of one; the contents are in the heap.
-/

namespace Wordstack

/-- The identity of an array. -/
structure ArrayId where
  index : Nat
  deriving DecidableEq, Repr

/-- The identity of a scope. -/
structure ScopeId where
  index : Nat
  deriving DecidableEq, Repr

/-- The type of a value, as declarations name it. -/
inductive ValueType where
  | word
  | string
  | integer
  | float
  | boolean
  | array
  | scope
  deriving DecidableEq, Repr

namespace ValueType

/-- Every type, in the order in which declarations list them. -/
def all : List ValueType :=
  [word, string, integer, float, boolean, array, scope]

/-- The name of a type. -/
def name : ValueType → String
  | word => "word"
  | string => "string"
  | integer => "integer"
  | float => "float"
  | boolean => "boolean"
  | array => "array"
  | scope => "scope"

/-- The type of a name. -/
def ofName? (name : String) : Option ValueType :=
  all.find? (·.name = name)

theorem ofName?_name (type : ValueType) : ofName? type.name = some type := by
  cases type <;> decide

end ValueType

/-- A value of the language. -/
inductive Value where
  /-- A name that runs the word it stands for. -/
  | word (text : String)
  | string (text : String)
  | int (n : Int64)
  | float (x : Float)
  | bool (flag : Bool)
  | array (id : ArrayId)
  | scope (id : ScopeId)
  deriving Inhabited

namespace Value

/-- The type of a value. -/
def type : Value → ValueType
  | word _ => .word
  | string _ => .string
  | int _ => .integer
  | float _ => .float
  | bool _ => .boolean
  | array _ => .array
  | scope _ => .scope

/-- The value of a number. -/
def ofNumber : Number → Value
  | .int n => int n
  | .float x => float x

/-- The value of a computed number: a float that is a whole number in range is an integer. -/
def ofComputed (n : Number) : Value :=
  ofNumber n.settle

/-- The value of a bare text: the number it spells, or else a word. -/
def ofText (text : String) : Value :=
  (Numeral.number? text.toList).elim (word text) ofNumber

/-- The value of a lexeme. -/
def ofLexeme : Lexeme → Value
  | .quoted text => string text
  | .bare text => ofText text

/-- The value a scanned value has in code: the words `t` and `f` are the booleans. -/
def asLiteral : Value → Value
  | word "t" => bool true
  | word "f" => bool false
  | value => value

/-- The number a value holds. -/
def number? : Value → Option Number
  | int n => some (.int n)
  | float x => some (.float x)
  | _ => none

/-- The text of a word or a string. -/
def text? : Value → Option String
  | word text => some text
  | string text => some text
  | _ => none

/-- The integer a value holds. -/
def int? : Value → Option Int64
  | int n => some n
  | _ => none

/-- The float a value holds. -/
def float? : Value → Option Float
  | float x => some x
  | _ => none

/-- The boolean a value holds. -/
def bool? : Value → Option Bool
  | bool flag => some flag
  | _ => none

/-- The text of a string. -/
def string? : Value → Option String
  | string text => some text
  | _ => none

/-- Whether a value is an integer or a float. -/
def isNumeric (value : Value) : Bool :=
  value.number?.isSome

/-- The order of two values: numbers against numbers, strings against strings and words against
words; anything else has none. -/
def compare : Value → Value → Option Ordering
  | string a, string b => some (Ord.compare a b)
  | word a, word b => some (Ord.compare a b)
  | a, b => do (← a.number?).compare (← b.number?)

end Value

end Wordstack
