import Wordstack.Effect.Basic

/-!
# The words of the language

Every word that the language brings along, with its name, its stack effect and a description.  What
each does is in the modules of the vocabulary.
-/

namespace Wordstack

/-- A word of the language. -/
inductive Builtin where
  | dup | drop | swap | clear
  | add | subtract | multiply | divide
  | equal | notEqual | less | greater | lessEqual | greaterEqual
  | and | or | not
  | append | appendInPlace | prepend | prependInPlace | concat | concatInPlace
  | count | length | first | last | nth | join
  | split | words | textConcat
  | call | choose | times | each | map
  | newScope | getScope | setField | getField | increase | decrease | increment | decrement
  | print | puts
  deriving DecidableEq, Repr

namespace Builtin

/-- The words that move values on the stack. -/
def stackWords : List Builtin :=
  [dup, drop, swap, clear]

/-- The words of arithmetic, comparison and logic. -/
def mathWords : List Builtin :=
  [add, subtract, multiply, divide, equal, notEqual, less, greater, lessEqual, greaterEqual,
    and, or, not]

/-- The words on arrays. -/
def arrayWords : List Builtin :=
  [append, appendInPlace, prepend, prependInPlace, concat, concatInPlace, count, length, first,
    last, nth, join]

/-- The words on strings. -/
def stringWords : List Builtin :=
  [split, words, textConcat]

/-- The words that run quotations. -/
def controlWords : List Builtin :=
  [call, choose, times, each, map]

/-- The words on scopes. -/
def scopeWords : List Builtin :=
  [newScope, getScope, setField, getField, increase, decrease, increment, decrement]

/-- The core words, in the order in which they are added. -/
def base : List Builtin :=
  stackWords ++ mathWords ++ arrayWords ++ stringWords ++ controlWords ++ scopeWords

/-- The words that write to the output. -/
def outputWords : List Builtin :=
  [print, puts]

/-- Every word of the language, in the order in which they are added. -/
def all : List Builtin :=
  base ++ outputWords

/-- The name of a word. -/
def name : Builtin → String
  | dup => "dup"
  | drop => "drop"
  | swap => "swap"
  | clear => "clear"
  | add => "+"
  | subtract => "-"
  | multiply => "*"
  | divide => "/"
  | equal => "="
  | notEqual => "!="
  | less => "<"
  | greater => ">"
  | lessEqual => "<="
  | greaterEqual => ">="
  | and => "and"
  | or => "or"
  | not => "not"
  | append => "append"
  | appendInPlace => "append!"
  | prepend => "prepend"
  | prependInPlace => "prepend!"
  | concat => "concat"
  | concatInPlace => "concat!"
  | count => "count"
  | length => "length"
  | first => "first"
  | last => "last"
  | nth => "nth"
  | join => "join"
  | split => "split"
  | words => "w"
  | textConcat => "str-concat"
  | call => "call"
  | choose => "if"
  | times => "times"
  | each => "each"
  | map => "map"
  | newScope => "new-scope"
  | getScope => "get-scope"
  | setField => "<<"
  | getField => ">>"
  | increase => "inc"
  | decrease => "dec"
  | increment => "1+"
  | decrement => "1-"
  | print => "print"
  | puts => "puts"

/-- A slot that passes the value itself, whatever its type. -/
def anyValue : Slot :=
  { spec := .any, escaped := true }

/-- A slot of any type. -/
def anything : Slot :=
  { spec := .any }

/-- A slot that passes an integer or a float. -/
def numeric : Slot :=
  { spec := .numeric }

/-- A slot of one type. -/
def typed (type : ValueType) : Slot :=
  { spec := .exact type }

/-- The stack effect of a word. -/
def effect : Builtin → StackEffect
  | dup => ⟨[anyValue], [anyValue, anyValue]⟩
  | drop => ⟨[anyValue], []⟩
  | swap => ⟨[anyValue, anyValue], [anyValue, anyValue]⟩
  | clear => ⟨[], []⟩
  | add | subtract | multiply | divide =>
    ⟨[numeric, numeric], [{ spec := .numeric, escaped := true }]⟩
  | equal | notEqual | less | greater | lessEqual | greaterEqual =>
    ⟨[anything, anything], [typed .boolean]⟩
  | and | or => ⟨[typed .boolean, typed .boolean], [typed .boolean]⟩
  | not => ⟨[typed .boolean], [typed .boolean]⟩
  | append | prepend => ⟨[typed .array, anyValue], [typed .array]⟩
  | appendInPlace | prependInPlace => ⟨[typed .array, anyValue], []⟩
  | concat => ⟨[typed .array, typed .array], [typed .array]⟩
  | concatInPlace => ⟨[typed .array, typed .array], []⟩
  | count | length => ⟨[typed .array], [typed .integer]⟩
  | first | last => ⟨[typed .array], [anyValue]⟩
  | nth => ⟨[typed .array, typed .integer], [anyValue]⟩
  | join => ⟨[typed .array, typed .string], [typed .string]⟩
  | split => ⟨[typed .string, typed .string], [typed .array]⟩
  | words => ⟨[typed .string], [typed .array]⟩
  | textConcat => ⟨[typed .string, typed .string], [typed .string]⟩
  | call => ⟨[typed .array], []⟩
  | choose => ⟨[typed .boolean, typed .array, typed .array], []⟩
  | times => ⟨[typed .integer, typed .array], []⟩
  | each => ⟨[typed .array, typed .array], []⟩
  | map => ⟨[typed .array, typed .array], [typed .array]⟩
  | newScope => ⟨[typed .string], []⟩
  | getScope => ⟨[typed .string], [typed .scope]⟩
  | setField => ⟨[typed .scope, typed .string, anyValue], []⟩
  | getField => ⟨[typed .scope, typed .string], [anyValue]⟩
  | increase | decrease => ⟨[typed .scope, typed .string, typed .integer], []⟩
  | increment | decrement => ⟨[typed .scope, typed .string], []⟩
  | print | puts => ⟨[typed .string], []⟩

/-- The description of a word in the listing. -/
def description : Builtin → String
  | dup => "Duplicate the top value on the data stack."
  | drop => "Discard the top value on the data stack."
  | swap => "Swap the top 2 values on the data stack."
  | clear => "Remove every value from the data stack."
  | add => "Add two numbers."
  | subtract => "Subtract the top number from the one below it."
  | multiply => "Multiply two numbers."
  | divide => "Divide the second number by the top one."
  | equal => "Are the two values of the same type and equal?"
  | notEqual => "Do the two values differ in type or value?"
  | less => "Is the second value less than the top one?"
  | greater => "Is the second value greater than the top one?"
  | lessEqual => "Is the second value less than or equal to the top one?"
  | greaterEqual => "Is the second value greater than or equal to the top one?"
  | and => "Are both booleans true?"
  | or => "Is either boolean true?"
  | not => "Flip a boolean."
  | append => "Copy the array with the value added to the end."
  | appendInPlace => "Add the value to the end of the array."
  | prepend => "Copy the array with the value added to the front."
  | prependInPlace => "Add the value to the front of the array."
  | concat => "Make a new array from the elements of two arrays."
  | concatInPlace => "Append the elements of the top array to the one below it."
  | count | length => "Get the number of elements in an array."
  | first => "Get the first element of an array."
  | last => "Get the last element of an array."
  | nth => "Get the element at an index, negative indices count from the end."
  | join => "Join the text of an array's elements with a separator."
  | split => "Split a string on a separator into an array of strings."
  | words => "Split a string on whitespace into an array of strings."
  | textConcat => "Join two strings together."
  | call => "Execute a quotation."
  | choose => "Execute the first quotation if the flag is true, otherwise the second."
  | times => "Execute a quotation a number of times."
  | each => "Push each element of an array and execute a quotation on it."
  | map => "Collect the result of executing a quotation on each element of an array."
  | newScope => "Register a new empty scope under a name."
  | getScope => "Get a registered scope by name."
  | setField => "Write a field of a scope."
  | getField => "Read a field of a scope."
  | increase => "Add an amount to an integer field of a scope."
  | decrease => "Subtract an amount from an integer field of a scope."
  | increment => "Add one to an integer field of a scope."
  | decrement => "Subtract one from an integer field of a scope."
  | print => "Write a string to standard output."
  | puts => "Write a string and a new line to standard output."

end Builtin

end Wordstack
