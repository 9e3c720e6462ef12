import Wordstack.Effect.Declaration
import Wordstack.Source.Location
import Wordstack.Value.Render

/-!
# Errors

Each way a script can fail is a cause.  A cause has a kind, which hosts tell apart, and a message.
An error is a cause together with where reading had got to and which words were running, as far as
that is known.
-/

namespace Wordstack

/-- The broad category of a failure. -/
inductive Kind where
  | stackUnderflow
  | typeMismatch
  | unknownWord
  | unterminatedDelimiter
  | undefinedScope
  | invalidSignature
  | runtime
  | outside
  deriving DecidableEq, Repr

/-- The name of a kind. -/
def Kind.text : Kind → String
  | stackUnderflow => "stack underflow"
  | typeMismatch => "type mismatch"
  | unknownWord => "unknown word"
  | unterminatedDelimiter => "unterminated delimiter"
  | undefinedScope => "undefined scope"
  | invalidSignature => "invalid signature"
  | runtime => "runtime error"
  | outside => "I/O error"

/-- Why a file can not be read. -/
inductive FileFault where
  | notFound
  | notDirectory
  | isDirectory
  | nameTooLong
  | nulInName
  deriving DecidableEq, Repr

/-- The reason in words. -/
def FileFault.text : FileFault → String
  | notFound => "No such file or directory (os error 2)"
  | notDirectory => "Not a directory (os error 20)"
  | isDirectory => "Is a directory (os error 21)"
  | nameTooLong => "File name too long (os error 36)"
  | nulInName => "file name contained an unexpected NUL byte"

/-- Why a script fails. -/
inductive Cause where
  /-- A value was to be popped off the empty stack. -/
  | emptyStack
  /-- The popped value is no string. -/
  | notString (found : Shown)
  /-- The stack holds fewer values than the word takes. -/
  | tooFewValues (word : String) (effect : StackEffect) (held : Nat)
  /-- A value on the stack does not fit the word's input. -/
  | unfitInput (word : String) (effect : StackEffect) (wanted : SlotType) (found : Shown)
  /-- Nobody knows the word. -/
  | unknownWord (name : String)
  /-- The word's entry points at no handler. -/
  | missingHandler (word : String) (index : Nat)
  /-- A quoted text is never closed. -/
  | unclosedQuote
  /-- The source ended before the delimiter. -/
  | unclosedDelimiter (delimiter : String)
  /-- There is no source to parse. -/
  | noSource
  /-- There is no accumulator to collect into. -/
  | notParsing
  /-- A word that collects source text ran outside a parse. -/
  | untilOutsideParse
  /-- There is no source to leave. -/
  | noLexer
  /-- There is no accumulator to finish. -/
  | noAccumulator
  /-- A dotted path leads nowhere. -/
  | unresolvedPath (path : String)
  /-- No scope has the name. -/
  | unknownScope (name : String)
  /-- A scope has no such field. -/
  | unknownField (key scope : String)
  /-- A field to be adjusted holds no integer. -/
  | notAdjustable (key : String) (found : Option String)
  /-- An adjusted field would leave the range of integers. -/
  | adjustOverflow (key : String)
  /-- A declaration could not be read. -/
  | badDeclaration (text : String) (fault : DeclarationFault)
  /-- A handler asks for more inputs than its word declared. -/
  | missingArgument (wanted : String)
  /-- A handler asks for another kind of input than its word declared. -/
  | wrongArgument (wanted found : String)
  /-- A handler returned another number of outputs than its word declared. -/
  | wrongCount (declared returned : Nat)
  /-- A handler returned no value that fits the escaped output. -/
  | unfitEscaped (slot : Slot) (found : String)
  /-- A handler returned a value that does not fit the output. -/
  | unfitOutput (slot : Slot) (found : Shown)
  /-- An integer result would leave the range of integers. -/
  | overflow
  /-- An integer is divided by zero. -/
  | divisionByZero
  /-- Two values have no order. -/
  | unordered (a b : Shown)
  /-- An empty array has no first element. -/
  | firstOfEmpty
  /-- An empty array has no last element. -/
  | lastOfEmpty
  /-- An index lies outside the array. -/
  | outOfBounds (index : Int64) (size : Nat)
  /-- A checked index found no element. -/
  | noElement (index : Int64)
  /-- A file could not be read. -/
  | file (fault : FileFault)
  /-- The host gave up. -/
  | host (kind : Kind) (message : String)
  /-- A cause raised without context, inside a running word. -/
  | inWord (name : String) (cause : Cause)
  deriving DecidableEq, Repr

namespace Cause

/-- The kind of a cause. -/
def kind : Cause → Kind
  | emptyStack | tooFewValues .. => .stackUnderflow
  | notString _ | unfitInput .. | notAdjustable .. | unordered .. => .typeMismatch
  | unknownWord _ => .unknownWord
  | unclosedQuote | unclosedDelimiter _ => .unterminatedDelimiter
  | unresolvedPath _ | unknownScope _ | unknownField .. => .undefinedScope
  | badDeclaration .. | missingArgument _ | wrongArgument .. | wrongCount ..
  | unfitEscaped .. | unfitOutput .. => .invalidSignature
  | missingHandler .. | noSource | notParsing | untilOutsideParse | noLexer | noAccumulator
  | adjustOverflow _ | overflow | divisionByZero | firstOfEmpty | lastOfEmpty
  | outOfBounds .. | noElement _ => .runtime
  | file _ => .outside
  | host kind _ => kind
  | inWord _ cause => cause.kind

/-- The message of a cause. -/
def message : Cause → String
  | emptyStack => "Stack underflow."
  | notString found => "Expected a string, found " ++ found.phrase ++ "."
  | tooFewValues word effect held =>
    "Word " ++ word ++ " " ++ effect.text ++ " needs " ++ toString effect.inputs.length
      ++ " value(s) but the stack holds " ++ toString held ++ "."
  | unfitInput word effect wanted found =>
    "Word " ++ word ++ " " ++ effect.text ++ " expected " ++ wanted.name ++ " but found "
      ++ found.phrase ++ "."
  | unknownWord name => "Word '" ++ name ++ "' not defined."
  | missingHandler word index =>
    "Handler for word " ++ word ++ ", (" ++ toString index ++ ") not found."
  | unclosedQuote => "Missing closing '\"' for string literal."
  | unclosedDelimiter delimiter =>
    "Expected '" ++ delimiter ++ "' but reached the end of the input."
  | noSource => "No source to parse."
  | notParsing => "Not currently parsing."
  | untilOutsideParse => "parse-until can only be used while parsing."
  | noLexer => "Lexer stack underflow."
  | noAccumulator => "Accumulator stack underflow."
  | unresolvedPath path => "Scope path '@" ++ path ++ "' does not resolve."
  | unknownScope name => "Scope '" ++ name ++ "' is not defined."
  | unknownField key scope => "Field '" ++ key ++ "' is not defined in " ++ scope ++ "."
  | notAdjustable key found =>
    "Field '" ++ key ++ "' must hold an integer to be adjusted, found "
      ++ found.getD "nothing" ++ "."
  | adjustOverflow key => "Integer overflow adjusting field '" ++ key ++ "'."
  | badDeclaration text fault =>
    "Invalid word declaration '" ++ text ++ "': " ++ fault.reason ++ "."
  | missingArgument wanted => "Expected " ++ wanted ++ " argument, none left."
  | wrongArgument wanted found => "Expected " ++ wanted ++ " argument, found " ++ found ++ "."
  | wrongCount declared returned =>
    "Word declared " ++ toString declared ++ " output(s) but returned " ++ toString returned ++ "."
  | unfitEscaped slot found =>
    "Escaped output " ++ slot.text ++ " expects a tagged value of that type, got " ++ found ++ "."
  | unfitOutput slot found =>
    "Output " ++ slot.text ++ " can not hold the " ++ found.type.name ++ " value " ++ found.text
      ++ "."
  | overflow => "Integer overflow."
  | divisionByZero => "Division by zero."
  | unordered a b => "Can not order " ++ a.phrase ++ " against " ++ b.phrase ++ "."
  | firstOfEmpty => "first of an empty array."
  | lastOfEmpty => "last of an empty array."
  | outOfBounds index size =>
    "Index " ++ toString index.toInt ++ " is out of bounds for array of size " ++ toString size
      ++ "."
  | noElement index => "Index " ++ toString index.toInt ++ " is out of bounds."
  | file fault => "I/O error: " ++ fault.text
  | host _ message => message
  | inWord name cause => name ++ ": " ++ cause.message

end Cause

/-- A failure with its context. -/
structure Error where
  cause : Cause
  /-- Where reading had got to. -/
  location : Option Location := none
  /-- The running words, innermost first. -/
  calls : Option (List String) := none
  deriving DecidableEq, Repr

namespace Error

/-- The kind of an error. -/
def kind (error : Error) : Kind :=
  error.cause.kind

/-- The message of an error. -/
def message (error : Error) : String :=
  error.cause.message

/-- The listing of the running words, innermost first; nothing if there are none. -/
def callText : List String → String
  | [] => ""
  | calls => "\n\nCall stack\n" ++ String.join (calls.map fun name => "  " ++ name ++ "\n")

/-- The report of an error, as scripts' users see it. -/
def text (error : Error) : String :=
  (error.location.elim "" fun place => place.text ++ ": ") ++ error.message
    ++ callText (error.calls.getD [])

/-- The report with the kind after it. -/
def describe (error : Error) : String :=
  error.text ++ " (" ++ error.kind.text ++ ")"

end Error

end Wordstack
