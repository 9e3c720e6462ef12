import Wordstack.Source.Buffer
import Wordstack.Text.Blank

/-!
# Lexemes

The scanner cuts a source text into lexemes.  Blanks separate them.  A double quote opens a quoted
text that runs up to the next double quote.  Anything else is a bare lexeme: a maximal blank-free
run, double quotes inside it included.
-/

namespace Wordstack

/-- A piece of source text that stands for one value. -/
inductive Lexeme where
  | quoted (text : String)
  | bare (text : String)
  deriving DecidableEq, Repr

/-- What one scan finds: a lexeme, the end of the text, or a quoted text that is never closed, with
the place of its opening quote. -/
inductive Scan where
  | lexeme (found : Lexeme)
  | finished
  | unclosed (start : Location)
  deriving DecidableEq, Repr

namespace Buffer

/-- The double quote. -/
def quote : Char := '"'

/-- Scans the next lexeme, and gives the buffer after it.  A bare lexeme consumes the blank that
ends it, and a quoted text its closing quote; an unclosed text consumes everything. -/
def scan (buffer : Buffer) : Scan × Buffer :=
  let opened := buffer.skip Text.isBlank
  match opened.rest with
  | [] => (.finished, opened)
  | c :: _ =>
    if c = quote then
      let body := opened.drop 1
      let text := body.run (· != quote)
      let closed := body.drop text.length
      if closed.isExhausted then (.unclosed opened.location, closed)
      else (.lexeme (.quoted (String.ofList text)), closed.drop 1)
    else
      let text := opened.run (!Text.isBlank ·)
      (.lexeme (.bare (String.ofList text)), opened.drop (text.length + 1))

/-- Scans up to `count` lexemes, with the buffer after each, and gives how scanning ends. -/
def lexemesWithin (buffer : Buffer) : Nat → List (Lexeme × Buffer) × Scan × Buffer
  | 0 => ([], .finished, buffer)
  | count + 1 =>
    match buffer.scan with
    | (.lexeme found, after) =>
      let (more, ending) := after.lexemesWithin count
      ((found, after) :: more, ending)
    | ending => ([], ending)

/-- Scans every lexeme.  Each takes at least one character, so there are no more than characters. -/
def lexemes (buffer : Buffer) : List (Lexeme × Buffer) × Scan × Buffer :=
  buffer.lexemesWithin (buffer.rest.length + 1)

end Buffer

end Wordstack
