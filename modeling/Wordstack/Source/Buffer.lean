import Wordstack.Source.Location

/-!
# Source buffers

A forward-only reader over a source text.  One blank is appended to every text, so that the last
word is always followed by one.
-/

namespace Wordstack

/-- A source text being read: how much is consumed, where that leaves off, and what is left. -/
structure Buffer where
  cursor : Nat
  location : Location
  rest : List Char
  deriving DecidableEq, Repr

namespace Buffer

/-- The blank that ends every text. -/
def sentinel : Char := ' '

/-- A buffer at the start of a source text. -/
def ofSource (path source : String) : Buffer :=
  { cursor := 0, location := .start path, rest := source.toList ++ [sentinel] }

/-- Whether every character, the last blank included, has been consumed. -/
def isExhausted (b : Buffer) : Bool :=
  b.rest.isEmpty

/-- Consumes the first `n` characters. -/
def drop (b : Buffer) (n : Nat) : Buffer :=
  let run := b.rest.take n
  { cursor := b.cursor + run.length
    location := b.location.advance run
    rest := b.rest.drop n }

/-- The next character and the buffer after it. -/
def next? (b : Buffer) : Option (Char × Buffer) :=
  b.rest.head?.map fun c => (c, b.drop 1)

/-- Reads up to `count` characters one by one, with the buffer after each; nothing more is read at
the end of the text. -/
def readings (b : Buffer) : Nat → List (Option Char × Buffer)
  | 0 => []
  | count + 1 =>
    match b.next? with
    | some (c, after) => (some c, after) :: after.readings count
    | none => (none, b) :: b.readings count

/-- The longest run of characters that satisfy a test. -/
def run (b : Buffer) (test : Char → Bool) : List Char :=
  b.rest.takeWhile test

/-- Consumes the longest run of characters that satisfy a test. -/
def skip (b : Buffer) (test : Char → Bool) : Buffer :=
  b.drop (b.run test).length

end Buffer

end Wordstack
