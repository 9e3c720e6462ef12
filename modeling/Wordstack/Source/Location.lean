/-!
# Source locations

A place in a source text: the path or tag of the text, and the line and column of the next
character, both counted from one.
-/

namespace Wordstack

/-- A place in a source text. -/
structure Location where
  path : String
  line : Nat
  column : Nat
  deriving DecidableEq, Repr

namespace Location

/-- The place before the first character. -/
def start (path : String) : Location :=
  { path, line := 1, column := 1 }

/-- The place after one more character. -/
def step (place : Location) (c : Char) : Location :=
  if c = '\n' then { place with line := place.line + 1, column := 1 }
  else { place with column := place.column + 1 }

/-- The place after a run of characters. -/
def advance (place : Location) (run : List Char) : Location :=
  run.foldl step place

/-- The text of a place, as error reports show it. -/
def text (place : Location) : String :=
  place.path ++ " (" ++ toString place.line ++ ", " ++ toString place.column ++ ")"

theorem advance_append (place : Location) (xs ys : List Char) :
    place.advance (xs ++ ys) = (place.advance xs).advance ys :=
  List.foldl_append

end Location

end Wordstack
