import Wordstack.Text.Blank

/-!
# Splitting and joining

A text is split on every occurrence of a separator, left to right and without overlap.  The empty
separator splits into characters and the single space into blank-free runs.  Empty fields at the
end are dropped.  Joining puts the separator between the fields.
-/

namespace Wordstack.Text

/--
The fields between the occurrences of a separator, never none.  `skip` counts the characters left
of an occurrence whose first character has been read.
-/
def fieldsFrom (separator : List Char) (skip : Nat) : List Char → List (List Char)
  | [] => [[]]
  | c :: rest =>
    match skip with
    | left + 1 => fieldsFrom separator left rest
    | 0 =>
      if separator.isPrefixOf (c :: rest) then
        [] :: fieldsFrom separator (separator.length - 1) rest
      else growFirst c (fieldsFrom separator 0 rest)

/-- The fields between the occurrences of a non-empty separator. -/
def fields (separator text : List Char) : List (List Char) :=
  fieldsFrom separator 0 text

/-- Drops the empty fields at the end. -/
def dropTrailingEmpty : List (List Char) → List (List Char)
  | [] => []
  | field :: rest =>
    match dropTrailingEmpty rest with
    | [] => if field.isEmpty then [] else [field]
    | kept => field :: kept

/-- Splits a text on a separator; the empty separator and the single space have rules of their
own. -/
def split (text separator : List Char) : List (List Char) :=
  dropTrailingEmpty <|
    if separator.isEmpty then text.map fun c => [c]
    else if separator = [' '] then words text
    else fields separator text

/-- The fields with the separator between them. -/
def join (separator : List Char) : List (List Char) → List Char
  | [] => []
  | [field] => field
  | field :: rest => field ++ separator ++ join separator rest

end Wordstack.Text
