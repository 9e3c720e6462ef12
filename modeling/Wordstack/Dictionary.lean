import Wordstack.Effect.Basic
import Wordstack.Source.Location
import Wordstack.Table

/-!
# The dictionary

What is known of each word, by name.  A later definition of a name replaces an earlier one.
-/

namespace Wordstack

/-- The entry of a word. -/
structure Entry where
  name : String
  effect : StackEffect := {}
  description : String := ""
  /-- Where the word was added; a word of the language itself has no such place. -/
  location : Option Location := none
  /-- The position of the word's handler. -/
  handlerIndex : Nat
  deriving DecidableEq, Repr

/-- The known words. -/
abbrev Dictionary := Table Entry

namespace Dictionary

/-- A text followed by spaces up to a number of characters. -/
def pad (width : Nat) (text : String) : String :=
  text ++ String.ofList (List.replicate (width - text.length) ' ')

/-- The greatest length in bytes of some texts. -/
def widest (texts : List String) : Nat :=
  (texts.map String.utf8ByteSize).foldl max 0

/-- The listing of the words in order of their names.  The columns are as wide as their longest
entry has bytes. -/
def listing (dictionary : Dictionary) : String :=
  let nameWidth := widest dictionary.names
  let effectWidth := widest (dictionary.values.map (·.effect.text))
  toString dictionary.size ++ " words defined.\n\n"
    ++ String.join (dictionary.entries.map fun entry =>
      pad nameWidth entry.1 ++ "  " ++ pad effectWidth entry.2.effect.text ++ "  --  "
        ++ entry.2.description ++ "\n")

end Dictionary

end Wordstack
