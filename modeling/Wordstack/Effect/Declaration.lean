import Wordstack.Effect.Basic
import Wordstack.Text.Blank

/-!
# Word declarations

A declaration has the form `name ( inputs -- outputs )`, its parts separated by blanks.
-/

namespace Wordstack

/-- Why a text is no declaration. -/
inductive DeclarationFault where
  | missingName
  | missingOpening
  | secondSeparator
  | unknownType (part : String)
  | missingClosing
  | missingSeparator
  | trailingText
  deriving DecidableEq, Repr

/-- The reason in words. -/
def DeclarationFault.reason : DeclarationFault → String
  | missingName => "missing the word name"
  | missingOpening => "expected '(' after the word name"
  | secondSeparator => "more than one '--'"
  | unknownType part => "unknown type '" ++ part ++ "'"
  | missingClosing => "missing the closing ')'"
  | missingSeparator => "missing the '--' separator"
  | trailingText => "unexpected text after ')'"

/-- A word's name and effect. -/
structure Declaration where
  name : String
  effect : StackEffect
  deriving DecidableEq, Repr

namespace Declaration

/-- The parts of a text that blanks separate. -/
def parts (text : String) : List String :=
  (Text.words text.toList).map String.ofList

/-- Reads the outputs up to the closing parenthesis, which must be the last part. -/
def readOutputs : List String → Except DeclarationFault (List Slot)
  | [] => .error .missingClosing
  | part :: rest =>
    if part = "--" then .error .secondSeparator
    else if part = ")" then if rest.isEmpty then .ok [] else .error .trailingText
    else
      match Slot.ofText? part with
      | none => .error (.unknownType part)
      | some slot => (readOutputs rest).map (slot :: ·)

/-- Reads the inputs up to the separator, and then the outputs. -/
def readSlots : List String → Except DeclarationFault StackEffect
  | [] => .error .missingClosing
  | part :: rest =>
    if part = "--" then (readOutputs rest).map fun outputs => { outputs }
    else if part = ")" then .error .missingSeparator
    else
      match Slot.ofText? part with
      | none => .error (.unknownType part)
      | some slot =>
        (readSlots rest).map fun effect => { effect with inputs := slot :: effect.inputs }

/-- Reads a declaration from its parts. -/
def ofParts : List String → Except DeclarationFault Declaration
  | [] => .error .missingName
  | name :: "(" :: rest => (readSlots rest).map fun effect => { name, effect }
  | _ => .error .missingOpening

/-- Reads a declaration. -/
def ofText (text : String) : Except DeclarationFault Declaration :=
  ofParts (parts text)

end Declaration

end Wordstack
