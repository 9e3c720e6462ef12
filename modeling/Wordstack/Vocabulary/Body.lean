import Wordstack.Machine.Exec
import Wordstack.Payload.Returned
import Wordstack.Payload.Taking

/-!
# Bodies of words

What runs when a word is called: from its inputs, on the machine, to its outputs.
-/

namespace Wordstack

/-- What a word does with its inputs. -/
abbrev Body (E : Embedding) := List Payload → Exec E Returned

namespace Exec

variable {E : Embedding} {α : Type}

/-- Takes a word's inputs; one that is not as asked for is reported without context. -/
def arguments (taking : Taking α) (payloads : List Payload) : Exec E α :=
  ofExcept ((taking.run payloads).map (·.1))

end Exec

end Wordstack
