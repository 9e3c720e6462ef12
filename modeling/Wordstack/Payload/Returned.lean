import Wordstack.Payload.Basic

/-!
# Returned payloads

What a handler hands back must be as many payloads as its word declared.
-/

namespace Wordstack

/-- What a handler hands back. -/
inductive Returned where
  | nothing
  | one (payload : Payload)
  | many (payloads : List Payload)

namespace Returned

/-- The payloads handed back, in order. -/
def toList : Returned → List Payload
  | nothing => []
  | one payload => [payload]
  | many payloads => payloads

/-- The payloads handed back, if they are as many as declared. -/
def payloads (returned : Returned) (arity : Nat) : Except Cause (List Payload) :=
  if returned.toList.length = arity then .ok returned.toList
  else .error (.wrongCount arity returned.toList.length)

end Returned

end Wordstack
