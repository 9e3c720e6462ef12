import Wordstack.Machine.Basic

/-!
# Running on a machine

A computation on a machine has three outcomes, which are kept apart: it finishes with a result, it
raises an error, or the fuel that bounds its depth does not suffice.  An error leaves the machine as
it was when the error arose.
-/

namespace Wordstack

/-- How a computation on a machine ends. -/
inductive Outcome (E : Embedding) (α : Type) where
  | done (result : α) (machine : Machine E)
  | raised (error : Error) (machine : Machine E)
  | exhausted

/-- A computation on a machine. -/
def Exec (E : Embedding) (α : Type) : Type :=
  Machine E → Outcome E α

namespace Exec

variable {E : Embedding} {α β : Type}

instance : Monad (Exec E) where
  pure a := fun m => .done a m
  bind x f := fun m =>
    match x m with
    | .done a m' => f a m'
    | .raised e m' => .raised e m'
    | .exhausted => .exhausted

theorem pure_apply (a : α) (m : Machine E) : (pure a : Exec E α) m = .done a m := rfl

theorem bind_apply (x : Exec E α) (f : α → Exec E β) (m : Machine E) :
    (x >>= f) m =
      match x m with
      | .done a m' => f a m'
      | .raised e m' => .raised e m'
      | .exhausted => .exhausted := rfl

instance : LawfulMonad (Exec E) :=
  LawfulMonad.mk' (Exec E)
    (fun x => by
      funext m
      change (match x m with
        | .done a m' => .done a m'
        | .raised e m' => .raised e m'
        | .exhausted => .exhausted) = x m
      cases x m <;> rfl)
    (fun _ _ => rfl)
    (fun x f g => by
      funext m
      simp only [bind_apply]
      cases x m <;> rfl)

/-- The machine. -/
def machine : Exec E (Machine E) := fun m => .done m m

/-- Changes the machine. -/
def modify (f : Machine E → Machine E) : Exec E Unit := fun m => .done () (f m)

/-- Gives up for want of fuel. -/
def giveUp : Exec E α := fun _ => .exhausted

/-- Raises an error. -/
def throw (e : Error) : Exec E α := fun m => .raised e m

/-- Raises a cause with the context of the machine. -/
def raise (cause : Cause) : Exec E α := fun m => .raised (m.error cause) m

/-- Raises a cause without context. -/
def raiseBare (cause : Cause) : Exec E α := throw { cause }

/-- The result of a check that may find a cause, which is raised without context. -/
def ofExcept : Except Cause α → Exec E α
  | .ok a => pure a
  | .error cause => raiseBare cause

/-- Runs a computation and gives its result or its error, so that the caller can clean up. -/
def attempt (x : Exec E α) : Exec E (Except Error α) := fun m =>
  match x m with
  | .done a m' => .done (.ok a) m'
  | .raised e m' => .done (.error e) m'
  | .exhausted => .exhausted

/-- Raises the error that an attempt ended with. -/
def conclude : Except Error α → Exec E α
  | .ok a => pure a
  | .error e => throw e

/-- Adds the context of the machine to an error raised without one. -/
def withContext (x : Exec E α) : Exec E α := fun m =>
  match x m with
  | .raised e m' => .raised (m'.addContext e) m'
  | outcome => outcome

/-! ### The value stack -/

/-- Pushes a value. -/
def push (value : Value) : Exec E Unit :=
  modify fun m => { m with stack := value :: m.stack }

/-- Pops a value. -/
def pop : Exec E Value := fun m =>
  match m.stack with
  | [] => raise .emptyStack m
  | value :: stack => .done value { m with stack }

/-- Pops a value that must be a string; it is gone from the stack if it is not. -/
def popString : Exec E String := do
  match ← pop with
  | .string text => pure text
  | value => raise (.notString ((← machine).heap.shown value))

/-! ### The heap and the output -/

/-- Makes a new array. -/
def newArray (values : List Value) : Exec E ArrayId := fun m =>
  let made := m.heap.newArray values
  .done made.1 { m with heap := made.2 }

/-- Makes a new empty scope. -/
def newScope : Exec E ScopeId := fun m =>
  let made := m.heap.newScope
  .done made.1 { m with heap := made.2 }

/-- Changes the heap. -/
def modifyHeap (f : Heap → Heap) : Exec E Unit :=
  modify fun m => { m with heap := f m.heap }

/-- The elements of an array. -/
def items (id : ArrayId) : Exec E (List Value) := do
  return (← machine).heap.items id

/-- Writes to the output. -/
def write (text : String) : Exec E Unit :=
  modify fun m => { m with output := m.output ++ text }

/-! ### The parses in progress -/

/-- Starts reading a source text. -/
def pushLexer (buffer : Buffer) : Exec E Unit :=
  modify fun m => { m with lexers := buffer :: m.lexers }

/-- Stops reading the innermost source text. -/
def popLexer : Exec E Buffer := fun m =>
  match m.lexers with
  | [] => raise .noLexer m
  | buffer :: lexers => .done buffer { m with lexers }

/-- Scans the innermost source text; nothing if there is none. -/
def scan : Exec E (Option Scan) := fun m =>
  match m.lexers with
  | [] => .done none m
  | buffer :: lexers =>
    let scanned := buffer.scan
    .done (some scanned.1) { m with lexers := scanned.2 :: lexers }

/-- Starts collecting into a new accumulator. -/
def pushAccumulator : Exec E Unit :=
  modify fun m => { m with accumulators := [] :: m.accumulators }

/-- Finishes the innermost accumulator and gives what it collected, in order. -/
def popAccumulator : Exec E (List Value) := fun m =>
  match m.accumulators with
  | [] => raise .noAccumulator m
  | values :: accumulators => .done values.reverse { m with accumulators }

/-- Collects a value into the innermost accumulator. -/
def accumulate (value : Value) : Exec E Unit := fun m =>
  match m.accumulators with
  | [] => raise .notParsing m
  | values :: accumulators =>
    .done () { m with accumulators := (value :: values) :: accumulators }

/-- The value collected last, if any. -/
def lastCollected : Exec E (Option Value) := do
  return (← machine).accumulators.head?.bind List.head?

/-! ### The words -/

/-- Adds a word by its declaration; one that can not be read is reported without context. -/
def declareWord (location : Option Location) (declaration description : String)
    (action : Action E) : Exec E Unit := fun m =>
  match m.declareWord location declaration description action with
  | .ok m' => .done () m'
  | .error cause => raiseBare cause m

/-- Runs a computation as part of a word, which is a running word until it ends. -/
def within (name : String) (x : Exec E α) : Exec E α := do
  modify fun m => { m with calls := name :: m.calls }
  let result ← attempt x
  modify fun m => { m with calls := m.calls.tail }
  conclude result

end Exec

end Wordstack
