import Wordstack.Proofs.Dispatch
import Wordstack.Proofs.Paths
import Wordstack.Proofs.Spelling

/-!
# Adjusting a field

Four words change an integer field of a scope by an amount.  Each of them adds a change to the field
and differs from the others only in where the change comes from: it is given, given and negated,
one, or minus one.  The field then holds the exact sum, or the word fails and no scope is touched.

The change is fitted into an integer before the field is looked at.  The only change that does not
fit is the negation of the least integer, and there the word reports an overflow whatever the field
holds.

* `Builtin.Adjusts`: the four words with their inputs and their changes.
* `Adjusted`: the field holds the exact sum, or the word fails for a reason.
* `field_adjusted`: when a word does that, and what it does otherwise.
-/

namespace Wordstack

variable {E : Embedding}

/-- The inputs, top first, with which a word changes a field of a scope, and by how much. -/
inductive Builtin.Adjusts (id : ScopeId) (key : String) : Builtin → List Value → Int → Prop
  | increase (amount : Int64) :
      Adjusts id key .increase [.int amount, .string key, .scope id] amount.toInt
  | decrease (amount : Int64) :
      Adjusts id key .decrease [.int amount, .string key, .scope id] (-amount.toInt)
  | increment : Adjusts id key .increment [.string key, .scope id] 1
  | decrement : Adjusts id key .decrement [.string key, .scope id] (-1)

/-- How a field of a scope is adjusted: either it holds the exact sum, and of the machine nothing
else is different but the number of writes of the scope, or nothing at all is different. -/
inductive Adjusted (m : Machine E) (id : ScopeId) (key : String) (change : Int) :
    Outcome E Unit → Prop
  | stored {n result : Int64} {m' : Machine E} (held : (m.heap.scope id).get? key = some (.int n))
      (sum : result.toInt = n.toInt + change) (written : FieldWritten m m' id key (.int result)) :
      Adjusted m id key change (.done () m')
  | overflow {n : Int64} {e : Error} (held : (m.heap.scope id).get? key = some (.int n))
      (unfit : ∀ result : Int64, result.toInt ≠ n.toInt + change) (kind : e.kind = .runtime)
      (cause : e.cause = .adjustOverflow key) :
      Adjusted m id key change (.raised e m)
  | mismatch {e : Error} (held : ∀ n, (m.heap.scope id).get? key ≠ some (.int n))
      (kind : e.kind = .typeMismatch) :
      Adjusted m id key change (.raised e m)

open Exec

/-- A field that holds something belongs to a scope on the heap. -/
theorem Heap.index_lt_of_get? {heap : Heap} {id : ScopeId} {key : String} {value : Value}
    (h : (heap.scope id).get? key = some value) : id.index < heap.scopes.size := by
  by_contra hle
  have hnone : heap.scopes[id.index]? = none :=
    Array.getElem?_eq_none_iff.mpr (Nat.le_of_not_lt hle)
  rw [Heap.scope, hnone] at h
  cases h

namespace Vocabulary

/-- What `adjust` does: the sum fits, or it does not, or there is nothing to add to. -/
theorem adjust_cases (id : ScopeId) (key : String) (amount : Int64) (m : Machine E) :
    (∃ n result : Int64, (m.heap.scope id).get? key = some (.int n) ∧
      result.toInt = n.toInt + amount.toInt ∧
      adjust id key amount m =
        .done .nothing { m with heap := m.heap.setField id key (.int result) }) ∨
    (∃ n : Int64, (m.heap.scope id).get? key = some (.int n) ∧
      (∀ result : Int64, result.toInt ≠ n.toInt + amount.toInt) ∧
      adjust id key amount m = .raised (m.error (.adjustOverflow key)) m) ∨
    ((∀ n, (m.heap.scope id).get? key ≠ some (.int n)) ∧
      ∃ found, adjust id key amount m = .raised (m.error (.notAdjustable key found)) m) := by
  by_cases hint : ∃ n, (m.heap.scope id).get? key = some (.int n)
  · obtain ⟨n, hheld⟩ := hint
    cases hfit : fit? (n.toInt + amount.toInt) with
    | some result =>
      refine .inl ⟨n, result, hheld, Numeral.fit?_eq_some_iff.mp hfit, ?_⟩
      rw [adjust, machine_bind, hheld]
      dsimp only
      rw [hfit]
      rfl
    | none =>
      refine .inr (.inl ⟨n, hheld, fun result hsum => ?_, ?_⟩)
      · rw [← hsum, Numeral.fit?_toInt] at hfit
        cases hfit
      · rw [adjust, machine_bind, hheld]
        dsimp only
        rw [hfit]
        rfl
  · have hheld : ∀ n, (m.heap.scope id).get? key ≠ some (.int n) := fun n hn => hint ⟨n, hn⟩
    refine .inr (.inr ⟨hheld, ((m.heap.scope id).get? key).map m.heap.describe, ?_⟩)
    rw [adjust, machine_bind]
    generalize (m.heap.scope id).get? key = found at hheld
    rcases found with - | value
    · rfl
    · cases value with
      | int n => exact absurd rfl (hheld n)
      | _ => rfl

end Vocabulary

namespace Builtin

variable {b : Builtin} {id : ScopeId} {key : String} {inputs : List Value} {change : Int}

/-- The change is fitted into an integer, and then it is added. -/
def changeField (id : ScopeId) (key : String) (change : Int) : Exec E Returned :=
  match fit? change with
  | some amount => Vocabulary.adjust id key amount
  | none => raise (.adjustOverflow key)

/-- **The four words are one.**  Each takes its inputs and then changes the field. -/
theorem Adjusts.run (h : b.Adjusts id key inputs change) : ∃ payloads : List Payload,
    (∀ (m : Machine E) (rest : List Value),
      takeInputs (b.entry 0) { m with stack := inputs ++ rest } =
        .done payloads { m with stack := rest }) ∧
    ∀ engine : Engine E, b.run engine payloads = changeField id key change := by
  cases h with
  | increase amount =>
    refine ⟨[.scope id, .text key, .int amount], fun _ _ => rfl, fun engine => ?_⟩
    rw [changeField, Numeral.fit?_toInt]
    rfl
  | decrease amount =>
    refine ⟨[.scope id, .text key, .int amount], fun _ _ => rfl, fun engine => ?_⟩
    rfl
  | increment => exact ⟨[.scope id, .text key], fun _ _ => rfl, fun _ => rfl⟩
  | decrement => exact ⟨[.scope id, .text key], fun _ _ => rfl, fun _ => rfl⟩

/-- The one change that is no integer comes from the one integer that has no negation. -/
theorem Adjusts.fit?_eq_none_iff (h : b.Adjusts id key inputs change) :
    fit? change = none ↔ b = .decrease ∧ inputs.head? = some (.int Int64.minValue) := by
  cases h with
  | increase amount => simp [Numeral.fit?_toInt]
  | increment => exact ⟨nofun, fun h => nomatch h.1⟩
  | decrement => exact ⟨nofun, fun h => nomatch h.1⟩
  | decrease amount =>
    have hle := amount.toInt_le
    have hge := amount.minValue_le_toInt
    have hmin : Int64.minValue.toInt = -9223372036854775808 := rfl
    have hmax : Int64.maxValue.toInt = 9223372036854775807 := rfl
    have hleast : amount = Int64.minValue ↔ amount.toInt = Int64.minValue.toInt :=
      ⟨fun heq => heq ▸ rfl, Int64.toInt_inj.mp⟩
    simp only [List.head?_cons, Option.some.injEq, Value.int.injEq, true_and, hleast, fit?]
    split
    · simp only [reduceCtorEq, false_iff]
      omega
    · simp only [true_iff]
      omega

/-- A word that adjusts a field takes its inputs, changes the field and returns nothing. -/
theorem Adjusts.perform (h : b.Adjusts id key inputs change) (engine : Engine E) (m : Machine E)
    (rest : List Value) :
    b.perform engine { m with stack := inputs ++ rest } =
      ((withContext (changeField id key change) >>= pushOutputs (b.entry 0))
        (Machine.entering b.name { m with stack := rest })).mapMachine Machine.leaving := by
  obtain ⟨payloads, htake, hrun⟩ := h.run (E := E)
  rw [Builtin.perform, bind_of_done (htake m rest), within_apply, hrun]
  rfl

section Ends

variable (h : b.Adjusts id key inputs change) {m : Machine E} (hm : m.Knows b) (host : Host E)
  (rest : List Value)
include h hm

theorem Adjusts.ends_of_raised {cause : Cause}
    (hchange : changeField id key change (Machine.entering b.name { m with stack := rest }) =
      .raised ((Machine.entering b.name { m with stack := rest }).error cause)
        (Machine.entering b.name { m with stack := rest })) :
    host.Ends (·.execute (.word b.name)) { m with stack := inputs ++ rest }
      (.raised ((Machine.entering b.name { m with stack := rest }).error cause)
        { m with stack := rest }) := by
  refine Host.ends_of_succ nofun fun fuel => ?_
  change host.performWith (host.engine fuel) b.name { m with stack := inputs ++ rest } = _
  rw [(hm.of_values _ _ _).performWith, h.perform, bind_of_raised (withContext_of_raised hchange)]
  rfl

theorem Adjusts.ends_of_done {heap : Heap}
    (hchange : changeField id key change (Machine.entering b.name { m with stack := rest }) =
      .done .nothing { Machine.entering b.name { m with stack := rest } with heap }) :
    host.Ends (·.execute (.word b.name)) { m with stack := inputs ++ rest }
      (.done () { m with stack := rest, heap }) := by
  refine Host.ends_of_succ nofun fun fuel => ?_
  change host.performWith (host.engine fuel) b.name { m with stack := inputs ++ rest } = _
  rw [(hm.of_values _ _ _).performWith, h.perform, bind_of_done (withContext_of_done hchange)]
  cases h <;> rfl

/-- A change that is an integer is added to the field as it should be. -/
theorem Adjusts.ends_of_fit {amount : Int64} (hfit : fit? change = some amount) :
    ∃ o, host.Ends (·.execute (.word b.name)) { m with stack := inputs ++ rest } o ∧
      Adjusted { m with stack := rest } id key change o := by
  have hrun : (changeField id key change : Exec E Returned) = Vocabulary.adjust id key amount := by
    rw [changeField, hfit]
  obtain rfl := toInt_of_fit?_eq_some hfit
  rcases Vocabulary.adjust_cases id key amount (Machine.entering b.name { m with stack := rest })
    with ⟨n, result, hheld, hsum, hadjust⟩ | ⟨n, hheld, hunfit, hadjust⟩ | ⟨hheld, found, hadjust⟩
  · refine ⟨_, h.ends_of_done hm host rest (hrun ▸ hadjust), .stored hheld hsum ?_⟩
    exact fieldWritten_setField { m with stack := rest } (Heap.index_lt_of_get? hheld) key _
  · exact ⟨_, h.ends_of_raised hm host rest (hrun ▸ hadjust), .overflow hheld hunfit rfl rfl⟩
  · exact ⟨_, h.ends_of_raised hm host rest (hrun ▸ hadjust), .mismatch hheld rfl⟩

/-- A change that is no integer is reported as an overflow, whatever the field holds. -/
theorem Adjusts.ends_of_unfit (hfit : fit? change = none) :
    host.Ends (·.execute (.word b.name)) { m with stack := inputs ++ rest }
      (.raised ((Machine.entering b.name { m with stack := rest }).error (.adjustOverflow key))
        { m with stack := rest }) := by
  refine h.ends_of_raised hm host rest ?_
  rw [changeField, hfit]
  rfl

end Ends

end Builtin

/-- An adjustment that fails leaves the machine as it was. -/
theorem Adjusted.eq_of_raised {m m' : Machine E} {id : ScopeId} {key : String} {change : Int}
    {e : Error} (h : Adjusted m id key change (.raised e m')) : m' = m := by
  cases h with
  | overflow => rfl
  | mismatch => rfl

/-- An overflow is the right answer to the change that is no integer exactly if the field holds an
integer that is not negative. -/
theorem adjusted_overflow_iff {m : Machine E} {id : ScopeId} {key : String} {e : Error}
    (he : e.cause = .adjustOverflow key) :
    Adjusted m id key (-Int64.minValue.toInt) (.raised e m) ↔
      ∃ n : Int64, (m.heap.scope id).get? key = some (.int n) ∧ 0 ≤ n.toInt := by
  have hkind : e.kind = .runtime := by rw [Error.kind, he]; rfl
  have hmin : Int64.minValue.toInt = -9223372036854775808 := rfl
  constructor
  · intro h
    cases h with
    | @overflow n _ hheld hunfit =>
      refine ⟨n, hheld, ?_⟩
      by_contra hneg
      -- a negative integer less the least one is an integer
      have hge := n.minValue_le_toInt
      obtain ⟨result, hresult⟩ : ∃ result : Int64,
          result.toInt = n.toInt + -Int64.minValue.toInt := by
        refine ⟨Int64.ofInt (n.toInt + -Int64.minValue.toInt), ?_⟩
        exact Int64.toInt_ofInt_of_le (by omega) (by omega)
      exact hunfit result hresult
    | mismatch _ hmismatch =>
      rw [hkind] at hmismatch
      cases hmismatch
  · rintro ⟨n, hheld, hpos⟩
    refine .overflow hheld (fun result hsum => ?_) hkind he
    have hle := result.toInt_le
    have hmax : Int64.maxValue.toInt = 9223372036854775807 := rfl
    omega

/-- **Adjusting a field is exact or has no effect**, but for one amount.  In every state of a
machine that knows the word, the word ends; and the field holds the exact sum, or the sum is no
integer and the word reports an overflow, or the field holds no integer and the word reports that,
unless the least integer is to be subtracted.  That one is reported as an overflow, which is what it
should be only if the field holds an integer that is not negative.  Whenever a word fails, only its
inputs are gone. -/
theorem field_adjusted (host : Host E) {m : Machine E} {b : Builtin} (hm : m.Knows b)
    {id : ScopeId} {key : String} {inputs : List Value} {change : Int}
    (h : b.Adjusts id key inputs change) (rest : List Value) :
    ∃ o, host.Ends (·.execute (.word b.name)) { m with stack := inputs ++ rest } o ∧
      (Adjusted { m with stack := rest } id key change o ↔
        (b = .decrease ∧ inputs.head? = some (.int Int64.minValue) →
          ∃ n : Int64, (m.heap.scope id).get? key = some (.int n) ∧ 0 ≤ n.toInt)) ∧
      (b = .decrease ∧ inputs.head? = some (.int Int64.minValue) →
        ∃ e, o = .raised e { m with stack := rest } ∧ e.cause = .adjustOverflow key) ∧
      (∀ e m', o = .raised e m' → m' = { m with stack := rest }) := by
  rw [← h.fit?_eq_none_iff]
  cases hfit : fit? change with
  | some amount =>
    obtain ⟨o, hends, hadjusted⟩ := h.ends_of_fit hm host rest hfit
    refine ⟨o, hends, ⟨fun _ => nofun, fun _ => hadjusted⟩, nofun, fun e m' ho => ?_⟩
    exact (ho ▸ hadjusted).eq_of_raised
  | none =>
    obtain ⟨rfl, hleast⟩ := h.fit?_eq_none_iff.mp hfit
    refine ⟨_, h.ends_of_unfit hm host rest hfit, ?_, fun _ => ⟨_, rfl, rfl⟩, fun e m' ho => ?_⟩
    · cases h with
      | decrease amount =>
        obtain rfl : amount = Int64.minValue := by simpa using hleast
        rw [adjusted_overflow_iff rfl]
        exact ⟨fun h _ => h, fun h => h rfl⟩
    · cases ho
      rfl

/-- The machine with one scope, in which the field `n` holds an integer. -/
def Machine.counting (m : Machine E) (n : Int64) : Machine E :=
  { m with heap := { scopes := #[{ fields := .ofList [("n", .int n)], writes := 1 }] } }

theorem Machine.Standard.counting {m : Machine E} (hm : m.Standard) (n : Int64) (b : Builtin) :
    (m.counting n).Knows b :=
  (hm.knows b).of_values _ _ _

/-- Minus one less the greatest integer is the least one, and it is stored. -/
theorem field_adjusted_to_least :
    ∃ m' : Machine .bare,
      Host.bare.Ends (·.execute (.word "dec"))
        { (Machine.standard (E := .bare) ()).counting (-1) with
          stack := [.int Int64.maxValue, .string "n", .scope ⟨0⟩] } (.done () m') ∧
      (m'.heap.scope ⟨0⟩).get? "n" = some (.int Int64.minValue) ∧
      (m'.heap.scope ⟨0⟩).writes = 2 := by
  have hm := (Machine.standard_standard (E := .bare) ()).counting (-1) .decrease
  have hword : Builtin.Adjusts ⟨0⟩ "n" _ _ _ := .decrease Int64.maxValue
  obtain ⟨o, hends, hadjusted, -⟩ := field_adjusted Host.bare hm hword []
  have hother : [Value.int Int64.maxValue, .string "n", .scope ⟨0⟩].head? ≠
      some (.int Int64.minValue) := by
    intro h
    exact absurd (Value.int.inj (Option.some.inj h)) (by decide)
  have hheld : (((Machine.standard (E := .bare) ()).counting (-1)).heap.scope ⟨0⟩).get? "n" =
      some (.int (-1)) := rfl
  cases hadjusted.mpr fun h => absurd h.2 hother with
  | @stored n result m' hn hsum hwritten =>
    obtain rfl : n = -1 := Value.int.inj (Option.some.inj (hn.symm.trans hheld))
    obtain rfl : result = Int64.minValue := Int64.toInt_inj.mp (hsum.trans rfl)
    exact ⟨m', hends, hwritten.field, hwritten.writes⟩
  | @overflow n _ hn hunfit =>
    obtain rfl : n = -1 := Value.int.inj (Option.some.inj (hn.symm.trans hheld))
    exact absurd rfl (hunfit Int64.minValue)
  | mismatch hn => exact absurd hheld (hn (-1))

/-- Minus one less the least integer is the greatest one, which would fit; it is refused as an
overflow. -/
theorem field_not_adjusted_by_least :
    ∃ (e : Error) (m' : Machine .bare) (result : Int64),
      Host.bare.Ends (·.execute (.word "dec"))
        { (Machine.standard (E := .bare) ()).counting (-1) with
          stack := [.int Int64.minValue, .string "n", .scope ⟨0⟩] } (.raised e m') ∧
      e.cause = .adjustOverflow "n" ∧
      (((Machine.standard (E := .bare) ()).counting (-1)).heap.scope ⟨0⟩).get? "n" =
        some (.int (-1)) ∧
      result.toInt = (-1 : Int64).toInt - Int64.minValue.toInt ∧
      ¬Adjusted { (Machine.standard (E := .bare) ()).counting (-1) with stack := [] } ⟨0⟩ "n"
        (-Int64.minValue.toInt) (.raised e m') := by
  have hm := (Machine.standard_standard (E := .bare) ()).counting (-1) .decrease
  have hword : Builtin.Adjusts ⟨0⟩ "n" _ _ _ := .decrease Int64.minValue
  have hends := hword.ends_of_unfit hm Host.bare [] rfl
  refine ⟨_, _, Int64.maxValue, hends, rfl, rfl, rfl, fun hadjusted => ?_⟩
  obtain ⟨n, hheld, hpos⟩ := (adjusted_overflow_iff rfl).mp hadjusted
  obtain rfl : (-1 : Int64) = n := Value.int.inj (Option.some.inj hheld)
  exact absurd hpos (by decide)

end Wordstack
