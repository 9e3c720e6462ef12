import Mathlib.Tactic.Linarith
import Wordstack.Proofs.Sharing
import Wordstack.Proofs.Spelling

/-!
# Integer arithmetic is exact or refused

The words `+`, `-`, `*` and `/` on two integers leave the exact result, if it is an integer of the
language, and fail otherwise.  A quotient is rounded down.  It is found in steps that stay among the
integers of the language themselves: the quotient rounded toward zero, what that leaves over, and
one less where the rounding went the wrong way.  None of the steps leaves the range.

* `Builtin.Computes`: the exact results, told without reference to how they are found.
* `Operation.InRange`: what the steps of a division give.
* `Calculated`: how a word of arithmetic ends.
* `integers_calculated`: it always ends like that.
-/

namespace Wordstack

variable {E : Embedding}

/-! ### Exact results -/

/-- The exact result of a word on two integers.  That of a division is the quotient rounded down:
what it leaves over is between zero and the divisor, and not the divisor itself. -/
inductive Builtin.Computes : Builtin → Int → Int → Int → Prop
  | add (a b : Int) : Computes .add a b (a + b)
  | subtract (a b : Int) : Computes .subtract a b (a - b)
  | multiply (a b : Int) : Computes .multiply a b (a * b)
  | divide {a b q r : Int} (sum : a = b * q + r) (range : 0 ≤ r ∧ r < b ∨ b < r ∧ r ≤ 0) :
      Computes .divide a b q

namespace Builtin.Computes

variable {b : Builtin} {x y n n' : Int}

/-- A quotient rounded down is unique. -/
theorem floor_unique {a b q q' r r' : Int} (hq : a = b * q + r) (hq' : a = b * q' + r')
    (hr : 0 ≤ r ∧ r < b ∨ b < r ∧ r ≤ 0) (hr' : 0 ≤ r' ∧ r' < b ∨ b < r' ∧ r' ≤ 0) : q = q' := by
  have hdiff : b * (q - q') = r' - r := by linarith
  -- if the quotients differed, what they leave over would differ by the divisor at least
  rcases lt_trichotomy (q - q') 0 with hlt | heq | hgt
  · rcases hr with hr | hr <;> rcases hr' with hr' | hr' <;> nlinarith
  · omega
  · rcases hr with hr | hr <;> rcases hr' with hr' | hr' <;> nlinarith

theorem unique (h : b.Computes x y n) (h' : b.Computes x y n') : n = n' := by
  cases h with
  | add => cases h'; rfl
  | subtract => cases h'; rfl
  | multiply => cases h'; rfl
  | divide sum range =>
    cases h' with
    | divide sum' range' => exact floor_unique sum sum' range range'

theorem ne_zero (h : Computes .divide x y n) : y ≠ 0 := by
  cases h with
  | divide sum range => omega

end Builtin.Computes

/-! ### The steps of a division -/

namespace Operation

/-- What the steps of a division give, once there is a quotient rounded toward zero: that quotient
and what it leaves over are exact, and where the integer one below is asked for, there is one. -/
structure InRange (a b q : Int64) : Prop where
  quotient : q.toInt = a.toInt.tdiv b.toInt
  remainder : ∃ r, remainder? a b = some r ∧ r.toInt = a.toInt.tmod b.toInt
  pred : ∀ r, remainder? a b = some r → r ≠ 0 → ¬(a < 0 ↔ b < 0) →
    ∃ p, pred? q = some p ∧ p.toInt = q.toInt - 1

theorem quotient?_eq_none_iff {a b : Int64} :
    quotient? a b = none ↔ b = 0 ∨ a = Int64.minValue ∧ b = -1 := by
  unfold quotient?
  split
  · next hnone => exact ⟨fun _ => hnone, fun _ => rfl⟩
  · next hsome => exact ⟨nofun, fun hnone => absurd hnone hsome⟩

/-- What a quotient rounded toward zero leaves over has the sign of the dividend, and is smaller
than the divisor. -/
theorem tmod_range (a b : Int) :
    (0 ≤ a → 0 ≤ a.tmod b) ∧ (a ≤ 0 → a.tmod b ≤ 0) ∧
      (0 < b → -b < a.tmod b ∧ a.tmod b < b) ∧ (b < 0 → b < a.tmod b ∧ a.tmod b < -b) := by
  refine ⟨fun ha => Int.tmod_nonneg b ha, fun ha => ?_, fun hpos => ?_, fun hneg => ?_⟩
  · have hflip : 0 ≤ (-a).tmod b := Int.tmod_nonneg b (by omega)
    rw [Int.neg_tmod] at hflip
    omega
  · exact ⟨Int.lt_tmod_of_pos a hpos, Int.tmod_lt_of_pos a hpos⟩
  · have hlow := Int.lt_tmod_of_pos a (b := -b) (by omega)
    have hhigh := Int.tmod_lt_of_pos a (b := -b) (by omega)
    rw [Int.tmod_neg] at hlow hhigh
    exact ⟨by omega, hhigh⟩

/-- A quotient rounded toward zero that leaves something over is at most half the dividend. -/
theorem le_two_mul_tdiv {a b : Int} (hb : b ≠ 0) (hr : a.tmod b ≠ 0) (hsigns : ¬(a < 0 ↔ b < 0)) :
    -(a.natAbs : Int) ≤ 2 * a.tdiv b := by
  have hsum : b * a.tdiv b + a.tmod b = a := Int.mul_tdiv_add_tmod a b
  obtain ⟨hpos, hneg, hbpos, hbneg⟩ := tmod_range a b
  generalize a.tdiv b = q at hsum ⊢
  generalize a.tmod b = r at hsum hr hpos hneg hbpos hbneg
  rcases lt_or_gt_of_ne hb with hb | hb
  · have := hbneg hb
    have := hpos (by omega)
    have hb2 : b ≤ -2 := by omega
    by_contra hlt
    nlinarith [Int.natAbs_of_nonneg (by omega : 0 ≤ a)]
  · have := hbpos hb
    have := hneg (by omega)
    have hb2 : 2 ≤ b := by omega
    by_contra hlt
    have habs : (a.natAbs : Int) = -a := by omega
    nlinarith

theorem exists_toInt {n : Int} (hmin : Int64.minValue.toInt ≤ n) (hmax : n ≤ Int64.maxValue.toInt) :
    ∃ i : Int64, i.toInt = n :=
  ⟨Int64.ofInt n, Int64.toInt_ofInt_of_le hmin (Int.lt_of_le_sub_one hmax)⟩

/-- **No step of a division leaves the range.** -/
theorem inRange_of_quotient? {a b q : Int64} (h : quotient? a b = some q) : InRange a b q := by
  unfold quotient? at h
  split at h
  · cases h
  · next hdefined =>
    obtain rfl := Option.some.inj h
    have hb : b.toInt ≠ 0 := fun hzero => hdefined (.inl (Int64.toInt_inj.mp hzero))
    have hquotient : (a / b).toInt = a.toInt.tdiv b.toInt := by
      by_cases ha : a = Int64.minValue
      · exact Int64.toInt_div_of_ne_right a b fun hb => hdefined (.inr ⟨ha, hb⟩)
      · exact Int64.toInt_div_of_ne_left a b ha
    have hremainder : remainder? a b = some (a % b) := by rw [remainder?, if_neg hdefined]
    refine ⟨hquotient, ⟨_, hremainder, Int64.toInt_mod a b⟩, fun r hr hne hsigns => ?_⟩
    obtain rfl : a % b = r := Option.some.inj (hremainder.symm.trans hr)
    have hr : a.toInt.tmod b.toInt ≠ 0 := fun hzero =>
      hne (Int64.toInt_inj.mp ((Int64.toInt_mod a b).trans hzero))
    rw [Int64.lt_iff_toInt_lt, Int64.lt_iff_toInt_lt, Int64.toInt_zero] at hsigns
    -- half of any dividend is far enough from the ends of the range
    have hhalf := le_two_mul_tdiv hb hr hsigns
    rw [← hquotient] at hhalf
    have hlow := a.minValue_le_toInt
    have hhigh := a.toInt_le
    have hle := (a / b).toInt_le
    have hmin : Int64.minValue.toInt = -9223372036854775808 := rfl
    have hmax : Int64.maxValue.toInt = 9223372036854775807 := rfl
    obtain ⟨p, hp⟩ := exists_toInt (n := (a / b).toInt - 1) (by omega) (by omega)
    exact ⟨p, Numeral.fit?_eq_some_iff.mpr hp, hp⟩

/-- The steps of a division come to the quotient rounded down, if there is a quotient. -/
theorem exists_floorQuotient? {a b q : Int64} (h : quotient? a b = some q) :
    ∃ p, floorQuotient? a b = some p ∧ Builtin.divide.Computes a.toInt b.toInt p.toInt := by
  obtain ⟨hquotient, ⟨r, hr, hremainder⟩, hpred⟩ := inRange_of_quotient? h
  have hb : b.toInt ≠ 0 := by
    intro hzero
    have hnone : quotient? a b = none :=
      quotient?_eq_none_iff.mpr (.inl (Int64.toInt_inj.mp hzero))
    rw [hnone] at h
    cases h
  have hsum : a.toInt = b.toInt * q.toInt + r.toInt := by
    rw [hquotient, hremainder, Int.mul_tdiv_add_tmod]
  obtain ⟨hpos, hneg, hbpos, hbneg⟩ := tmod_range a.toInt b.toInt
  rw [← hremainder] at hpos hneg hbpos hbneg
  have hzero : r = 0 ↔ r.toInt = 0 := by rw [← Int64.toInt_zero, Int64.toInt_inj]
  have hsteps : floorQuotient? a b =
      if r ≠ 0 ∧ ¬(a < 0 ↔ b < 0) then pred? q else some q := by
    rw [floorQuotient?, h, hr]
    rfl
  rw [hsteps]
  by_cases hcorrect : r ≠ 0 ∧ ¬(a < 0 ↔ b < 0)
  · obtain ⟨p, hp, hless⟩ := hpred r hr hcorrect.1 hcorrect.2
    refine ⟨p, by rw [if_pos hcorrect, hp], .divide (r := r.toInt + b.toInt) ?_ ?_⟩
    · rw [hless, Int.mul_sub, Int.mul_one]
      omega
    · simp only [Int64.lt_iff_toInt_lt, Int64.toInt_zero, ne_eq, hzero] at hcorrect
      omega
  · refine ⟨q, if_neg hcorrect, .divide hsum ?_⟩
    simp only [Int64.lt_iff_toInt_lt, Int64.toInt_zero, ne_eq, hzero] at hcorrect
    omega

/-- The least integer by minus one. -/
theorem computes_least :
    Builtin.divide.Computes Int64.minValue.toInt (-1 : Int64).toInt (Int64.maxValue.toInt + 1) :=
  .divide (r := 0) rfl (.inr ⟨by decide, Int.le_refl 0⟩)

theorem toInt_ne_max_succ (n : Int64) : n.toInt ≠ Int64.maxValue.toInt + 1 := by
  have hle := n.toInt_le
  omega

/-- The least integer by minus one is the only quotient that is no integer of the language. -/
theorem unfit_quotient_iff {a b : Int64} {q : Int}
    (h : Builtin.divide.Computes a.toInt b.toInt q) :
    (∀ n : Int64, n.toInt ≠ q) ↔ a = Int64.minValue ∧ b = -1 := by
  constructor
  · intro hunfit
    have hb : b ≠ 0 := fun hzero => h.ne_zero (hzero ▸ Int64.toInt_zero)
    cases hquotient : quotient? a b with
    | none => exact (quotient?_eq_none_iff.mp hquotient).resolve_left hb
    | some t =>
      obtain ⟨p, -, hp⟩ := exists_floorQuotient? hquotient
      exact absurd (hp.unique h) (hunfit p)
  · rintro ⟨rfl, rfl⟩
    rw [h.unique computes_least]
    exact toInt_ne_max_succ

end Operation

/-! ### The words -/

/-- What a word of arithmetic makes of two integers: the exact result, or the reason why there is
none. -/
inductive Calculated (b : Builtin) (x y : Int64) : Except Cause Int64 → Prop
  | exact {n : Int64} (computes : b.Computes x.toInt y.toInt n.toInt) : Calculated b x y (.ok n)
  | overflow {exact : Int} (computes : b.Computes x.toInt y.toInt exact)
      (unfit : ∀ n : Int64, n.toInt ≠ exact) : Calculated b x y (.error .overflow)
  | byZero (word : b = .divide) (zero : y = 0) : Calculated b x y (.error .divisionByZero)

theorem Calculated.kind {b : Builtin} {x y : Int64} {cause : Cause}
    (h : Calculated b x y (.error cause)) : cause.kind = .runtime := by
  cases h with
  | overflow => rfl
  | byZero => rfl

/-- The operation of each word of arithmetic. -/
inductive Builtin.Calculates : Builtin → Operation → Prop
  | add : Calculates .add .add
  | subtract : Calculates .subtract .subtract
  | multiply : Calculates .multiply .multiply
  | divide : Calculates .divide .divide

namespace Operation

variable {b : Builtin} {x y : Int64}

/-- An exact result is fitted into the integers of the language, or it is refused. -/
theorem calculated_orOverflow {exact : Int} (h : b.Computes x.toInt y.toInt exact) :
    Calculated b x y (orOverflow (fit? exact)) := by
  cases hfit : fit? exact with
  | some n => exact .exact (Numeral.fit?_eq_some_iff.mp hfit ▸ h)
  | none =>
    refine .overflow h fun n hn => ?_
    rw [← hn, Numeral.fit?_toInt] at hfit
    cases hfit

theorem calculated_divide (x y : Int64) :
    Calculated .divide x y (Operation.divide.onIntegers x y) := by
  unfold Operation.divide
  dsimp only
  split
  · next hzero => exact .byZero rfl hzero
  · next hne =>
    cases hquotient : quotient? x y with
    | some q =>
      obtain ⟨p, hp, hcomputes⟩ := exists_floorQuotient? hquotient
      rw [hp]
      exact .exact hcomputes
    | none =>
      obtain ⟨rfl, rfl⟩ := (quotient?_eq_none_iff.mp hquotient).resolve_left hne
      exact .overflow computes_least toInt_ne_max_succ

/-- Every operation on two integers is exact, or refuses them for a reason. -/
theorem calculated_onIntegers {op : Operation} (hb : b.Calculates op) (x y : Int64) :
    Calculated b x y (op.onIntegers x y) := by
  cases hb with
  | add => exact calculated_orOverflow (.add _ _)
  | subtract => exact calculated_orOverflow (.subtract _ _)
  | multiply => exact calculated_orOverflow (.multiply _ _)
  | divide => exact calculated_divide x y

end Operation

/-- How a word ends that has calculated with two integers: with the result on top of the stack, or
with an error and nothing in place of the integers. -/
def Machine.concluding (m : Machine E) (b : Builtin) : Except Cause Int64 → Outcome E Unit
  | .ok n => .done () (m.withTop (.int n))
  | .error cause => .raised ((m.entering b.name).error cause) m

namespace Builtin.Calculates

open Exec

variable {b : Builtin} {op : Operation} {x y : Int64} {m : Machine E}

theorem takeInputs (hb : b.Calculates op) :
    Wordstack.takeInputs (b.entry 0) { m with stack := [.int y, .int x] ++ m.stack } =
      .done [.int x, .int y] m := by
  cases hb <;> rfl

theorem run (hb : b.Calculates op) (engine : Engine E) :
    b.run engine = Vocabulary.arithmetic op := by
  cases hb <;> rfl

/-- A word of arithmetic takes the two integers and concludes with what its operation gives. -/
theorem perform (hb : b.Calculates op) (x y : Int64) (m : Machine E) (engine : Engine E) :
    b.perform engine { m with stack := [.int y, .int x] ++ m.stack } =
      m.concluding b (op.onIntegers x y) := by
  have harguments : arguments (do return (← Taking.number, ← Taking.number)) [.int x, .int y]
      (m.entering b.name) = .done (Number.int x, Number.int y) (m.entering b.name) := rfl
  cases hop : op.onIntegers x y with
  | ok n =>
    have happly : op.apply (.int x) (.int y) = .ok (.int n) := by
      rw [Operation.apply, hop]
      rfl
    have hrun : b.run engine [.int x, .int y] (m.entering b.name) =
        .done (.one (.tagged (.int n))) (m.entering b.name) := by
      rw [hb.run, Vocabulary.arithmetic, bind_of_done harguments]
      dsimp only
      rw [happly]
      rfl
    have hpush : pushOutputs (b.entry 0) (.one (.tagged (.int n))) (m.entering b.name) =
        .done () ((m.withTop (.int n)).entering b.name) := by
      cases hb <;> rfl
    exact perform_of_pushed hb.takeInputs hrun hpush
  | error cause =>
    have happly : op.apply (.int x) (.int y) = .error cause := by
      rw [Operation.apply, hop]
      rfl
    refine perform_of_raised cause hb.takeInputs ?_
    rw [hb.run, Vocabulary.arithmetic, bind_of_done harguments]
    dsimp only
    rw [happly]
    rfl

end Builtin.Calculates

/-- **Integer arithmetic is exact or refused.**  In every state of a machine that knows the word and
has two integers on top of its stack, a word of arithmetic ends: with the exact result, which is an
integer again, or with a runtime error if that is no integer of the language, or if an integer is
divided by zero.  There is one exact result at most, and the only quotient that is refused is that
of the least integer by minus one.  Whatever the integers, no step of a division leaves the range,
once the quotient rounded toward zero is in it. -/
theorem integers_calculated (host : Host E) {m : Machine E} {b : Builtin} {op : Operation}
    (hm : m.Knows b) (hb : b.Calculates op) (x y : Int64) (rest : List Value) :
    (∃ result, Calculated b x y result ∧
      host.Ends (·.execute (.word b.name)) { m with stack := .int y :: .int x :: rest }
        (({ m with stack := rest } : Machine E).concluding b result) ∧
      ∀ cause, result = .error cause → cause.kind = .runtime) ∧
    (∀ n n', b.Computes x.toInt y.toInt n → b.Computes x.toInt y.toInt n' → n = n') ∧
    (∀ q, Builtin.divide.Computes x.toInt y.toInt q →
      ((∀ n : Int64, n.toInt ≠ q) ↔ x = Int64.minValue ∧ y = -1)) ∧
    (Operation.quotient? x y = none ↔ y = 0 ∨ x = Int64.minValue ∧ y = -1) ∧
    ∀ q, Operation.quotient? x y = some q → Operation.InRange x y q := by
  have hcalculated := Operation.calculated_onIntegers hb x y
  refine ⟨⟨op.onIntegers x y, hcalculated, ?_, fun cause hcause => ?_⟩,
    fun n n' h h' => h.unique h', fun q => Operation.unfit_quotient_iff,
    Operation.quotient?_eq_none_iff, fun q => Operation.inRange_of_quotient?⟩
  · refine Host.ends_word (hm.of_values _ _ _) ?_ fun engine => ?_
    · cases op.onIntegers x y <;> nofun
    · exact hb.perform x y { m with stack := rest } engine
  · exact (hcause ▸ hcalculated).kind

/-- Minus seven by two, which is rounded down to minus four and leaves one over. -/
theorem integers_calculated_rounding :
    Builtin.divide.Computes (-7) 2 (-4) ∧
    Host.bare.Ends (·.execute (.word "/"))
      { Machine.standard (E := .bare) () with stack := [.int 2, .int (-7)] }
      (.done () { Machine.standard (E := .bare) () with stack := [.int (-4)] }) := by
  have hexact : Builtin.divide.Computes (-7) 2 (-4) := .divide (r := 1) rfl (.inl (by decide))
  have hm := (Machine.standard_standard (E := .bare) ()).knows .divide
  generalize Machine.standard (E := .bare) () = m at hm ⊢
  obtain ⟨⟨result, hcalculated, hends, -⟩, hunique, -⟩ :=
    integers_calculated Host.bare hm .divide (-7) 2 []
  refine ⟨hexact, ?_⟩
  cases hcalculated with
  | @exact n computes =>
    obtain rfl : n = -4 := Int64.toInt_inj.mp (hunique _ _ computes hexact)
    exact hends
  | overflow computes unfit => exact absurd (hunique _ _ hexact computes) (unfit (-4))
  | byZero _ zero => exact absurd zero (by decide)

end Wordstack
