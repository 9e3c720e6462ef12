import Wordstack.Proofs.Parallel

/-!
# Every run can be run in parallel

Whatever is parsed, executed or run keeps machines in agreement: each word of the language, each
part of a parse, and so, by induction on the fuel, every engine.

* `Builtin.run_sim`: the words of the language that run no code, one lemma for each body.
* `Renaming.closed`: what the parts of parsing and executing have in common.
* `Host.engine_agreeing`: every engine of a host keeps machines in agreement.
-/

namespace Wordstack

variable {E : Embedding}

open Exec Renaming

open Correspondence (Anything Same Both sim_machine)

/-! ### The words of the language -/

namespace Vocabulary

/-- Rows of values that agree, with a value that agrees, are combined to rows that agree. -/
def Combines (combine : List Value → Value → List Value) : Prop :=
  ∀ (ρ : Renaming) (xs ys : List Value) (v w : Value), List.Forall₂ ρ.Values xs ys →
    ρ.Values v w → List.Forall₂ ρ.Values (combine xs v) (combine ys w)

theorem withLast_combines : Combines withLast :=
  fun _ _ _ _ _ hrow hv => List.rel_append hrow (.cons hv .nil)

theorem withFirst_combines : Combines withFirst :=
  fun _ _ _ _ _ hrow hv => .cons hv hrow

variable {ρ : Renaming} {inputs inputs' : List Payload}

theorem returnArray_sim {values values' : List Value} (h : List.Forall₂ ρ.Values values values') :
    ρ.Sim Returns (returnArray values : Exec E Returned) (returnArray values') :=
  sim_bind (sim_newArray h) fun _ _ _ _ hab => sim_pure (.cons (.array hab) .nil)

theorem returnTexts_sim (texts : List (List Char)) :
    ρ.Sim Returns (returnTexts texts : Exec E Returned) (returnTexts texts) := by
  refine returnArray_sim (List.forall₂_same.mpr fun v hv => ?_)
  obtain ⟨text, -, rfl⟩ := List.mem_map.mp hv
  exact .string _

theorem adjust_sim {a b : ScopeId} (hab : ρ.scopes a b) (key : String) (amount : Int64) :
    ρ.Sim Returns (adjust a key amount : Exec E Returned) (adjust b key amount) := by
  refine sim_machine fun m m' hm => ?_
  have hget := (hm.heap.contents hab).fields.get? key
  dsimp only [Scope.get?]
  generalize (m.heap.scope a).fields.get? key = x at hget ⊢
  generalize (m'.heap.scope b).fields.get? key = y at hget ⊢
  cases hget with
  | none =>
    change ρ.Sim Returns (raise (.notAdjustable key none)) (raise (.notAdjustable key none))
    exact sim_raise _
  | @some v v' hv =>
    have hother : ρ.Sim Returns
        (raise (.notAdjustable key ((some v).map m.heap.describe)) : Exec E Returned)
        (raise (.notAdjustable key ((some v').map m'.heap.describe))) := by
      rw [Option.map_some, Option.map_some, hm.heap.describe_eq hv]
      exact sim_raise _
    cases hv with
    | int n =>
      dsimp only
      split
      · exact sim_bind (sim_setField hab key (.int _)) fun _ _ _ _ _ => sim_pure .nil
      · exact sim_raise _
    | _ =>
      dsimp only
      exact hother

section

variable (h : List.Forall₂ ρ.Payloads inputs inputs')
include h

/-! #### Stack and output -/

theorem dup_sim : ρ.Sim Returns (dup inputs : Exec E Returned) (dup inputs') :=
  sim_bind (sim_arguments (R := Values) takes_value h) fun _ _ _ _ hv =>
    sim_pure (.cons (.tagged hv) (.cons (.tagged hv) .nil))

theorem drop_sim : ρ.Sim Returns (drop inputs : Exec E Returned) (drop inputs') :=
  sim_bind (sim_arguments (R := Values) takes_value h) fun _ _ _ _ _ => sim_pure .nil

theorem swap_sim : ρ.Sim Returns (swap inputs : Exec E Returned) (swap inputs') :=
  sim_bind (sim_arguments (R := Both Values Values) (takes_pair takes_value takes_value) h)
    fun _ _ _ _ hv => sim_pure (.cons (.tagged hv.2) (.cons (.tagged hv.1) .nil))

theorem writeWith_sim (ending : String) :
    ρ.Sim Returns (writeWith ending inputs : Exec E Returned) (writeWith ending inputs') := by
  refine sim_bind (sim_arguments (R := Same) takes_text h) fun ρ s _ _ hs => ?_
  obtain rfl : s = _ := hs
  exact sim_bind (sim_write _) fun _ _ _ _ _ => sim_pure .nil

/-! #### Arithmetic, comparison and logic -/

theorem arithmetic_sim (op : Operation) :
    ρ.Sim Returns (arithmetic op inputs : Exec E Returned) (arithmetic op inputs') := by
  refine sim_bind (sim_arguments (R := Both Same Same) (takes_pair takes_number takes_number) h) ?_
  rintro ρ ⟨a, b⟩ ⟨_, _⟩ _ ⟨⟨⟩, ⟨⟩⟩
  dsimp only
  split
  · exact sim_pure (.cons (.tagged (values_ofNumber ρ _)) .nil)
  · exact sim_raise _

theorem equality_sim (expected : Bool) :
    ρ.Sim Returns (equality expected inputs : Exec E Returned) (equality expected inputs') := by
  refine sim_bind
    (sim_arguments (R := Both Values Values) (takes_pair takes_value takes_value) h) ?_
  rintro ρ ⟨a, b⟩ ⟨a', b'⟩ _ ⟨ha, hb⟩
  refine sim_machine fun m m' hm => ?_
  rw [hm.heap.equal_eq ha hb]
  exact sim_pure (.cons (.bool _) .nil)

theorem ordering_sim (test : Ordering → Bool) :
    ρ.Sim Returns (ordering test inputs : Exec E Returned) (ordering test inputs') := by
  refine sim_bind
    (sim_arguments (R := Both Values Values) (takes_pair takes_value takes_value) h) ?_
  rintro ρ ⟨a, b⟩ ⟨a', b'⟩ _ ⟨ha, hb⟩
  dsimp only
  rw [ha.compare_eq hb]
  cases a'.compare b' with
  | some found => exact sim_pure (.cons (.bool _) .nil)
  | none =>
    refine sim_machine fun m m' hm => ?_
    rw [hm.heap.shown_eq ha, hm.heap.shown_eq hb]
    exact sim_raise _

theorem logic_sim (op : Bool → Bool → Bool) :
    ρ.Sim Returns (logic op inputs : Exec E Returned) (logic op inputs') := by
  refine sim_bind (sim_arguments (R := Both Same Same) (takes_pair takes_bool takes_bool) h) ?_
  rintro ρ ⟨a, b⟩ ⟨_, _⟩ _ ⟨⟨⟩, ⟨⟩⟩
  exact sim_pure (.cons (.bool _) .nil)

theorem negation_sim : ρ.Sim Returns (negation inputs : Exec E Returned) (negation inputs') := by
  refine sim_bind (sim_arguments (R := Same) takes_bool h) ?_
  rintro ρ flag _ _ ⟨⟩
  exact sim_pure (.cons (.bool _) .nil)

/-! #### Arrays -/

theorem copied_sim {combine : List Value → Value → List Value} (hc : Combines combine) :
    ρ.Sim Returns (copied combine inputs : Exec E Returned) (copied combine inputs') := by
  refine sim_bind
    (sim_arguments (R := Both arrays Values) (takes_pair takes_array takes_value) h) ?_
  rintro ρ ⟨a, v⟩ ⟨b, w⟩ _ ⟨hab, hv⟩
  exact sim_bind (sim_items hab) fun ρ' xs ys hle hrow =>
    returnArray_sim (hc ρ' xs ys v w hrow (hv.mono hle))

theorem inPlace_sim {combine : List Value → Value → List Value} (hc : Combines combine) :
    ρ.Sim Returns (inPlace combine inputs : Exec E Returned) (inPlace combine inputs') := by
  refine sim_bind
    (sim_arguments (R := Both arrays Values) (takes_pair takes_array takes_value) h) ?_
  rintro ρ ⟨a, v⟩ ⟨b, w⟩ _ ⟨hab, hv⟩
  refine sim_bind (sim_setItems hab fun heap heap' hheaps => ?_) fun _ _ _ _ _ => sim_pure .nil
  exact hc ρ _ _ v w (hheaps.items hab) hv

theorem concat_sim : ρ.Sim Returns (concat inputs : Exec E Returned) (concat inputs') := by
  refine sim_bind
    (sim_arguments (R := Both arrays arrays) (takes_pair takes_array takes_array) h) ?_
  rintro ρ ⟨a, b⟩ ⟨a', b'⟩ _ ⟨ha, hb⟩
  exact sim_bind (sim_items ha) fun ρ xs xs' hle hxs => sim_bind (sim_items (hle.arrays hb))
    fun _ _ _ hle' hys => returnArray_sim (List.rel_append (forall₂_mono hxs hle') hys)

theorem concatInPlace_sim :
    ρ.Sim Returns (concatInPlace inputs : Exec E Returned) (concatInPlace inputs') := by
  refine sim_bind
    (sim_arguments (R := Both arrays arrays) (takes_pair takes_array takes_array) h) ?_
  rintro ρ ⟨a, b⟩ ⟨a', b'⟩ _ ⟨ha, hb⟩
  refine sim_bind (sim_setItems ha fun heap heap' hheaps => ?_) fun _ _ _ _ _ => sim_pure .nil
  exact List.rel_append (hheaps.items ha) (hheaps.items hb)

theorem count_sim : ρ.Sim Returns (count inputs : Exec E Returned) (count inputs') := by
  refine sim_bind (sim_arguments (R := arrays) takes_array h) fun ρ a b _ hab =>
    sim_bind (sim_items hab) fun _ xs ys _ hrow => ?_
  rw [hrow.length_eq]
  exact sim_pure (.cons (.int _) .nil)

theorem endElement_sim {select : List Value → Option Value}
    (hselect : ∀ (ρ : Renaming) (xs ys : List Value), List.Forall₂ ρ.Values xs ys →
      Option.Rel ρ.Values (select xs) (select ys)) (cause : Cause) :
    ρ.Sim Returns (endElement select cause inputs : Exec E Returned)
      (endElement select cause inputs') := by
  refine sim_bind (sim_arguments (R := arrays) takes_array h) fun ρ a b _ hab =>
    sim_bind (sim_items hab) fun ρ xs ys _ hrow => ?_
  have hselected := hselect ρ xs ys hrow
  generalize select xs = x at hselected ⊢
  generalize select ys = y at hselected ⊢
  cases hselected with
  | none => exact sim_raise _
  | some hv => exact sim_pure (.cons (.tagged hv) .nil)

theorem nth_sim : ρ.Sim Returns (nth inputs : Exec E Returned) (nth inputs') := by
  refine sim_bind (sim_arguments (R := Both arrays Same) (takes_pair takes_array takes_int) h) ?_
  rintro ρ ⟨a, index⟩ ⟨b, _⟩ _ ⟨hab, ⟨⟩⟩
  refine sim_bind (sim_items hab) fun ρ xs ys _ hrow => ?_
  rw [hrow.length_eq]
  cases position? ys.length index.toInt with
  | none => exact sim_raise _
  | some position =>
    have hrel := getElem?_rel_of_forall₂ hrow position
    dsimp only
    generalize xs[position]? = x at hrel ⊢
    generalize ys[position]? = y at hrel ⊢
    cases hrel with
    | none => exact sim_raise _
    | some hv => exact sim_pure (.cons (.tagged hv) .nil)

/-! #### Strings -/

theorem join_sim : ρ.Sim Returns (join inputs : Exec E Returned) (join inputs') := by
  refine sim_bind (sim_arguments (R := Both arrays Same) (takes_pair takes_array takes_text) h) ?_
  rintro ρ ⟨a, separator⟩ ⟨b, _⟩ _ ⟨hab, ⟨⟩⟩
  refine sim_machine fun m m' hm => ?_
  have htexts : ((m.heap.items a).map fun v => (m.heap.plainText v).toList) =
      (m'.heap.items b).map fun v => (m'.heap.plainText v).toList :=
    map_eq_of_forall₂ (hm.heap.items hab) fun _ _ hxy =>
      congrArg String.toList (hm.heap.plainText_eq hxy)
  dsimp only
  rw [htexts]
  exact sim_pure (.cons (.text _) .nil)

theorem split_sim : ρ.Sim Returns (split inputs : Exec E Returned) (split inputs') := by
  refine sim_bind (sim_arguments (R := Both Same Same) (takes_pair takes_text takes_text) h) ?_
  rintro ρ ⟨s, separator⟩ ⟨_, _⟩ _ ⟨⟨⟩, ⟨⟩⟩
  exact returnTexts_sim _

theorem words_sim : ρ.Sim Returns (words inputs : Exec E Returned) (words inputs') := by
  refine sim_bind (sim_arguments (R := Same) takes_text h) ?_
  rintro ρ s _ _ ⟨⟩
  exact returnTexts_sim _

theorem textConcat_sim :
    ρ.Sim Returns (textConcat inputs : Exec E Returned) (textConcat inputs') := by
  refine sim_bind (sim_arguments (R := Both Same Same) (takes_pair takes_text takes_text) h) ?_
  rintro ρ ⟨a, b⟩ ⟨_, _⟩ _ ⟨⟨⟩, ⟨⟩⟩
  exact sim_pure (.cons (.text _) .nil)

/-! #### Scopes -/

theorem newScope_sim : ρ.Sim Returns (newScope inputs : Exec E Returned) (newScope inputs') := by
  refine sim_bind (sim_arguments (R := Same) takes_text h) ?_
  rintro ρ name _ _ ⟨⟩
  refine sim_bind sim_newScope fun ρ a b _ hab => ?_
  exact sim_bind (R := Anything) (fun m m' hm => .done (.refl ρ m.heap)
    { hm with registry := hm.registry.insert name hab } trivial) fun _ _ _ _ _ => sim_pure .nil

theorem getScope_sim : ρ.Sim Returns (getScope inputs : Exec E Returned) (getScope inputs') := by
  refine sim_bind (sim_arguments (R := Same) takes_text h) ?_
  rintro ρ name _ _ ⟨⟩
  refine sim_machine fun m m' hm => ?_
  have hget := hm.registry.get? name
  generalize m.registry.get? name = x at hget ⊢
  generalize m'.registry.get? name = y at hget ⊢
  cases hget with
  | none => exact sim_raise _
  | some hab => exact sim_pure (.cons (.scope hab) .nil)

theorem setField_sim : ρ.Sim Returns (setField inputs : Exec E Returned) (setField inputs') := by
  refine sim_bind (sim_arguments (R := Both scopes (Both Same Values))
    (takes_triple takes_scope takes_text takes_value) h) ?_
  rintro ρ ⟨a, key, v⟩ ⟨b, _, w⟩ _ ⟨hab, ⟨⟩, hv⟩
  exact sim_bind (sim_setField hab key hv) fun _ _ _ _ _ => sim_pure .nil

theorem getField_sim : ρ.Sim Returns (getField inputs : Exec E Returned) (getField inputs') := by
  refine sim_bind (sim_arguments (R := Both scopes Same) (takes_pair takes_scope takes_text) h) ?_
  rintro ρ ⟨a, key⟩ ⟨b, _⟩ _ ⟨hab, ⟨⟩⟩
  refine sim_machine fun m m' hm => ?_
  have hcontents := hm.heap.contents hab
  have hget := hcontents.fields.get? key
  have htext : (m.heap.scope a).text = (m'.heap.scope b).text := by
    rw [Scope.text, Scope.text, hcontents.fields.names]
  dsimp only [Scope.get?]
  rw [htext]
  generalize (m.heap.scope a).fields.get? key = x at hget ⊢
  generalize (m'.heap.scope b).fields.get? key = y at hget ⊢
  cases hget with
  | none => exact sim_raise _
  | some hv => exact sim_pure (.cons (.tagged hv) .nil)

theorem increase_sim : ρ.Sim Returns (increase inputs : Exec E Returned) (increase inputs') := by
  refine sim_bind (sim_arguments (R := Both scopes (Both Same Same))
    (takes_triple takes_scope takes_text takes_int) h) ?_
  rintro ρ ⟨a, key, amount⟩ ⟨b, _, _⟩ _ ⟨hab, ⟨⟩, ⟨⟩⟩
  exact adjust_sim hab key amount

theorem decrease_sim : ρ.Sim Returns (decrease inputs : Exec E Returned) (decrease inputs') := by
  refine sim_bind (sim_arguments (R := Both scopes (Both Same Same))
    (takes_triple takes_scope takes_text takes_int) h) ?_
  rintro ρ ⟨a, key, amount⟩ ⟨b, _, _⟩ _ ⟨hab, ⟨⟩, ⟨⟩⟩
  dsimp only
  split
  · exact adjust_sim hab key _
  · exact sim_raise _

theorem adjustBy_sim (amount : Int64) :
    ρ.Sim Returns (adjustBy amount inputs : Exec E Returned) (adjustBy amount inputs') := by
  refine sim_bind (sim_arguments (R := Both scopes Same) (takes_pair takes_scope takes_text) h) ?_
  rintro ρ ⟨a, key⟩ ⟨b, _⟩ _ ⟨hab, ⟨⟩⟩
  exact adjust_sim hab key amount

end

end Vocabulary

/-- No word of the language has an output that makes a word of a text. -/
theorem Builtin.outputs_ne_word (b : Builtin) :
    ∀ slot ∈ b.effect.outputs, slot.spec ≠ .exact .word := by
  cases b <;> decide

open Vocabulary in
/-- **A passive word keeps machines in agreement.** -/
theorem Builtin.run_sim {b : Builtin} (hb : b.IsPassive) (engine : Engine E) {ρ : Renaming}
    {inputs inputs' : List Payload} (h : List.Forall₂ ρ.Payloads inputs inputs') :
    ρ.Sim Returns (b.run engine inputs) (b.run engine inputs') := by
  cases b with
  | clear | call | choose | times | each | map => exact hb.elim
  | dup => exact dup_sim h
  | drop => exact drop_sim h
  | swap => exact swap_sim h
  | add | subtract | multiply | divide => exact arithmetic_sim h _
  | equal | notEqual => exact equality_sim h _
  | less | greater | lessEqual | greaterEqual => exact ordering_sim h _
  | and | or => exact logic_sim h _
  | not => exact negation_sim h
  | append => exact copied_sim h withLast_combines
  | prepend => exact copied_sim h withFirst_combines
  | appendInPlace => exact inPlace_sim h withLast_combines
  | prependInPlace => exact inPlace_sim h withFirst_combines
  | concat => exact concat_sim h
  | concatInPlace => exact concatInPlace_sim h
  | count | length => exact count_sim h
  | first => exact endElement_sim h (fun _ _ _ hrow => head?_rel_of_forall₂ hrow) _
  | last => exact endElement_sim h (fun _ _ _ hrow => getLast?_rel_of_forall₂ hrow) _
  | nth => exact nth_sim h
  | join => exact join_sim h
  | split => exact split_sim h
  | words => exact words_sim h
  | textConcat => exact textConcat_sim h
  | newScope => exact newScope_sim h
  | getScope => exact getScope_sim h
  | setField => exact setField_sim h
  | getField => exact getField_sim h
  | increase => exact increase_sim h
  | decrease => exact decrease_sim h
  | increment | decrement => exact adjustBy_sim h _
  | print | puts => exact writeWith_sim h _

/-! ### Parsing and executing -/

namespace Renaming

variable {ρ : Renaming}

/-- The reader of a parse is the same, and its accumulator agrees; both are taken away in the
end. -/
theorem sim_parseSource {engine engine' : Engine E} (path source : String)
    (hruns : engine.Runs) (hruns' : engine'.Runs)
    (h : ρ.Sim Anything (engine.parseAll engine.rounds) (engine'.parseAll engine'.rounds)) :
    ρ.Sim Rows (engine.parseSource path source) (engine'.parseSource path source) := by
  intro m m' hm
  have hopened : ρ.Machines (Engine.opened path source m) (Engine.opened path source m') :=
    { hm with
      lexers := congrArg (_ :: ·) hm.lexers
      accumulators := .cons .nil hm.accumulators }
  have hframe := (hruns.runs_parseAll engine.rounds _ hopened.standard.plain).frame
  have hframe' := (hruns'.runs_parseAll engine'.rounds _ hopened.standard_right.plain).frame
  have hsim : ρ.Follows m.heap Anything
      (engine.parseAll engine.rounds (Engine.opened path source m))
      (engine'.parseAll engine'.rounds (Engine.opened path source m')) := h _ _ hopened
  generalize hx : engine.parseAll engine.rounds (Engine.opened path source m) = o at hframe hsim
  generalize hy : engine'.parseAll engine'.rounds (Engine.opened path source m') = o'
    at hframe' hsim
  cases hsim with
  | exhausted =>
    rw [engine.parseSource_of_exhausted hx, engine'.parseSource_of_exhausted hy]
    exact .exhausted
  | done advance machines =>
    obtain ⟨buffer, values, hl, ha⟩ := hframe.exists_opened
    obtain ⟨buffer', values', hl', ha'⟩ := hframe'.exists_opened
    have hrows := machines.accumulators
    rw [ha, ha'] at hrows
    cases hrows with
    | cons hvalues hrest =>
      rw [engine.parseSource_of_done hx hl ha, engine'.parseSource_of_done hy hl' ha']
      exact .done advance { machines with lexers := hm.lexers, accumulators := hrest }
        (List.rel_reverse hvalues)
  | raised e advance machines =>
    obtain ⟨buffer, values, hl, ha⟩ := hframe.exists_opened
    obtain ⟨buffer', values', hl', ha'⟩ := hframe'.exists_opened
    have hrows := machines.accumulators
    rw [ha, ha'] at hrows
    cases hrows with
    | cons _ hrest =>
      rw [engine.parseSource_of_raised hx hl ha, engine'.parseSource_of_raised hy hl' ha']
      exact .raised e advance { machines with lexers := hm.lexers, accumulators := hrest }

theorem sim_parseUntil {engine engine' : Engine E} (delimiter : String)
    (hruns : engine.Runs) (hruns' : engine'.Runs)
    (h : ρ.Sim Anything (engine.collectUntil delimiter engine.rounds)
      (engine'.collectUntil delimiter engine'.rounds)) :
    ρ.Sim Rows (engine.parseUntil delimiter) (engine'.parseUntil delimiter) := by
  intro m m' hm
  by_cases hidle : m.lexers = []
  · rw [engine.parseUntil_of_idle hidle, engine'.parseUntil_of_idle (hm.lexers.trans hidle)]
    exact sim_raise .untilOutsideParse m m' hm
  have hidle' : m'.lexers ≠ [] := hm.lexers ▸ hidle
  have hcollecting : ρ.Machines (Engine.collecting m) (Engine.collecting m') :=
    { hm with accumulators := .cons .nil hm.accumulators }
  have hframe :=
    (hruns.runs_collectUntil delimiter engine.rounds _ hcollecting.standard.plain).frame
  have hframe' :=
    (hruns'.runs_collectUntil delimiter engine'.rounds _ hcollecting.standard_right.plain).frame
  have hsim : ρ.Follows m.heap Anything
      (engine.collectUntil delimiter engine.rounds (Engine.collecting m))
      (engine'.collectUntil delimiter engine'.rounds (Engine.collecting m')) := h _ _ hcollecting
  generalize hx : engine.collectUntil delimiter engine.rounds (Engine.collecting m) = o
    at hframe hsim
  generalize hy : engine'.collectUntil delimiter engine'.rounds (Engine.collecting m') = o'
    at hframe' hsim
  cases hsim with
  | exhausted =>
    rw [engine.parseUntil_of_exhausted hidle hx, engine'.parseUntil_of_exhausted hidle' hy]
    exact .exhausted
  | done advance machines =>
    obtain ⟨values, -, ha⟩ := hframe.accumulators.exists_cons
    obtain ⟨values', -, ha'⟩ := hframe'.accumulators.exists_cons
    have hrows := machines.accumulators
    rw [ha, ha'] at hrows
    cases hrows with
    | cons hvalues hrest =>
      rw [engine.parseUntil_of_done hidle hx ha, engine'.parseUntil_of_done hidle' hy ha']
      exact .done advance { machines with accumulators := hrest }
        (dropLast_of_forall₂ (List.rel_reverse hvalues))
  | raised e advance machines =>
    obtain ⟨values, -, ha⟩ := hframe.accumulators.exists_cons
    obtain ⟨values', -, ha'⟩ := hframe'.accumulators.exists_cons
    have hrows := machines.accumulators
    rw [ha, ha'] at hrows
    cases hrows with
    | cons _ hrest =>
      rw [engine.parseUntil_of_raised hidle hx ha, engine'.parseUntil_of_raised hidle' hy ha']
      exact .raised e advance { machines with accumulators := hrest }

/-- The value collected last agrees, if there is one. -/
theorem Machines.lastCollected {m m' : Machine E} (hm : ρ.Machines m m') :
    Option.Rel ρ.Values (m.accumulators.head?.bind List.head?)
      (m'.accumulators.head?.bind List.head?) := by
  have haccumulators := hm.accumulators
  generalize m.accumulators = xss at haccumulators ⊢
  generalize m'.accumulators = yss at haccumulators ⊢
  cases haccumulators with
  | nil => exact .none
  | cons hrow _ =>
    cases hrow with
    | nil => exact .none
    | cons hv _ => exact .some hv

/-- What the words that run quotations ask for is taken alike. -/
theorem takes_asked {α : Type} {b : Builtin} {taking : Taking α}
    {R : (agreeing E).World → α → α → Prop} (h : (agreeing E).Asks b taking R) :
    ρ.Takes (R ρ) taking taking := by
  cases h with
  | call => exact takes_array
  | choose => exact takes_triple takes_bool takes_array takes_array
  | times => exact takes_pair takes_int takes_array
  | each | map => exact takes_pair takes_array takes_array

theorem closed : (agreeing E).Closed where
  toComposes := composes
  toKinds := kinds
  views hm :=
    { parsingWords := hm.parsingWords
      dictionary := hm.dictionary
      items := hm.heap.items
      shown := fun hv => (hm.heap.shown_eq hv).symm
      resolve := hm.heap.resolve hm.registry
      lastCollected := hm.lastCollected }
  raise _ := sim_raise _
  giveUp hfuel hy := by
    rw [hy hfuel.symm]
    exact sim_giveUp
  fuel h := ⟨_, h.symm, rfl⟩
  pop := sim_pop
  newArray := sim_newArray
  accumulate := sim_accumulate
  parseOne _ htake :=
    composes.parseOne sim_scan (fun _ => sim_raise _) (fun _ _ => sim_throw _) htake
  parseSource path source hruns h := sim_parseSource path source hruns.1 hruns.2 (h _ trivial)
  parseUntil delimiter hruns h := sim_parseUntil delimiter hruns.1 hruns.2 (h _ trivial)
  passive hb hinputs engine engine' := by
    rw [Builtin.run_congr hb engine' engine]
    exact Builtin.run_sim hb engine hinputs
  clear _ := fun m _ hm => .done (.refl _ m.heap) { hm with stack := .nil } .nil
  arguments hasks := sim_arguments (takes_asked hasks)
  nothing _ := .nil
  made hab := .cons (.array hab) .nil

/-! ### Running words -/

variable {engine : Engine E} (h : (agreeing E).Engines engine engine) (host : Host E)
include h

theorem dispatchWith {m m' : Machine E} (hm : ρ.Machines m m') {name : String} {word : Entry}
    (hword : m.dictionary.get? name = some word) :
    ρ.Follows m.heap Anything (host.dispatchWith engine word m)
      (host.dispatchWith engine word m') := by
  obtain ⟨b, -, hentry, hhandler⟩ := hm.standard.faithful.entry name word hword
  have heffect : word.effect = b.effect := by
    rw [hentry]
    rfl
  unfold Host.dispatchWith
  rw [machine_bind, machine_bind, hm.handlers, hhandler]
  exact sim_bind (sim_takeInputs word) (fun _ _ _ _ hinputs => sim_within word.name <|
    sim_bind (sim_withContext (h.run b hinputs)) fun _ _ _ _ hreturned =>
      sim_pushOutputs (heffect ▸ b.outputs_ne_word) hreturned) m m' hm

theorem performWith (name : String) :
    ρ.Sim Anything (host.performWith engine name) (host.performWith engine name) := by
  change ρ.Sim Anything
    (engine.performing (host.dispatchWith engine) (host.offerUnknown engine name) name)
    (engine.performing (host.dispatchWith engine) (host.offerUnknown engine name) name)
  refine h.performing (fun m m' word hm hword => dispatchWith h host hm hword) fun m m' hm => ?_
  rw [Host.offerUnknown, machine_bind, machine_bind, hm.standard.hook, hm.standard_right.hook]
  exact sim_raise _ m m' hm

end Renaming

/-- **Every engine keeps machines in agreement.** -/
theorem Host.engine_agreeing (host : Host E) (fuel : Nat) :
    (agreeing E).Engines (host.engine fuel) (host.engine fuel) := by
  refine closed.engines host.engine_tower host.engine_tower
    (fun n k => ⟨host.engine_runs n, host.engine_runs k⟩) ?_ rfl
  rintro n _ rfl hbelow ρ name
  exact Renaming.performWith hbelow host name

end Wordstack
