import Wordstack.Proofs.Course
import Wordstack.Proofs.Renaming

/-!
# Runs in parallel

Two standard machines that agree up to a renaming, and that are given the same to do, do the same:
both give up, both fail with the same error, or both succeed with results that agree, and the
machines that are left agree up to a renaming that relates what was related and some of what is new.
On the way no array is touched that was not related to begin with.

* `Renaming.Machines`: machines that agree.
* `Renaming.Advance`, `Renaming.Follows`: how two runs may end.
* `Renaming.agreeing`, `Renaming.Sim`: computations that keep machines in agreement, with one lemma
  for each operation.
-/

namespace Wordstack

variable {E : Embedding} {α β : Type}

namespace Renaming

/-! ### Machines that agree -/

/-- All but the heaps agree, and the vocabulary is the standard one. -/
structure Outsides (ρ : Renaming) (m m' : Machine E) : Prop where
  stack : List.Forall₂ ρ.Values m.stack m'.stack
  registry : m.registry.Match ρ.scopes m'.registry
  accumulators : List.Forall₂ (List.Forall₂ ρ.Values) m.accumulators m'.accumulators
  calls : m'.calls = m.calls
  dictionary : m'.dictionary = m.dictionary
  handlers : m'.handlers = m.handlers
  hook : m'.hook = m.hook
  parsingWords : m'.parsingWords = m.parsingWords
  lexers : m'.lexers = m.lexers
  output : m'.output = m.output
  memory : m'.memory = m.memory
  vocabulary : m.dictionary = (Machine.standard m.memory).dictionary ∧
    m.handlers = (Machine.standard m.memory).handlers ∧ m.hook = none

/-- Machines that agree: they hold the same values, shared in the same way, and differ in nothing
else. -/
structure Machines (ρ : Renaming) (m m' : Machine E) : Prop extends ρ.Outsides m m' where
  heap : ρ.Heaps m.heap m'.heap

variable {ρ ρ' ρ'' : Renaming} {m m' n n' : Machine E} {heap heap' heap'' : Heap}
  {v v' w w' : Value}

theorem Outsides.mono (h : ρ.Outsides m m') (hle : ρ.Le ρ') : ρ'.Outsides m m' :=
  { h with
    stack := forall₂_mono h.stack hle
    registry := h.registry.mono fun _ _ => hle.scopes
    accumulators := h.accumulators.imp fun _ _ hxy => forall₂_mono hxy hle }

theorem Outsides.standard (h : ρ.Outsides m m') : m.Standard :=
  ⟨h.vocabulary.1, h.vocabulary.2.1, h.vocabulary.2.2⟩

theorem Outsides.standard_right (h : ρ.Outsides m m') : m'.Standard :=
  ⟨by rw [h.dictionary, h.memory, h.vocabulary.1], by rw [h.handlers, h.memory, h.vocabulary.2.1],
    by rw [h.hook, h.vocabulary.2.2]⟩

theorem Outsides.error_eq (h : ρ.Outsides m m') (cause : Cause) :
    m'.error cause = m.error cause := by
  rw [Machine.error, Machine.error, Machine.location?, Machine.location?, h.lexers, h.calls]

theorem Outsides.addContext_eq (h : ρ.Outsides m m') (e : Error) :
    m'.addContext e = m.addContext e := by
  rw [Machine.addContext, Machine.addContext, Machine.innermostCall, Machine.innermostCall, h.calls,
    h.error_eq]

/-! ### How two runs may end -/

/-- What a run adds to a renaming and does to the arrays of the first heap: only new arrays are
related that were not before, and those that are not related stay as they are. -/
structure Advance (ρ ρ' : Renaming) (heap heap' : Heap) : Prop where
  le : ρ.Le ρ'
  fresh : ∀ {a b}, ρ'.arrays a b → ρ.arrays a b ∨ heap.arrays.size ≤ a.index
  size_le : heap.arrays.size ≤ heap'.arrays.size
  untouched : ∀ {a : ArrayId}, a.index < heap.arrays.size → (∀ b, ¬ρ.arrays a b) →
    heap'.items a = heap.items a

theorem Advance.refl (ρ : Renaming) (heap : Heap) : ρ.Advance ρ heap heap :=
  ⟨.refl ρ, .inl, Nat.le_refl _, fun _ _ => rfl⟩

theorem Advance.trans (h : ρ.Advance ρ' heap heap') (h' : ρ'.Advance ρ'' heap' heap'') :
    ρ.Advance ρ'' heap heap'' where
  le := h.le.trans h'.le
  fresh hab := by
    rcases h'.fresh hab with hab | hnew
    · exact h.fresh hab
    · exact .inr (Nat.le_trans h.size_le hnew)
  size_le := Nat.le_trans h.size_le h'.size_le
  untouched {a} ha hnone := by
    have hnone' : ∀ b, ¬ρ'.arrays a b := fun b hab =>
      (h.fresh hab).elim (hnone b) (Nat.not_le_of_lt ha)
    rw [h'.untouched (Nat.lt_of_lt_of_le ha h.size_le) hnone', h.untouched ha hnone]

/-- How two runs may end that started from machines that agreed, the first with the given heap. -/
inductive Follows (ρ : Renaming) (heap : Heap) (R : Renaming → α → α → Prop) :
    Outcome E α → Outcome E α → Prop
  | exhausted : Follows ρ heap R .exhausted .exhausted
  | done {ρ' : Renaming} {a b : α} {n n' : Machine E} (advance : ρ.Advance ρ' heap n.heap)
      (machines : ρ'.Machines n n') (result : R ρ' a b) :
      Follows ρ heap R (.done a n) (.done b n')
  | raised {ρ' : Renaming} {n n' : Machine E} (e : Error) (advance : ρ.Advance ρ' heap n.heap)
      (machines : ρ'.Machines n n') : Follows ρ heap R (.raised e n) (.raised e n')

theorem Follows.advance {R : Renaming → α → α → Prop} {o o' : Outcome E α}
    (h : ρ.Advance ρ' heap heap') (hfollows : ρ'.Follows heap' R o o') : ρ.Follows heap R o o' := by
  cases hfollows with
  | exhausted => exact .exhausted
  | done advance machines result => exact .done (h.trans advance) machines result
  | raised e advance machines => exact .raised e (h.trans advance) machines

/-! ### What words are given and hand back -/

/-- Payloads that agree. -/
inductive Payloads (ρ : Renaming) : Payload → Payload → Prop
  | int (n : Int64) : Payloads ρ (.int n) (.int n)
  | float (x : Float) : Payloads ρ (.float x) (.float x)
  | bool (flag : Bool) : Payloads ρ (.bool flag) (.bool flag)
  | text (s : String) : Payloads ρ (.text s) (.text s)
  | array {a b : ArrayId} (h : ρ.arrays a b) : Payloads ρ (.array a) (.array b)
  | scope {a b : ScopeId} (h : ρ.scopes a b) : Payloads ρ (.scope a) (.scope b)
  | tagged {v v' : Value} (h : ρ.Values v v') : Payloads ρ (.tagged v) (.tagged v')

/-- What is handed back agrees. -/
def Returns : Renaming → Returned → Returned → Prop :=
  fun ρ r r' => List.Forall₂ ρ.Payloads r.toList r'.toList

/-! ### Computations -/

open Exec

open Correspondence (Anything Same Both sim_machine)

/-- Runs in parallel, on one engine or on two. -/
def agreeing (E : Embedding) : Correspondence E where
  World := Renaming
  Later := Le
  Reading _ := True
  Values := Values
  Arrays := arrays
  Inputs ρ _ := List.Forall₂ ρ.Payloads
  Outputs _ := Returns
  Machines := Machines
  Ends ρ m := ρ.Follows m.heap
  Fuel := Eq
  Known engine engine' := engine.Runs ∧ engine'.Runs

/-- Computations that keep machines in agreement. -/
abbrev Sim (ρ : Renaming) (R : Renaming → α → α → Prop) (x y : Exec E α) : Prop :=
  (agreeing E).Sim ρ R x y

/-- The results are rows of values that agree. -/
abbrev Rows : Renaming → List Value → List Value → Prop :=
  fun ρ => List.Forall₂ ρ.Values

variable {R : Renaming → α → α → Prop} {S : Renaming → β → β → Prop}

theorem sim_pure {a b : α} (h : R ρ a b) : ρ.Sim R (pure a : Exec E α) (pure b) :=
  fun m _ hm => .done (.refl ρ m.heap) hm h

theorem sim_bind {x y : Exec E α} {f f' : α → Exec E β} (hx : ρ.Sim R x y)
    (hf : ∀ ρ' a b, ρ.Le ρ' → R ρ' a b → ρ'.Sim S (f a) (f' b)) :
    ρ.Sim S (x >>= f) (y >>= f') := by
  intro m m' hm
  have h := hx m m' hm
  rw [bind_apply, bind_apply]
  generalize x m = o at h ⊢
  generalize y m' = o' at h ⊢
  cases h with
  | exhausted => exact .exhausted
  | done advance machines result =>
    exact .advance advance (hf _ _ _ advance.le result _ _ machines)
  | raised e advance machines => exact .raised e advance machines

theorem sim_giveUp : ρ.Sim R (giveUp : Exec E α) giveUp :=
  fun _ _ _ => .exhausted

theorem sim_throw (e : Error) : ρ.Sim R (throw e : Exec E α) (throw e) :=
  fun m _ hm => .raised e (.refl ρ m.heap) hm

theorem sim_raise (cause : Cause) : ρ.Sim R (raise cause : Exec E α) (raise cause) := by
  intro m m' hm
  unfold raise
  rw [hm.error_eq]
  exact .raised _ (.refl ρ m.heap) hm

/-- The results of two checks: the same cause, or results that are related. -/
inductive Agree (r : α → β → Prop) : Except Cause α → Except Cause β → Prop
  | ok {a : α} {b : β} (h : r a b) : Agree r (.ok a) (.ok b)
  | error (cause : Cause) : Agree r (.error cause) (.error cause)

theorem sim_ofExcept {result result' : Except Cause α} (h : Agree (R ρ) result result') :
    ρ.Sim R (ofExcept result : Exec E α) (ofExcept result') := by
  cases h with
  | ok h => exact sim_pure h
  | error cause => exact sim_throw _

theorem sim_withContext {x y : Exec E α} (h : ρ.Sim R x y) :
    ρ.Sim R (withContext x) (withContext y) := by
  intro m m' hm
  have hxy := h m m' hm
  unfold withContext
  generalize x m = o at hxy ⊢
  generalize y m' = o' at hxy ⊢
  cases hxy with
  | exhausted => exact .exhausted
  | done advance machines result => exact .done advance machines result
  | raised e advance machines =>
    dsimp only
    rw [machines.addContext_eq]
    exact .raised _ advance machines

theorem sim_within (name : String) {x y : Exec E α} (h : ρ.Sim R x y) :
    ρ.Sim R (within name x) (within name y) := by
  intro m m' hm
  have hxy := h { m with calls := name :: m.calls } { m' with calls := name :: m'.calls }
    { hm with calls := congrArg (name :: ·) hm.calls }
  rw [within_apply, within_apply]
  generalize x { m with calls := name :: m.calls } = o at hxy ⊢
  generalize y { m' with calls := name :: m'.calls } = o' at hxy ⊢
  cases hxy with
  | exhausted => exact .exhausted
  | done advance machines result =>
    exact .done advance { machines with calls := congrArg List.tail machines.calls } result
  | raised e advance machines =>
    exact .raised e advance { machines with calls := congrArg List.tail machines.calls }

/-! ### The value stack -/

theorem sim_push (hv : ρ.Values v v') :
    ρ.Sim Anything (push v : Exec E Unit) (push v') :=
  fun m _ hm => .done (.refl ρ m.heap) { hm with stack := .cons hv hm.stack } trivial

theorem sim_pop : ρ.Sim Values (pop : Exec E Value) pop := by
  intro m m' hm
  have hstack := hm.stack
  unfold pop
  generalize hs : m.stack = stack at hstack ⊢
  generalize hs' : m'.stack = stack' at hstack ⊢
  cases hstack with
  | nil => exact sim_raise .emptyStack m m' hm
  | cons hv hrest => exact .done (.refl ρ m.heap) { hm with stack := hrest } hv

/-! ### The heap and the output -/

theorem sim_newArray {values values' : List Value} (h : List.Forall₂ ρ.Values values values') :
    ρ.Sim arrays (newArray values : Exec E ArrayId) (newArray values') := by
  intro m m' hm
  have hle : ρ.Le _ := ρ.le_withArray (m.heap.newArray values).1 (m'.heap.newArray values').1
  refine .done ⟨hle, ?_, by simp [Heap.newArray], fun ha _ => Heap.items_newArray_of_lt ha values⟩
    { hm.mono hle with heap := hm.heap.newArray h } (.inr ⟨rfl, rfl⟩)
  rintro a b (hab | ⟨rfl, rfl⟩)
  · exact .inl hab
  · exact .inr (Nat.le_refl _)

theorem sim_newScope : ρ.Sim scopes (Exec.newScope : Exec E ScopeId) Exec.newScope := by
  intro m m' hm
  have hle : ρ.Le _ := ρ.le_withScope m.heap.newScope.1 m'.heap.newScope.1
  exact .done ⟨hle, .inl, Nat.le_refl _, fun _ _ => rfl⟩
    { hm.mono hle with heap := hm.heap.newScope } (.inr ⟨rfl, rfl⟩)

/-- A change of the heaps that touches related arrays at most. -/
theorem sim_modifyHeap {f f' : Heap → Heap}
    (hheaps : ∀ heap heap', ρ.Heaps heap heap' → ρ.Heaps (f heap) (f' heap'))
    (hsize : ∀ heap, heap.arrays.size ≤ (f heap).arrays.size)
    (hitems : ∀ heap (a : ArrayId), (∀ b, ¬ρ.arrays a b) → (f heap).items a = heap.items a) :
    ρ.Sim Anything (modifyHeap f : Exec E Unit) (modifyHeap f') :=
  fun m _ hm => .done ⟨.refl ρ, .inl, hsize m.heap, fun _ ha => hitems m.heap _ ha⟩
    { hm with heap := hheaps _ _ hm.heap } trivial

/-- The elements of related arrays are replaced. -/
theorem sim_setItems {a b : ArrayId} (hab : ρ.arrays a b) {f f' : Heap → List Value}
    (h : ∀ heap heap', ρ.Heaps heap heap' → List.Forall₂ ρ.Values (f heap) (f' heap')) :
    ρ.Sim Anything (modifyHeap fun heap => heap.setItems a (f heap) : Exec E Unit)
      (modifyHeap fun heap => heap.setItems b (f' heap)) := by
  refine sim_modifyHeap (fun heap heap' hheaps => hheaps.setItems hab (h heap heap' hheaps))
    (fun heap => by simp [Heap.setItems]) fun heap x hx => Heap.items_setItems_of_ne ?_ _
  rintro rfl
  exact hx b hab

theorem sim_setField {a b : ScopeId} (hab : ρ.scopes a b) (key : String) (hv : ρ.Values v v') :
    ρ.Sim Anything (modifyHeap (·.setField a key v) : Exec E Unit)
      (modifyHeap (·.setField b key v')) :=
  sim_modifyHeap (fun _ _ hheaps => hheaps.setField hab key hv) (fun _ => Nat.le_refl _)
    fun _ _ _ => rfl

theorem sim_items {a b : ArrayId} (hab : ρ.arrays a b) :
    ρ.Sim Rows (items a : Exec E (List Value)) (items b) :=
  sim_machine fun _ _ hm => sim_pure (hm.heap.items hab)

theorem sim_write (text : String) : ρ.Sim Anything (write text : Exec E Unit) (write text) :=
  fun m _ hm => .done (.refl ρ m.heap) { hm with output := congrArg (· ++ text) hm.output } trivial

/-! ### The parses in progress -/

/-- The value that is collected for a lexeme agrees with itself under every renaming. -/
theorem values_literal (ρ : Renaming) {found : Lexeme} (h : found.IsScannable) :
    ρ.Values (Value.ofLexeme found).asLiteral (Value.ofLexeme found).asLiteral := by
  cases found with
  | quoted text => exact .string text
  | bare text =>
    obtain ⟨hne, hblank, hquote⟩ := h
    change ρ.Values (Value.ofText text).asLiteral (Value.ofText text).asLiteral
    unfold Value.ofText
    cases hnumber : Numeral.number? text.toList with
    | some n => cases n with
      | int n => exact .int n
      | float x => exact .float x
    | none =>
      change ρ.Values (Value.word text).asLiteral (Value.word text).asLiteral
      unfold Numeral.number? at hnumber
      unfold Value.asLiteral
      split
      · exact .bool _
      · exact .bool _
      · next ht hf =>
        refine .word (ρ.lexical text ⟨hne, hblank, hquote, ⟨fun h => ?_, fun h => ?_⟩, ?_, ?_⟩)
        · exact ht (congrArg Value.word h)
        · exact hf (congrArg Value.word h)
        · split at hnumber <;> simp_all
        · split at hnumber <;> simp_all

/-- A scan finds the same, and the value of a lexeme that it finds agrees with itself. -/
theorem sim_scan : ρ.Sim (agreeing E).Scanned (scan : Exec E (Option Scan)) scan := by
  intro m m' hm
  unfold scan
  rw [hm.lexers]
  cases hl : m.lexers with
  | nil => exact .done (.refl ρ m.heap) hm ⟨rfl, nofun⟩
  | cons buffer lexers =>
    refine .done (.refl ρ m.heap) { hm with lexers := rfl } ⟨rfl, fun found hfound => ?_⟩
    exact ρ.values_literal (Buffer.isScannable_of_scan (Option.some.inj hfound))

theorem sim_accumulate (hv : ρ.Values v v') :
    ρ.Sim Anything (accumulate v : Exec E Unit) (accumulate v') := by
  intro m m' hm
  have haccumulators := hm.accumulators
  unfold accumulate
  generalize m.accumulators = xss at haccumulators ⊢
  generalize m'.accumulators = yss at haccumulators ⊢
  cases haccumulators with
  | nil => exact sim_raise .notParsing m m' hm
  | cons hrow hrest =>
    exact .done (.refl ρ m.heap) { hm with accumulators := .cons (.cons hv hrow) hrest } trivial

/-! ### Payloads that agree -/

variable {p p' : Payload} {slot : Slot}

theorem Values.contents (h : ρ.Values v v') :
    ρ.Payloads (.contents v) (.contents v') := by
  cases h with
  | word h => exact .text _
  | string text => exact .text text
  | int n => exact .int n
  | float x => exact .float x
  | bool flag => exact .bool flag
  | array h => exact .array h
  | scope h => exact .scope h

theorem Values.ofValue (h : ρ.Values v v') (slot : Slot) :
    ρ.Payloads (.ofValue slot v) (.ofValue slot v') := by
  unfold Payload.ofValue
  split
  · exact .tagged h
  · exact h.contents

theorem values_ofNumber (ρ : Renaming) (n : Number) : ρ.Values (.ofNumber n) (.ofNumber n) := by
  cases n with
  | int n => exact .int n
  | float x => exact .float x

namespace Payloads

theorem mono (h : ρ.Payloads p p') (hle : ρ.Le ρ') : ρ'.Payloads p p' := by
  cases h with
  | int n => exact .int n
  | float x => exact .float x
  | bool flag => exact .bool flag
  | text s => exact .text s
  | array h => exact .array (hle.arrays h)
  | scope h => exact .scope (hle.scopes h)
  | tagged h => exact .tagged (h.mono hle)

theorem form_eq (h : ρ.Payloads p p') : p.form = p'.form := by
  cases h <;> rfl

theorem describe_eq (h : ρ.Payloads p p') (hheap : ρ.Heaps heap heap') :
    p.describe heap = p'.describe heap' := by
  unfold Payload.describe
  cases h with
  | @array a b hab =>
    have hitems : (heap.items a).map heap.describe = (heap'.items b).map heap'.describe :=
      map_eq_of_forall₂ (hheap.items hab) fun _ _ hxy => hheap.describe_eq hxy
    dsimp only
    rw [hitems]
  | @scope a b hab =>
    have hcontents := hheap.contents hab
    have hfields : (heap.scope a).fields.entries.map
          (fun entry => Text.quoted entry.1 ++ ": " ++ heap.describe entry.2) =
        (heap'.scope b).fields.entries.map
          (fun entry => Text.quoted entry.1 ++ ": " ++ heap'.describe entry.2) :=
      map_eq_of_forall₂ hcontents.fields fun x y hxy => by rw [hxy.1, hheap.describe_eq hxy.2]
    dsimp only
    rw [Payload.fieldsText, Payload.fieldsText, hfields, hcontents.writes]
  | tagged h =>
    dsimp only
    rw [hheap.describe_eq h]
  | _ => dsimp only

/-- Under an output type other than that of words, payloads that agree become values that agree. -/
theorem wrap (h : ρ.Payloads p p') {spec : SlotType} (hspec : spec ≠ .exact .word) :
    ρ.Values (p.wrap spec) (p'.wrap spec) := by
  cases h with
  | int n =>
    simp only [Payload.wrap]
    split
    · exact .float _
    · exact .int n
  | float x => exact .float x
  | bool flag => exact .bool flag
  | text s =>
    simp only [Payload.wrap, hspec, if_false]
    exact .string s
  | array h => exact .array h
  | scope h => exact .scope h
  | tagged h => exact h

theorem isWordText_eq (h : ρ.Payloads p p') (spec : SlotType) :
    p.isWordText spec = p'.isWordText spec := by
  cases h <;> rfl

theorem tagged?_rel (h : ρ.Payloads p p') : Option.Rel ρ.Values p.tagged? p'.tagged? := by
  cases h with
  | tagged h => exact .some h
  | _ => exact .none

/-- An output slot makes values that agree of payloads that agree, or has the same complaint. -/
theorem toValue (h : ρ.Payloads p p') (hheap : ρ.Heaps heap heap')
    (hspec : slot.spec ≠ .exact .word) :
    Agree ρ.Values (p.toValue heap slot) (p'.toValue heap' slot) := by
  unfold Payload.toValue
  split
  · rw [h.describe_eq hheap]
    have htagged := h.tagged?_rel
    generalize p.tagged? = x at htagged ⊢
    generalize p'.tagged? = y at htagged ⊢
    cases htagged with
    | none => exact .error _
    | @some v v' hv =>
      have haccepts := hv.accepts_eq slot.spec
      by_cases ha : slot.spec.accepts v = true
      · have ha' : slot.spec.accepts v' = true := haccepts ▸ ha
        simpa [Option.filter, ha, ha'] using Agree.ok hv
      · have ha' : slot.spec.accepts v' ≠ true := haccepts ▸ ha
        simpa [Option.filter, ha, ha'] using Agree.error _
  · have hwrap := h.wrap hspec
    dsimp only
    rw [h.isWordText_eq, hwrap.accepts_eq, hheap.shown_eq hwrap]
    split
    · exact .ok hwrap
    · exact .error _

end Payloads

/-! ### Taking inputs -/

/-- Inputs that agree are taken alike. -/
def Takes (ρ : Renaming) (r : α → β → Prop) (x : Taking α) (y : Taking β) : Prop :=
  ∀ inputs inputs', List.Forall₂ ρ.Payloads inputs inputs' →
    Agree (fun a b => r a.1 b.1 ∧ List.Forall₂ ρ.Payloads a.2 b.2) (x.run inputs) (y.run inputs')

theorem takes_pure {r : α → β → Prop} {a : α} {b : β} (h : r a b) :
    ρ.Takes r (pure a) (pure b) :=
  fun _ _ hinputs => .ok ⟨h, hinputs⟩

theorem takes_bind {γ δ : Type} {r : α → β → Prop} {s : γ → δ → Prop} {x : Taking α} {y : Taking β}
    {f : α → Taking γ} {f' : β → Taking δ} (hx : ρ.Takes r x y)
    (hf : ∀ a b, r a b → ρ.Takes s (f a) (f' b)) : ρ.Takes s (x >>= f) (y >>= f') := by
  intro inputs inputs' hinputs
  have h := hx inputs inputs' hinputs
  rw [StateT.run_bind, StateT.run_bind]
  generalize x.run inputs = o at h ⊢
  generalize y.run inputs' = o' at h ⊢
  cases h with
  | ok h => exact hf _ _ h.1 _ _ h.2
  | error cause => exact .error cause

theorem takes_next {r : α → α → Prop} (wanted : String) {read : Payload → Option α}
    (h : ∀ p p', ρ.Payloads p p' → Option.Rel r (read p) (read p')) :
    ρ.Takes r (Taking.next wanted read) (Taking.next wanted read) := by
  intro inputs inputs' hinputs
  cases hinputs with
  | nil => exact .error _
  | @cons p p' rest rest' hp hrest =>
    have hread := h p p' hp
    unfold Taking.next
    dsimp only [StateT.run]
    rw [hp.form_eq]
    generalize read p = x at hread ⊢
    generalize read p' = y at hread ⊢
    cases hread with
    | none => exact .error _
    | some hab => exact .ok ⟨hab, hrest⟩

theorem takes_value : ρ.Takes ρ.Values Taking.value Taking.value :=
  takes_next _ fun _ _ hp => hp.tagged?_rel

theorem takes_array : ρ.Takes ρ.arrays Taking.array Taking.array :=
  takes_next _ fun _ _ hp => by
    cases hp with
    | array h => exact .some h
    | _ => exact .none

theorem takes_scope : ρ.Takes ρ.scopes Taking.scope Taking.scope :=
  takes_next _ fun _ _ hp => by
    cases hp with
    | scope h => exact .some h
    | _ => exact .none

theorem takes_number : ρ.Takes Eq Taking.number Taking.number :=
  takes_next _ fun _ _ hp => by
    cases hp with
    | int n => exact .some rfl
    | float x => exact .some rfl
    | _ => exact .none

theorem takes_int : ρ.Takes Eq Taking.int Taking.int :=
  takes_next _ fun _ _ hp => by
    cases hp with
    | int n => exact .some rfl
    | _ => exact .none

theorem takes_bool : ρ.Takes Eq Taking.bool Taking.bool :=
  takes_next _ fun _ _ hp => by
    cases hp with
    | bool flag => exact .some rfl
    | _ => exact .none

theorem takes_text : ρ.Takes Eq Taking.text Taking.text :=
  takes_next _ fun _ _ hp => by
    cases hp with
    | text s => exact .some rfl
    | _ => exact .none

section Tuples

variable {γ : Type} {r : α → α → Prop} {s : β → β → Prop} {t : γ → γ → Prop} {x x' : Taking α}
  {y y' : Taking β} {z z' : Taking γ}

/-- Two inputs taken one after the other. -/
theorem takes_pair (hx : ρ.Takes r x x') (hy : ρ.Takes s y y') :
    ρ.Takes (fun a b => r a.1 b.1 ∧ s a.2 b.2) (do return (← x, ← y)) (do return (← x', ← y')) :=
  takes_bind hx fun _ _ ha => takes_bind hy fun _ _ hb => takes_pure ⟨ha, hb⟩

/-- Three inputs taken one after the other. -/
theorem takes_triple (hx : ρ.Takes r x x') (hy : ρ.Takes s y y') (hz : ρ.Takes t z z') :
    ρ.Takes (fun a b => r a.1 b.1 ∧ s a.2.1 b.2.1 ∧ t a.2.2 b.2.2)
      (do return (← x, ← y, ← z)) (do return (← x', ← y', ← z')) :=
  takes_bind hx fun _ _ ha => takes_bind hy fun _ _ hb => takes_bind hz fun _ _ hc =>
    takes_pure ⟨ha, hb, hc⟩

end Tuples

/-- A word's inputs are taken alike. -/
theorem sim_arguments {x y : Taking α} (h : ρ.Takes (R ρ) x y) {inputs inputs' : List Payload}
    (hinputs : List.Forall₂ ρ.Payloads inputs inputs') :
    ρ.Sim R (arguments x inputs : Exec E α) (arguments y inputs') := by
  have hrun := h inputs inputs' hinputs
  refine sim_ofExcept ?_
  generalize x.run inputs = o at hrun ⊢
  generalize y.run inputs' = o' at hrun ⊢
  cases hrun with
  | ok h => exact .ok h.1
  | error cause => exact .error cause

/-! ### Between the stack and a handler -/

/-- The first value that does not fit stands at the same place. -/
theorem firstUnfit?_rel (slots : List Slot) {values values' : List Value}
    (h : List.Forall₂ ρ.Values values values') :
    Option.Rel (fun x y => x.1 = y.1 ∧ ρ.Values x.2 y.2) (firstUnfit? slots values)
      (firstUnfit? slots values') := by
  unfold firstUnfit?
  induction h generalizing slots with
  | nil =>
    rw [List.zip_nil_right]
    exact .none
  | @cons v v' values values' hv _ ih =>
    cases slots with
    | nil => exact .none
    | cons slot slots =>
      have haccepts := hv.accepts_eq slot.spec
      rw [List.zip_cons_cons, List.zip_cons_cons]
      by_cases ha : slot.spec.accepts v = true
      · have ha' : slot.spec.accepts v' = true := haccepts ▸ ha
        rw [List.find?_cons_of_neg (by simp [ha]), List.find?_cons_of_neg (by simp [ha'])]
        exact ih slots
      · have ha' : slot.spec.accepts v' ≠ true := haccepts ▸ ha
        rw [List.find?_cons_of_pos (by simp [ha]), List.find?_cons_of_pos (by simp [ha'])]
        exact .some ⟨rfl, hv⟩

theorem zipWith_ofValue (slots : List Slot) {values values' : List Value}
    (h : List.Forall₂ ρ.Values values values') :
    List.Forall₂ ρ.Payloads (slots.zipWith Payload.ofValue values)
      (slots.zipWith Payload.ofValue values') := by
  induction h generalizing slots with
  | nil =>
    rw [List.zipWith_nil_right]
    exact .nil
  | cons hv _ ih =>
    cases slots with
    | nil => exact .nil
    | cons slot slots => exact .cons (hv.ofValue slot) (ih slots)

theorem sim_takeInputs (word : Entry) :
    ρ.Sim (fun ρ => List.Forall₂ ρ.Payloads) (takeInputs word : Exec E (List Payload))
      (takeInputs word) := by
  intro m m' hm
  have hlength := hm.stack.length_eq
  have hvalues : List.Forall₂ ρ.Values (m.stack.take word.effect.inputs.length).reverse
      (m'.stack.take word.effect.inputs.length).reverse :=
    List.rel_reverse (List.forall₂_take _ hm.stack)
  have hunfit := firstUnfit?_rel word.effect.inputs hvalues
  unfold takeInputs
  dsimp only
  rw [← hlength]
  split
  · exact sim_raise _ m m' hm
  generalize firstUnfit? word.effect.inputs
    (m.stack.take word.effect.inputs.length).reverse = x at hunfit ⊢
  generalize firstUnfit? word.effect.inputs
    (m'.stack.take word.effect.inputs.length).reverse = y at hunfit ⊢
  cases hunfit with
  | none =>
    exact .done (.refl ρ m.heap) { hm with stack := List.forall₂_drop _ hm.stack }
      (zipWith_ofValue _ hvalues)
  | @some x y hxy =>
    obtain ⟨hslot, hvalue⟩ := hxy
    dsimp only
    rw [hslot, hm.heap.shown_eq hvalue]
    exact sim_raise _ m m' hm

theorem composes : (agreeing E).Composes where
  pure := sim_pure
  bind := sim_bind
  push := sim_push

theorem kinds : (agreeing E).Kinds where
  later_refl := Le.refl
  later_trans hle hle' := hle.trans hle'
  reading_mono _ _ := trivial
  values_mono hle hv := hv.mono hle
  arrays_mono hle hab := hle.arrays hab
  word_iff hv name := by
    cases hv with
    | word => exact Iff.rfl
    | _ => constructor <;> (intro h; cases h)
  string_iff hv text := by
    cases hv with
    | string => exact Iff.rfl
    | _ => constructor <;> (intro h; cases h)
  array := .array

theorem sim_pushOutputs {word : Entry} {returned returned' : Returned}
    (hslots : ∀ slot ∈ word.effect.outputs, slot.spec ≠ .exact .word)
    (h : Returns ρ returned returned') :
    ρ.Sim Anything (pushOutputs word returned : Exec E Unit) (pushOutputs word returned') := by
  have hpayloads : Agree (List.Forall₂ ρ.Payloads)
      (returned.payloads word.effect.outputs.length)
      (returned'.payloads word.effect.outputs.length) := by
    unfold Returned.payloads
    rw [h.length_eq]
    split
    · exact .ok h
    · exact .error _
  exact sim_bind (R := fun ρ => List.Forall₂ ρ.Payloads) (sim_withContext (sim_ofExcept hpayloads))
    fun ρ' _ _ _ hp => composes.pushPayloads kinds (P := Payloads)
      (fun _ _ _ _ hle hp => hp.mono hle)
      (fun _ _ slot hslot _ _ hp m m' hm =>
        sim_withContext (sim_ofExcept (hp.toValue hm.heap (hslots slot hslot)))) hp

end Renaming

end Wordstack
