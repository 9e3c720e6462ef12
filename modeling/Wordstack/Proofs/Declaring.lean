import Mathlib.Data.List.Forall2
import Wordstack.Machine.Exec
import Wordstack.Proofs.Fields
import Wordstack.Proofs.Spelling

/-!
# The grammar of declarations

A text declares a word if its parts are a name, an opening parenthesis, slots, the separator, more
slots and a closing parenthesis.  `Declaration.Spells` is that grammar, without an algorithm.
Reading follows it exactly, and every word that can be declared has a text that is read back.

* `Slot.Spells`, `Declaration.Spells`: how slots and declarations are written.
* `Declaration.ofParts_eq_ok`: what is read, by how it is written.
* `Declaration.ofText_text`: the text of a declaration is read back.
-/

namespace Wordstack

variable {E : Embedding}

/-! ### The grammar -/

/-- The type names that a declaration can have. -/
def SlotType.names : List (String × SlotType) :=
  [("word", .exact .word), ("string", .exact .string), ("integer", .exact .integer),
    ("float", .exact .float), ("boolean", .exact .boolean), ("array", .exact .array),
    ("scope", .exact .scope), ("any", .any), ("numeric", .numeric)]

/-- A part that spells a slot: a type name, or a type name after one backquote. -/
inductive Slot.Spells : String → Slot → Prop
  | plain {name : String} {spec : SlotType} (h : (name, spec) ∈ SlotType.names) :
      Spells name ⟨spec, false⟩
  | escaped {name : String} {spec : SlotType} (h : (name, spec) ∈ SlotType.names) :
      Spells ("`" ++ name) ⟨spec, true⟩

/-- The parts that spell a declaration. -/
inductive Declaration.Spells : List String → Declaration → Prop
  | form {name : String} {ins outs : List String} {inputs outputs : List Slot}
      (hins : List.Forall₂ Slot.Spells ins inputs) (houts : List.Forall₂ Slot.Spells outs outputs) :
      Spells (name :: "(" :: (ins ++ "--" :: (outs ++ [")"]))) ⟨name, ⟨inputs, outputs⟩⟩

/-! ### Slots -/

theorem SlotType.mem_names {name : String} {spec : SlotType} :
    (name, spec) ∈ names ↔ spec.name = name := by
  rcases spec with type | _ | _
  · cases type <;> simp [names, SlotType.name, ValueType.name, eq_comm]
  · simp [names, SlotType.name, eq_comm]
  · simp [names, SlotType.name, eq_comm]

theorem SlotType.ofName?_eq_some {name : String} {spec : SlotType} :
    ofName? name = some spec ↔ spec.name = name := by
  refine ⟨fun h => ?_, fun h => h ▸ ofName?_name spec⟩
  unfold ofName? at h
  split at h
  · next hname => rw [← Option.some.inj h, hname, SlotType.name]
  · split at h
    · next hname => rw [← Option.some.inj h, hname, SlotType.name]
    · obtain ⟨type, htype, rfl⟩ := Option.map_eq_some_iff.mp h
      unfold ValueType.ofName? at htype
      simpa [SlotType.name] using List.find?_some htype

namespace Slot

/-- Every slot there is. -/
def all : List Slot :=
  SlotType.names.flatMap fun (_, spec) => [⟨spec, false⟩, ⟨spec, true⟩]

theorem mem_all (slot : Slot) : slot ∈ all := by
  obtain ⟨spec, escaped⟩ := slot
  refine List.mem_flatMap.mpr ⟨(spec.name, spec), SlotType.mem_names.mpr rfl, ?_⟩
  cases escaped <;> simp

/-- No type name opens with the mark, so that the text of a plain slot is read as one. -/
theorem ofText?_text (slot : Slot) : ofText? slot.text = some slot :=
  (by decide : ∀ slot ∈ all, ofText? slot.text = some slot) slot slot.mem_all

theorem text_ne_separator (slot : Slot) : slot.text ≠ "--" :=
  (by decide : ∀ slot ∈ all, slot.text ≠ "--") slot slot.mem_all

theorem text_ne_closing (slot : Slot) : slot.text ≠ ")" :=
  (by decide : ∀ slot ∈ all, slot.text ≠ ")") slot slot.mem_all

theorem text_of_ofText? {part : String} {slot : Slot} (h : ofText? part = some slot) :
    part = slot.text := by
  unfold ofText? at h
  split at h
  · cases h
  · next c rest hpart =>
    split at h
    · next hc =>
      obtain ⟨spec, hspec, rfl⟩ := Option.map_eq_some_iff.mp h
      apply String.toList_injective
      simp [text, SlotType.ofName?_eq_some.mp hspec, hpart, hc]
    · obtain ⟨spec, hspec, rfl⟩ := Option.map_eq_some_iff.mp h
      exact (SlotType.ofName?_eq_some.mp hspec).symm

theorem spells_iff {part : String} {slot : Slot} : Spells part slot ↔ part = slot.text := by
  have hescaped : ∀ spec : SlotType, text ⟨spec, true⟩ = "`" ++ spec.name := fun spec =>
    String.toList_injective (by simp [text, mark])
  constructor
  · rintro (h | h)
    · exact (SlotType.mem_names.mp h).symm
    · rw [hescaped, SlotType.mem_names.mp h]
  · rintro rfl
    obtain ⟨spec, _ | _⟩ := slot
    · exact .plain (SlotType.mem_names.mpr rfl)
    · rw [hescaped]
      exact .escaped (SlotType.mem_names.mpr rfl)

theorem forall₂_spells_iff {parts : List String} {slots : List Slot} :
    List.Forall₂ Spells parts slots ↔ parts = slots.map text := by
  have hspells : Spells = fun part slot => part = slot.text := by
    funext part slot
    exact propext spells_iff
  rw [hspells, ← List.forall₂_map_right_iff, List.forall₂_eq_eq_eq]

end Slot

/-! ### Reading -/

theorem StackEffect.parts_eq (effect : StackEffect) :
    effect.parts = "(" :: (effect.inputs.map Slot.text ++
      "--" :: (effect.outputs.map Slot.text ++ [")"])) := by
  simp [parts]

namespace Declaration

theorem readOutputs_texts (outputs : List Slot) :
    readOutputs (outputs.map Slot.text ++ [")"]) = .ok outputs := by
  induction outputs with
  | nil => rfl
  | cons slot outputs ih =>
    rw [List.map_cons, List.cons_append, readOutputs, if_neg slot.text_ne_separator,
      if_neg slot.text_ne_closing, slot.ofText?_text, ih]
    rfl

theorem readSlots_texts (inputs outputs : List Slot) :
    readSlots (inputs.map Slot.text ++ "--" :: (outputs.map Slot.text ++ [")"])) =
      .ok ⟨inputs, outputs⟩ := by
  induction inputs with
  | nil =>
    rw [List.map_nil, List.nil_append, readSlots, if_pos rfl, readOutputs_texts]
    rfl
  | cons slot inputs ih =>
    rw [List.map_cons, List.cons_append, readSlots, if_neg slot.text_ne_separator,
      if_neg slot.text_ne_closing, slot.ofText?_text, ih]
    rfl

theorem exists_of_map_eq_ok {α β : Type} {x : Except DeclarationFault α} {f : α → β} {b : β}
    (h : x.map f = .ok b) : ∃ a, x = .ok a ∧ f a = b := by
  cases x with
  | ok a => exact ⟨a, rfl, Except.ok.inj h⟩
  | error fault => cases h

theorem parts_of_readOutputs {parts : List String} {outputs : List Slot}
    (h : readOutputs parts = .ok outputs) : parts = outputs.map Slot.text ++ [")"] := by
  fun_induction readOutputs parts generalizing outputs with
  | case1 => cases h
  | case2 => cases h
  | case3 rest hrest _ =>
    rw [List.isEmpty_iff.mp hrest, ← Except.ok.inj h]
    rfl
  | case4 => cases h
  | case5 => cases h
  | case6 part rest _ _ slot hslot ih =>
    obtain ⟨others, hothers, rfl⟩ := exists_of_map_eq_ok h
    rw [ih hothers, Slot.text_of_ofText? hslot]
    rfl

theorem parts_of_readSlots {parts : List String} {effect : StackEffect}
    (h : readSlots parts = .ok effect) :
    parts = effect.inputs.map Slot.text ++ "--" :: (effect.outputs.map Slot.text ++ [")"]) := by
  fun_induction readSlots parts generalizing effect with
  | case1 => cases h
  | case2 rest =>
    obtain ⟨outputs, houtputs, rfl⟩ := exists_of_map_eq_ok h
    rw [parts_of_readOutputs houtputs]
    rfl
  | case3 => cases h
  | case4 => cases h
  | case5 part rest _ _ slot hslot ih =>
    obtain ⟨others, hothers, rfl⟩ := exists_of_map_eq_ok h
    rw [ih hothers, Slot.text_of_ofText? hslot]
    rfl

/-- **Reading the parts of a declaration gives the declaration that they are the text of.** -/
theorem ofParts_eq_ok {parts : List String} {d : Declaration} :
    ofParts parts = .ok d ↔ parts = d.name :: d.effect.parts := by
  constructor
  · intro h
    unfold ofParts at h
    split at h
    · cases h
    · obtain ⟨effect, heffect, rfl⟩ := exists_of_map_eq_ok h
      rw [parts_of_readSlots heffect, effect.parts_eq]
    · cases h
  · rintro rfl
    rw [d.effect.parts_eq, ofParts, readSlots_texts]
    rfl

theorem spells_iff {parts : List String} {d : Declaration} :
    Spells parts d ↔ parts = d.name :: d.effect.parts := by
  constructor
  · rintro ⟨hins, houts⟩
    rw [Slot.forall₂_spells_iff.mp hins, Slot.forall₂_spells_iff.mp houts, StackEffect.parts_eq]
  · rintro rfl
    rw [d.effect.parts_eq]
    exact .form (Slot.forall₂_spells_iff.mpr rfl) (Slot.forall₂_spells_iff.mpr rfl)

/-! ### Texts -/

theorem runs_parts (text : String) : Text.Runs text.toList ((parts text).map String.toList) := by
  simpa [parts, Function.comp_def] using Text.runs_words text.toList

theorem ofText_eq_ok {text : String} {d : Declaration} :
    ofText text = .ok d ↔ Spells (parts text) d := by
  rw [ofText, ofParts_eq_ok, spells_iff]

/-- A text that spells no declaration is refused, and nothing is declared. -/
theorem exists_fault {text : String} (h : ¬ ∃ d, Spells (parts text) d) :
    ∃ fault, ofText text = .error fault ∧
      ∀ (m : Machine E) location description action,
        Exec.declareWord location text description action m =
          .raised { cause := .badDeclaration text fault } m := by
  cases htext : ofText text with
  | ok d => exact absurd ⟨d, ofText_eq_ok.mp htext⟩ h
  | error fault =>
    refine ⟨fault, rfl, fun m location description action => ?_⟩
    rw [Exec.declareWord, Machine.declareWord, htext]
    rfl

/-- The text of a declaration: its parts, with a space between them. -/
theorem text_eq (d : Declaration) :
    d.name ++ " " ++ d.effect.text = " ".intercalate (d.name :: d.effect.parts) := by
  rw [String.intercalate_cons_of_ne_nil (by simp [d.effect.parts_eq])]
  rfl

/-- A part of a text: not empty, and without blanks. -/
def IsPart (part : String) : Prop :=
  part ≠ "" ∧ ∀ c ∈ part.toList, Text.isBlank c = false

theorem parts_intercalate {list : List String} (h : ∀ part ∈ list, IsPart part) :
    parts (" ".intercalate list) = list := by
  have hruns : Text.Runs (" ".intercalate list).toList (list.map String.toList) := by
    rw [String.toList_intercalate]
    refine Text.runs_intercalate ?_ ?_
    · simpa using fun part hpart => (h part hpart).1
    · simpa using fun part hpart => (h part hpart).2
  rw [parts, Text.runs_iff.mp hruns, List.map_map]
  simp [Function.comp_def]

theorem isPart_slot (slot : Slot) : IsPart slot.text := by
  have hall : ∀ slot ∈ Slot.all,
      slot.text ≠ "" ∧ slot.text.toList.all (!Text.isBlank ·) = true := by decide
  obtain ⟨hne, hblank⟩ := hall slot slot.mem_all
  exact ⟨hne, Text.noBlank_of_all hblank⟩

theorem isPart_effect (effect : StackEffect) : ∀ part ∈ effect.parts, IsPart part := by
  intro part hpart
  simp only [effect.parts_eq, List.mem_cons, List.mem_append, List.mem_map, List.not_mem_nil,
    or_false] at hpart
  rcases hpart with rfl | ⟨slot, -, rfl⟩ | rfl | ⟨slot, -, rfl⟩ | rfl
  · exact ⟨by decide, Text.noBlank_of_all (by decide)⟩
  · exact isPart_slot slot
  · exact ⟨by decide, Text.noBlank_of_all (by decide)⟩
  · exact isPart_slot slot
  · exact ⟨by decide, Text.noBlank_of_all (by decide)⟩

/-- **The text of a declaration is read back.** -/
theorem ofText_text {d : Declaration} (h : IsPart d.name) :
    ofText (d.name ++ " " ++ d.effect.text) = .ok d := by
  have hparts : ∀ part ∈ d.name :: d.effect.parts, IsPart part :=
    List.forall_mem_cons.mpr ⟨h, isPart_effect d.effect⟩
  rw [ofText, text_eq, parts_intercalate hparts, ofParts_eq_ok]

end Declaration

/-- **Declarations are read exactly as they are written.**  The parts of a text are its blank-free
runs.  A text is read as a declaration if its parts spell it, and only then; any other text is
refused, as a signature that is not valid, and nothing is declared.  A name and an effect, written
with a space between them, are read back, and what is read is written as the parts of the text with
a space between them. -/
theorem declarations_read_exactly (E : Embedding) :
    (∀ text : String,
      Text.Runs text.toList ((Declaration.parts text).map String.toList) ∧
      (∀ d, Declaration.ofText text = .ok d ↔ Declaration.Spells (Declaration.parts text) d) ∧
      ((¬ ∃ d, Declaration.Spells (Declaration.parts text) d) →
        ∃ fault, Declaration.ofText text = .error fault ∧
          ∀ (m : Machine E) location description action, ∃ e,
            Exec.declareWord location text description action m = .raised e m ∧
            e.cause = .badDeclaration text fault ∧ e.kind = .invalidSignature) ∧
      (∀ d, Declaration.ofText text = .ok d →
        d.name ++ " " ++ d.effect.text = " ".intercalate (Declaration.parts text))) ∧
    (∀ (name : String) (effect : StackEffect), name ≠ "" →
      (∀ c ∈ name.toList, Text.isBlank c = false) →
      Declaration.ofText (name ++ " " ++ effect.text) = .ok ⟨name, effect⟩) := by
  refine ⟨fun text => ⟨Declaration.runs_parts text, fun d => Declaration.ofText_eq_ok, ?_, ?_⟩, ?_⟩
  · intro h
    obtain ⟨fault, hfault, hrefused⟩ := Declaration.exists_fault (E := E) h
    exact ⟨fault, hfault, fun m location description action =>
      ⟨_, hrefused m location description action, rfl, rfl⟩⟩
  · intro d hd
    rw [d.text_eq, Declaration.spells_iff.mp (Declaration.ofText_eq_ok.mp hd)]
  · intro name effect hne hname
    exact Declaration.ofText_text (d := ⟨name, effect⟩) ⟨hne, hname⟩

/-- A word whose name is itself a parenthesis, and a slot with two backquotes. -/
theorem declarations_read_exactly_parenthesis :
    Declaration.ofText "( ( `any -- )" = .ok ⟨"(", ⟨[⟨.any, true⟩], []⟩⟩ ∧
    ∀ m : Machine .bare, ∃ e,
      Exec.declareWord none "w ( ``any -- )" "" (.builtin .dup) m = .raised e m ∧
      e.kind = .invalidSignature := by
  obtain ⟨hread, hwritten⟩ := declarations_read_exactly .bare
  refine ⟨hwritten "(" ⟨[⟨.any, true⟩], []⟩ (by decide) (Text.noBlank_of_all (by decide)),
    fun m => ?_⟩
  obtain ⟨-, hiff, hrefused, -⟩ := hread "w ( ``any -- )"
  have hnone : ¬ ∃ d, Declaration.Spells (Declaration.parts "w ( ``any -- )") d := by
    rintro ⟨d, hd⟩
    have hfault : Declaration.ofText "w ( ``any -- )" = .error (.unknownType "``any") := by decide
    rw [← hiff, hfault] at hd
    cases hd
  obtain ⟨fault, -, hraised⟩ := hrefused hnone
  obtain ⟨e, he, -, hkind⟩ := hraised m none "" (.builtin .dup)
  exact ⟨e, he, hkind⟩

end Wordstack
