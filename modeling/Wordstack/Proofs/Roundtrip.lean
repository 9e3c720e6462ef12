import Wordstack.Proofs.Bisimulation
import Wordstack.Proofs.Brackets
import Wordstack.Proofs.Spelling
import Wordstack.Value.Render

/-!
# Printing and parsing

Values that are printed and parsed again come back equal, as long as their texts can be told apart:
integers, booleans, strings and words, and arrays of these to any finite depth, shared or not.

* `Heap.Readable`: the values in question.
* `Forest.Unfolds.exists_of_readable`: such values stand for a forest;
  `Forest.Depicts.notMem_of_items`: no array is inside itself.
* `Forest.Unfolds.spaced_text`: the text of values is the spelling of their forest.
* `Forest.readTokens_lexemes`: reading the spelling of a forest gives the forest.
* `Heap.bisimulation_twins`: values that stand for one forest are equal.
-/

namespace Wordstack

variable {E : Embedding} {heap : Heap}

/-! ### Values that can be read back -/

/-- A text that is read as a word and means nothing else. -/
structure IsWordText (text : String) : Prop where
  nonempty : text.toList ≠ []
  noBlank : ∀ c ∈ text.toList, Text.isBlank c = false
  unquoted : text.toList.head? ≠ some Buffer.quote
  noNumber : Numeral.number? text.toList = none
  noBoolean : text ≠ "t" ∧ text ≠ "f"
  noBracket : text ≠ "[" ∧ text ≠ "]"

/-- A value other than an array whose text is read back as the value. -/
inductive Value.IsLegible : Value → Prop
  | int (n : Int64) : IsLegible (.int n)
  | bool (flag : Bool) : IsLegible (.bool flag)
  | string {text : String} (h : Buffer.quote ∉ text.toList) : IsLegible (.string text)
  | word {text : String} (h : IsWordText text) : IsLegible (.word text)

/-- A legible value, or an array on the heap whose elements are readable.  As the definition is
inductive, no array is inside itself; but one array may be an element of many. -/
inductive Heap.Readable (heap : Heap) : Value → Prop
  | leaf {value : Value} (h : value.IsLegible) : Readable heap value
  | array {id : ArrayId} (bound : id.index < heap.arrays.size)
      (items : ∀ value ∈ heap.items id, Readable heap value) : Readable heap (.array id)

/-! ### Legible values -/

/-- The lexeme that the text of a value is, if the value is no array. -/
def Heap.lexeme (heap : Heap) : Value → Lexeme
  | .string text => .quoted text
  | value => .bare (heap.leafText value)

theorem Heap.text_lexeme (heap : Heap) (value : Value) :
    (heap.lexeme value).text = heap.leafText value := by
  cases value <;> rfl

/-- The texts of the booleans and the brackets are bare lexemes. -/
theorem isScannable_mark {text : String} (h : text ∈ ["t", "f", "[", "]"]) :
    (Lexeme.bare text).IsScannable := by
  simp only [List.mem_cons, List.not_mem_nil, or_false] at h
  rcases h with rfl | rfl | rfl | rfl <;>
    exact ⟨by decide, Text.noBlank_of_all (by decide), by decide⟩

/-- What is scanned where the value is written: the value, but a word for a boolean. -/
def Value.token : Value → Value
  | bool flag => word (if flag then "t" else "f")
  | value => value

namespace Value.IsLegible

variable {value : Value} (h : value.IsLegible)
include h

theorem isScannable (heap : Heap) : (heap.lexeme value).IsScannable := by
  cases h with
  | int n => exact Lexeme.isScannable_int n.toInt
  | bool flag =>
    refine isScannable_mark ?_
    cases flag <;> simp [Heap.leafText]
  | string h => exact h
  | word h => exact ⟨h.nonempty, h.noBlank, h.unquoted⟩

theorem ofLexeme (heap : Heap) : Value.ofLexeme (heap.lexeme value) = value.token := by
  cases h with
  | int n =>
    change Value.ofText (toString n.toInt) = _
    rw [Value.ofText, Numeral.number?_toString]
    rfl
  | bool flag =>
    have hmark : ∀ text, text = "t" ∨ text = "f" → Value.ofText text = .word text := by
      rintro text (rfl | rfl) <;> rfl
    refine hmark _ ?_
    cases flag <;> simp [Heap.leafText]
  | string h => rfl
  | @word text h =>
    change Value.ofText text = _
    rw [Value.ofText, h.noNumber]
    rfl

theorem asLiteral (heap : Heap) : (Value.ofLexeme (heap.lexeme value)).asLiteral = value := by
  rw [h.ofLexeme]
  cases h with
  | int n => rfl
  | bool flag => cases flag <;> rfl
  | string h => rfl
  | word h =>
    unfold Value.asLiteral
    split
    · next heq => exact absurd (Value.word.inj heq) h.noBoolean.1
    · next heq => exact absurd (Value.word.inj heq) h.noBoolean.2
    · rfl

theorem opens? (heap : Heap) :
    Forest.opens? squareBrackets (Value.ofLexeme (heap.lexeme value)) = none := by
  rw [h.ofLexeme]
  cases h with
  | int n => rfl
  | bool flag => cases flag <;> rfl
  | string h => rfl
  | word h => exact if_neg h.noBracket.1

theorem closes (heap : Heap) {close : Option String}
    (hclose : ∀ word, close = some word → word = "]") :
    Forest.closes close (Value.ofLexeme (heap.lexeme value)) = false := by
  have hname : ∀ name, name ≠ "]" → Forest.closes close (.word name) = false := fun name hne =>
    decide_eq_false fun hsome => hne (hclose name hsome)
  rw [h.ofLexeme]
  cases h with
  | int n => rfl
  | bool flag => cases flag <;> exact hname _ (by decide)
  | string h => rfl
  | word h => exact hname _ h.noBracket.2

end Value.IsLegible

/-! ### Forests with legible leaves -/

namespace Forest

/-- Every leaf is legible. -/
def IsLegible : Forest → Prop
  | nil => True
  | leaf value rest => value.IsLegible ∧ rest.IsLegible
  | group inner rest => inner.IsLegible ∧ rest.IsLegible

/-- A forest in writing. -/
def lexemes (heap : Heap) : Forest → List Lexeme
  | nil => []
  | leaf value rest => heap.lexeme value :: rest.lexemes heap
  | group inner rest => .bare "[" :: (inner.lexemes heap ++ .bare "]" :: rest.lexemes heap)

theorem IsLegible.isScannable {forest : Forest} (h : forest.IsLegible) (heap : Heap) :
    ∀ lexeme ∈ forest.lexemes heap, lexeme.IsScannable := by
  induction forest with
  | nil => simp [lexemes]
  | leaf value rest ih =>
    intro lexeme hmem
    rcases List.mem_cons.mp hmem with rfl | hmem
    · exact h.1.isScannable heap
    · exact ih h.2 lexeme hmem
  | group inner rest ihinner ihrest =>
    intro lexeme hmem
    simp only [lexemes, List.mem_cons, List.mem_append] at hmem
    rcases hmem with rfl | hmem | rfl | hmem
    · exact isScannable_mark (by decide)
    · exact ihinner h.1 lexeme hmem
    · exact isScannable_mark (by decide)
    · exact ihrest h.2 lexeme hmem

/-- **Reading the spelling of a forest gives the forest**, and goes on with what follows. -/
theorem readTokens_lexemes {forest : Forest} (h : forest.IsLegible) (heap : Heap) {ending : Scan}
    {close : Option String} (hclose : ∀ word, close = some word → word = "]")
    {tail left : List Value}
    (htail : readTokens squareBrackets ending close tail = .ok (.nil, left)) :
    readTokens squareBrackets ending close ((forest.lexemes heap).map Value.ofLexeme ++ tail) =
      .ok (forest, left) := by
  induction forest generalizing close tail left with
  | nil => exact htail
  | leaf value rest ih =>
    rw [lexemes, List.map_cons, List.cons_append,
      readTokens_leaf (h.1.opens? heap) (h.1.closes heap hclose), ih h.2 hclose htail]
    change Except.ok (Forest.leaf _ rest, left) = _
    rw [h.1.asLiteral]
  | group inner rest ihinner ihrest =>
    -- what is inside ends with its closing bracket, and the rest with what follows
    have hopen : opens? squareBrackets (Value.ofLexeme (.bare "[")) = some "]" := rfl
    have hend : readTokens squareBrackets ending (some "]")
        (Value.ofLexeme (.bare "]") :: ((rest.lexemes heap).map Value.ofLexeme ++ tail)) =
          .ok (.nil, (rest.lexemes heap).map Value.ofLexeme ++ tail) :=
      readTokens_close rfl rfl
    have hinner := ihinner h.1 (fun word hword => (Option.some.inj hword).symm) hend
    rw [lexemes, List.map_cons, List.cons_append, readTokens_open hopen, List.map_append,
      List.append_assoc, List.map_cons, List.cons_append, hinner]
    change (readTokens squareBrackets ending close
      ((rest.lexemes heap).map Value.ofLexeme ++ tail) >>= fun later =>
        pure (Forest.group inner later.1, later.2)) = _
    rw [ihrest h.2 hclose htail]
    rfl

/-- The values stand for the forest, whose leaves are legible and whose arrays are on the heap. -/
structure Unfolds (heap : Heap) (values : List Value) (forest : Forest) (ids : List ArrayId) :
    Prop where
  depicts : forest.Depicts heap values ids
  legible : forest.IsLegible
  bound : ∀ id ∈ ids, id.index < heap.arrays.size

namespace Unfolds

variable {forest : Forest} {values : List Value} {ids ids' : List ArrayId}

/-! ### From values to forests -/

/-- If each value can be put in front of any others, the values stand for a forest. -/
theorem exists_of_each
    (heach : ∀ value ∈ values, ∀ others forest ids, Unfolds heap others forest ids →
      ∃ forest' ids', Unfolds heap (value :: others) forest' ids') :
    ∃ forest ids, Unfolds heap values forest ids := by
  induction values with
  | nil => exact ⟨.nil, [], .nil, trivial, by simp⟩
  | cons value values ih =>
    obtain ⟨forest, ids, hrest⟩ := ih fun other hmem => heach other (by simp [hmem])
    exact heach value (by simp) values forest ids hrest

/-- A readable value can be put in front of any others. -/
theorem exists_cons {value : Value} (hvalue : heap.Readable value)
    (hrest : Unfolds heap values forest ids) :
    ∃ forest' ids', Unfolds heap (value :: values) forest' ids' := by
  induction hvalue generalizing values forest ids with
  | @leaf value h =>
    exact ⟨.leaf value forest, ids, .leaf value hrest.depicts, ⟨h, hrest.legible⟩, hrest.bound⟩
  | @array id bound _ ih =>
    -- the elements can each be put in front of the elements after them
    obtain ⟨inner, inside, hinner⟩ :=
      exists_of_each fun value hmem others forest ids hothers => ih value hmem hothers
    refine ⟨.group inner forest, id :: (inside ++ ids), .group id hinner.depicts hrest.depicts,
      ⟨hinner.legible, hrest.legible⟩, fun i hi => ?_⟩
    rcases List.mem_cons.mp hi with rfl | hi
    · exact bound
    rcases List.mem_append.mp hi with hi | hi
    · exact hinner.bound i hi
    · exact hrest.bound i hi

/-- Readable values stand for a forest. -/
theorem exists_of_readable (hvalues : ∀ value ∈ values, heap.Readable value) :
    ∃ forest ids, Unfolds heap values forest ids :=
  exists_of_each fun value hmem _ _ _ hrest => exists_cons (hvalues value hmem) hrest

/-- The parts of a group. -/
theorem group {inner rest : Forest} {id : ArrayId}
    (h : Unfolds heap (.array id :: values) (.group inner rest) (id :: (ids ++ ids')))
    (hinner : inner.Depicts heap (heap.items id) ids) (hrest : rest.Depicts heap values ids') :
    Unfolds heap (heap.items id) inner ids ∧ Unfolds heap values rest ids' :=
  ⟨⟨hinner, h.legible.1, fun i hi => h.bound i (by simp [hi])⟩,
    ⟨hrest, h.legible.2, fun i hi => h.bound i (by simp [hi])⟩⟩

end Unfolds

namespace Depicts

variable {forest forest' : Forest} {values : List Value} {ids ids' : List ArrayId}

/-- The forest that values stand for is the only one with legible leaves. -/
theorem unique (h : Depicts heap forest values ids) (h' : Depicts heap forest' values ids')
    (hlegible : forest.IsLegible) (hlegible' : forest'.IsLegible) : forest = forest' := by
  -- a legible leaf is no array, so the values decide which of the two a forest starts with
  induction h generalizing forest' ids' with
  | nil =>
    cases h'
    rfl
  | leaf value _ ih =>
    cases h' with
    | leaf _ hrest' => rw [ih hrest' hlegible.2 hlegible'.2]
    | group => cases hlegible.1
  | group id _ _ ihinner ihrest =>
    cases h' with
    | leaf => cases hlegible'.1
    | group _ hinner' hrest' =>
      rw [ihinner hinner' hlegible.1 hlegible'.1, ihrest hrest' hlegible.2 hlegible'.2]

/-- The elements of an array inside stand for a smaller forest. -/
theorem exists_smaller (h : Depicts heap forest values ids) (hlegible : forest.IsLegible)
    {id : ArrayId} (hid : id ∈ ids) :
    ∃ inner ids', Depicts heap inner (heap.items id) ids' ∧ inner.IsLegible ∧
      sizeOf inner < sizeOf forest := by
  induction h with
  | nil => simp at hid
  | leaf value _ ih =>
    obtain ⟨inner, ids', hinner, hlegible', hlt⟩ := ih hlegible.2 hid
    exact ⟨inner, ids', hinner, hlegible', by simp; omega⟩
  | @group inner rest _ ids ids' outer hinner _ ihinner ihrest =>
    rcases List.mem_cons.mp hid with rfl | hid
    · exact ⟨inner, ids, hinner, hlegible.1, by simp; omega⟩
    rcases List.mem_append.mp hid with hid | hid
    · obtain ⟨inner', ids', hinner', hlegible', hlt⟩ := ihinner hlegible.1 hid
      exact ⟨inner', ids', hinner', hlegible', by simp; omega⟩
    · obtain ⟨inner', ids', hinner', hlegible', hlt⟩ := ihrest hlegible.2 hid
      exact ⟨inner', ids', hinner', hlegible', by simp; omega⟩

/-- No array is inside itself. -/
theorem notMem_of_items {id : ArrayId} (h : Depicts heap forest (heap.items id) ids)
    (hlegible : forest.IsLegible) : id ∉ ids := by
  intro hid
  obtain ⟨inner, ids', hinner, hlegible', hlt⟩ := h.exists_smaller hlegible hid
  rw [hinner.unique h hlegible' hlegible] at hlt
  exact Nat.lt_irrefl _ hlt

end Depicts

end Forest

/-! ### From values to texts -/

namespace Heap

/-- The text of a value inside arrays being written, as `arrayText` has it. -/
def textWithin (heap : Heap) (depth : Nat) (opened : List ArrayId) : Value → String
  | .array id => heap.arrayText depth opened id
  | value => heap.leafText value

theorem text_eq_textWithin (value : Value) :
    heap.text value = heap.textWithin (heap.arrays.size + 1) [] value := by
  cases value <;> rfl

theorem arrayText_succ {opened : List ArrayId} {id : ArrayId} (h : id ∉ opened) (depth : Nat) :
    heap.arrayText (depth + 1) opened id =
      bracket ((heap.items id).map (heap.textWithin depth (id :: opened))) := by
  have hitem : heap.textWithin depth (id :: opened) = fun value =>
      match value with
      | .array inner => heap.arrayText depth (id :: opened) inner
      | leaf => heap.leafText leaf := by
    funext value
    cases value <;> rfl
  rw [hitem]
  exact if_neg h

theorem spaced_bracket (texts : List String) :
    (bracket texts).toList ++ [Buffer.sentinel] =
      "[ ".toList ++ (Text.spaced texts ++ "] ".toList) := by
  simp [bracket, Text.spaced, Buffer.sentinel, List.flatMap_map]

/-- What holds while arrays are being written: they are different arrays on the heap, and together
with the depth left they are more than there are. -/
structure Writing (heap : Heap) (depth : Nat) (opened : List ArrayId) : Prop where
  nodup : opened.Nodup
  bound : ∀ id ∈ opened, id.index < heap.arrays.size
  enough : heap.arrays.size < depth + opened.length

theorem writing_nil (heap : Heap) : heap.Writing (heap.arrays.size + 1) [] :=
  ⟨List.nodup_nil, by simp, by simp⟩

theorem Writing.depth_pos {depth : Nat} {opened : List ArrayId} (h : heap.Writing depth opened) :
    0 < depth := by
  have hsub : opened ⊆ heap.ids := fun id hid => mem_ids (h.bound id hid)
  have hle := (List.subperm_of_subset h.nodup hsub).length_le
  rw [length_ids] at hle
  have henough := h.enough
  omega

/-- One more array can be written, if it is not being written already. -/
theorem Writing.exists_cons {depth : Nat} {opened : List ArrayId} (h : heap.Writing depth opened)
    {id : ArrayId} (hid : id ∉ opened) (hbound : id.index < heap.arrays.size) :
    ∃ less, depth = less + 1 ∧ heap.Writing less (id :: opened) := by
  obtain ⟨less, rfl⟩ := Nat.exists_eq_add_one.mpr h.depth_pos
  have henough := h.enough
  refine ⟨less, rfl, List.nodup_cons.mpr ⟨hid, h.nodup⟩, ?_, ?_⟩
  · rintro other (_ | ⟨_, hother⟩)
    · exact hbound
    · exact h.bound other hother
  · rw [List.length_cons]
    omega

end Heap

namespace Forest

theorem spell_group (inner rest : Forest) (heap : Heap) :
    Lexeme.spell ((group inner rest).lexemes heap) =
      "[ ".toList ++ (Lexeme.spell (inner.lexemes heap) ++ "] ".toList) ++
        Lexeme.spell (rest.lexemes heap) := by
  rw [lexemes, Lexeme.spell_cons, Lexeme.spell_append, Lexeme.spell_cons]
  simp [Lexeme.text, Buffer.sentinel]

/-- **The text of values is the spelling of their forest.**  Along the forest; no array is inside
itself, so no text is cut because it is being written already, nor for want of depth. -/
theorem Unfolds.spaced_text {forest : Forest} {values : List Value} {ids : List ArrayId}
    (h : Unfolds heap values forest ids) {depth : Nat} {opened : List ArrayId}
    (hwriting : heap.Writing depth opened) (hnew : ∀ id ∈ ids, id ∉ opened) :
    Text.spaced (values.map (heap.textWithin depth opened)) =
      Lexeme.spell (forest.lexemes heap) := by
  have hdepicts := h.depicts
  induction hdepicts generalizing depth opened with
  | nil => rfl
  | @leaf rest values ids value hrest ih =>
    have hvalue : heap.textWithin depth opened value = heap.leafText value := by
      cases value with
      | array => cases h.legible.1
      | _ => rfl
    have hlater := ih ⟨hrest, h.legible.2, h.bound⟩ hwriting hnew
    rw [List.map_cons, Text.spaced_cons, hvalue, hlater, lexemes, Lexeme.spell_cons,
      heap.text_lexeme]
  | @group inner rest values ids ids' id hinner hrest ihinner ihrest =>
    obtain ⟨hinside, hafter⟩ := h.group hinner hrest
    have hid : id ∉ opened := hnew id (by simp)
    obtain ⟨depth, rfl, hdeeper⟩ := hwriting.exists_cons hid (h.bound id (by simp))
    have hself : id ∉ ids := hinner.notMem_of_items h.legible.1
    have hnewer : ∀ i ∈ ids, i ∉ id :: opened := by
      rintro i hi (_ | ⟨_, hmem⟩)
      · exact hself hi
      · exact hnew i (by simp [hi]) hmem
    have hlater := ihrest hafter hwriting fun i hi => hnew i (by simp [hi])
    have htext : heap.textWithin (depth + 1) opened (.array id) =
        Heap.bracket ((heap.items id).map (heap.textWithin depth (id :: opened))) :=
      Heap.arrayText_succ hid depth
    calc Text.spaced ((Value.array id :: values).map (heap.textWithin (depth + 1) opened))
        = ((Heap.bracket ((heap.items id).map (heap.textWithin depth (id :: opened)))).toList ++
            [Buffer.sentinel]) ++
            Text.spaced (values.map (heap.textWithin (depth + 1) opened)) := by
          rw [List.map_cons, Text.spaced_cons, htext, List.append_assoc]
          rfl
      _ = "[ ".toList ++ (Lexeme.spell (inner.lexemes heap) ++ "] ".toList) ++
            Lexeme.spell (rest.lexemes heap) := by
          rw [Heap.spaced_bracket, ihinner hinside hdeeper hnewer, hlater]
      _ = Lexeme.spell ((Forest.group inner rest).lexemes heap) :=
          (spell_group inner rest heap).symm

end Forest

/-! ### Equality -/

/-- Equal legible values, or arrays whose elements stand for one forest. -/
inductive Heap.Twins (heap : Heap) : Value → Value → Prop
  | leaf {value : Value} (h : value.IsLegible) : Twins heap value value
  | array {a b : ArrayId} {inner : Forest} {ids ids' : List ArrayId} (legible : inner.IsLegible)
      (left : inner.Depicts heap (heap.items a) ids)
      (right : inner.Depicts heap (heap.items b) ids') : Twins heap (.array a) (.array b)

theorem Forest.Depicts.twins {forest : Forest} {values values' : List Value}
    {ids ids' : List ArrayId} (h : forest.Depicts heap values ids)
    (h' : forest.Depicts heap values' ids') (hlegible : forest.IsLegible) :
    List.Forall₂ heap.Twins values values' := by
  induction h generalizing values' ids' with
  | nil =>
    cases h'
    exact .nil
  | leaf value _ ih =>
    cases h' with
    | leaf _ hrest' => exact .cons (.leaf hlegible.1) (ih hrest' hlegible.2)
  | group id hinner _ _ ih =>
    cases h' with
    | group id' hinner' hrest' =>
      exact .cons (.array hlegible.1 hinner hinner') (ih hrest' hlegible.2)

/-- Values that stand for one forest can not be told apart. -/
theorem Heap.bisimulation_twins : heap.Bisimulation heap.Twins := by
  intro a b h
  cases h with
  | leaf h =>
    cases h with
    | int n => exact rfl
    | bool flag => exact rfl
    | string h => exact rfl
    | word h => exact rfl
  | array legible left right => exact .inr (left.twins right legible)

/-! ### Printing and parsing -/

/-- A parse of a text that can be read succeeds with the values of its forest. -/
theorem ends_parse_of_readTokens (host : Host E) {m : Machine E} {closing : String → Option String}
    (hb : Brackets m.parsingWords closing) {path source : String} {forest : Forest}
    {left : List Value}
    (hread : Forest.readTokens closing (Buffer.ofSource path source).ending.1 none
      (Buffer.ofSource path source).tokens = .ok (forest, left)) :
    host.Ends (·.parse path source) m
      (.done (forest.build m.heap).1 { m with heap := (forest.build m.heap).2 }) := by
  have hagrees : Agrees host _ m (.ofSource path source) [] none
      (Forest.readTokens closing (Buffer.ofSource path source).ending.1 none
        (Buffer.ofSource path source).tokens) :=
    readTo_spec _ hb nofun (Nat.le_refl _)
  rw [hread] at hagrees
  obtain ⟨after, -, -, hends⟩ := hagrees
  refine parse_ends host path source hends nofun fun engine hloop => ?_
  rw [engine.parseSource_of_done hloop rfl rfl]
  simp [closingMark, Machine.reading, Machine.withHeap]

/-- The text of values, as a source text: blanks at most, and the spelling of their forest. -/
theorem Forest.Unfolds.rest_ofSource {forest : Forest} {values : List Value} {ids : List ArrayId}
    (h : Unfolds heap values forest ids) (path : String) :
    ∃ blanks, (∀ c ∈ blanks, Text.isBlank c = true) ∧
      (Buffer.ofSource path (" ".intercalate (values.map heap.text))).rest =
        blanks ++ Lexeme.spell (forest.lexemes heap) := by
  have htexts : values.map heap.text =
      values.map (heap.textWithin (heap.arrays.size + 1) []) :=
    List.map_congr_left fun value _ => Heap.text_eq_textWithin value
  have hspell := h.spaced_text heap.writing_nil (by simp)
  rw [← htexts] at hspell
  by_cases hvalues : values = []
  · subst hvalues
    refine ⟨[Buffer.sentinel], by simp [Buffer.isBlank_sentinel], ?_⟩
    rw [← hspell]
    rfl
  · refine ⟨[], by simp, ?_⟩
    rw [← hspell, ← Text.toList_intercalate_sentinel _ (by simpa using hvalues)]
    rfl

/-- **Printing and then parsing gives equal values.**  Take readable values in any state of a
machine with the usual parsing words.  Joined with blanks, their texts are parsed to as many values,
equal one by one, on a heap that has some new arrays and is otherwise as it was; and the parse does
nothing else to the machine. -/
theorem parse_text (host : Host E) {m : Machine E}
    (hwords : m.parsingWords = Machine.defaultParsingWords) {values : List Value}
    (hvalues : ∀ value ∈ values, m.heap.Readable value) (path : String) :
    ∃ parsed heap,
      host.Ends (·.parse path (" ".intercalate (values.map m.heap.text))) m
        (.done parsed { m with heap }) ∧
      m.heap.Grows heap ∧
      List.Forall₂ (fun new old => heap.equal new old = true) parsed values := by
  obtain ⟨forest, ids, hunfolds⟩ := Forest.Unfolds.exists_of_readable hvalues
  have hbrackets : Brackets m.parsingWords squareBrackets := hwords ▸ brackets_default
  obtain ⟨blanks, hblanks, hrest⟩ := hunfolds.rest_ofSource path
  obtain ⟨htokens, hending⟩ :=
    Buffer.tokens_of_spell hrest hblanks (hunfolds.legible.isScannable m.heap)
  have hclose : ∀ word, (none : Option String) = some word → word = "]" := nofun
  have hread := Forest.readTokens_lexemes hunfolds.legible m.heap hclose Forest.readTokens_finished
  rw [List.append_nil, ← htokens, ← hending] at hread
  -- the old and the new values stand for the same forest on the new heap
  obtain ⟨ids', hbuilt⟩ := forest.build_built m.heap
  have hold := hunfolds.depicts.grows hunfolds.bound hbuilt.grows
  refine ⟨_, _, ends_parse_of_readTokens host hbrackets hread, hbuilt.grows, ?_⟩
  exact (hbuilt.depicts.twins hold hunfolds.legible).imp fun _ _ htwins =>
    Heap.bisimulation_twins.equal htwins

/-- An array that is an element of another twice. -/
def sharingHeap : Heap :=
  { arrays := #[[.int (-9223372036854775808), .string "a ] b", .bool true],
      [.array ⟨0⟩, .word "dup", .array ⟨0⟩]] }

theorem isWordText_dup : IsWordText "dup" :=
  ⟨by decide, Text.noBlank_of_all (by decide), by decide, rfl, by decide, by decide⟩

theorem readable_sharing : sharingHeap.Readable (.array ⟨1⟩) := by
  have hinner : sharingHeap.Readable (.array ⟨0⟩) := by
    refine .array (by decide) fun value hmem => ?_
    simp only [sharingHeap, Heap.items, List.getElem?_toArray, List.getElem?_cons_zero,
      Option.getD_some, List.mem_cons, List.not_mem_nil, or_false] at hmem
    rcases hmem with rfl | rfl | rfl
    · exact .leaf (.int _)
    · exact .leaf (.string (by decide))
    · exact .leaf (.bool _)
  refine .array (by decide) fun value hmem => ?_
  simp only [sharingHeap, Heap.items, List.getElem?_toArray, List.getElem?_cons_succ,
    List.getElem?_cons_zero, Option.getD_some, List.mem_cons, List.not_mem_nil, or_false] at hmem
  rcases hmem with rfl | rfl | rfl
  · exact hinner
  · exact .leaf (.word isWordText_dup)
  · exact hinner

/-- The least integer, a string with a bracket in it, and an array written twice. -/
theorem parse_text_sharing :
    ∃ parsed heap,
      Host.bare.Ends
        (·.parse "<input>"
          "[ [ -9223372036854775808 \"a ] b\" t ] dup [ -9223372036854775808 \"a ] b\" t ] ] f")
        { Machine.new () with heap := sharingHeap }
        (.done parsed { (Machine.new () : Machine .bare) with heap }) ∧
      sharingHeap.Grows heap ∧
      List.Forall₂ (fun new old => heap.equal new old = true) parsed
        [.array ⟨1⟩, .bool false] := by
  have hvalues : ∀ value ∈ [Value.array ⟨1⟩, .bool false], sharingHeap.Readable value := by
    intro value hmem
    simp only [List.mem_cons, List.not_mem_nil, or_false] at hmem
    rcases hmem with rfl | rfl
    · exact readable_sharing
    · exact .leaf (.bool false)
  have htext : " ".intercalate ([Value.array ⟨1⟩, .bool false].map sharingHeap.text) =
      "[ [ -9223372036854775808 \"a ] b\" t ] dup [ -9223372036854775808 \"a ] b\" t ] ] f" := by
    decide +kernel
  have h := parse_text Host.bare (m := { Machine.new () with heap := sharingHeap }) rfl hvalues
    "<input>"
  rw [← htext]
  exact h

end Wordstack
