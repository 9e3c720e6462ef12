import Wordstack.Proofs.Fields
import Wordstack.Proofs.Sharing

/-!
# Splitting and joining with words

The words that split a text and join an array, run on a machine.  Splitting leaves a new array of
strings, and joining that array with the same separator gives the text back, up to separators at its
end; joining an array of strings and splitting the text gives the strings back, if the separator is
one character that none of them has.
-/

namespace Wordstack

variable {E : Embedding}

namespace Host

/-- A word, given its inputs, top first, leaves a new array of strings on top of the machine `m'`,
which is `m` with that array on its heap. -/
def MakesStrings (host : Host E) (b : Builtin) (inputs : List Value) (m m' : Machine E)
    (new : ArrayId) (texts : List String) : Prop :=
  host.Ends (·.execute (.word b.name)) { m with stack := inputs ++ m.stack }
      (.done () (m'.withTop (.array new))) ∧
    ArrayMade m (m'.withTop (.array new)) new (texts.map .string)

/-- `text separator split` leaves a new array of the fields. -/
def Splits (host : Host E) (text separator : String) (m m' : Machine E) (new : ArrayId)
    (fields : List String) : Prop :=
  host.MakesStrings .split [.string separator, .string text] m m' new fields

/-- `array separator join` leaves the joined text and changes nothing. -/
def Joins (host : Host E) (m : Machine E) (id : ArrayId) (separator joined : String) : Prop :=
  host.Ends (·.execute (.word Builtin.join.name))
    { m with stack := [.string separator, .array id] ++ m.stack }
    (.done () (m.withTop (.string joined)))

variable (host : Host E) {m : Machine E}

/-- All words that return an array of certain texts leave the same machine. -/
theorem exists_makesStrings (m : Machine E) (texts : List (List Char)) :
    ∃ m' new, ∀ b inputs, m.Knows b →
      (∀ engine : Engine E, b.perform engine { m with stack := inputs ++ m.stack } =
        .done () (m.withArray (texts.map fun cs => .string (String.ofList cs)))) →
      host.MakesStrings b inputs m m' new (texts.map String.ofList) := by
  refine ⟨{ m with heap := (m.heap.newArray (texts.map fun cs => .string (String.ofList cs))).2 },
    _, fun b inputs hb h => ⟨ends_word (hb.of_values _ _ _) nofun h, ?_⟩⟩
  rw [List.map_map]
  exact arrayMade_withArray m _

theorem exists_splits (hm : m.Knows .split) (text separator : String) :
    ∃ m' new, host.Splits text separator m m' new
      ((Text.split text.toList separator.toList).map String.ofList) := by
  obtain ⟨m', new, h⟩ := host.exists_makesStrings m (Text.split text.toList separator.toList)
  exact ⟨m', new, h .split _ hm fun _ => rfl⟩

theorem joins {id : ArrayId} {fields : List String} (hm : m.Knows .join)
    (hid : m.heap.items id = fields.map .string) (separator : String) :
    host.Joins m id separator
      (String.ofList (Text.join separator.toList (fields.map String.toList))) := by
  refine ends_word (hm.of_values _ _ _) nofun fun engine => ?_
  have hperform : Builtin.join.perform engine
      { m with stack := [.string separator, .array id] ++ m.stack } =
        .done () (m.withTop (.string (String.ofList (Text.join separator.toList
          ((m.heap.items id).map fun v => (m.heap.plainText v).toList))))) := rfl
  rw [hperform, hid, List.map_map]
  rfl

variable {host} in
/-- The array that a word makes can be joined. -/
theorem MakesStrings.joins {b : Builtin} {inputs : List Value} {m' : Machine E} {new : ArrayId}
    {texts : List (List Char)} (hm : m.Knows .join)
    (h : host.MakesStrings b inputs m m' new (texts.map String.ofList)) (separator : String) :
    host.Joins m' new separator (String.ofList (Text.join separator.toList texts)) := by
  have hm' : m'.Knows .join := by
    have htop : (m'.withTop (.array new)).Knows .join := h.2.rest ▸ hm.of_values _ _ _
    exact htop
  have hitems : m'.heap.items new = (texts.map String.ofList).map .string := h.2.items
  simpa [Function.comp_def] using host.joins hm' hitems separator

/-- Splitting and joining again gives the text without the separators at its end. -/
theorem exists_split_join (hsplit : m.Knows .split) (hjoin : m.Knows .join)
    {separator : String} (hempty : separator ≠ "") (hspace : separator ≠ " ") (text : String) :
    ∃ m' new fields joined k,
      host.Splits text separator m m' new fields ∧ host.Joins m' new separator joined ∧
      (∀ field ∈ fields, ¬ separator.toList <:+: field.toList) ∧ fields.getLast? ≠ some "" ∧
      text = joined ++ String.join (List.replicate k separator) := by
  obtain ⟨m', new, hsplits⟩ := host.exists_splits hsplit text separator
  have hempty' : separator.toList ≠ [] := by simpa using hempty
  have hspace' : separator.toList ≠ [' '] := fun h => hspace (String.toList_injective h)
  obtain ⟨k, hk⟩ := Text.exists_eq_join_split hempty' hspace' text.toList
  rw [Text.split_eq hempty' hspace'] at hsplits hk
  refine ⟨m', new, _, _, k, hsplits, hsplits.joins hjoin separator, ?_, ?_, ?_⟩
  · intro field hfield
    obtain ⟨cs, hcs, rfl⟩ := List.mem_map.mp hfield
    rw [String.toList_ofList]
    exact Text.not_infix_of_mem_fields hempty' (Text.mem_of_mem_dropTrailingEmpty hcs)
  · have hlast := Text.getLast?_dropTrailingEmpty (Text.fields separator.toList text.toList)
    simpa using hlast
  · apply String.toList_injective
    simpa [List.flatMap_replicate] using hk

/-- The empty separator splits a text into its characters. -/
theorem exists_split_characters (hsplit : m.Knows .split) (hjoin : m.Knows .join)
    (text : String) :
    ∃ m' new, host.Splits text "" m m' new (text.toList.map String.singleton) ∧
      host.Joins m' new "" text := by
  obtain ⟨m', new, hsplits⟩ := host.exists_splits hsplit text ""
  have hjoins := hsplits.joins hjoin ""
  rw [String.toList_empty, Text.split_nil] at hsplits hjoins
  rw [Text.join_nil_map, String.ofList_toList] at hjoins
  refine ⟨m', new, ?_, hjoins⟩
  simpa [Function.comp_def] using hsplits

/-- The space splits a text into its blank-free runs, as `w` does. -/
theorem exists_split_runs (hsplit : m.Knows .split) (hwords : m.Knows .words) (text : String) :
    ∃ m' new fields,
      host.Splits text " " m m' new fields ∧
      host.MakesStrings .words [.string text] m m' new fields ∧
      Text.Runs text.toList (fields.map String.toList) := by
  obtain ⟨m', new, h⟩ := host.exists_makesStrings m (Text.words text.toList)
  have hsplits : host.Splits text " " m m' new ((Text.words text.toList).map String.ofList) := by
    refine h .split _ hsplit fun engine => ?_
    rw [← Text.split_space]
    rfl
  refine ⟨m', new, _, hsplits, h .words _ hwords fun _ => rfl, ?_⟩
  simpa [Function.comp_def] using Text.runs_words text.toList

/-- Joining with a character that no string has and splitting again gives the strings. -/
theorem exists_join_split (hsplit : m.Knows .split) (hjoin : m.Knows .join) {c : Char}
    {fields : List String} {id : ArrayId} (hc : c ≠ ' ')
    (hid : m.heap.items id = fields.map .string) (hfields : ∀ field ∈ fields, c ∉ field.toList)
    (hlast : fields.getLast? ≠ some "") :
    ∃ joined m' new,
      host.Joins m id (String.singleton c) joined ∧
      host.Splits joined (String.singleton c) m m' new fields := by
  have hback : Text.split (Text.join [c] (fields.map String.toList)) [c] =
      fields.map String.toList := by
    refine Text.split_join hc ?_ ?_
    · simpa using hfields
    · simpa using hlast
  have hjoins := host.joins hjoin hid (String.singleton c)
  obtain ⟨m', new, hsplits⟩ := host.exists_splits hsplit
    (String.ofList (Text.join [c] (fields.map String.toList))) (String.singleton c)
  rw [String.toList_singleton] at hjoins hsplits
  rw [String.toList_ofList, hback, List.map_map] at hsplits
  refine ⟨_, m', new, hjoins, ?_⟩
  simpa [Function.comp_def] using hsplits

end Host

/-- **Splitting and joining are inverse**, up to separators at the end.  Take any state of a machine
that knows the words.

Splitting a text on a separator, other than the empty string and the space, gives fields that do not
contain it and whose last is not empty, and the fields joined with the separator are the text, up to
separators at its end.  The empty string splits the text into its characters, and joining these
gives it back.  The space splits it into its blank-free runs, as `w` does.

Joining some strings with a character other than the space, which none of them contains, and
splitting the text on it gives the strings back, if the last is not empty. -/
theorem split_join_inverse (host : Host E) {m : Machine E} (hm : ∀ b : Builtin, m.Knows b) :
    (∀ text separator : String, separator ≠ "" → separator ≠ " " → ∃ m' new fields joined k,
      host.Splits text separator m m' new fields ∧ host.Joins m' new separator joined ∧
      (∀ field ∈ fields, ¬ separator.toList <:+: field.toList) ∧ fields.getLast? ≠ some "" ∧
      text = joined ++ String.join (List.replicate k separator)) ∧
    (∀ text : String, ∃ m' new,
      host.Splits text "" m m' new (text.toList.map String.singleton) ∧
      host.Joins m' new "" text) ∧
    (∀ text : String, ∃ m' new fields,
      host.Splits text " " m m' new fields ∧
      host.MakesStrings .words [.string text] m m' new fields ∧
      Text.Runs text.toList (fields.map String.toList)) ∧
    (∀ (c : Char) (fields : List String) id, c ≠ ' ' → m.heap.items id = fields.map .string →
      (∀ field ∈ fields, c ∉ field.toList) → fields.getLast? ≠ some "" → ∃ joined m' new,
        host.Joins m id (String.singleton c) joined ∧
        host.Splits joined (String.singleton c) m m' new fields) := by
  have hsplit := hm .split
  have hjoin := hm .join
  refine ⟨?_, ?_, ?_, ?_⟩
  · intro text separator hempty hspace
    exact host.exists_split_join hsplit hjoin hempty hspace text
  · intro text
    exact host.exists_split_characters hsplit hjoin text
  · intro text
    exact host.exists_split_runs hsplit (hm .words) text
  · intro c fields id hc hid hfields hlast
    exact host.exists_join_split hsplit hjoin hc hid hfields hlast

/-- A separator that overlaps itself, and an array of two strings, the first of them empty. -/
theorem split_join_inverse_holding :
    let m : Machine .bare := (Machine.standard ()).holding [] [.string "", .string "b"]
    (∃ m' new fields joined k,
      Host.bare.Splits "aaabaa" "aa" m m' new fields ∧ Host.bare.Joins m' new "aa" joined ∧
      (∀ field ∈ fields, ¬ "aa".toList <:+: field.toList) ∧ fields.getLast? ≠ some "" ∧
      "aaabaa" = joined ++ String.join (List.replicate k "aa")) ∧
    (∃ joined m' new,
      Host.bare.Joins m ⟨0⟩ "," joined ∧ Host.bare.Splits joined "," m m' new ["", "b"]) := by
  intro m
  have hm : m.Standard := (Machine.standard_standard (E := .bare) ()).holding _ _
  obtain ⟨hsplit, -, -, hjoin⟩ := split_join_inverse Host.bare hm.knows
  refine ⟨hsplit "aaabaa" "aa" (by decide) (by decide), ?_⟩
  exact hjoin ',' ["", "b"] ⟨0⟩ (by decide) rfl (by decide) (by decide)

end Wordstack
