import Mathlib.Logic.Relation
import Wordstack.Proofs.Renaming

/-!
# The text of arrays, shared or cyclic

Arrays may hold each other and themselves in any way.  The text of a value is that of a finite tree,
its unfolding, in which an array is cut short exactly where it is inside itself.  There is one such
tree, so the text does not depend on how deep the writing may go.  An array is cut short somewhere
only if one is reached that can be reached from itself; without such arrays the text is that of the
plain recursion, however often an array is shared.

* `Unfolding`, `Unfolding.Of`: the trees that unfold values, wherever arrays are cut short.
* `Unfolding.Occurs`, `Unfolding.CutsReopened`: where arrays occur, and where they are cut.
* `Heap.Holds`, `Heap.Cyclic`: the elements of arrays, and whether they lead into a cycle.
* `Heap.Plain`: the texts of the plain recursion.
* `Writer.value`: writing with one list of open arrays.
* `array_text_unfolds`: the text of a value is the text of its unfolding.
-/

namespace Wordstack

open Relation (ReflTransGen TransGen)

variable {heap : Heap}

theorem Value.array_or_leaf (value : Value) :
    (∃ id, value = .array id) ∨ value.type ≠ .array := by
  cases value with
  | array id => exact .inl ⟨id, rfl⟩
  | _ => exact .inr nofun

/-! ### Unfoldings -/

/-- A row of values, unfolded: values that are no arrays, arrays cut short, and arrays with the row
of their elements. -/
inductive Unfolding where
  | nil
  | leaf (value : Value) (rest : Unfolding)
  | cut (id : ArrayId) (rest : Unfolding)
  | node (id : ArrayId) (inner rest : Unfolding)

namespace Unfolding

/-- Texts in brackets, each with a blank behind it. -/
def bracketed (texts : List String) : String :=
  "[ " ++ String.join (texts.map (· ++ " ")) ++ "]"

/-- The texts of the values of a row. -/
def texts (heap : Heap) : Unfolding → List String
  | nil => []
  | leaf value rest => heap.leafText value :: rest.texts heap
  | cut _ rest => "[ ... ]" :: rest.texts heap
  | node _ inner rest => bracketed (inner.texts heap) :: rest.texts heap

/-- The trees that unfold values.  Any array may be cut short. -/
inductive Of (heap : Heap) : List Value → Unfolding → Prop
  | nil : Of heap [] nil
  | leaf {value : Value} {values : List Value} {rest : Unfolding} (h : value.type ≠ .array)
      (later : Of heap values rest) : Of heap (value :: values) (leaf value rest)
  | cut {id : ArrayId} {values : List Value} {rest : Unfolding} (later : Of heap values rest) :
      Of heap (.array id :: values) (cut id rest)
  | node {id : ArrayId} {values : List Value} {inner rest : Unfolding}
      (inside : Of heap (heap.items id) inner) (later : Of heap values rest) :
      Of heap (.array id :: values) (node id inner rest)

/-- Where an array occurs: the arrays around it, from the innermost on, and whether it is cut. -/
inductive Occurs : Unfolding → List ArrayId → ArrayId → Bool → Prop
  | cut (id : ArrayId) (rest : Unfolding) : Occurs (cut id rest) [] id true
  | node (id : ArrayId) (inner rest : Unfolding) : Occurs (node id inner rest) [] id false
  | inside {outer id : ArrayId} {inner rest : Unfolding} {around : List ArrayId} {short : Bool}
      (h : Occurs inner around id short) :
      Occurs (node outer inner rest) (around ++ [outer]) id short
  | afterLeaf {id : ArrayId} {value : Value} {rest : Unfolding} {around : List ArrayId}
      {short : Bool} (h : Occurs rest around id short) : Occurs (leaf value rest) around id short
  | afterCut {id other : ArrayId} {rest : Unfolding} {around : List ArrayId} {short : Bool}
      (h : Occurs rest around id short) : Occurs (cut other rest) around id short
  | afterNode {id other : ArrayId} {inner rest : Unfolding} {around : List ArrayId} {short : Bool}
      (h : Occurs rest around id short) : Occurs (node other inner rest) around id short

/-- An array is cut short exactly where it is one of the arrays around it. -/
def CutsReopened (tree : Unfolding) : Prop :=
  ∀ around id short, tree.Occurs around id short → (short = true ↔ id ∈ around)

/-- The same for a tree inside other arrays, along its rows. -/
def CutsWithin (opened : List ArrayId) : Unfolding → Prop
  | nil => True
  | leaf _ rest => rest.CutsWithin opened
  | cut id rest => id ∈ opened ∧ rest.CutsWithin opened
  | node id inner rest => id ∉ opened ∧ inner.CutsWithin (id :: opened) ∧ rest.CutsWithin opened

theorem cutsWithin_iff {opened : List ArrayId} {tree : Unfolding} :
    tree.CutsWithin opened ↔
      ∀ around id short, tree.Occurs around id short → (short = true ↔ id ∈ around ++ opened) := by
  induction tree generalizing opened with
  | nil => exact ⟨fun _ _ _ _ h => (nomatch h), fun _ => trivial⟩
  | leaf value rest ih =>
    rw [CutsWithin, ih]
    constructor
    · rintro h around id short (_ | _ | _ | hrest)
      exact h _ _ _ hrest
    · exact fun h around id short hrest => h _ _ _ (.afterLeaf hrest)
  | cut other rest ih =>
    rw [CutsWithin, ih]
    constructor
    · rintro ⟨hopened, h⟩ around id short hoccurs
      cases hoccurs with
      | cut => simpa using hopened
      | afterCut hrest => exact h _ _ _ hrest
    · intro h
      exact ⟨by simpa using h _ _ _ (.cut other rest),
        fun around id short hrest => h _ _ _ (.afterCut hrest)⟩
  | node outer inner rest ihinner ihrest =>
    rw [CutsWithin, ihinner, ihrest]
    constructor
    · rintro ⟨hopened, hinner, hrest⟩ around id short hoccurs
      cases hoccurs with
      | node => simpa using hopened
      | inside h => simpa using hinner _ _ _ h
      | afterNode h => exact hrest _ _ _ h
    · intro h
      exact ⟨by simpa using h _ _ _ (.node outer inner rest),
        fun around id short hinner => by simpa using h _ _ _ (.inside hinner),
        fun around id short hrest => h _ _ _ (.afterNode hrest)⟩

theorem cutsReopened_iff {tree : Unfolding} : tree.CutsReopened ↔ tree.CutsWithin [] := by
  rw [cutsWithin_iff]
  simp only [List.append_nil, CutsReopened]

/-- Where arrays have to be cut, there is one unfolding at most. -/
theorem Of.unique {values : List Value} {tree other : Unfolding} (h : Of heap values tree)
    (hother : Of heap values other) {opened : List ArrayId} (hcuts : tree.CutsWithin opened)
    (hcuts' : other.CutsWithin opened) : other = tree := by
  induction h generalizing other opened with
  | nil =>
    cases hother
    rfl
  | leaf hleaf _ ih =>
    cases hother with
    | leaf _ later => rw [ih later hcuts hcuts']
    | cut => exact absurd rfl hleaf
    | node => exact absurd rfl hleaf
  | cut _ ih =>
    cases hother with
    | leaf hleaf => exact absurd rfl hleaf
    | cut later => rw [ih later hcuts.2 hcuts'.2]
    | node => exact absurd hcuts.1 hcuts'.1
  | node _ _ ihinside ih =>
    cases hother with
    | leaf hleaf => exact absurd rfl hleaf
    | cut => exact absurd hcuts'.1 hcuts.1
    | node inside later => rw [ihinside inside hcuts.2.1 hcuts'.2.1, ih later hcuts.2.2 hcuts'.2.2]

end Unfolding

/-! ### The text is that of an unfolding -/

namespace Heap

open Unfolding (Of)

theorem textWithin_leaf {value : Value} (h : value.type ≠ .array) (depth : Nat)
    (opened : List ArrayId) : heap.textWithin depth opened value = heap.leafText value := by
  cases value with
  | array => exact absurd rfl h
  | _ => rfl

/-- A row unfolds if each array in it does. -/
theorem exists_row {depth : Nat} {opened : List ArrayId}
    (harray : ∀ id, id ∉ opened → ∃ inner, Of heap (heap.items id) inner ∧
      inner.CutsWithin (id :: opened) ∧
      Unfolding.bracketed (inner.texts heap) = heap.arrayText depth opened id)
    (values : List Value) :
    ∃ tree, Of heap values tree ∧ tree.CutsWithin opened ∧
      tree.texts heap = values.map (heap.textWithin depth opened) := by
  induction values with
  | nil => exact ⟨.nil, .nil, trivial, rfl⟩
  | cons value values ih =>
    obtain ⟨rest, hrest, hcuts, htexts⟩ := ih
    rcases value.array_or_leaf with ⟨id, rfl⟩ | hleaf
    · by_cases hid : id ∈ opened
      · refine ⟨.cut id rest, .cut hrest, ⟨hid, hcuts⟩, ?_⟩
        rw [Unfolding.texts, htexts, List.map_cons, textWithin, arrayText_of_mem hid, cutText]
      · obtain ⟨inner, hinner, hcuts', htext⟩ := harray id hid
        refine ⟨.node id inner rest, .node hinner hrest, ⟨hid, hcuts', hcuts⟩, ?_⟩
        rw [Unfolding.texts, htexts, List.map_cons, textWithin, htext]
    · refine ⟨.leaf value rest, .leaf hleaf hrest, hcuts, ?_⟩
      rw [Unfolding.texts, htexts, List.map_cons, textWithin_leaf hleaf]

/-- **The text of values is that of a finite unfolding.**  By induction on the depth, which is never
used up, since the arrays around are different ones. -/
theorem Writing.exists_unfolding {depth : Nat} {opened : List ArrayId}
    (h : heap.Writing depth opened) (values : List Value) :
    ∃ tree, Of heap values tree ∧ tree.CutsWithin opened ∧
      tree.texts heap = values.map (heap.textWithin depth opened) := by
  induction depth generalizing opened values with
  | zero => exact absurd h.depth_pos (Nat.lt_irrefl 0)
  | succ depth ih =>
    refine exists_row (fun id hid => ?_) values
    rw [arrayText_succ hid]
    -- an array without elements need not be one of those on the heap
    by_cases hitems : heap.items id = []
    · exact ⟨.nil, by rw [hitems]; exact .nil, trivial, by rw [hitems]; rfl⟩
    · obtain ⟨_, ⟨⟩, hdeeper⟩ := h.exists_cons hid (index_lt_of_items_ne_nil hitems)
      obtain ⟨inner, hinner, hcuts, htexts⟩ := ih hdeeper (heap.items id)
      exact ⟨inner, hinner, hcuts, by rw [htexts]; rfl⟩

/-- More depth makes no difference, since the unfolding is the same. -/
theorem textWithin_of_deeper (heap : Heap) (more : Nat) (value : Value) :
    heap.textWithin (heap.arrays.size + 1 + more) [] value = heap.text value := by
  have hdeeper : heap.Writing (heap.arrays.size + 1 + more) [] :=
    ⟨List.nodup_nil, nofun, by rw [List.length_nil]; omega⟩
  obtain ⟨tree, htree, hcuts, htexts⟩ := heap.writing_nil.exists_unfolding [value]
  obtain ⟨deeper, hdeep, hcuts', htexts'⟩ := hdeeper.exists_unfolding [value]
  rw [htree.unique hdeep hcuts hcuts', htexts, List.map_singleton, List.map_singleton] at htexts'
  rw [text_eq_textWithin]
  exact (List.singleton_inj.mp htexts').symm

/-! ### Cycles -/

/-- The first array has the second among its elements. -/
def Holds (heap : Heap) (a b : ArrayId) : Prop :=
  .array b ∈ heap.items a

/-- Some array that is the value, or is reached from it through elements of arrays, can be reached
from itself. -/
def Cyclic (heap : Heap) (value : Value) : Prop :=
  ∃ root id, value = .array root ∧ ReflTransGen heap.Holds root id ∧ TransGen heap.Holds id id

/-- The texts of values by plain recursion: an array is the texts of its elements in brackets. -/
inductive Plain (heap : Heap) : List Value → List String → Prop
  | nil : Plain heap [] []
  | leaf {value : Value} {values : List Value} {texts : List String} (h : value.type ≠ .array)
      (later : Plain heap values texts) :
      Plain heap (value :: values) (heap.leafText value :: texts)
  | array {id : ArrayId} {values : List Value} {inner texts : List String}
      (inside : Plain heap (heap.items id) inner) (later : Plain heap values texts) :
      Plain heap (.array id :: values) (Unfolding.bracketed inner :: texts)

theorem Plain.unique {values : List Value} {texts texts' : List String}
    (h : heap.Plain values texts) (h' : heap.Plain values texts') : texts' = texts := by
  induction h generalizing texts' with
  | nil =>
    cases h'
    rfl
  | leaf hleaf _ ih =>
    cases h' with
    | leaf _ later => rw [ih later]
    | array => exact absurd rfl hleaf
  | array _ _ ihinside ih =>
    cases h' with
    | leaf hleaf => exact absurd rfl hleaf
    | array inside later => rw [ihinside inside, ih later]

/-- The plain recursion comes to an end only if it meets no cycle. -/
theorem Plain.acyclic {values : List Value} {texts : List String} (h : heap.Plain values texts)
    {id k : ArrayId} (hid : .array id ∈ values) (hk : ReflTransGen heap.Holds id k) :
    ¬TransGen heap.Holds k k := by
  induction h generalizing id k with
  | nil => cases hid
  | leaf hleaf _ ih =>
    rcases List.mem_cons.mp hid with rfl | hid
    · exact absurd rfl hleaf
    · exact ih hid hk
  | @array root _ _ _ _ _ ihinside ih =>
    rcases List.mem_cons.mp hid with hroot | hid
    · obtain rfl := Value.array.inj hroot
      intro hcycle
      rcases hk.cases_head with rfl | ⟨next, hnext, hlater⟩
      · obtain ⟨next, hnext, hlater⟩ := TransGen.head'_iff.mp hcycle
        exact ihinside hnext hlater hcycle
      · exact ihinside hnext hlater hcycle
    · exact ih hid hk

end Heap

namespace Unfolding

variable {values : List Value} {tree : Unfolding}

/-- An array that occurs is reached, also from each of the arrays around it. -/
theorem Of.reached (h : Of heap values tree) {around : List ArrayId} {id : ArrayId} {short : Bool}
    (hoccurs : tree.Occurs around id short) :
    ∃ root, .array root ∈ values ∧ ReflTransGen heap.Holds root id ∧
      ∀ outer ∈ around, ReflTransGen heap.Holds root outer ∧ TransGen heap.Holds outer id := by
  induction hoccurs generalizing values with
  | cut id rest =>
    cases h
    exact ⟨id, List.mem_cons_self, .refl, nofun⟩
  | node id inner rest =>
    cases h
    exact ⟨id, List.mem_cons_self, .refl, nofun⟩
  | @inside outer _ _ _ _ _ _ ih =>
    cases h with
    | node inside _ =>
      obtain ⟨root, hroot, hid, hall⟩ := ih inside
      refine ⟨outer, List.mem_cons_self, .head hroot hid, fun other hother => ?_⟩
      rcases List.mem_append.mp hother with hother | hother
      · exact ⟨.head hroot (hall other hother).1, (hall other hother).2⟩
      · obtain rfl := List.mem_singleton.mp hother
        exact ⟨.refl, .head' hroot hid⟩
  | afterLeaf _ ih =>
    cases h with
    | leaf _ later =>
      obtain ⟨root, hroot, hreached⟩ := ih later
      exact ⟨root, List.mem_cons_of_mem _ hroot, hreached⟩
  | afterCut _ ih =>
    cases h with
    | cut later =>
      obtain ⟨root, hroot, hreached⟩ := ih later
      exact ⟨root, List.mem_cons_of_mem _ hroot, hreached⟩
  | afterNode _ ih =>
    cases h with
    | node _ later =>
      obtain ⟨root, hroot, hreached⟩ := ih later
      exact ⟨root, List.mem_cons_of_mem _ hroot, hreached⟩

/-- Without cuts, an unfolding is the plain recursion. -/
theorem Of.plain (h : Of heap values tree)
    (hcuts : ∀ around id, ¬tree.Occurs around id true) : heap.Plain values (tree.texts heap) := by
  induction h with
  | nil => exact .nil
  | leaf hleaf _ ih => exact .leaf hleaf (ih fun _ _ h => hcuts _ _ (.afterLeaf h))
  | cut => exact absurd (.cut _ _) (hcuts _ _)
  | node _ _ ihinside ih =>
    exact .array (ihinside fun _ _ h => hcuts _ _ (.inside h))
      (ih fun _ _ h => hcuts _ _ (.afterNode h))

/-- **Only true cycles are cut.** -/
theorem Of.cut_iff_cyclic {value : Value} (h : Of heap [value] tree) (hcuts : tree.CutsReopened) :
    (∃ around id, tree.Occurs around id true) ↔ heap.Cyclic value := by
  constructor
  · rintro ⟨around, id, hoccurs⟩
    obtain ⟨root, hroot, -, hall⟩ := h.reached hoccurs
    obtain ⟨hreached, hcycle⟩ := hall id ((hcuts _ _ _ hoccurs).mp rfl)
    exact ⟨root, id, (List.mem_singleton.mp hroot).symm, hreached, hcycle⟩
  · rintro ⟨root, id, rfl, hreached, hcycle⟩
    by_contra hnone
    have hplain := h.plain fun around id hoccurs => hnone ⟨around, id, hoccurs⟩
    exact hplain.acyclic List.mem_cons_self hreached hcycle

end Unfolding

/-! ### The contents of scopes -/

namespace Heap

variable {other : Heap} (harrays : other.arrays = heap.arrays)
  (hnames : ∀ id, (other.scope id).fields.names = (heap.scope id).fields.names)

include hnames in
theorem leafText_congr (value : Value) : other.leafText value = heap.leafText value := by
  cases value with
  | scope id => rw [leafText, leafText, Scope.text, Scope.text, hnames]
  | _ => rfl

include harrays hnames in
/-- Of the scopes, a text shows the names of the fields only. -/
theorem textWithin_congr (depth : Nat) (opened : List ArrayId) (value : Value) :
    other.textWithin depth opened value = heap.textWithin depth opened value := by
  have hitems : ∀ id, other.items id = heap.items id := fun id => by rw [items, items, harrays]
  induction depth generalizing opened value with
  | zero =>
    rcases value.array_or_leaf with ⟨id, rfl⟩ | hleaf
    · rfl
    · rw [textWithin_leaf hleaf, textWithin_leaf hleaf, leafText_congr hnames]
  | succ depth ih =>
    rcases value.array_or_leaf with ⟨id, rfl⟩ | hleaf
    · rw [textWithin, textWithin]
      by_cases hid : id ∈ opened
      · rw [arrayText_of_mem hid, arrayText_of_mem hid]
      · rw [arrayText_succ hid, arrayText_succ hid, hitems, funext (ih (id :: opened))]
    · rw [textWithin_leaf hleaf, textWithin_leaf hleaf, leafText_congr hnames]

end Heap

/-! ### Writing piece by piece -/

/-- The state of a writer: the arrays that are being written, innermost first, and the text so
far. -/
structure Writer where
  opened : List ArrayId := []
  written : String := ""

namespace Writer

/-- More text. -/
def write (w : Writer) (text : String) : Writer :=
  { w with written := w.written ++ text }

/-- An array is being written. -/
def enter (w : Writer) (id : ArrayId) : Writer :=
  { w with opened := id :: w.opened }

/-- The innermost array has been written. -/
def leave (w : Writer) : Writer :=
  { w with opened := w.opened.tail }

/-- Writes a value, and in the midst of it the elements of an array one after the other.  There is
one list of open arrays, which an array is put on and taken off again. -/
def value (heap : Heap) (depth : Nat) (w : Writer) (v : Value) : Writer :=
  match depth, v with
  | 0, .array _ => w.write "[ ... ]"
  | depth + 1, .array id =>
    if id ∈ w.opened then w.write "[ ... ]"
    else
      let inside := (w.enter id).write "[ "
      let done := (heap.items id).foldl (fun w v => (value heap depth w v).write " ") inside
      done.leave.write "]"
  | _, leaf => w.write (heap.leafText leaf)

theorem write_write (w : Writer) (text more : String) :
    (w.write text).write more = w.write (text ++ more) := by
  simp [write, String.append_assoc]

theorem value_leaf {v : Value} (h : v.type ≠ .array) (depth : Nat) (w : Writer) :
    value heap depth w v = w.write (heap.leafText v) := by
  cases v with
  | array => exact absurd rfl h
  | _ => cases depth <;> rfl

/-- A row of elements, each with a blank after it, if a value is written as said. -/
theorem foldl_value {depth : Nat} {opened : List ArrayId}
    (hvalue : ∀ (w : Writer) (v : Value), w.opened = opened →
      value heap depth w v = w.write (heap.textWithin depth opened v))
    (values : List Value) (w : Writer) (hw : w.opened = opened) :
    values.foldl (fun w v => (value heap depth w v).write " ") w =
      w.write (String.join (values.map fun v => heap.textWithin depth opened v ++ " ")) := by
  induction values generalizing w with
  | nil => simp [write]
  | cons v values ih =>
    rw [List.foldl_cons, hvalue w v hw, write_write, ih (w.write _) hw, write_write]
    simp

/-- **Writing a value piece by piece** adds its text, and closes all it has opened. -/
theorem value_eq (depth : Nat) (w : Writer) (v : Value) :
    value heap depth w v = w.write (heap.textWithin depth w.opened v) := by
  induction depth generalizing w v with
  | zero =>
    rcases v.array_or_leaf with ⟨id, rfl⟩ | hleaf
    · rfl
    · rw [value_leaf hleaf, Heap.textWithin_leaf hleaf]
  | succ depth ih =>
    rcases v.array_or_leaf with ⟨id, rfl⟩ | hleaf
    · rw [value, Heap.textWithin]
      by_cases hid : id ∈ w.opened
      · rw [if_pos hid, Heap.arrayText_of_mem hid, Heap.cutText]
      · rw [if_neg hid, Heap.arrayText_succ hid]
        dsimp only
        rw [foldl_value (fun w v hw => hw ▸ ih w v) (heap.items id) _ rfl, write_write]
        simp [enter, leave, write, Heap.bracket, Function.comp_def, String.append_assoc]
    · rw [value_leaf hleaf, Heap.textWithin_leaf hleaf]

end Writer

open Unfolding (Of)

/-- **The text of arrays.**  Whatever arrays hold, the text of a value is that of the one finite
unfolding in which arrays are cut short exactly where they are inside themselves, however deep the
writing may go, and it can be written piece by piece with one list of open arrays.  Something is cut
only if an array is reached that can be reached from itself, and otherwise the text is that of the
plain recursion.  A scope shows the names of its fields in order, and the text depends on nothing
else in the scopes. -/
theorem array_text_unfolds (heap : Heap) (value : Value) :
    (∃ tree : Unfolding,
      (∀ other, Of heap [value] other ∧ other.CutsReopened ↔ other = tree) ∧
      tree.texts heap = [heap.text value] ∧
      ((∃ around id, tree.Occurs around id true) ↔ heap.Cyclic value)) ∧
    (∀ more, heap.textWithin (heap.arrays.size + 1 + more) [] value = heap.text value) ∧
    Writer.value heap (heap.arrays.size + 1) {} value = { written := heap.text value } ∧
    (¬heap.Cyclic value → ∀ text, heap.Plain [value] [text] ↔ text = heap.text value) ∧
    (∀ id, (heap.scope id).fields.names.Pairwise (· < ·) ∧
      heap.text (.scope id) =
        "scope\x7b" ++ ",".intercalate ((heap.scope id).fields.names.map (" " ++ ·)) ++ " \x7d") ∧
    ∀ other : Heap, other.arrays = heap.arrays →
      (∀ id, (other.scope id).fields.names = (heap.scope id).fields.names) →
      other.text value = heap.text value := by
  obtain ⟨tree, htree, hcuts, htexts⟩ := heap.writing_nil.exists_unfolding [value]
  rw [List.map_singleton, ← Heap.text_eq_textWithin] at htexts
  have hreopened := Unfolding.cutsReopened_iff.mpr hcuts
  have hcyclic := htree.cut_iff_cyclic hreopened
  refine ⟨⟨tree, fun other => ⟨fun h => ?_, ?_⟩, htexts, hcyclic⟩, fun more => ?_,
    ?_, fun hacyclic text => ?_, fun id => ⟨?_, rfl⟩, fun other harrays hnames => ?_⟩
  · exact htree.unique h.1 hcuts (Unfolding.cutsReopened_iff.mp h.2)
  · rintro rfl
    exact ⟨htree, hreopened⟩
  · exact heap.textWithin_of_deeper more value
  · rw [Writer.value_eq, ← Heap.text_eq_textWithin]
    simp [Writer.write]
  · have hplain := htree.plain fun around id h => hacyclic (hcyclic.mp ⟨around, id, h⟩)
    rw [htexts] at hplain
    constructor
    · exact fun h => List.singleton_inj.mp (hplain.unique h)
    · rintro rfl
      exact hplain
  · exact List.pairwise_map.mpr (heap.scope id).fields.sorted
  · have hsize : other.arrays.size = heap.arrays.size := by rw [harrays]
    rw [Heap.text_eq_textWithin, Heap.text_eq_textWithin, hsize,
      Heap.textWithin_congr harrays hnames]

/-- An array that is shared but in no cycle is written out each time.  An array that holds itself is
cut where it is inside itself, and its text is that of the unfolding with this cut. -/
theorem array_text_unfolds_shared :
    let heap : Heap := { arrays := #[[.int 1], [.array ⟨0⟩, .array ⟨0⟩]] }
    let ring : Heap := { arrays := #[[.int 1, .array ⟨0⟩]] }
    (¬heap.Cyclic (.array ⟨1⟩) ∧ heap.Plain [.array ⟨1⟩] ["[ [ 1 ] [ 1 ] ]"]) ∧
      ring.Cyclic (.array ⟨0⟩) ∧ ring.text (.array ⟨0⟩) = "[ 1 [ ... ] ]" := by
  intro heap ring
  constructor
  · have hlt : ∀ a b, heap.Holds a b → b.index < a.index := by
      rintro ⟨_ | _ | n⟩ b hb
      · simp [Heap.Holds, Heap.items, heap] at hb
      · obtain rfl : b = ⟨0⟩ := by simpa [Heap.Holds, Heap.items, heap] using hb
        exact Nat.one_pos
      · simp [Heap.Holds, Heap.items, heap] at hb
    have hacyclic : ¬heap.Cyclic (.array ⟨1⟩) := by
      rintro ⟨_, id, -, -, hcycle⟩
      have hless : ∀ k, TransGen heap.Holds id k → k.index < id.index := by
        intro k hk
        induction hk with
        | single h => exact hlt _ _ h
        | tail _ h ih => exact (hlt _ _ h).trans ih
      exact Nat.lt_irrefl _ (hless id hcycle)
    have htext : heap.text (.array ⟨1⟩) = "[ [ 1 ] [ 1 ] ]" := by decide
    exact ⟨hacyclic, ((array_text_unfolds heap (.array ⟨1⟩)).2.2.2.1 hacyclic _).mpr htext.symm⟩
  · obtain ⟨⟨tree, htree, htexts, hcuts⟩, -⟩ := array_text_unfolds ring (.array ⟨0⟩)
    -- the one unfolding: the array holds a number and itself, cut short
    have hwanted : Of ring [.array ⟨0⟩]
          (.node ⟨0⟩ (.leaf (.int 1) (.cut ⟨0⟩ .nil)) .nil) ∧
        Unfolding.CutsReopened (.node ⟨0⟩ (.leaf (.int 1) (.cut ⟨0⟩ .nil)) .nil) := by
      refine ⟨.node (.leaf (by decide) (.cut .nil)) .nil, Unfolding.cutsReopened_iff.mpr ?_⟩
      simp [Unfolding.CutsWithin]
    obtain rfl := (htree _).mp hwanted
    refine ⟨hcuts.mp ⟨_, _, .inside (.afterLeaf (.cut ⟨0⟩ .nil))⟩, ?_⟩
    have hwritten : Unfolding.texts ring (.node ⟨0⟩ (.leaf (.int 1) (.cut ⟨0⟩ .nil)) .nil) =
        ["[ 1 [ ... ] ]"] := by
      decide
    exact (List.singleton_inj.mp (hwritten.symm.trans htexts)).symm

/-- An array inside itself and one that is there twice. -/
example :
    ({ arrays := #[[.array ⟨0⟩, .array ⟨1⟩, .array ⟨1⟩], []] } : Heap).text (.array ⟨0⟩) =
      "[ [ ... ] [ ] [ ] ]" := by
  decide

end Wordstack
