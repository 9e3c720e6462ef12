import Wordstack.Proofs.Reading
import Wordstack.Value.Heap

/-!
# Nested code

The reference for bracket syntax.  Some words open a group, each with a word that closes it; a group
is everything up to the closing word of its own that no group inside it has taken.  Reading by
recursive descent turns the tokens of a text into a forest, and building turns the forest into
values on a heap, one new array for each group.

* `Forest.readTokens`: the forest of a list of tokens, or why there is none, with an equation for
  each kind of token.
* `Forest.ofText`: the forest of a source text.
* `Forest.build`: the values of a forest.
* `Forest.Built`, `Forest.build_built`: what building gives, without regard to the order in which
  the arrays are made.
-/

namespace Wordstack

/-! ### Reading -/

/-- Code in which groups are not arrays yet. -/
inductive Forest where
  | nil
  | leaf (value : Value) (rest : Forest)
  | group (inner rest : Forest)

/-- Why a text can not be read. -/
inductive ReadFault where
  /-- The text ends in a quoted text that is never closed. -/
  | openQuote (start : Location)
  /-- The text ends inside a group, whose closing word is missing. -/
  | missing (close : String)
  deriving DecidableEq, Repr

namespace Forest

/-- The closing word of the group that a token opens. -/
def opens? (closing : String → Option String) : Value → Option String
  | .word name => closing name
  | _ => none

/-- Whether a token closes the group being read. -/
def closes (close : Option String) : Value → Bool
  | .word name => close = some name
  | _ => false

theorem exists_of_opens? {closing : String → Option String} {token : Value} {inner : String}
    (h : opens? closing token = some inner) :
    ∃ name, token = .word name ∧ closing name = some inner := by
  cases token with
  | word name => exact ⟨name, rfl, h⟩
  | _ => cases h

/-- A forest read off the front of some tokens, and the tokens after it. -/
structure Reading (tokens : List Value) where
  code : Forest
  rest : List Value
  shorter : rest.length ≤ tokens.length

/-- Reads a group as `readTokens` does, with the proof that what is left is no longer. -/
def readGroup (closing : String → Option String) (ending : Scan) :
    (close : Option String) → (tokens : List Value) → Except ReadFault (Reading tokens)
  | close, [] =>
    match ending, close with
    | .unclosed start, _ => .error (.openQuote start)
    | _, some close => .error (.missing close)
    | _, none => .ok ⟨.nil, [], Nat.le_refl _⟩
  | close, token :: tokens =>
    match opens? closing token with
    | some inner => do
      let group ← readGroup closing ending (some inner) tokens
      let later ← readGroup closing ending close group.rest
      return ⟨.group group.code later.code, later.rest,
        Nat.le_succ_of_le (Nat.le_trans later.shorter group.shorter)⟩
    | none =>
      if closes close token then .ok ⟨.nil, tokens, Nat.le_succ _⟩
      else do
        let later ← readGroup closing ending close tokens
        return ⟨.leaf token.asLiteral later.code, later.rest, Nat.le_succ_of_le later.shorter⟩
termination_by _ tokens => tokens.length
decreasing_by
  · simp
  · exact Nat.lt_succ_of_le group.shorter
  · simp

/-- Reads the group that `close` closes, up to and with that word, or everything if no group is
being read, and gives the tokens after it.  `ending` is how the text ends. -/
def readTokens (closing : String → Option String) (ending : Scan) (close : Option String)
    (tokens : List Value) : Except ReadFault (Forest × List Value) :=
  (readGroup closing ending close tokens).map fun reading => (reading.code, reading.rest)

/-- The forest of a source text. -/
def ofText (closing : String → Option String) (path source : String) : Except ReadFault Forest :=
  (readTokens closing (Buffer.ofSource path source).ending.1 none
    (Buffer.ofSource path source).tokens).map (·.1)

section Equations

variable {closing : String → Option String} {ending : Scan} {close : Option String} {token : Value}
  {tokens : List Value}

theorem readTokens_shorter {forest : Forest} {rest : List Value}
    (h : readTokens closing ending close tokens = .ok (forest, rest)) :
    rest.length ≤ tokens.length := by
  unfold readTokens at h
  cases hread : readGroup closing ending close tokens with
  | error fault => rw [hread] at h; cases h
  | ok reading =>
    rw [hread] at h
    have hrest : reading.rest = rest := congrArg Prod.snd (Except.ok.inj h)
    exact hrest ▸ reading.shorter

theorem readTokens_unclosed (start : Location) :
    readTokens closing (.unclosed start) close [] = .error (.openQuote start) := by
  rw [readTokens, readGroup]
  rfl

theorem readTokens_finished :
    readTokens closing .finished close [] =
      match close with
      | some close => .error (.missing close)
      | none => .ok (.nil, []) := by
  cases close with
  | some close => simp [readTokens, readGroup, Except.map]
  | none => simp [readTokens, readGroup, Except.map]

theorem readTokens_open {inner : String} (h : opens? closing token = some inner) :
    readTokens closing ending close (token :: tokens) = do
      let group ← readTokens closing ending (some inner) tokens
      let later ← readTokens closing ending close group.2
      return (.group group.1 later.1, later.2) := by
  rw [readTokens, readGroup, h]
  simp only [readTokens]
  cases readGroup closing ending (some inner) tokens with
  | error fault => rfl
  | ok group =>
    cases hlater : readGroup closing ending close group.rest with
    | error fault => simp [bind, Except.bind, Except.map, hlater]
    | ok later => simp [bind, Except.bind, Except.map, hlater, pure, Except.pure]

theorem readTokens_close (h : opens? closing token = none) (hclose : closes close token = true) :
    readTokens closing ending close (token :: tokens) = .ok (.nil, tokens) := by
  rw [readTokens, readGroup, h]
  simp only [hclose, if_true]
  rfl

theorem readTokens_leaf (h : opens? closing token = none) (hclose : closes close token = false) :
    readTokens closing ending close (token :: tokens) = do
      let later ← readTokens closing ending close tokens
      return (.leaf token.asLiteral later.1, later.2) := by
  rw [readTokens, readGroup, h]
  simp only [hclose, Bool.false_eq_true, if_false, readTokens]
  cases readGroup closing ending close tokens with
  | error fault => rfl
  | ok later => rfl

end Equations

/-! ### Building -/

/-- The values of a forest on a heap: the groups become new arrays, inner ones before outer ones. -/
def build : Forest → Heap → List Value × Heap
  | nil, heap => ([], heap)
  | leaf value rest, heap =>
    let built := rest.build heap
    (value :: built.1, built.2)
  | group inner rest, heap =>
    let elements := inner.build heap
    let made := elements.2.newArray elements.1
    let built := rest.build made.2
    (.array made.1 :: built.1, built.2)

/-- The array of a group, given what is inside. -/
def array (inner : Forest) (heap : Heap) : ArrayId × Heap :=
  (inner.build heap).2.newArray (inner.build heap).1

theorem build_group (inner rest : Forest) (heap : Heap) :
    (group inner rest).build heap =
      (.array (inner.array heap).1 :: (rest.build (inner.array heap).2).1,
        (rest.build (inner.array heap).2).2) := rfl

end Forest

/-- A heap to which arrays were added and nothing else was done. -/
structure Heap.Grows (old new : Heap) : Prop where
  size_le : old.arrays.size ≤ new.arrays.size
  items : ∀ id : ArrayId, id.index < old.arrays.size → new.items id = old.items id
  scopes : new.scopes = old.scopes

namespace Heap.Grows

theorem refl (heap : Heap) : heap.Grows heap :=
  ⟨Nat.le_refl _, fun _ _ => rfl, rfl⟩

theorem trans {a b c : Heap} (h1 : a.Grows b) (h2 : b.Grows c) : a.Grows c where
  size_le := Nat.le_trans h1.size_le h2.size_le
  items := by
    intro id hid
    rw [h2.items id (Nat.lt_of_lt_of_le hid h1.size_le), h1.items id hid]
  scopes := h2.scopes.trans h1.scopes

theorem newArray (heap : Heap) (values : List Value) : heap.Grows (heap.newArray values).2 where
  size_le := by simp [Heap.newArray]
  items := fun _ hid => items_newArray_of_lt hid values
  scopes := rfl

end Heap.Grows

namespace Forest

/-- The values stand for the forest: a leaf is its value, and a group an array whose elements stand
for what is inside.  The arrays are listed. -/
inductive Depicts (heap : Heap) : Forest → List Value → List ArrayId → Prop
  | nil : Depicts heap .nil [] []
  | leaf {rest : Forest} {values : List Value} {ids : List ArrayId} (value : Value)
      (hrest : Depicts heap rest values ids) : Depicts heap (.leaf value rest) (value :: values) ids
  | group {inner rest : Forest} {values : List Value} {ids ids' : List ArrayId} (id : ArrayId)
      (hinner : Depicts heap inner (heap.items id) ids) (hrest : Depicts heap rest values ids') :
      Depicts heap (.group inner rest) (.array id :: values) (id :: (ids ++ ids'))

/-- The values stand for the forest, and their arrays are new, one for each group. -/
structure Built (forest : Forest) (old new : Heap) (values : List Value) (ids : List ArrayId) :
    Prop where
  grows : old.Grows new
  depicts : forest.Depicts new values ids
  nodup : ids.Nodup
  fresh : ∀ id ∈ ids, old.arrays.size ≤ id.index ∧ id.index < new.arrays.size

/-- Arrays that are added do not change what values stand for. -/
theorem Depicts.grows {old new : Heap} {forest : Forest} {values : List Value} {ids : List ArrayId}
    (h : forest.Depicts old values ids) (hids : ∀ id ∈ ids, id.index < old.arrays.size)
    (hgrows : old.Grows new) : forest.Depicts new values ids := by
  induction h with
  | nil => exact .nil
  | leaf value _ ih => exact .leaf value (ih hids)
  | @group inner rest values ids ids' id _ _ ihinner ihrest =>
    have hid : id.index < old.arrays.size := hids id (by simp)
    refine .group id ?_ (ihrest fun i hi => hids i (by simp [hi]))
    rw [hgrows.items id hid]
    exact ihinner fun i hi => hids i (by simp [hi])

/-- The array of a group comes after those inside the group and before those that follow. -/
theorem Built.group {inner rest : Forest} {old mid new : Heap} {elements values : List Value}
    {ids ids' : List ArrayId} (hinner : inner.Built old mid elements ids)
    (hrest : rest.Built (mid.newArray elements).2 new values ids') :
    (Forest.group inner rest).Built old new (.array (mid.newArray elements).1 :: values)
      ((mid.newArray elements).1 :: (ids ++ ids')) := by
  generalize hmade : mid.newArray elements = made at hrest ⊢
  have hgrows : mid.Grows made.2 := hmade ▸ .newArray mid elements
  have hindex : made.1.index = mid.arrays.size := by rw [← hmade]; rfl
  have hsize : made.2.arrays.size = mid.arrays.size + 1 := by simp [← hmade, Heap.newArray]
  have hitems : made.2.items made.1 = elements := by
    rw [← hmade]
    exact Heap.items_newArray_self _ _
  have hold := hinner.grows.size_le
  have hnew := hrest.grows.size_le
  have hbefore : ∀ id ∈ ids, old.arrays.size ≤ id.index ∧ id.index < made.1.index := fun id hid =>
    hindex ▸ hinner.fresh id hid
  have hafter : ∀ id ∈ ids', made.1.index < id.index ∧ id.index < new.arrays.size := by
    intro id hid
    have := hrest.fresh id hid
    omega
  refine ⟨(hinner.grows.trans hgrows).trans hrest.grows, ?_, ?_, ?_⟩
  · refine .group made.1 ?_ hrest.depicts
    rw [hrest.grows.items made.1 (by omega), hitems]
    exact hinner.depicts.grows (fun id hid => (hinner.fresh id hid).2) (hgrows.trans hrest.grows)
  · rw [List.nodup_cons, List.nodup_append]
    refine ⟨fun hmem => ?_, hinner.nodup, hrest.nodup, fun a ha b hb hab => ?_⟩
    · rcases List.mem_append.mp hmem with hid | hid
      · exact Nat.lt_irrefl _ (hbefore _ hid).2
      · exact Nat.lt_irrefl _ (hafter _ hid).1
    · have h1 := hbefore a ha
      have h2 := hafter b hb
      rw [hab] at h1
      omega
  · intro id hid
    rcases List.mem_cons.mp hid with rfl | hid
    · omega
    rcases List.mem_append.mp hid with hid | hid
    · have := hbefore id hid
      omega
    · have := hafter id hid
      omega

/-- **Building gives new arrays**, one for each group, and leaves the old ones as they are. -/
theorem build_built (forest : Forest) (heap : Heap) :
    ∃ ids, forest.Built heap (forest.build heap).2 (forest.build heap).1 ids := by
  induction forest generalizing heap with
  | nil => exact ⟨[], .refl heap, .nil, List.nodup_nil, by simp⟩
  | leaf value rest ih =>
    obtain ⟨ids, hrest⟩ := ih heap
    exact ⟨ids, hrest.grows, .leaf value hrest.depicts, hrest.nodup, hrest.fresh⟩
  | group inner rest ihinner ihrest =>
    obtain ⟨ids, hinner⟩ := ihinner heap
    obtain ⟨ids', hrest⟩ := ihrest (inner.array heap).2
    exact ⟨_, hinner.group hrest⟩

theorem grows_array (forest : Forest) (heap : Heap) : heap.Grows (forest.array heap).2 := by
  obtain ⟨ids, hbuilt⟩ := forest.build_built heap
  exact hbuilt.grows.trans (.newArray _ _)

end Forest

end Wordstack
