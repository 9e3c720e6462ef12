import Mathlib.Data.List.Forall2
import Mathlib.Data.List.TakeWhile
import Mathlib.Logic.Relator
import Wordstack.Proofs.Roundtrip

/-!
# Heaps up to renaming

The identities of arrays and scopes are of no account: nothing that a script can find out depends on
them.  A renaming says which arrays and which scopes of two heaps stand for each other, and which
words may occur.  Heaps agree up to a renaming if it is one-to-one and what stands for each other
has contents that agree.

* `Renaming`, `Renaming.Values`, `Renaming.Heaps`: the agreement of values and of heaps.
* `Renaming.Heaps.withArray`, `newArray`, `newScope`, `setItems`, `setField`: what keeps heaps in
  agreement.
* `Renaming.Heaps.text_eq`, `equal_eq`, `resolve`: what is shown of a value, the equality of values
  and the paths of scopes do not tell agreeing heaps apart.
-/

namespace Wordstack

/-- A text that is scanned as a word: neither empty, nor quoted, nor a boolean, nor a number. -/
structure IsLexical (text : String) : Prop where
  nonempty : text.toList ≠ []
  noBlank : ∀ c ∈ text.toList, Text.isBlank c = false
  unquoted : text.toList.head? ≠ some Buffer.quote
  noBoolean : text ≠ "t" ∧ text ≠ "f"
  noInteger : Numeral.integer? text.toList = none
  noFloat : Numeral.float? text.toList = none

/-- A scan finds no quote in a quoted text, and no blank in a bare one, which does not start with a
quote. -/
theorem Buffer.isScannable_of_scan {b : Buffer} {found : Lexeme}
    (h : b.scan.1 = .lexeme found) : found.IsScannable := by
  -- the blanks are skipped as far as they go
  have hskip : (b.skip Text.isBlank).rest = b.rest.dropWhile Text.isBlank := by
    have hsplit : b.rest.takeWhile Text.isBlank ++ b.rest.dropWhile Text.isBlank = b.rest :=
      List.takeWhile_append_dropWhile
    calc (b.skip Text.isBlank).rest
        = (b.rest.takeWhile Text.isBlank ++ b.rest.dropWhile Text.isBlank).drop
            (b.rest.takeWhile Text.isBlank).length := by rw [hsplit]; rfl
      _ = b.rest.dropWhile Text.isBlank := List.drop_left
  unfold scan at h
  dsimp only at h
  split at h
  · cases h
  · next c rest hrest =>
    have hblank : Text.isBlank c = false := by
      have hhead := List.head?_dropWhile_not Text.isBlank b.rest
      rw [← hskip, hrest] at hhead
      exact hhead
    split at h
    · split at h
      · cases h
      · obtain rfl := Scan.lexeme.inj h
        intro hmem
        rw [String.toList_ofList] at hmem
        simpa using List.mem_takeWhile_imp hmem
    · next hquote =>
      obtain rfl := Scan.lexeme.inj h
      have htext : (b.skip Text.isBlank).run (!Text.isBlank ·) =
          c :: rest.takeWhile (!Text.isBlank ·) := by
        rw [run, hrest, List.takeWhile_cons_of_pos (by simp [hblank])]
      change (String.ofList _).toList ≠ [] ∧ (∀ c ∈ (String.ofList _).toList, _) ∧
        (String.ofList _).toList.head? ≠ _
      rw [String.toList_ofList]
      refine ⟨by simp [htext], fun d hd => ?_, by simpa [htext] using hquote⟩
      simpa using List.mem_takeWhile_imp hd

/-! ### Tables -/

/-- Two tables with the same names, under which they have related values. -/
def Table.Match {α β : Type} (r : α → β → Prop) (t : Table α) (t' : Table β) : Prop :=
  List.Forall₂ (fun x y => x.1 = y.1 ∧ r x.2 y.2) t.entries t'.entries

namespace Table.Match

variable {α β : Type} {r s : α → β → Prop} {t : Table α} {t' : Table β}

theorem mono (h : Match r t t') (hrs : ∀ a b, r a b → s a b) : Match s t t' :=
  List.Forall₂.imp (fun _ _ hxy => ⟨hxy.1, hrs _ _ hxy.2⟩) h

theorem flip (h : Match r t t') : Match (flip r) t' t :=
  List.Forall₂.flip (List.Forall₂.imp (fun _ _ hxy => ⟨hxy.1.symm, hxy.2⟩) h)

theorem names (h : Match r t t') : t.names = t'.names := by
  unfold Match at h
  unfold Table.names
  generalize t.entries = xs at h ⊢
  generalize t'.entries = ys at h ⊢
  induction h with
  | nil => rfl
  | cons hxy _ ih => rw [List.map_cons, List.map_cons, hxy.1, ih]

theorem get? (h : Match r t t') (name : String) : Option.Rel r (t.get? name) (t'.get? name) := by
  unfold Match at h
  unfold Table.get?
  generalize t.entries = xs at h ⊢
  generalize t'.entries = ys at h ⊢
  induction h with
  | nil => exact .none
  | @cons x y xs ys hxy _ ih =>
    by_cases hname : x.1 = name
    · have hname' : y.1 = name := hxy.1 ▸ hname
      simpa [hname, hname'] using hxy.2
    · have hname' : y.1 ≠ name := hxy.1 ▸ hname
      simpa [hname, hname'] using ih

theorem insert (h : Match r t t') (name : String) {a : α} {b : β} (hab : r a b) :
    Match r (t.insert name a) (t'.insert name b) := by
  unfold Match at h ⊢
  change List.Forall₂ _ (insertSorted name a t.entries) (insertSorted name b t'.entries)
  generalize t.entries = xs at h ⊢
  generalize t'.entries = ys at h ⊢
  induction h with
  | nil => exact .cons ⟨rfl, hab⟩ .nil
  | @cons x y xs ys hxy hrest ih =>
    unfold insertSorted
    rw [← hxy.1]
    split
    · exact .cons ⟨rfl, hab⟩ (.cons hxy hrest)
    · split
      · exact .cons ⟨rfl, hab⟩ hrest
      · exact .cons hxy ih

end Table.Match

/-- Functions that agree on related elements map related lists to the same list. -/
theorem map_eq_of_forall₂ {α β γ : Type} {r : α → β → Prop} {xs : List α} {ys : List β}
    (h : List.Forall₂ r xs ys) {f : α → γ} {g : β → γ} (hfg : ∀ x y, r x y → f x = g y) :
    xs.map f = ys.map g := by
  induction h with
  | nil => rfl
  | cons hxy _ ih => rw [List.map_cons, List.map_cons, hfg _ _ hxy, ih]

/-- What stands at a place of a list is related to what stands there in a related one. -/
theorem getElem?_rel_of_forall₂ {α β : Type} {r : α → β → Prop} {xs : List α} {ys : List β}
    (h : List.Forall₂ r xs ys) (i : Nat) : Option.Rel r xs[i]? ys[i]? := by
  induction h generalizing i with
  | nil => exact .none
  | cons hxy _ ih =>
    cases i with
    | zero => exact .some hxy
    | succ i => simpa using ih i

theorem head?_rel_of_forall₂ {α β : Type} {r : α → β → Prop} {xs : List α} {ys : List β}
    (h : List.Forall₂ r xs ys) : Option.Rel r xs.head? ys.head? := by
  cases h with
  | nil => exact .none
  | cons hxy _ => exact .some hxy

theorem getLast?_rel_of_forall₂ {α β : Type} {r : α → β → Prop} {xs : List α} {ys : List β}
    (h : List.Forall₂ r xs ys) : Option.Rel r xs.getLast? ys.getLast? := by
  rw [← List.head?_reverse, ← List.head?_reverse]
  exact head?_rel_of_forall₂ (List.rel_reverse h)

theorem dropLast_of_forall₂ {α β : Type} {r : α → β → Prop} {xs : List α} {ys : List β}
    (h : List.Forall₂ r xs ys) : List.Forall₂ r xs.dropLast ys.dropLast := by
  rw [List.dropLast_eq_take, List.dropLast_eq_take, h.length_eq]
  exact List.forall₂_take _ h

/-- An array that is being written already is cut. -/
theorem Heap.arrayText_of_mem {heap : Heap} {opened : List ArrayId} {id : ArrayId}
    (h : id ∈ opened) (depth : Nat) : heap.arrayText depth opened id = cutText := by
  cases depth with
  | zero => rfl
  | succ depth => exact if_pos h

/-! ### Renamings -/

/-- Which arrays and scopes stand for each other, and which words may occur: all that a scan finds,
and maybe more. -/
structure Renaming where
  arrays : ArrayId → ArrayId → Prop
  scopes : ScopeId → ScopeId → Prop
  words : String → Prop
  lexical : ∀ text, IsLexical text → words text

namespace Renaming

/-- Values that agree. -/
inductive Values (ρ : Renaming) : Value → Value → Prop
  | word {text : String} (h : ρ.words text) : Values ρ (.word text) (.word text)
  | string (text : String) : Values ρ (.string text) (.string text)
  | int (n : Int64) : Values ρ (.int n) (.int n)
  | float (x : Float) : Values ρ (.float x) (.float x)
  | bool (flag : Bool) : Values ρ (.bool flag) (.bool flag)
  | array {a b : ArrayId} (h : ρ.arrays a b) : Values ρ (.array a) (.array b)
  | scope {a b : ScopeId} (h : ρ.scopes a b) : Values ρ (.scope a) (.scope b)

/-- Scopes that agree: the same fields, with values that agree, and the same number of writes. -/
structure Contents (ρ : Renaming) (s s' : Scope) : Prop where
  fields : Table.Match ρ.Values s.fields s'.fields
  writes : s.writes = s'.writes

/-- Heaps that agree. -/
structure Heaps (ρ : Renaming) (heap heap' : Heap) : Prop where
  arrays_unique : Relator.BiUnique ρ.arrays
  scopes_unique : Relator.BiUnique ρ.scopes
  array_bound : ∀ {a b}, ρ.arrays a b → a.index < heap.arrays.size ∧ b.index < heap'.arrays.size
  scope_bound : ∀ {a b}, ρ.scopes a b → a.index < heap.scopes.size ∧ b.index < heap'.scopes.size
  items : ∀ {a b}, ρ.arrays a b → List.Forall₂ ρ.Values (heap.items a) (heap'.items b)
  contents : ∀ {a b}, ρ.scopes a b → ρ.Contents (heap.scope a) (heap'.scope b)

/-- The second renaming relates all that the first does, and admits the same words. -/
structure Le (ρ ρ' : Renaming) : Prop where
  arrays : ∀ {a b}, ρ.arrays a b → ρ'.arrays a b
  scopes : ∀ {a b}, ρ.scopes a b → ρ'.scopes a b
  words : ρ'.words = ρ.words

variable {ρ ρ' ρ'' : Renaming} {heap heap' : Heap} {v v' w w' : Value}

theorem Le.refl (ρ : Renaming) : ρ.Le ρ :=
  ⟨id, id, rfl⟩

theorem Le.trans (h : ρ.Le ρ') (h' : ρ'.Le ρ'') : ρ.Le ρ'' :=
  ⟨fun hab => h'.arrays (h.arrays hab), fun hab => h'.scopes (h.scopes hab),
    h'.words.trans h.words⟩

theorem Values.mono (h : ρ.Values v v') (hle : ρ.Le ρ') : ρ'.Values v v' := by
  cases h with
  | word h => exact .word (hle.words ▸ h)
  | string text => exact .string text
  | int n => exact .int n
  | float x => exact .float x
  | bool flag => exact .bool flag
  | array h => exact .array (hle.arrays h)
  | scope h => exact .scope (hle.scopes h)

/-- Rows of values that agree, under more. -/
theorem forall₂_mono {xs ys : List Value} (h : List.Forall₂ ρ.Values xs ys) (hle : ρ.Le ρ') :
    List.Forall₂ ρ'.Values xs ys :=
  h.imp fun _ _ hxy => hxy.mono hle

theorem Contents.mono {s s' : Scope} (h : ρ.Contents s s') (hle : ρ.Le ρ') : ρ'.Contents s s' :=
  ⟨h.fields.mono fun _ _ hxy => hxy.mono hle, h.writes⟩

theorem Contents.set {s s' : Scope} (h : ρ.Contents s s') (key : String) (hv : ρ.Values v v') :
    ρ.Contents (s.set key v) (s'.set key v') :=
  ⟨h.fields.insert key hv, congrArg (· + 1) h.writes⟩

theorem Values.type_eq (h : ρ.Values v v') : v.type = v'.type := by
  cases h <;> rfl

theorem Values.accepts_eq (h : ρ.Values v v') (spec : SlotType) :
    spec.accepts v = spec.accepts v' := by
  cases spec <;> cases h <;> rfl

theorem Values.compare_eq (hv : ρ.Values v v') (hw : ρ.Values w w') :
    v.compare w = v'.compare w' := by
  cases hv <;> cases hw <;> rfl

/-! ### Relating one more array or scope -/

/-- Two arrays that stand for each other, too. -/
def withArray (ρ : Renaming) (a b : ArrayId) : Renaming :=
  { ρ with arrays := fun x y => ρ.arrays x y ∨ (x = a ∧ y = b) }

/-- Two scopes that stand for each other, too. -/
def withScope (ρ : Renaming) (a b : ScopeId) : Renaming :=
  { ρ with scopes := fun x y => ρ.scopes x y ∨ (x = a ∧ y = b) }

theorem le_withArray (ρ : Renaming) (a b : ArrayId) : ρ.Le (ρ.withArray a b) :=
  ⟨.inl, id, rfl⟩

theorem le_withScope (ρ : Renaming) (a b : ScopeId) : ρ.Le (ρ.withScope a b) :=
  ⟨id, .inl, rfl⟩

theorem biUnique_or {α β : Type} {r : α → β → Prop} (h : Relator.BiUnique r) {a : α} {b : β}
    (ha : ∀ y, ¬r a y) (hb : ∀ x, ¬r x b) :
    Relator.BiUnique fun x y => r x y ∨ (x = a ∧ y = b) := by
  constructor
  · rintro x x' y (hxy | ⟨rfl, rfl⟩) (hxy' | ⟨rfl, hy⟩)
    · exact h.1 hxy hxy'
    · exact absurd (hy ▸ hxy) (hb _)
    · exact absurd hxy' (hb _)
    · rfl
  · rintro x y y' (hxy | ⟨rfl, rfl⟩) (hxy' | ⟨hx, rfl⟩)
    · exact h.2 hxy hxy'
    · exact absurd (hx ▸ hxy) (ha _)
    · exact absurd hxy' (ha _)
    · rfl

/-! ### What keeps heaps in agreement -/

namespace Heaps

variable (h : ρ.Heaps heap heap')
include h

/-- Arrays that are added change nothing. -/
theorem grows {new new' : Heap} (hg : heap.Grows new) (hg' : heap'.Grows new') :
    ρ.Heaps new new' where
  arrays_unique := h.arrays_unique
  scopes_unique := h.scopes_unique
  array_bound hab :=
    ⟨Nat.lt_of_lt_of_le (h.array_bound hab).1 hg.size_le,
      Nat.lt_of_lt_of_le (h.array_bound hab).2 hg'.size_le⟩
  scope_bound := by
    rw [hg.scopes, hg'.scopes]
    exact h.scope_bound
  items hab := by
    rw [hg.items _ (h.array_bound hab).1, hg'.items _ (h.array_bound hab).2]
    exact h.items hab
  contents := by
    unfold Heap.scope
    rw [hg.scopes, hg'.scopes]
    exact h.contents

/-- Arrays whose elements agree may stand for each other, if nothing else stands for them. -/
theorem withArray {a b : ArrayId} (ha : a.index < heap.arrays.size ∧ ∀ y, ¬ρ.arrays a y)
    (hb : b.index < heap'.arrays.size ∧ ∀ x, ¬ρ.arrays x b)
    (hitems : List.Forall₂ ρ.Values (heap.items a) (heap'.items b)) :
    (ρ.withArray a b).Heaps heap heap' where
  arrays_unique := biUnique_or h.arrays_unique ha.2 hb.2
  scopes_unique := h.scopes_unique
  array_bound := by
    rintro x y (hxy | ⟨rfl, rfl⟩)
    · exact h.array_bound hxy
    · exact ⟨ha.1, hb.1⟩
  scope_bound := h.scope_bound
  items := by
    rintro x y (hxy | ⟨rfl, rfl⟩)
    · exact forall₂_mono (h.items hxy) (ρ.le_withArray _ _)
    · exact forall₂_mono hitems (ρ.le_withArray _ _)
  contents hxy := (h.contents hxy).mono (ρ.le_withArray _ _)

/-- New arrays with elements that agree stand for each other. -/
theorem newArray {values values' : List Value} (hvalues : List.Forall₂ ρ.Values values values') :
    (ρ.withArray (heap.newArray values).1 (heap'.newArray values').1).Heaps
      (heap.newArray values).2 (heap'.newArray values').2 := by
  refine (h.grows (.newArray heap values) (.newArray heap' values')).withArray
    ⟨by simp [Heap.newArray], fun y hy => ?_⟩ ⟨by simp [Heap.newArray], fun x hx => ?_⟩ ?_
  · exact Nat.lt_irrefl _ (h.array_bound hy).1
  · exact Nat.lt_irrefl _ (h.array_bound hx).2
  · rw [Heap.items_newArray_self, Heap.items_newArray_self]
    exact hvalues

/-- New scopes stand for each other. -/
theorem newScope :
    (ρ.withScope heap.newScope.1 heap'.newScope.1).Heaps heap.newScope.2 heap'.newScope.2 where
  arrays_unique := h.arrays_unique
  scopes_unique := by
    refine biUnique_or h.scopes_unique (fun y hy => ?_) fun x hx => ?_
    · exact Nat.lt_irrefl _ (h.scope_bound hy).1
    · exact Nat.lt_irrefl _ (h.scope_bound hx).2
  array_bound := h.array_bound
  scope_bound := by
    rintro a b (hab | ⟨rfl, rfl⟩)
    · have := h.scope_bound hab
      simp only [Heap.newScope, Array.size_push]
      omega
    · simp [Heap.newScope]
  items hab := forall₂_mono (h.items hab) (ρ.le_withScope _ _)
  contents := by
    rintro a b (hab | ⟨rfl, rfl⟩)
    · have hbound := h.scope_bound hab
      have ha : heap.newScope.2.scope a = heap.scope a := by
        simp [Heap.newScope, Heap.scope, Array.getElem?_push, Nat.ne_of_lt hbound.1]
      have hb : heap'.newScope.2.scope b = heap'.scope b := by
        simp [Heap.newScope, Heap.scope, Array.getElem?_push, Nat.ne_of_lt hbound.2]
      rw [ha, hb]
      exact (h.contents hab).mono (ρ.le_withScope _ _)
    · have hnew : ∀ heap : Heap, heap.newScope.2.scope heap.newScope.1 = {} := fun heap => by
        simp [Heap.newScope, Heap.scope]
      rw [hnew, hnew]
      exact ⟨.nil, rfl⟩

theorem setItems {a b : ArrayId} (hab : ρ.arrays a b) {values values' : List Value}
    (hvalues : List.Forall₂ ρ.Values values values') :
    ρ.Heaps (heap.setItems a values) (heap'.setItems b values') where
  arrays_unique := h.arrays_unique
  scopes_unique := h.scopes_unique
  array_bound hxy := by
    simp only [Heap.setItems, Array.size_setIfInBounds]
    exact h.array_bound hxy
  scope_bound := h.scope_bound
  items {x y} hxy := by
    -- one-to-one: both arrays are the changed ones, or neither is
    have hiff : x = a ↔ y = b := Relator.rel_eq h.arrays_unique hxy hab
    by_cases hx : x = a
    · obtain rfl := hx
      obtain rfl := hiff.mp rfl
      rw [Heap.items_setItems_self (h.array_bound hab).1,
        Heap.items_setItems_self (h.array_bound hab).2]
      exact hvalues
    · rw [Heap.items_setItems_of_ne hx, Heap.items_setItems_of_ne fun hy => hx (hiff.mpr hy)]
      exact h.items hxy
  contents := h.contents

theorem setField {a b : ScopeId} (hab : ρ.scopes a b) (key : String) (hv : ρ.Values v v') :
    ρ.Heaps (heap.setField a key v) (heap'.setField b key v') where
  arrays_unique := h.arrays_unique
  scopes_unique := h.scopes_unique
  array_bound := h.array_bound
  scope_bound hxy := by
    simp only [Heap.setField, Array.size_modify]
    exact h.scope_bound hxy
  items := h.items
  contents {x y} hxy := by
    have hiff : x = a ↔ y = b := Relator.rel_eq h.scopes_unique hxy hab
    by_cases hx : x = a
    · obtain rfl := hx
      obtain rfl := hiff.mp rfl
      rw [Heap.scope_setField_self (h.scope_bound hab).1,
        Heap.scope_setField_self (h.scope_bound hab).2]
      exact (h.contents hab).set key hv
    · rw [Heap.scope_setField_of_ne hx, Heap.scope_setField_of_ne fun hy => hx (hiff.mpr hy)]
      exact h.contents hxy

/-! ### What is shown of a value -/

theorem leafText_eq (hv : ρ.Values v v') : heap.leafText v = heap'.leafText v' := by
  cases hv with
  | scope hab =>
    change (heap.scope _).text = (heap'.scope _).text
    rw [Scope.text, Scope.text, (h.contents hab).fields.names]
  | _ => rfl

/-- The same is written of values that agree while arrays that agree are being written, although the
depths left may differ: the arrays being written are so many that there is always some left. -/
theorem textWithin_eq {depth depth' : Nat} {opened opened' : List ArrayId}
    (hwriting : heap.Writing depth opened) (hwriting' : heap'.Writing depth' opened')
    (hopened : List.Forall₂ ρ.arrays opened opened') (hv : ρ.Values v v') :
    heap.textWithin depth opened v = heap'.textWithin depth' opened' v' := by
  induction depth generalizing depth' opened opened' v v' with
  | zero =>
    have hleaf := h.leafText_eq hv
    cases hv with
    | @array a b hab =>
      have hmem : a ∈ opened := by
        by_contra hnew
        obtain ⟨less, hless, -⟩ := hwriting.exists_cons hnew (h.array_bound hab).1
        exact absurd hless (by omega)
      have hmem' : b ∈ opened' := (List.rel_mem h.arrays_unique hab hopened).mp hmem
      change heap.arrayText 0 opened a = heap'.arrayText depth' opened' b
      rw [Heap.arrayText_of_mem hmem, Heap.arrayText_of_mem hmem']
    | _ => exact hleaf
  | succ depth ih =>
    have hleaf := h.leafText_eq hv
    cases hv with
    | @array a b hab =>
      have hiff : a ∈ opened ↔ b ∈ opened' := List.rel_mem h.arrays_unique hab hopened
      change heap.arrayText (depth + 1) opened a = heap'.arrayText depth' opened' b
      by_cases hmem : a ∈ opened
      · rw [Heap.arrayText_of_mem hmem, Heap.arrayText_of_mem (hiff.mp hmem)]
      have hmem' : b ∉ opened' := fun hb => hmem (hiff.mpr hb)
      obtain ⟨_, ⟨⟩, hdeeper⟩ := hwriting.exists_cons hmem (h.array_bound hab).1
      obtain ⟨depth', rfl, hdeeper'⟩ := hwriting'.exists_cons hmem' (h.array_bound hab).2
      rw [Heap.arrayText_succ hmem, Heap.arrayText_succ hmem']
      refine congrArg Heap.bracket (map_eq_of_forall₂ (h.items hab) fun x y hxy => ?_)
      exact ih hdeeper hdeeper' (.cons hab hopened) hxy
    | _ => exact hleaf

theorem text_eq (hv : ρ.Values v v') : heap.text v = heap'.text v' := by
  rw [Heap.text_eq_textWithin, Heap.text_eq_textWithin]
  exact h.textWithin_eq heap.writing_nil heap'.writing_nil .nil hv

theorem plainText_eq (hv : ρ.Values v v') : heap.plainText v = heap'.plainText v' := by
  cases hv with
  | string text => rfl
  | array hab => exact h.text_eq (.array hab)
  | scope hab => exact h.text_eq (.scope hab)
  | _ => rfl

theorem describe_eq (hv : ρ.Values v v') : heap.describe v = heap'.describe v' := by
  rw [Heap.describe, Heap.describe, hv.type_eq, h.text_eq hv]

theorem shown_eq (hv : ρ.Values v v') : heap.shown v = heap'.shown v' := by
  rw [Heap.shown, Heap.shown, hv.type_eq, h.text_eq hv]

/-! ### The equality of values -/

theorem differ (hv : ρ.Values v v') (hw : ρ.Values w w') (hdiffer : heap.Differ v w) :
    heap'.Differ v' w' := by
  cases hv with
  | @array a a' ha =>
    cases hw with
    | @array b b' hb =>
      change (heap'.items a').length ≠ (heap'.items b').length
      rw [← (h.items ha).length_eq, ← (h.items hb).length_eq]
      exact hdiffer
    | _ => trivial
  | @scope a a' ha =>
    cases hw with
    | @scope b b' hb =>
      exact fun hab => hdiffer ((Relator.rel_eq h.scopes_unique ha hb).mpr hab)
    | _ => trivial
  | _ => cases hw <;> exact hdiffer

/-- A path to a difference leads to a difference in the other heap, too. -/
theorem apart {path : List Nat} (hv : ρ.Values v v') (hw : ρ.Values w w')
    (hapart : heap.Apart path v w) : heap'.Apart path v' w' := by
  induction hapart generalizing v' w' with
  | here differ => exact .here (h.differ hv hw differ)
  | @inside a b i x y path distinct left right _ ih =>
    cases hv with
    | @array _ a' ha =>
      cases hw with
      | @array _ b' hb =>
        have hx := getElem?_rel_of_forall₂ (h.items ha) i
        have hy := getElem?_rel_of_forall₂ (h.items hb) i
        rw [left] at hx
        rw [right] at hy
        generalize hx' : (heap'.items a')[i]? = x' at hx
        generalize hy' : (heap'.items b')[i]? = y' at hy
        cases hx with
        | some hxx' =>
          cases hy with
          | some hyy' =>
            refine .inside (fun hab => ?_) hx' hy' (ih hxx' hyy')
            exact distinct ((Relator.rel_eq h.arrays_unique ha hb).mpr hab)

end Heaps

/-- The renaming the other way. -/
def flip (ρ : Renaming) : Renaming :=
  { ρ with
    arrays := fun a b => ρ.arrays b a
    scopes := fun a b => ρ.scopes b a }

theorem Values.flip (h : ρ.Values v v') : ρ.flip.Values v' v := by
  cases h with
  | word h => exact .word h
  | string text => exact .string text
  | int n => exact .int n
  | float x => exact .float x
  | bool flag => exact .bool flag
  | array h => exact .array h
  | scope h => exact .scope h

theorem Heaps.flip (h : ρ.Heaps heap heap') : ρ.flip.Heaps heap' heap where
  arrays_unique := ⟨fun _ _ _ hac hbc => h.arrays_unique.2 hac hbc,
    fun _ _ _ hab hac => h.arrays_unique.1 hab hac⟩
  scopes_unique := ⟨fun _ _ _ hac hbc => h.scopes_unique.2 hac hbc,
    fun _ _ _ hab hac => h.scopes_unique.1 hab hac⟩
  array_bound hab := (h.array_bound hab).symm
  scope_bound hab := (h.scope_bound hab).symm
  items hab := (h.items hab).flip.imp fun _ _ hxy => Values.flip hxy
  contents hab :=
    ⟨(h.contents hab).fields.flip.mono fun _ _ hxy => Values.flip hxy, (h.contents hab).writes.symm⟩

/-- Values are equal in one heap exactly if they are in the other. -/
theorem Heaps.equal_eq (h : ρ.Heaps heap heap') (hv : ρ.Values v v') (hw : ρ.Values w w') :
    heap.equal v w = heap'.equal v' w' := by
  rw [Bool.eq_iff_iff, Heap.equal_eq_true_iff, Heap.equal_eq_true_iff]
  exact ⟨fun hnear path hapart => hnear path (h.flip.apart hv.flip hw.flip hapart),
    fun hnear path hapart => hnear path (h.apart hv hw hapart)⟩

/-! ### The paths of scopes -/

theorem Heaps.walk (h : ρ.Heaps heap heap') (hv : ρ.Values v v') (keys : List String) :
    Option.Rel ρ.Values (Registry.walk heap v keys) (Registry.walk heap' v' keys) := by
  induction keys generalizing v v' with
  | nil => exact .some hv
  | cons key keys ih =>
    cases hv with
    | @scope a b hab =>
      have hget := (h.contents hab).fields.get? key
      change Option.Rel ρ.Values (((heap.scope a).fields.get? key).bind _)
        (((heap'.scope b).fields.get? key).bind _)
      generalize (heap.scope a).fields.get? key = x at hget ⊢
      generalize (heap'.scope b).fields.get? key = y at hget ⊢
      cases hget with
      | none => exact .none
      | some hxy => exact ih hxy
    | _ => exact .none

/-- A path leads to values that agree, or nowhere in either heap. -/
theorem Heaps.resolve (h : ρ.Heaps heap heap') {registry registry' : Registry}
    (hregistry : registry.Match ρ.scopes registry') (path : String) :
    Option.Rel ρ.Values (registry.resolve heap path) (registry'.resolve heap' path) := by
  unfold Registry.resolve
  cases Registry.segments path with
  | nil => exact .none
  | cons name keys =>
    have hget := hregistry.get? name
    dsimp only
    generalize registry.get? name = x at hget ⊢
    generalize registry'.get? name = y at hget ⊢
    cases hget with
    | none => exact .none
    | some hab => exact h.walk (.scope hab) keys

end Renaming

end Wordstack
