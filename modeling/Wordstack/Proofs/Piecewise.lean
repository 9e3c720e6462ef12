import Wordstack.Proofs.Endings
import Wordstack.Proofs.Feeding
import Wordstack.Proofs.Joining

/-!
# Scripts fed in pieces

A script that is fed as a whole and the same script fed in two pieces do the same.  The arrays of
the second piece are made before the first piece runs in the one case and after it in the other, so
the machines that are left are the same up to a renaming of arrays and scopes only.

* `Host.ends_process_iff`: processing a text is building its forest and executing the values.
* `Machine.Closed.machines`: a machine agrees with itself, if all that it reaches is on its heap.
* `Renaming.Heaps.depict`: arrays of the same forest can be made to stand for each other.
* `Renaming.Machines.ends_right`, `ends_left`: code ends alike on machines that agree.
* `Renaming.Machines.build_before`: a forest may be built before code runs or afterwards.
* `process_pieces`: a script fed as a whole and fed in two pieces.
-/

namespace Wordstack

variable {E : Embedding} {α β : Type}

/-! ### Endings -/

namespace Host

variable {host : Host E} {m n : Machine E}
  {closing : String → Option String} {path source : String}

/-- A text that can be read is processed by building its forest and executing the values. -/
theorem ends_process_iff (hb : Brackets m.parsingWords closing) {forest : Forest}
    (h : Forest.ofText closing path source = .ok forest) {o : Outcome E Unit} :
    host.Ends (·.process path source) m o ↔
      host.Ends (·.executeAll (forest.build m.heap).1)
        (m.withHeap (forest.build m.heap).2) o := by
  obtain ⟨rest, hreads⟩ := Forest.ofText_eq_ok_iff.mp h
  exact Ends.bind (ends_parse_of_readTokens host hb hreads.readTokens)

/-- A text whose parse does not fail can be read. -/
theorem exists_ofText (host : Host E) (path source : String)
    (hb : Brackets m.parsingWords closing)
    (h : ∀ e n, ¬host.Ends (·.parse path source) m (.raised e n)) :
    ∃ forest, Forest.ofText closing path source = .ok forest := by
  have hagrees : Agrees host _ m (.ofSource path source) [] none (Forest.readTokens closing
      (Buffer.ofSource path source).ending.1 none (Buffer.ofSource path source).tokens) :=
    readTo_spec _ hb nofun (Nat.le_refl _)
  rcases hread : Forest.readTokens closing (Buffer.ofSource path source).ending.1 none
    (Buffer.ofSource path source).tokens with fault | ⟨forest, rest⟩
  · rw [hread] at hagrees
    obtain ⟨heap, after, collected, -, hends⟩ := hagrees
    exact (h _ _ (parse_ends host path source hends nofun fun engine hloop =>
      engine.parseSource_of_raised hloop rfl rfl)).elim
  · refine ⟨forest, ?_⟩
    rw [Forest.ofText, hread]
    rfl

end Host

/-! ### A machine and itself -/

/-- The renaming that leaves everything as it is, on what is reached. -/
def Renaming.itself (reached : Value → Prop) : Renaming :=
  { arrays := fun a b => a = b ∧ reached (.array a)
    scopes := fun a b => a = b ∧ reached (.scope a)
    words := fun _ => True
    lexical := fun _ _ => trivial }

theorem Renaming.biUnique_eq_and {α : Type} (p : α → Prop) :
    Relator.BiUnique fun a b => a = b ∧ p a :=
  ⟨fun _ _ _ ha hb => ha.1.trans hb.1.symm, fun _ _ _ ha hb => ha.1.symm.trans hb.1⟩

theorem Renaming.values_itself {reached : Value → Prop} {v : Value} (h : reached v) :
    (itself reached).Values v v := by
  cases v with
  | word text => exact .word trivial
  | string text => exact .string text
  | int n => exact .int n
  | float x => exact .float x
  | bool flag => exact .bool flag
  | array id => exact .array ⟨rfl, h⟩
  | scope id => exact .scope ⟨rfl, h⟩

open Renaming in
/-- A machine agrees with itself, if all that it reaches is on its heap. -/
theorem Machine.Closed.machines {m : Machine E} (h : m.Closed) (hm : m.Standard) :
    (itself (m.heap.Reaches (m.Root []))).Machines m m where
  stack := List.forall₂_same.mpr fun _ hv => values_itself (.root (.stack hv))
  registry := List.forall₂_same.mpr fun _ hentry => ⟨rfl, rfl, .root (.named hentry)⟩
  accumulators := List.forall₂_same.mpr fun _ hvalues => List.forall₂_same.mpr fun _ hv =>
    values_itself (.root (.collected hvalues hv))
  calls := rfl
  dictionary := rfl
  handlers := rfl
  hook := rfl
  parsingWords := rfl
  lexers := rfl
  output := rfl
  memory := rfl
  vocabulary := ⟨hm.dictionary, hm.handlers, hm.hook⟩
  heap :=
    { arrays_unique := biUnique_eq_and _
      scopes_unique := biUnique_eq_and _
      array_bound := by
        rintro a _ ⟨rfl, ha⟩
        exact ⟨h _ ha, h _ ha⟩
      scope_bound := by
        rintro a _ ⟨rfl, ha⟩
        exact ⟨h _ ha, h _ ha⟩
      items := by
        rintro a _ ⟨rfl, ha⟩
        exact List.forall₂_same.mpr fun _ hv => values_itself (.element ha hv)
      contents := by
        rintro a _ ⟨rfl, ha⟩
        exact ⟨List.forall₂_same.mpr fun _ hentry => ⟨rfl, values_itself (.field ha hentry)⟩, rfl⟩ }

theorem Machine.standard_parsingWords (memory : E.Memory) :
    (standard memory).parsingWords = defaultParsingWords := by
  obtain ⟨dictionary, handlers, hnew⟩ := addBuiltins_eq (new memory) Builtin.all
  rw [standard, hnew]
  rfl

theorem Machine.standard_closed (memory : E.Memory) : (standard memory).Closed := by
  obtain ⟨dictionary, handlers, hnew⟩ := addBuiltins_eq (new memory) Builtin.all
  have hstandard := standard_standard memory
  unfold standard at hstandard ⊢
  rw [hnew] at hstandard ⊢
  exact (hstandard.machines_nothing rfl rfl rfl).closed

/-! ### Forests on two heaps -/

/-- What values stand for depends on the listed arrays only. -/
theorem Forest.Depicts.congr {old new : Heap} {forest : Forest} {values : List Value}
    {ids : List ArrayId} (h : forest.Depicts old values ids)
    (hitems : ∀ id ∈ ids, new.items id = old.items id) : forest.Depicts new values ids := by
  induction h with
  | nil => exact .nil
  | leaf value _ ih => exact .leaf value (ih hitems)
  | group id _ _ ihinner ihrest =>
    refine .group id ?_ (ihrest fun i hi => hitems i (by simp [hi]))
    rw [hitems id (by simp)]
    exact ihinner fun i hi => hitems i (by simp [hi])

namespace Renaming

/-- The value agrees with itself under every renaming: it is neither an array nor a scope. -/
def Fixed (v : Value) : Prop :=
  ∀ ρ : Renaming, ρ.Values v v

/-- Different arrays of the two heaps for which nothing stands yet. -/
structure Spare (ρ : Renaming) (heap heap' : Heap) (ids ids' : List ArrayId) : Prop where
  nodup : ids.Nodup
  nodup' : ids'.Nodup
  left : ∀ a ∈ ids, a.index < heap.arrays.size ∧ ∀ b, ¬ρ.arrays a b
  right : ∀ b ∈ ids', b.index < heap'.arrays.size ∧ ∀ a, ¬ρ.arrays a b

namespace Spare

variable {ρ : Renaming} {heap heap' : Heap} {ids ids' : List ArrayId} {a b : ArrayId}

theorem perm (h : ρ.Spare heap heap' ids ids') {others others' : List ArrayId}
    (hperm : ids.Perm others) (hperm' : ids'.Perm others') : ρ.Spare heap heap' others others' where
  nodup := hperm.nodup h.nodup
  nodup' := hperm'.nodup h.nodup'
  left a ha := h.left a (hperm.mem_iff.mpr ha)
  right b hb := h.right b (hperm'.mem_iff.mpr hb)

/-- The others stay spare when the first two are related. -/
theorem withArray (h : ρ.Spare heap heap' (a :: ids) (b :: ids')) :
    (ρ.withArray a b).Spare heap heap' ids ids' where
  nodup := (List.nodup_cons.mp h.nodup).2
  nodup' := (List.nodup_cons.mp h.nodup').2
  left x hx := by
    refine ⟨(h.left x (by simp [hx])).1, ?_⟩
    rintro y (hxy | ⟨rfl, -⟩)
    · exact (h.left x (by simp [hx])).2 y hxy
    · exact (List.nodup_cons.mp h.nodup).1 hx
  right y hy := by
    refine ⟨(h.right y (by simp [hy])).1, ?_⟩
    rintro x (hxy | ⟨-, rfl⟩)
    · exact (h.right y (by simp [hy])).2 x hxy
    · exact (List.nodup_cons.mp h.nodup').1 hy

end Spare

/-- **Values that stand for the same forest agree**, once the arrays of the one are made to stand
for those of the other.  By induction on the forest: the arrays inside a group first, then the group
itself, then those behind it; the arrays that are left stay spare. -/
theorem Heaps.depict {ρ : Renaming} {heap heap' : Heap} {forest : Forest}
    {values values' : List Value} {ids ids' left left' : List ArrayId} (h : ρ.Heaps heap heap')
    (hvalues : forest.Depicts heap values ids) (hvalues' : forest.Depicts heap' values' ids')
    (hleaves : forest.Leaves Fixed)
    (hspare : ρ.Spare heap heap' (ids ++ left) (ids' ++ left')) :
    ∃ ρ', ρ.Le ρ' ∧ ρ'.Heaps heap heap' ∧ List.Forall₂ ρ'.Values values values' ∧
      ρ'.Spare heap heap' left left' := by
  induction hvalues generalizing ρ values' ids' left left' with
  | nil =>
    cases hvalues'
    exact ⟨ρ, .refl ρ, h, .nil, hspare⟩
  | leaf value _ ih =>
    cases hvalues' with
    | leaf _ hrest' =>
      obtain ⟨ρ', hle, hheaps, hrest, hspare'⟩ := ih h hrest' hleaves.2 hspare
      exact ⟨ρ', hle, hheaps, .cons (hleaves.1 ρ') hrest, hspare'⟩
  | @group inner rest values ids later id _ _ ihinner ihrest =>
    cases hvalues' with
    | @group _ _ values' ids' later' id' hinner' hrest' =>
      have hinside : ρ.Spare heap heap' (ids ++ id :: (later ++ left))
          (ids' ++ id' :: (later' ++ left')) := by
        refine hspare.perm ?_ ?_ <;> rw [List.cons_append, List.append_assoc] <;>
          exact List.perm_middle.symm
      obtain ⟨ρ₁, hle₁, hheaps₁, hitems, hspare₁⟩ := ihinner h hinner' hleaves.1 hinside
      have hheaps₂ := hheaps₁.withArray (hspare₁.left id (by simp)) (hspare₁.right id' (by simp))
        hitems
      obtain ⟨ρ₃, hle₃, hheaps₃, hrest, hspare₃⟩ :=
        ihrest hheaps₂ hrest' hleaves.2 hspare₁.withArray
      exact ⟨ρ₃, (hle₁.trans (ρ₁.le_withArray id id')).trans hle₃, hheaps₃,
        .cons (.array (hle₃.arrays (.inr ⟨rfl, rfl⟩))) hrest, hspare₃⟩

end Renaming

/-- What is collected for a token refers to nothing. -/
theorem Buffer.fixed_of_mem_tokens {b : Buffer} {token : Value} (h : token ∈ b.tokens) :
    Renaming.Fixed token.asLiteral := by
  induction htokens : b.tokens generalizing b with
  | nil =>
    rw [htokens] at h
    cases h
  | cons _ tokens ih =>
    rcases hscan : b.scan with ⟨found | _ | start, after⟩
    · rw [tokens_of_lexeme hscan] at h htokens
      rcases List.mem_cons.mp h with rfl | h
      · exact fun ρ => ρ.values_literal (isScannable_of_scan (congrArg Prod.fst hscan))
      · exact ih h (List.cons.inj htokens).2
    · rw [tokens_of_finished hscan] at htokens
      cases htokens
    · rw [tokens_of_unclosed hscan] at htokens
      cases htokens

theorem Forest.fixed_of_ofText {closing : String → Option String} {path source : String}
    {forest : Forest} (h : ofText closing path source = .ok forest) :
    forest.Leaves Renaming.Fixed := by
  obtain ⟨rest, hreads⟩ := ofText_eq_ok_iff.mp h
  exact (hreads.leaves fun _ => Buffer.fixed_of_mem_tokens).1

/-! ### Code on machines that agree -/

/-- Outcomes that agree: the same result or the same error, and machines that agree up to some
renaming. -/
inductive Outcome.Agrees : Outcome E α → Outcome E α → Prop
  | done {ρ : Renaming} {n n' : Machine E} (a : α) (machines : ρ.Machines n n') :
      Agrees (.done a n) (.done a n')
  | raised {ρ : Renaming} {n n' : Machine E} (e : Error) (machines : ρ.Machines n n') :
      Agrees (.raised e n) (.raised e n')

namespace Renaming

open Correspondence (Anything)

variable {ρ : Renaming} {m m' : Machine E} {code code' : List Value} {o o' : Outcome E Unit}

theorem Follows.agrees {heap : Heap} (h : ρ.Follows heap Anything o o') (ho : o ≠ .exhausted) :
    o.Agrees o' := by
  cases h with
  | exhausted => exact absurd rfl ho
  | done _ machines => exact .done () machines
  | raised e _ machines => exact .raised e machines

theorem Follows.exhausted_iff {heap : Heap} (h : ρ.Follows heap Anything o o') :
    o = .exhausted ↔ o' = .exhausted := by
  cases h <;> simp

namespace Machines

variable (hm : ρ.Machines m m') (hcode : List.Forall₂ ρ.Values code code') (host : Host E)
include hm hcode

/-- Code ends on the second machine if it does on the first, and alike. -/
theorem ends_right (h : host.Ends (·.executeAll code) m o) :
    ∃ o', host.Ends (·.executeAll code') m' o' ∧ ρ.Follows m.heap Anything o o' := by
  obtain ⟨ho, fuel, hfuel⟩ := h
  have hfollows := (host.engine_agreeing fuel).executeAll hcode m m' hm
  dsimp only at hfuel
  rw [hfuel fuel (Nat.le_refl _)] at hfollows
  have ho' := mt hfollows.exhausted_iff.mpr ho
  exact ⟨_, Host.ends_executeAll hm.standard_right.plain rfl ho', hfollows⟩

/-- Code ends on the first machine if it does on the second, and alike. -/
theorem ends_left (h : host.Ends (·.executeAll code') m' o') :
    ∃ o, host.Ends (·.executeAll code) m o ∧ ρ.Follows m.heap Anything o o' := by
  obtain ⟨ho', fuel, hfuel⟩ := h
  have hfollows := (host.engine_agreeing fuel).executeAll hcode m m' hm
  dsimp only at hfuel
  rw [hfuel fuel (Nat.le_refl _)] at hfollows
  have ho := mt hfollows.exhausted_iff.mp ho'
  exact ⟨_, Host.ends_executeAll hm.standard.plain rfl ho, hfollows⟩

/-- **It makes no difference whether a forest is built before code runs or afterwards.**  The code
reaches none of the arrays that were made before, so it leaves them as they are, and nothing stands
for them until those that are made afterwards do. -/
theorem build_before {forest : Forest} (hleaves : forest.Leaves Fixed) {n' : Machine E}
    (h : host.Ends (·.executeAll code') m' (.done () n')) :
    ∃ ρ' n, host.Ends (·.executeAll code) (m.withHeap (forest.build m.heap).2) (.done () n) ∧
      Machines ρ' n (n'.withHeap (forest.build n'.heap).2) ∧
      List.Forall₂ ρ'.Values (forest.build m.heap).1 (forest.build n'.heap).1 := by
  obtain ⟨ids, hbuilt⟩ := forest.build_built m.heap
  have hgrown : ρ.Machines (m.withHeap (forest.build m.heap).2) m' :=
    { hm with heap := hm.heap.grows hbuilt.grows (.refl _) }
  obtain ⟨o, hends, hfollows⟩ := hgrown.ends_left hcode host h
  obtain ⟨-⟩ | @⟨ρ₁, _, _, n, _, advance, machines, -⟩ := hfollows
  obtain ⟨ids', hbuilt'⟩ := forest.build_built n'.heap
  have hnone : ∀ a ∈ ids, ∀ b, ¬ρ.arrays a b := fun a ha b hab =>
    Nat.not_lt_of_le (hbuilt.fresh a ha).1 (hm.heap.array_bound hab).1
  have hspare : ρ₁.Spare n.heap (forest.build n'.heap).2 (ids ++ []) (ids' ++ []) := by
    rw [List.append_nil, List.append_nil]
    refine ⟨hbuilt.nodup, hbuilt'.nodup, fun a ha => ⟨?_, fun b hab => ?_⟩, fun b hb =>
      ⟨(hbuilt'.fresh b hb).2, fun a hab => ?_⟩⟩
    · exact Nat.lt_of_lt_of_le (hbuilt.fresh a ha).2 advance.size_le
    · rcases advance.fresh hab with hold | hnew
      · exact hnone a ha b hold
      · exact Nat.not_lt_of_le hnew (hbuilt.fresh a ha).2
    · exact Nat.not_lt_of_le (hbuilt'.fresh b hb).1 (machines.heap.array_bound hab).2
  have hdepicts : forest.Depicts n.heap (forest.build m.heap).1 ids :=
    hbuilt.depicts.congr fun a ha => advance.untouched (hbuilt.fresh a ha).2 (hnone a ha)
  obtain ⟨ρ₂, hle, hheaps, hvalues, -⟩ :=
    (machines.heap.grows (.refl _) hbuilt'.grows).depict hdepicts hbuilt'.depicts hleaves hspare
  exact ⟨ρ₂, n, hends, { machines.mono hle with heap := hheaps }, hvalues⟩

end Machines

end Renaming

/-! ### Pieces -/

open Host Renaming

/-- **A script fed as a whole and the same script fed in two pieces agree.**  Take any standard
machine with the usual parsing words, all of whose values are on its heap (as they are on every
machine that was fed with source texts, `Host.Feeds.closed`).  Let one text be processed in full on
it, let another be one that it can parse, and put any blanks between the two.  Then processing the
joined text ends if processing the one text and then the other does, and the other way round; and
both succeed, or both fail with the same error, and leave the same output and machines that hold the
same, up to a renaming of arrays and scopes. -/
theorem process_pieces (host : Host E) {m m₁ n : Machine E} {code : List Value} (hm : m.Standard)
    (hwords : m.parsingWords = Machine.defaultParsingWords) (hclosed : m.Closed)
    {path pathA pathB a ws b : String} (hne : ws.toList ≠ [])
    (hws : ∀ c ∈ ws.toList, Text.isBlank c = true)
    (ha : host.Ends (·.process pathA a) m (.done () m₁))
    (hb : host.Ends (·.parse pathB b) m (.done code n)) :
    (∀ o, host.Ends (·.process path (a ++ ws ++ b)) m o →
      ∃ o', host.Ends (fun engine => do engine.process pathA a; engine.process pathB b) m o' ∧
        o.Agrees o') ∧
    (∀ o', host.Ends (fun engine => do engine.process pathA a; engine.process pathB b) m o' →
      ∃ o, host.Ends (·.process path (a ++ ws ++ b)) m o ∧ o.Agrees o') := by
  have hbrackets : Brackets m.parsingWords squareBrackets := hwords ▸ brackets_default
  have hbrackets₁ : Brackets m₁.parsingWords squareBrackets :=
    (ha.frame (fun _ h => h.runs_process _ _) hm.plain).parsingWords ▸ hbrackets
  -- both texts can be read, and so can the joined one
  obtain ⟨first, hfirst⟩ := exists_ofText host pathA a hbrackets fun e n hraised =>
    nomatch ha.unique (hraised.bind_raised _)
  obtain ⟨second, hsecond⟩ := exists_ofText host pathB b hbrackets fun e n hraised =>
    nomatch hb.unique hraised
  have hjoined := Forest.ofText_join path hne hws hfirst hsecond
  -- the machine agrees with itself once the first forest is built
  have hnone : host.Ends (·.executeAll []) m (.done () m) := ⟨nofun, 0, fun _ _ => rfl⟩
  obtain ⟨ρ, built, hbuilt, hmachines, hcode⟩ :=
    (hclosed.machines hm).build_before .nil host (Forest.fixed_of_ofText hfirst) hnone
  obtain rfl : m.withHeap (first.build m.heap).2 = built := by
    obtain ⟨-, fuel, hfuel⟩ := hbuilt
    exact (Outcome.done.inj (hfuel fuel (Nat.le_refl _))).2
  -- the second forest is built before the first piece runs, or afterwards
  have hexecutes := (ends_process_iff hbrackets hfirst).mp ha
  obtain ⟨ρ', k, hk, hmachines', hcode'⟩ :=
    hmachines.build_before hcode host (Forest.fixed_of_ofText hsecond) hexecutes
  have hwhole : ∀ o, host.Ends (·.process path (a ++ ws ++ b)) m o ↔
      host.Ends (·.executeAll (second.build (first.build m.heap).2).1) k o := by
    intro o
    rw [ends_process_iff hbrackets hjoined, Forest.build_append]
    simp only [Engine.executeAll_append]
    exact hk.bind
  have hpieces : ∀ o,
      host.Ends (fun engine => do engine.process pathA a; engine.process pathB b) m o ↔
        host.Ends (·.executeAll (second.build m₁.heap).1)
          (m₁.withHeap (second.build m₁.heap).2) o :=
    fun o => ha.bind.trans (ends_process_iff hbrackets₁ hsecond)
  constructor
  · intro o ho
    obtain ⟨o', ho', hfollows⟩ := hmachines'.ends_right hcode' host ((hwhole o).mp ho)
    exact ⟨o', (hpieces o').mpr ho', hfollows.agrees ho.1⟩
  · intro o' ho'
    obtain ⟨o, ho, hfollows⟩ := hmachines'.ends_left hcode' host ((hpieces o').mp ho')
    exact ⟨o, (hwhole o).mpr ho, hfollows.agrees ho.1⟩

/-- A new array is made while the first piece runs, so it comes before or after that of the second
piece; then both runs break off. -/
theorem process_pieces_division :
    ∃ o o', Host.bare.Ends
        (·.process "whole" ("[ 1 ] [ dup ] map" ++ "\n" ++ "[ 2 ] append 1 0 /"))
        (Machine.standard ()) o ∧
      Host.bare.Ends (fun engine => do
        engine.process "first" "[ 1 ] [ dup ] map"
        engine.process "second" "[ 2 ] append 1 0 /") (Machine.standard ()) o' ∧
      o.Agrees o' ∧ o.error?.map (·.cause) = some .divisionByZero := by
  have hm := Machine.standard_standard (E := .bare) ()
  have hwords := Machine.standard_parsingWords (E := .bare) ()
  have hclosed := Machine.standard_closed (E := .bare) ()
  have hfirst : ((Host.bare.engine 16).process "first" "[ 1 ] [ dup ] map"
      (Machine.standard ())).isDone = true := by decide +kernel
  have hsecond : ((Host.bare.engine 16).parse "second" "[ 2 ] append 1 0 /"
      (Machine.standard ())).isDone = true := by decide +kernel
  have hwhole : ((Host.bare.engine 16).process "whole"
      ("[ 1 ] [ dup ] map" ++ "\n" ++ "[ 2 ] append 1 0 /") (Machine.standard ())).error?.map
        (·.cause) = some .divisionByZero := by decide +kernel
  generalize (Machine.standard () : Machine .bare) = start at *
  obtain ⟨⟨⟩, m, ho⟩ := Outcome.exists_of_isDone hfirst
  obtain ⟨code, n, hp⟩ := Outcome.exists_of_isDone hsecond
  have ha := ends_of_fuel hm.plain (steady_process _ _) ho nofun
  have hb := ends_of_fuel hm.plain (steady_parse _ _) hp nofun
  obtain ⟨e, herror, -⟩ := Option.map_eq_some_iff.mp hwhole
  obtain ⟨k, hraised⟩ := Outcome.eq_raised_of_error? herror
  have hends := ends_of_fuel hm.plain (steady_process _ _) hraised nofun
  rw [hraised] at hwhole
  have hblank : "\n".toList.all Text.isBlank = true := by decide
  obtain ⟨o', ho', hagrees⟩ := (process_pieces Host.bare hm hwords hclosed (by decide)
    (List.all_eq_true.mp hblank) ha hb).1 _ hends
  exact ⟨_, o', hends, ho', hagrees, hwhole⟩

end Wordstack
