import Mathlib.Data.List.ProdSigma
import Mathlib.Data.List.Perm.Subperm
import Mathlib.Order.Bounds.Defs
import Wordstack.Value.Equality

/-!
# Equality is bisimilarity

The comparison of two values takes a pair of arrays that it meets again inside itself as equal.
This loses nothing: two values are found equal exactly if no path of indices leads from them to a
difference, which is to say if some bisimulation relates them.

* `Comparison`: how a comparison goes if nothing bounds its depth; `comparison_equalWithin`: the
  bound is never reached.
* `Apart`: a path of indices that leads to a difference.  `Comparison.exists_apart` finds one when a
  comparison fails; `Comparison.near` shows that there is none when it succeeds, since a shortest
  one never comes back to a pair it has passed.
* `Bisimulation`: the relations in question.
-/

namespace Wordstack.Heap

variable {heap : Heap}

/-! ### Differences -/

/-- The values differ at once: in type, in what they hold, or in the number of elements. -/
def Differ (heap : Heap) : Value → Value → Prop
  | .word a, .word b => a ≠ b
  | .string a, .string b => a ≠ b
  | .int a, .int b => a ≠ b
  | .float a, .float b => (a == b) = false
  | .bool a, .bool b => a ≠ b
  | .scope a, .scope b => a ≠ b
  | .array a, .array b => (heap.items a).length ≠ (heap.items b).length
  | _, _ => True

/-- A path of indices leads from the values to a difference, and does not pass through one and the
same array on both sides. -/
inductive Apart (heap : Heap) : List Nat → Value → Value → Prop
  | here {a b : Value} (differ : heap.Differ a b) : Apart heap [] a b
  | inside {a b : ArrayId} {i : Nat} {x y : Value} {path : List Nat} (distinct : a ≠ b)
      (left : (heap.items a)[i]? = some x) (right : (heap.items b)[i]? = some y)
      (apart : Apart heap path x y) : Apart heap (i :: path) (.array a) (.array b)

/-- No path of up to `n` indices leads to a difference. -/
def Near (heap : Heap) (n : Nat) (a b : Value) : Prop :=
  ∀ path : List Nat, path.length ≤ n → ¬heap.Apart path a b

theorem Near.mono {n k : Nat} {a b : Value} (h : heap.Near n a b) (hk : k ≤ n) : heap.Near k a b :=
  fun path hpath => h path (Nat.le_trans hpath hk)

/-! ### The comparison without a bound -/

/-- The comparison of two rows of values, from left to right up to the first difference, given the
pairs of arrays being compared around it. -/
inductive Comparison (heap : Heap) :
    List (ArrayId × ArrayId) → List Value → List Value → Bool → Prop
  | nil {around : List (ArrayId × ArrayId)} : Comparison heap around [] [] true
  /-- The first values are no two arrays and differ. -/
  | unequal {around : List (ArrayId × ArrayId)} {x y : Value} {xs ys : List Value}
      (leaves : equalLeaves x y = false) (plain : ∀ a b, ¬(x = .array a ∧ y = .array b)) :
      Comparison heap around (x :: xs) (y :: ys) false
  /-- The first values are no two arrays and are equal. -/
  | leaf {around : List (ArrayId × ArrayId)} {x y : Value} {xs ys : List Value} {flag : Bool}
      (leaves : equalLeaves x y = true) (rest : Comparison heap around xs ys flag) :
      Comparison heap around (x :: xs) (y :: ys) flag
  /-- The first values are the same array. -/
  | same {around : List (ArrayId × ArrayId)} {a : ArrayId} {xs ys : List Value} {flag : Bool}
      (rest : Comparison heap around xs ys flag) :
      Comparison heap around (.array a :: xs) (.array a :: ys) flag
  /-- The first values are two arrays that are being compared already. -/
  | again {around : List (ArrayId × ArrayId)} {a b : ArrayId} {xs ys : List Value} {flag : Bool}
      (met : (a, b) ∈ around) (rest : Comparison heap around xs ys flag) :
      Comparison heap around (.array a :: xs) (.array b :: ys) flag
  /-- The first values are arrays of different lengths. -/
  | lengths {around : List (ArrayId × ArrayId)} {a b : ArrayId} {xs ys : List Value}
      (distinct : a ≠ b) (new : (a, b) ∉ around)
      (lengths : (heap.items a).length ≠ (heap.items b).length) :
      Comparison heap around (.array a :: xs) (.array b :: ys) false
  /-- The first values are arrays with different elements. -/
  | items {around : List (ArrayId × ArrayId)} {a b : ArrayId} {xs ys : List Value}
      (distinct : a ≠ b) (new : (a, b) ∉ around)
      (lengths : (heap.items a).length = (heap.items b).length)
      (inner : Comparison heap ((a, b) :: around) (heap.items a) (heap.items b) false) :
      Comparison heap around (.array a :: xs) (.array b :: ys) false
  /-- The first values are arrays with equal elements. -/
  | array {around : List (ArrayId × ArrayId)} {a b : ArrayId} {xs ys : List Value} {flag : Bool}
      (distinct : a ≠ b) (new : (a, b) ∉ around)
      (lengths : (heap.items a).length = (heap.items b).length)
      (inner : Comparison heap ((a, b) :: around) (heap.items a) (heap.items b) true)
      (rest : Comparison heap around xs ys flag) :
      Comparison heap around (.array a :: xs) (.array b :: ys) flag

/-- The comparison of two values inside a pair of arrays, as `equalItems` does it. -/
def equalWithin (heap : Heap) (depth : Nat) (around : List (ArrayId × ArrayId)) :
    Value → Value → Bool
  | .array a, .array b => a == b || heap.equalItems depth around a b
  | a, b => equalLeaves a b

theorem equal_eq_equalWithin (a b : Value) :
    heap.equal a b = heap.equalWithin heap.comparisonDepth [] a b := by
  cases a <;> cases b <;> rfl

theorem equalWithin_of_leaves {x y : Value} (depth : Nat) (around : List (ArrayId × ArrayId))
    (h : ∀ a b, ¬(x = .array a ∧ y = .array b)) :
    heap.equalWithin depth around x y = equalLeaves x y := by
  cases x <;> cases y <;> first | rfl | exact absurd ⟨rfl, rfl⟩ (h _ _)

theorem equalItems_succ (depth : Nat) (around : List (ArrayId × ArrayId)) (a b : ArrayId) :
    heap.equalItems (depth + 1) around a b =
      if (a, b) ∈ around then true
      else (heap.items a).length == (heap.items b).length &&
        ((heap.items a).zip (heap.items b)).all fun pair =>
          heap.equalWithin depth ((a, b) :: around) pair.1 pair.2 := by
  rw [equalItems]
  refine if_congr Iff.rfl rfl (congrArg (_ && ·) (congrArg (List.all _) (funext fun pair => ?_)))
  rcases pair with ⟨x, y⟩
  cases x <;> cases y <;> rfl

/-! ### The bound is never reached -/

/-- Arrays with elements are on the heap. -/
theorem index_lt_of_items_ne_nil {id : ArrayId} (h : heap.items id ≠ []) :
    id.index < heap.arrays.size := by
  by_contra hge
  apply h
  unfold Heap.items
  rw [Array.getElem?_eq_none (Nat.le_of_not_lt hge)]
  rfl

/-- The arrays on the heap. -/
def ids (heap : Heap) : List ArrayId :=
  (List.range heap.arrays.size).map ArrayId.mk

theorem length_ids (heap : Heap) : heap.ids.length = heap.arrays.size := by
  rw [ids, List.length_map, List.length_range]

theorem mem_ids {id : ArrayId} (h : id.index < heap.arrays.size) : id ∈ heap.ids :=
  List.mem_map.mpr ⟨id.index, List.mem_range.mpr h, rfl⟩

/-- There are no more pairs of arrays than the square of the number of arrays. -/
theorem length_pairs_le {around : List (ArrayId × ArrayId)} (hnodup : around.Nodup)
    (hbound : ∀ pair ∈ around,
      pair.1.index < heap.arrays.size ∧ pair.2.index < heap.arrays.size) :
    around.length ≤ heap.arrays.size * heap.arrays.size := by
  have hsub : around ⊆ heap.ids ×ˢ heap.ids := by
    intro pair hpair
    obtain ⟨h1, h2⟩ := hbound pair hpair
    exact List.mem_product.mpr ⟨mem_ids h1, mem_ids h2⟩
  have hle := (List.subperm_of_subset hnodup hsub).length_le
  rwa [List.length_product, length_ids] at hle

/-- **The bound is never reached.**  By induction on the depth left, which together with the number
of pairs around stays above the number of all pairs; so there is always some left. -/
theorem comparison_equalWithin {depth : Nat} {around : List (ArrayId × ArrayId)}
    (hnodup : around.Nodup)
    (hbound : ∀ pair ∈ around,
      pair.1.index < heap.arrays.size ∧ pair.2.index < heap.arrays.size)
    (hdepth : heap.arrays.size * heap.arrays.size < depth + around.length)
    {xs ys : List Value} (hlength : xs.length = ys.length) :
    heap.Comparison around xs ys
      ((xs.zip ys).all fun pair => heap.equalWithin depth around pair.1 pair.2) := by
  induction depth generalizing around xs ys with
  | zero =>
    have hle := length_pairs_le hnodup hbound
    omega
  | succ depth ih =>
    induction xs generalizing ys with
    | nil =>
      obtain rfl : ys = [] := List.length_eq_zero_iff.mp hlength.symm
      exact .nil
    | cons x xs ihrow =>
      obtain ⟨y, ys, rfl⟩ : ∃ y ys', ys = y :: ys' := by
        cases ys with
        | nil => simp at hlength
        | cons y ys => exact ⟨y, ys, rfl⟩
      have hrest := @ihrow ys (by simpa using hlength)
      rw [List.zip_cons_cons, List.all_cons]
      by_cases hleaves : ∀ a b, ¬(x = .array a ∧ y = .array b)
      · rw [equalWithin_of_leaves _ _ hleaves]
        cases hxy : equalLeaves x y with
        | false => exact .unequal hxy hleaves
        | true => exact .leaf hxy hrest
      · simp only [not_forall, not_not] at hleaves
        obtain ⟨a, b, rfl, rfl⟩ := hleaves
        by_cases hab : a = b
        · subst hab
          simpa [equalWithin] using Comparison.same hrest
        have hwithin : heap.equalWithin (depth + 1) around (.array a) (.array b) =
            heap.equalItems (depth + 1) around a b := by
          simp [equalWithin, hab]
        rw [hwithin, equalItems_succ]
        by_cases hmet : (a, b) ∈ around
        · rw [if_pos hmet]
          exact .again hmet hrest
        rw [if_neg hmet]
        by_cases hlen : (heap.items a).length = (heap.items b).length
        · -- only arrays that have elements are looked into, and those are on the heap
          have hinner : heap.Comparison ((a, b) :: around) (heap.items a) (heap.items b)
              (((heap.items a).zip (heap.items b)).all fun pair =>
                heap.equalWithin depth ((a, b) :: around) pair.1 pair.2) := by
            by_cases hempty : heap.items a = []
            · have hempty' : heap.items b = [] :=
                List.length_eq_zero_iff.mp (by rw [← hlen, hempty]; rfl)
              rw [hempty, hempty']
              exact .nil
            · have hnonempty : heap.items b ≠ [] := fun hb =>
                hempty (List.length_eq_zero_iff.mp (by rw [hlen, hb]; rfl))
              refine ih (List.nodup_cons.mpr ⟨hmet, hnodup⟩) (fun pair hpair => ?_) ?_ hlen
              · rcases List.mem_cons.mp hpair with rfl | hpair
                · exact ⟨index_lt_of_items_ne_nil hempty, index_lt_of_items_ne_nil hnonempty⟩
                · exact hbound pair hpair
              · rw [List.length_cons]
                omega
          rw [hlen, beq_self_eq_true, Bool.true_and]
          generalize ((heap.items a).zip (heap.items b)).all _ = flag at hinner ⊢
          cases flag with
          | false => exact .items hab hmet hlen hinner
          | true => exact .array hab hmet hlen hinner hrest
        · rw [beq_false_of_ne hlen]
          exact .lengths hab hmet hlen

/-- The comparison of two values ends, and ends as `equal` says. -/
theorem comparison_equal (heap : Heap) (a b : Value) :
    heap.Comparison [] [a] [b] (heap.equal a b) := by
  have h : heap.Comparison [] [a] [b]
      (([a].zip [b]).all fun pair =>
        heap.equalWithin heap.comparisonDepth [] pair.1 pair.2) :=
    comparison_equalWithin List.nodup_nil (by simp) (by simp [comparisonDepth]) rfl
  rw [equal_eq_equalWithin]
  simpa using h

/-! ### What a comparison finds -/

theorem differ_of_equalLeaves {x y : Value} (h : equalLeaves x y = false)
    (hleaves : ∀ a b, ¬(x = .array a ∧ y = .array b)) : heap.Differ x y := by
  cases x <;> cases y <;>
    first
    | trivial
    | exact absurd ⟨rfl, rfl⟩ (hleaves _ _)
    | simpa [equalLeaves, Differ] using h

theorem near_of_equalLeaves {x y : Value} (h : equalLeaves x y = true) (n : Nat) :
    heap.Near n x y := by
  intro path _ hapart
  cases hapart with
  | here differ => cases x <;> cases y <;> simp_all [equalLeaves, Differ]
  | inside => simp [equalLeaves] at h

theorem near_same (n : Nat) (a : ArrayId) : heap.Near n (.array a) (.array a) := by
  intro path _ hapart
  cases hapart with
  | here differ => exact differ rfl
  | inside distinct => exact distinct rfl

/-- A comparison that fails has found a path to a difference. -/
theorem Comparison.exists_apart {around : List (ArrayId × ArrayId)} {xs ys : List Value}
    (h : heap.Comparison around xs ys false) :
    ∃ (i : Nat) (x y : Value) (path : List Nat),
      xs[i]? = some x ∧ ys[i]? = some y ∧ heap.Apart path x y := by
  generalize hflag : false = flag at h
  induction h with
  | nil => cases hflag
  | @unequal _ x y _ _ leaves plain =>
    exact ⟨0, x, y, [], rfl, rfl, .here (differ_of_equalLeaves leaves plain)⟩
  | @lengths _ a b _ _ _ _ lengths =>
    exact ⟨0, .array a, .array b, [], rfl, rfl, .here lengths⟩
  | @items _ a b _ _ distinct _ _ _ ih =>
    obtain ⟨i, x, y, path, hx, hy, hapart⟩ := ih hflag
    exact ⟨0, .array a, .array b, i :: path, rfl, rfl, .inside distinct hx hy hapart⟩
  | leaf _ _ ih | same _ ih | again _ _ ih | array _ _ _ _ _ _ ih =>
    obtain ⟨i, x, y, path, hx, hy, hapart⟩ := ih hflag
    exact ⟨i + 1, x, y, path, hx, hy, hapart⟩

/-- If the elements of two arrays of one length are near up to every length that the arrays are near
up to, the arrays are near up to `n`: a shortest path to a difference starts with an element that
has a shorter one. -/
theorem near_of_elements {a b : ArrayId} {n : Nat}
    (hlength : (heap.items a).length = (heap.items b).length)
    (helements : ∀ k, k ≤ n → heap.Near k (.array a) (.array b) → ∀ (i : Nat) (x y : Value),
      (heap.items a)[i]? = some x → (heap.items b)[i]? = some y → heap.Near k x y) :
    heap.Near n (.array a) (.array b) := by
  have hnear : ∀ k, k ≤ n → heap.Near k (.array a) (.array b) := by
    intro k
    induction k with
    | zero =>
      intro _ path hpath hapart
      obtain rfl : path = [] := List.length_eq_zero_iff.mp (Nat.le_zero.mp hpath)
      cases hapart with
      | here differ => exact differ hlength
    | succ k ih =>
      intro hk path hpath hapart
      have hshorter : heap.Near k (.array a) (.array b) := ih (by omega)
      cases hapart with
      | here differ => exact differ hlength
      | @inside _ _ i x y path _ left right apart =>
        exact helements k (by omega) hshorter i x y left right path (by simpa using hpath) apart
  exact hnear n (Nat.le_refl n)

/-- A comparison that succeeds leaves no path to a difference, as long as the pairs around it have
none: what was assumed of a pair met again holds for paths that are shorter. -/
theorem Comparison.near {around : List (ArrayId × ArrayId)} {xs ys : List Value}
    (h : heap.Comparison around xs ys true) {n : Nat}
    (haround : ∀ pair ∈ around, heap.Near n (.array pair.1) (.array pair.2)) (i : Nat)
    (x y : Value) (hx : xs[i]? = some x) (hy : ys[i]? = some y) : heap.Near n x y := by
  generalize hflag : true = flag at h
  induction h generalizing n i x y with
  | nil => simp at hx
  | unequal => cases hflag
  | lengths => cases hflag
  | items => cases hflag
  | leaf leaves _ ih =>
    cases i with
    | zero =>
      obtain ⟨rfl, rfl⟩ := And.intro (Option.some.inj hx) (Option.some.inj hy)
      exact near_of_equalLeaves leaves n
    | succ i => exact ih haround i x y hx hy hflag
  | same _ ih =>
    cases i with
    | zero =>
      obtain ⟨rfl, rfl⟩ := And.intro (Option.some.inj hx) (Option.some.inj hy)
      exact near_same n _
    | succ i => exact ih haround i x y hx hy hflag
  | again met _ ih =>
    cases i with
    | zero =>
      obtain ⟨rfl, rfl⟩ := And.intro (Option.some.inj hx) (Option.some.inj hy)
      exact haround _ met
    | succ i => exact ih haround i x y hx hy hflag
  | array _ _ lengths _ _ ihinner ih =>
    cases i with
    | zero =>
      obtain ⟨rfl, rfl⟩ := And.intro (Option.some.inj hx) (Option.some.inj hy)
      refine near_of_elements lengths fun k hk hpair j v w hv hw => ?_
      refine ihinner (fun pair hmem => ?_) j v w hv hw rfl
      rcases List.mem_cons.mp hmem with rfl | hmem
      · exact hpair
      · exact (haround pair hmem).mono hk
    | succ i => exact ih haround i x y hx hy hflag

/-- Comparing two values fails exactly if a path leads to a difference, whatever the comparison. -/
theorem Comparison.eq_false_iff {a b : Value} {flag : Bool} (h : heap.Comparison [] [a] [b] flag) :
    flag = false ↔ ∃ path, heap.Apart path a b := by
  cases flag with
  | false =>
    obtain ⟨i, x, y, path, hx, hy, hapart⟩ := h.exists_apart
    cases i with
    | zero =>
      obtain ⟨rfl, rfl⟩ := And.intro (Option.some.inj hx) (Option.some.inj hy)
      exact ⟨fun _ => ⟨path, hapart⟩, fun _ => rfl⟩
    | succ i => simp at hx
  | true =>
    refine ⟨nofun, fun ⟨path, hapart⟩ => ?_⟩
    exact absurd hapart (h.near (by simp) 0 a b rfl rfl path (Nat.le_refl _))

/-! ### Bisimulations -/

/-- The values are alike as far as `R` can tell: of the same type and with the same contents, where
different arrays have equally many elements, related one by one. -/
def Alike (heap : Heap) (R : Value → Value → Prop) : Value → Value → Prop
  | .word a, .word b => a = b
  | .string a, .string b => a = b
  | .int a, .int b => a = b
  | .float a, .float b => (a == b) = true
  | .bool a, .bool b => a = b
  | .scope a, .scope b => a = b
  | .array a, .array b => a = b ∨ List.Forall₂ R (heap.items a) (heap.items b)
  | _, _ => False

/-- A relation whose pairs are alike as far as it can tell itself. -/
def Bisimulation (heap : Heap) (R : Value → Value → Prop) : Prop :=
  ∀ a b, R a b → heap.Alike R a b

theorem Alike.not_differ {R : Value → Value → Prop} {a b : Value} (h : heap.Alike R a b) :
    ¬heap.Differ a b := by
  intro differ
  cases a with
  | array a =>
    cases b with
    | array b =>
      rcases h with rfl | hitems
      · exact differ rfl
      · exact differ hitems.length_eq
    | _ => exact h
  | _ => cases b <;> simp_all [Alike, Differ]

/-- Values that do not differ at once are alike, if their elements are related. -/
theorem alike_of_not_differ {R : Value → Value → Prop} {a b : Value} (h : ¬heap.Differ a b)
    (hitems : ∀ c d, a = .array c → b = .array d → c ≠ d →
      List.Forall₂ R (heap.items c) (heap.items d)) : heap.Alike R a b := by
  cases a with
  | array a =>
    cases b with
    | array b => exact or_iff_not_imp_left.mpr fun hab => hitems a b rfl rfl hab
    | _ => exact h trivial
  | _ => cases b <;> simp_all [Alike, Differ]

/-- No path leads from the pairs of a bisimulation to a difference. -/
theorem Bisimulation.not_apart {R : Value → Value → Prop} (hR : heap.Bisimulation R)
    {path : List Nat} {a b : Value} (h : R a b) : ¬heap.Apart path a b := by
  intro hapart
  induction hapart with
  | here differ => exact (hR _ _ h).not_differ differ
  | @inside a b i x y path distinct left right _ ih =>
    have hitems := (hR _ _ h).resolve_left distinct
    obtain ⟨hi, rfl⟩ := List.getElem?_eq_some_iff.mp left
    obtain ⟨hi', rfl⟩ := List.getElem?_eq_some_iff.mp right
    exact ih (hitems.get hi hi')

/-- The pairs from which no path leads to a difference form a bisimulation. -/
theorem bisimulation_not_apart : heap.Bisimulation fun a b => ∀ path, ¬heap.Apart path a b := by
  intro a b h
  have hnot : ¬heap.Differ a b := fun differ => h [] (.here differ)
  refine alike_of_not_differ hnot fun c d hc hd hcd => ?_
  subst hc hd
  refine List.forall₂_iff_get.mpr ⟨not_not.mp hnot, fun i hi hi' path hapart => ?_⟩
  exact h (i :: path) (.inside hcd (List.getElem?_eq_getElem hi) (List.getElem?_eq_getElem hi')
    hapart)

theorem equal_eq_true_iff {a b : Value} :
    heap.equal a b = true ↔ ∀ path, ¬heap.Apart path a b := by
  rw [← Bool.not_eq_false, (heap.comparison_equal a b).eq_false_iff, not_exists]

/-- Values related by a bisimulation are equal. -/
theorem Bisimulation.equal {R : Value → Value → Prop} (hR : heap.Bisimulation R) {a b : Value}
    (h : R a b) : heap.equal a b = true :=
  equal_eq_true_iff.mpr fun _ => hR.not_apart h

/-- **Equality is bisimilarity**, on every heap, however its arrays contain each other or
themselves.  The values found equal are those of the greatest bisimulation.  The comparison of any
two values ends, even if nothing bounds its depth, and it ends as `equal` says.  And values are
found unequal exactly if a path of indices leads to a difference. -/
theorem equal_isGreatest_bisimulation (heap : Heap) :
    IsGreatest {R : Value → Value → Prop | heap.Bisimulation R} (fun a b => heap.equal a b = true) ∧
    (∀ a b flag, heap.Comparison [] [a] [b] flag ↔ flag = heap.equal a b) ∧
    (∀ a b, heap.equal a b = false ↔ ∃ path, heap.Apart path a b) := by
  refine ⟨⟨?_, fun R hR a b h => hR.equal h⟩, fun a b flag => ⟨fun h => ?_, ?_⟩, fun a b => ?_⟩
  · simp only [equal_eq_true_iff]
    exact bisimulation_not_apart
  · have hiff := h.eq_false_iff.trans (heap.comparison_equal a b).eq_false_iff.symm
    cases flag with
    | false => exact (hiff.mp rfl).symm
    | true =>
      have hne : heap.equal a b ≠ false := fun hfalse => nomatch hiff.mpr hfalse
      exact ((Bool.not_eq_false _).mp hne).symm
  · rintro rfl
    exact heap.comparison_equal a b
  · exact (heap.comparison_equal a b).eq_false_iff

/-- Two arrays, each of which holds the other. -/
example : ({ arrays := #[[.array ⟨1⟩], [.array ⟨0⟩]] } : Heap).equal (.array ⟨0⟩) (.array ⟨1⟩) =
    true := by
  decide

end Wordstack.Heap
