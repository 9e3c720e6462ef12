import Mathlib.Data.List.Infix
import Mathlib.Data.List.Induction
import Wordstack.Text.Split

/-!
# Fields and runs of a text

What cutting a text gives.  Cutting at blanks gives the maximal blank-free runs, which `Runs` says
without an algorithm.  Cutting at a separator gives fields that do not contain it, and joining the
fields puts the text together again.  An occurrence of the separator can overlap the next one, as
`aa` does in `aaa`, so the theory follows the cuts from the left: a text is empty, or it starts with
the separator, or its first character belongs to the first field.

* `Runs`, `runs_iff`: the blank-free runs of a text, and that `words` finds them.
* `fields_induction`: induction along the cuts.
* `join_fields`, `not_infix_of_mem_fields`: the fields of a text.
* `fields_join`: the text of some fields is cut into these, if the separator is one character.
* `exists_eq_dropTrailingEmpty_append`: what is dropped at the end.
-/

namespace Wordstack.Text

/-! ### Blank-free runs -/

/-- The maximal blank-free runs of a text, in order: there are blanks before, between and after
them, and nothing else. -/
inductive Runs : List Char → List (List Char) → Prop
  | none {gap : List Char} (hgap : ∀ c ∈ gap, isBlank c = true) : Runs gap []
  | more {gap run rest : List Char} {runs : List (List Char)}
      (hgap : ∀ c ∈ gap, isBlank c = true) (hne : run ≠ [])
      (hrun : ∀ c ∈ run, isBlank c = false) (hends : endsWord rest = true) (h : Runs rest runs) :
      Runs (gap ++ (run ++ rest)) (run :: runs)

theorem words_blanks {gap : List Char} (hgap : ∀ c ∈ gap, isBlank c = true) (rest : List Char) :
    words (gap ++ rest) = words rest := by
  induction gap with
  | nil => rfl
  | cons c gap ih =>
    rw [List.forall_mem_cons] at hgap
    rw [List.cons_append, words, if_pos hgap.1, ih hgap.2]

theorem words_run {run rest : List Char} (hne : run ≠ []) (hrun : ∀ c ∈ run, isBlank c = false)
    (hends : endsWord rest = true) : words (run ++ rest) = run :: words rest := by
  induction run with
  | nil => exact absurd rfl hne
  | cons c run ih =>
    rw [List.forall_mem_cons] at hrun
    cases run with
    | nil => simp [words, hrun.1, hends]
    | cons d run =>
      have hmore : endsWord (d :: (run ++ rest)) = false := hrun.2 d List.mem_cons_self
      rw [List.cons_append, words, ih (List.cons_ne_nil _ _) hrun.2]
      simp [hrun.1, hmore, growFirst]

theorem Runs.words_eq {text : List Char} {runs : List (List Char)} (h : Runs text runs) :
    words text = runs := by
  induction h with
  | none hgap => simpa [words] using words_blanks hgap []
  | more hgap hne hrun hends _ ih => rw [words_blanks hgap, words_run hne hrun hends, ih]

theorem Runs.cons_blank {c : Char} {text : List Char} {runs : List (List Char)}
    (h : Runs text runs) (hc : isBlank c = true) : Runs (c :: text) runs := by
  cases h with
  | none hgap => exact .none (List.forall_mem_cons.mpr ⟨hc, hgap⟩)
  | more hgap hne hrun hends h =>
    exact .more (List.forall_mem_cons.mpr ⟨hc, hgap⟩) hne hrun hends h

/-- One more character in front of a text that opens with a run is a character of that run. -/
theorem Runs.growFirst {c : Char} {text : List Char} {runs : List (List Char)}
    (h : Runs text runs) (hc : isBlank c = false) (htext : endsWord text = false) :
    Runs (c :: text) (growFirst c runs) := by
  cases h with
  | none hgap =>
    cases text with
    | nil => cases htext
    | cons d text => simp [endsWord, hgap d List.mem_cons_self] at htext
  | @more gap run rest runs hgap hne hrun hends h =>
    cases gap with
    | nil =>
      exact @more [] (c :: run) _ _ nofun (List.cons_ne_nil _ _)
        (List.forall_mem_cons.mpr ⟨hc, hrun⟩) hends h
    | cons d gap => simp [endsWord, hgap d List.mem_cons_self] at htext

theorem runs_words (text : List Char) : Runs text (words text) := by
  induction text with
  | nil => exact .none nofun
  | cons c text ih =>
    rw [words]
    by_cases hc : isBlank c = true
    · rw [if_pos hc]
      exact ih.cons_blank hc
    · rw [if_neg hc]
      rw [Bool.not_eq_true] at hc
      by_cases hends : endsWord text = true
      · rw [if_pos hends]
        exact @Runs.more [] [c] _ _ nofun (List.cons_ne_nil _ _) (by simpa using hc) hends ih
      · rw [if_neg hends]
        exact ih.growFirst hc (by simpa using hends)

/-- A text has one list of runs, and `words` finds it. -/
theorem runs_iff {text : List Char} {runs : List (List Char)} :
    Runs text runs ↔ words text = runs :=
  ⟨Runs.words_eq, fun h => h ▸ runs_words text⟩

theorem Runs.ne_nil {text : List Char} {runs : List (List Char)} (h : Runs text runs) :
    [] ∉ runs := by
  induction h with
  | none => exact List.not_mem_nil
  | more _ hne _ _ _ ih =>
    rw [List.mem_cons, not_or]
    exact ⟨Ne.symm hne, ih⟩

/-- Blank-free runs with a space between them are the runs of their text. -/
theorem runs_intercalate {runs : List (List Char)} (hne : ∀ run ∈ runs, run ≠ [])
    (hruns : ∀ run ∈ runs, ∀ c ∈ run, isBlank c = false) : Runs ([' '].intercalate runs) runs := by
  induction runs with
  | nil => exact .none nofun
  | cons run runs ih =>
    rw [List.forall_mem_cons] at hne hruns
    have hrest := ih hne.2 hruns.2
    cases runs with
    | nil => simpa using @Runs.more [] run [] [] nofun hne.1 hruns.1 rfl (.none nofun)
    | cons next runs =>
      rw [List.intercalate_cons_cons, List.append_assoc]
      exact @Runs.more [] run _ _ nofun hne.1 hruns.1 rfl (hrest.cons_blank (by decide))

/-! ### Cutting at a separator -/

theorem fieldsFrom_eq_drop (separator : List Char) (skip : Nat) (text : List Char) :
    fieldsFrom separator skip text = fields separator (text.drop skip) := by
  induction text generalizing skip with
  | nil => simp [fields, fieldsFrom]
  | cons c text ih =>
    cases skip with
    | zero => rfl
    | succ skip => rw [fieldsFrom, ih, List.drop_succ_cons]

theorem fields_nil (separator : List Char) : fields separator [] = [[]] := rfl

theorem fields_separator {separator : List Char} (h : separator ≠ []) (rest : List Char) :
    fields separator (separator ++ rest) = [] :: fields separator rest := by
  cases separator with
  | nil => exact absurd rfl h
  | cons c separator =>
    have hprefix : (c :: separator).isPrefixOf (c :: (separator ++ rest)) = true := by
      rw [List.isPrefixOf_iff_prefix]
      exact List.prefix_append (c :: separator) rest
    rw [List.cons_append, fields, fieldsFrom, if_pos hprefix, fieldsFrom_eq_drop]
    simp

theorem fields_cons {separator : List Char} {c : Char} {rest : List Char}
    (h : ¬ separator <+: c :: rest) :
    fields separator (c :: rest) = growFirst c (fields separator rest) := by
  rw [fields, fieldsFrom, if_neg (by rwa [List.isPrefixOf_iff_prefix])]
  rfl

/-- Induction along the cuts, left to right. -/
@[elab_as_elim]
theorem fields_induction {separator : List Char} (hne : separator ≠ [])
    {motive : List Char → Prop} (nil : motive [])
    (cut : ∀ rest, motive rest → motive (separator ++ rest))
    (cons : ∀ c rest, ¬ separator <+: c :: rest → motive rest → motive (c :: rest))
    (text : List Char) : motive text := by
  induction hlength : text.length using Nat.strong_induction_on generalizing text with
  | _ length ih =>
    subst hlength
    by_cases hprefix : separator <+: text
    · obtain ⟨rest, rfl⟩ := hprefix
      refine cut rest (ih _ ?_ rest rfl)
      rw [List.length_append]
      have := List.length_pos_iff.mpr hne
      omega
    · cases text with
      | nil => exact nil
      | cons c rest => exact cons c rest hprefix (ih _ (by simp) rest rfl)

variable {separator : List Char}

theorem growFirst_ne_nil (c : Char) (words : List (List Char)) : growFirst c words ≠ [] := by
  cases words <;> simp [growFirst]

theorem growFirst_append {words : List (List Char)} (h : words ≠ []) (c : Char)
    (more : List (List Char)) : growFirst c (words ++ more) = growFirst c words ++ more := by
  cases words with
  | nil => exact absurd rfl h
  | cons word words => rfl

theorem fields_ne_nil (h : separator ≠ []) (text : List Char) : fields separator text ≠ [] := by
  induction text using fields_induction h with
  | nil => exact List.cons_ne_nil _ _
  | cut rest ih =>
    rw [fields_separator h]
    exact List.cons_ne_nil _ _
  | cons c rest hc ih =>
    rw [fields_cons hc]
    exact growFirst_ne_nil _ _

/-- A text without the separator is one field. -/
theorem fields_of_not_infix {text : List Char} (h : ¬ separator <:+: text) :
    fields separator text = [text] := by
  induction text with
  | nil => rfl
  | cons c text ih =>
    rw [List.infix_cons_iff, not_or] at h
    rw [fields_cons h.1, ih h.2]
    rfl

/-! ### Joining -/

theorem join_cons (separator field : List Char) {rest : List (List Char)} (h : rest ≠ []) :
    join separator (field :: rest) = field ++ separator ++ join separator rest := by
  cases rest with
  | nil => exact absurd rfl h
  | cons next rest => rfl

theorem join_snoc (separator field : List Char) {front : List (List Char)} (h : front ≠ []) :
    join separator (front ++ [field]) = join separator front ++ separator ++ field := by
  induction front with
  | nil => exact absurd rfl h
  | cons first front ih =>
    cases front with
    | nil => rfl
    | cons second front =>
      have hne : second :: front ≠ [] := List.cons_ne_nil _ _
      rw [List.cons_append, join_cons _ _ (by simp), ih hne, join_cons _ _ hne]
      simp only [List.append_assoc]

theorem join_growFirst (separator : List Char) (c : Char) (words : List (List Char)) :
    join separator (growFirst c words) = c :: join separator words := by
  rcases words with _ | ⟨word, _ | ⟨next, words⟩⟩ <;> rfl

theorem prefix_join (separator first : List Char) (rest : List (List Char)) :
    first <+: join separator (first :: rest) := by
  cases rest with
  | nil => exact List.prefix_refl first
  | cons next rest => exact ⟨separator ++ join separator (next :: rest), by simp [join]⟩

/-- The fields of a text, joined again, are the text. -/
theorem join_fields (h : separator ≠ []) (text : List Char) :
    join separator (fields separator text) = text := by
  induction text using fields_induction h with
  | nil => rfl
  | cut rest ih =>
    rw [fields_separator h, join_cons _ _ (fields_ne_nil h rest), ih]
    rfl
  | cons c rest hc ih => rw [fields_cons hc, join_growFirst, ih]

/-- No field contains the separator. -/
theorem not_infix_of_mem_fields (h : separator ≠ []) {text field : List Char}
    (hfield : field ∈ fields separator text) : ¬ separator <:+: field := by
  induction text using fields_induction h generalizing field with
  | nil =>
    rw [fields_nil, List.mem_singleton] at hfield
    rwa [hfield, List.infix_nil]
  | cut rest ih =>
    rw [fields_separator h, List.mem_cons] at hfield
    rcases hfield with rfl | hfield
    · rwa [List.infix_nil]
    · exact ih hfield
  | cons c rest hc ih =>
    have hjoin := join_fields h rest
    rw [fields_cons hc] at hfield
    cases hrest : fields separator rest with
    | nil => exact absurd hrest (fields_ne_nil h rest)
    | cons first others =>
      rw [hrest] at hfield hjoin ih
      rcases List.mem_cons.mp hfield with rfl | hfield
      · -- an occurrence at the very start would have been a cut, as the field opens the text
        have hfirst : first <+: rest := hjoin ▸ prefix_join separator first others
        rw [List.infix_cons_iff, not_or]
        refine ⟨fun hstart => hc (hstart.trans ?_), ih List.mem_cons_self⟩
        rwa [List.prefix_cons_inj]
      · exact ih (List.mem_cons_of_mem _ hfield)

/-- A text after one more separator is one more field. -/
theorem fields_append {c : Char} {field : List Char} (h : c ∉ field) (text : List Char) :
    fields [c] (text ++ c :: field) = fields [c] text ++ [field] := by
  have hc : [c] ≠ [] := List.cons_ne_nil _ _
  induction text using fields_induction hc with
  | nil =>
    have hfield : ¬ [c] <:+: field := by rwa [List.singleton_infix_iff]
    change fields [c] ([c] ++ field) = [[], field]
    rw [fields_separator hc, fields_of_not_infix hfield]
  | cut rest ih =>
    rw [List.append_assoc, fields_separator hc, fields_separator hc, ih]
    rfl
  | cons d rest hd ih =>
    have hd' : ¬ [c] <+: d :: (rest ++ c :: field) := by
      simpa [List.cons_prefix_cons] using hd
    rw [List.cons_append, fields_cons hd', fields_cons hd, ih,
      growFirst_append (fields_ne_nil hc rest)]

/-- Fields without the character that separates them are those of their text. -/
theorem fields_join {c : Char} {front : List (List Char)} (hne : front ≠ [])
    (h : ∀ field ∈ front, c ∉ field) : fields [c] (join [c] front) = front := by
  induction front using List.reverseRecOn with
  | nil => exact absurd rfl hne
  | append_singleton front field ih =>
    have hfield : c ∉ field := h field (by simp)
    by_cases hfront : front = []
    · subst hfront
      exact fields_of_not_infix (by rwa [List.singleton_infix_iff])
    · rw [join_snoc _ _ hfront, List.append_assoc, List.singleton_append, fields_append hfield,
        ih hfront fun other hother => h other (by simp [hother])]

/-! ### Empty fields at the end -/

/-- Some empty fields are dropped at the end, and nothing else. -/
theorem exists_eq_dropTrailingEmpty_append (list : List (List Char)) :
    ∃ k, list = dropTrailingEmpty list ++ List.replicate k [] := by
  induction list with
  | nil => exact ⟨0, rfl⟩
  | cons field rest ih =>
    obtain ⟨k, hk⟩ := ih
    rw [dropTrailingEmpty]
    split
    · next hrest =>
      rw [hrest, List.nil_append] at hk
      by_cases hfield : field = []
      · exact ⟨k + 1, by simp [hfield, hk, List.replicate_succ]⟩
      · exact ⟨k, by simp [hfield, ← hk]⟩
    · next kept hkept =>
      exact ⟨k, by rw [List.cons_append, ← hk]⟩

theorem getLast?_dropTrailingEmpty (list : List (List Char)) :
    (dropTrailingEmpty list).getLast? ≠ some [] := by
  induction list with
  | nil => nofun
  | cons field rest ih =>
    rw [dropTrailingEmpty]
    split
    · by_cases hfield : field = [] <;> simp [hfield]
    · next hne =>
      rwa [List.getLast?_cons_of_ne_nil hne]

theorem mem_of_mem_dropTrailingEmpty {list : List (List Char)} {field : List Char}
    (h : field ∈ dropTrailingEmpty list) : field ∈ list := by
  obtain ⟨k, hk⟩ := exists_eq_dropTrailingEmpty_append list
  rw [hk]
  exact List.mem_append_left _ h

/-- Nothing is dropped if there is no empty field at the end. -/
theorem dropTrailingEmpty_eq_self {list : List (List Char)} (h : list.getLast? ≠ some []) :
    dropTrailingEmpty list = list := by
  obtain ⟨k, hk⟩ := exists_eq_dropTrailingEmpty_append list
  cases k with
  | zero => simpa using hk.symm
  | succ k =>
    rw [hk, List.replicate_succ', ← List.append_assoc, List.getLast?_concat] at h
    exact absurd rfl h

/-- Each empty field at the end is one more separator at the end of the text. -/
theorem join_append_replicate (separator : List Char) {front : List (List Char)} (h : front ≠ [])
    (k : Nat) : join separator (front ++ List.replicate k []) =
      join separator front ++ (List.replicate k separator).flatten := by
  induction k with
  | zero => simp
  | succ k ih =>
    have hne : front ++ List.replicate k [] ≠ [] := by simp [h]
    rw [List.replicate_succ', ← List.append_assoc, join_snoc _ _ hne, ih, List.replicate_succ',
      List.flatten_append]
    simp

/-! ### Splitting -/

theorem split_eq {text : List Char} (hempty : separator ≠ []) (hspace : separator ≠ [' ']) :
    split text separator = dropTrailingEmpty (fields separator text) := by
  simp [split, hempty, hspace]

theorem split_nil (text : List Char) : split text [] = text.map fun c => [c] := by
  refine dropTrailingEmpty_eq_self fun h => ?_
  have := List.mem_of_getLast? h
  simp at this

theorem split_space (text : List Char) : split text [' '] = words text :=
  dropTrailingEmpty_eq_self fun h => (runs_words text).ne_nil (List.mem_of_getLast? h)

theorem join_nil_map (text : List Char) : join [] (text.map fun c => [c]) = text := by
  induction text with
  | nil => rfl
  | cons c text ih =>
    by_cases h : text = []
    · rw [h]
      rfl
    · rw [List.map_cons, join_cons _ _ (by simpa using h), ih]
      rfl

/-- **Joining undoes splitting**, but for separators at the end of the text. -/
theorem exists_eq_join_split (hempty : separator ≠ [])
    (hspace : separator ≠ [' ']) (text : List Char) :
    ∃ k, text = join separator (split text separator) ++ (List.replicate k separator).flatten := by
  obtain ⟨k, hk⟩ := exists_eq_dropTrailingEmpty_append (fields separator text)
  have hjoin := join_fields hempty text
  rw [hk] at hjoin
  rw [split_eq hempty hspace]
  by_cases hkept : dropTrailingEmpty (fields separator text) = []
  · -- the text is made of separators, one fewer than there are fields
    cases k with
    | zero => exact absurd (by simpa [hkept] using hk) (fields_ne_nil hempty text)
    | succ k =>
      refine ⟨k, ?_⟩
      have h := join_append_replicate separator (List.cons_ne_nil [] []) k
      rw [hkept, List.replicate_succ] at hjoin
      rw [hkept, ← hjoin]
      exact h
  · exact ⟨k, by rw [← join_append_replicate separator hkept, hjoin]⟩

example : split "aaabaaaa".toList "aa".toList = ["".toList, "ab".toList] := by decide

/-- **Splitting undoes joining**, if one character separates the fields and the last of them is not
empty. -/
theorem split_join {c : Char} (hspace : c ≠ ' ') {list : List (List Char)}
    (h : ∀ field ∈ list, c ∉ field) (hlast : list.getLast? ≠ some []) :
    split (join [c] list) [c] = list := by
  rw [split_eq (List.cons_ne_nil _ _) (by simpa using hspace)]
  by_cases hne : list = []
  · rw [hne]
    rfl
  · rw [fields_join hne h, dropTrailingEmpty_eq_self hlast]

end Wordstack.Text
