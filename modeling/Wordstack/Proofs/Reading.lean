import Wordstack.Source.Lexeme
import Wordstack.Value.Basic

/-!
# Reading a source text

What one scan does to a buffer, and what all the scans up to the end of the text find.

* `drop_drop`, `scan_snd`: every scan drops a number of characters, so a buffer only moves on.
* `scan_quoted`, `scan_bare`, `scan_blanks`: what a scan finds in front of a quoted text, a bare
  lexeme and the blank end of the text.
* `tokens`, `ending`: the values of all lexemes and how the text ends, with their equations for one
  scan (`tokens_of_lexeme`, `ending_of_lexeme` and their like).
-/

namespace Wordstack.Buffer

/-! ### Dropping characters -/

@[simp] theorem drop_rest (b : Buffer) (n : Nat) : (b.drop n).rest = b.rest.drop n := rfl

@[simp] theorem drop_zero (b : Buffer) : b.drop 0 = b := by
  simp [drop, Location.advance]

theorem drop_drop (b : Buffer) (n k : Nat) : (b.drop n).drop k = b.drop (n + k) := by
  have hrun : b.rest.take (n + k) = b.rest.take n ++ (b.rest.drop n).take k := List.take_add
  simp only [drop, hrun, List.length_append, Location.advance_append, List.drop_drop, mk.injEq,
    and_true]
  omega

/-- A scan drops a number of characters. -/
theorem scan_snd (b : Buffer) : ∃ n, b.scan.2 = b.drop n := by
  unfold scan skip
  dsimp only
  split
  · exact ⟨_, rfl⟩
  · split
    · split
      · exact ⟨_, by rw [drop_drop, drop_drop]⟩
      · exact ⟨_, by rw [drop_drop, drop_drop, drop_drop]⟩
    · exact ⟨_, by rw [drop_drop]⟩

/-- A scan that finds a lexeme takes at least one character. -/
theorem scan_shorter {b after : Buffer} {found : Lexeme} (h : b.scan = (.lexeme found, after)) :
    after.rest.length < b.rest.length := by
  unfold scan skip at h
  dsimp only at h
  -- what is left after the blanks holds the first character of the lexeme
  have hle : (b.drop (b.run Text.isBlank).length).rest.length ≤ b.rest.length := by simp
  split at h
  · simp at h
  · next c tail hopened =>
    rw [hopened, List.length_cons] at hle
    split at h
    · split at h
      · simp at h
      · obtain ⟨-, rfl⟩ := Prod.mk.inj h
        simp only [drop_rest, List.drop_drop, List.length_drop] at hle ⊢
        omega
    · obtain ⟨-, rfl⟩ := Prod.mk.inj h
      rw [drop_rest, hopened, List.length_drop, List.length_cons]
      omega

/-! ### What a scan finds -/

/-- A scan finds a lexeme, or is the last one. -/
theorem scan_lexeme_or (b : Buffer) :
    (∃ found after, b.scan = (.lexeme found, after)) ∨ ∀ found, b.scan.1 ≠ .lexeme found := by
  rcases b.scan with ⟨found | _ | start, after⟩
  · exact .inl ⟨found, after, rfl⟩
  · exact .inr (by simp)
  · exact .inr (by simp)

theorem takeWhile_append_cons {α : Type} {p : α → Bool} {xs : List α} {y : α}
    (hxs : ∀ x ∈ xs, p x = true) (hy : p y = false) (ys : List α) :
    (xs ++ y :: ys).takeWhile p = xs := by
  rw [List.takeWhile_append_of_pos hxs, List.takeWhile_cons_of_neg (by simp [hy]), List.append_nil]

/-- In front of blanks alone, a scan finds the end of the text. -/
theorem scan_blanks {b : Buffer} (h : ∀ c ∈ b.rest, Text.isBlank c = true) :
    b.scan = (.finished, b.drop b.rest.length) := by
  have hrun : b.run Text.isBlank = b.rest := by
    have hall : (b.rest ++ []).takeWhile Text.isBlank = b.rest ++ [].takeWhile Text.isBlank :=
      List.takeWhile_append_of_pos h
    simpa [run] using hall
  unfold scan skip
  rw [hrun]
  simp

/-- The end of the text is found behind every character. -/
theorem rest_of_finished {b after : Buffer} (h : b.scan = (.finished, after)) :
    after.rest = [] := by
  unfold scan at h
  dsimp only at h
  split at h
  · next hopened =>
    obtain ⟨-, rfl⟩ := Prod.mk.inj h
    exact hopened
  · split at h
    · split at h <;> simp at h
    · simp at h

/-- At the end of the text, a scan finds the end again. -/
theorem scan_of_finished {b after : Buffer} (h : b.scan = (.finished, after)) :
    after.scan = (.finished, after) := by
  have hrest := rest_of_finished h
  rw [scan_blanks (by simp [hrest]), hrest]
  simp

/-- In front of a quoted text, a scan finds the text. -/
theorem scan_quoted {b : Buffer} {text after : List Char}
    (hrest : b.rest = quote :: text ++ quote :: after) (htext : quote ∉ text) :
    b.scan = (.lexeme (.quoted (String.ofList text)), b.drop (text.length + 2)) := by
  have hblank : b.run Text.isBlank = [] := by
    rw [run, hrest, List.cons_append, List.takeWhile_cons_of_neg (by decide)]
  have hskip : b.skip Text.isBlank = b := by rw [skip, hblank]; exact drop_zero b
  have hbody : (b.drop 1).run (· != quote) = text := by
    rw [run, drop_rest, hrest]
    refine takeWhile_append_cons (fun c hc => ?_) (by simp) after
    have : c ≠ quote := fun hcq => htext (hcq ▸ hc)
    simp [this]
  have hopen : (b.drop (1 + text.length)).isExhausted = false := by
    simp [isExhausted, hrest, Nat.add_comm 1]
  unfold scan
  rw [hskip]
  dsimp only
  rw [hrest]
  simp only [List.cons_append, if_true, hbody, drop_drop, hopen, Bool.false_eq_true, if_false]
  rw [show 1 + text.length + 1 = text.length + 2 by omega]

/-- In front of a bare lexeme, a scan finds it and takes the blank after it too. -/
theorem scan_bare {b : Buffer} {blanks word after : List Char} {first end_ : Char}
    (hrest : b.rest = blanks ++ first :: word ++ end_ :: after)
    (hblanks : blanks.all Text.isBlank = true) (hfirst : first ≠ quote)
    (hword : (first :: word).all (!Text.isBlank ·) = true) (hend : Text.isBlank end_ = true) :
    b.scan = (.lexeme (.bare (String.ofList (first :: word))),
      b.drop (blanks.length + word.length + 2)) := by
  rw [List.all_eq_true] at hblanks hword
  have hrest' : b.rest = blanks ++ first :: (word ++ end_ :: after) := by simpa using hrest
  have hrun : b.run Text.isBlank = blanks := by
    rw [run, hrest']
    exact takeWhile_append_cons hblanks (by simpa using hword first (by simp)) _
  have hopened : (b.drop blanks.length).rest = first :: word ++ end_ :: after := by
    rw [drop_rest, hrest', List.drop_left]; rfl
  have hbare : (b.drop blanks.length).run (!Text.isBlank ·) = first :: word := by
    rw [run, hopened]
    exact takeWhile_append_cons hword (by simp [hend]) after
  unfold scan skip
  rw [hrun]
  dsimp only
  rw [hopened]
  simp only [List.cons_append, hfirst, if_false, hbare, drop_drop, List.length_cons]
  rw [show blanks.length + (word.length + 1 + 1) = blanks.length + word.length + 2 by omega]

/-! ### All lexemes of a text -/

theorem lexemesWithin_of_lexeme {b after : Buffer} {found : Lexeme}
    (h : b.scan = (.lexeme found, after)) (count : Nat) :
    b.lexemesWithin (count + 1) =
      ((found, after) :: (after.lexemesWithin count).1, (after.lexemesWithin count).2) := by
  rw [lexemesWithin, h]

theorem lexemesWithin_of_end {b : Buffer} (h : ∀ found, b.scan.1 ≠ .lexeme found) (count : Nat) :
    b.lexemesWithin (count + 1) = ([], b.scan) := by
  rw [lexemesWithin]
  split
  · next found after hscan => exact absurd (by rw [hscan]) (h found)
  · rfl

/-- Any two counts above the number of characters find the same, namely every lexeme. -/
theorem lexemesWithin_congr (b : Buffer) {i j : Nat} (hi : b.rest.length < i)
    (hj : b.rest.length < j) : b.lexemesWithin i = b.lexemesWithin j := by
  induction i generalizing b j with
  | zero => omega
  | succ i ih =>
    obtain ⟨j, rfl⟩ : ∃ k, j = k + 1 := ⟨j - 1, by omega⟩
    obtain ⟨found, after, hscan⟩ | hend := b.scan_lexeme_or
    · have hlt := scan_shorter hscan
      rw [lexemesWithin_of_lexeme hscan, lexemesWithin_of_lexeme hscan,
        ih after (j := j) (by omega) (by omega)]
    · rw [lexemesWithin_of_end hend, lexemesWithin_of_end hend]

/-- The values of all lexemes of a text, in order. -/
def tokens (b : Buffer) : List Value :=
  b.lexemes.1.map fun found => .ofLexeme found.1

/-- How a text ends, and the buffer there. -/
def ending (b : Buffer) : Scan × Buffer :=
  b.lexemes.2

section Tokens

variable {b after : Buffer}

theorem lexemes_of_lexeme {found : Lexeme} (h : b.scan = (.lexeme found, after)) :
    b.lexemes = ((found, after) :: after.lexemes.1, after.lexemes.2) := by
  have hlt := scan_shorter h
  rw [lexemes, lexemesWithin_of_lexeme h, lexemes,
    lexemesWithin_congr after hlt (Nat.lt_succ_self _)]

theorem lexemes_of_end (h : ∀ found, b.scan.1 ≠ .lexeme found) : b.lexemes = ([], b.scan) :=
  lexemesWithin_of_end h _

/-- What is scanned decides all that follows. -/
theorem lexemes_eq_of_scan {b' : Buffer} (h : b.scan = b'.scan) : b.lexemes = b'.lexemes := by
  obtain ⟨found, after, hscan⟩ | hend := b.scan_lexeme_or
  · rw [lexemes_of_lexeme hscan, lexemes_of_lexeme (h.symm.trans hscan)]
  · rw [lexemes_of_end hend, lexemes_of_end (h ▸ hend), h]

theorem tokens_of_lexeme {found : Lexeme} (h : b.scan = (.lexeme found, after)) :
    b.tokens = .ofLexeme found :: after.tokens := by
  rw [tokens, lexemes_of_lexeme h]; rfl

theorem ending_of_lexeme {found : Lexeme} (h : b.scan = (.lexeme found, after)) :
    b.ending = after.ending := by
  rw [ending, lexemes_of_lexeme h]; rfl

theorem tokens_of_finished (h : b.scan = (.finished, after)) : b.tokens = [] := by
  rw [tokens, lexemes_of_end (by simp [h])]; rfl

theorem ending_of_finished (h : b.scan = (.finished, after)) : b.ending = (.finished, after) := by
  rw [ending, lexemes_of_end (by simp [h]), h]

theorem tokens_of_unclosed {start : Location} (h : b.scan = (.unclosed start, after)) :
    b.tokens = [] := by
  rw [tokens, lexemes_of_end (by simp [h])]; rfl

theorem ending_of_unclosed {start : Location} (h : b.scan = (.unclosed start, after)) :
    b.ending = (.unclosed start, after) := by
  rw [ending, lexemes_of_end (by simp [h]), h]

end Tokens

end Wordstack.Buffer
