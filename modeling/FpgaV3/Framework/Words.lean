import Mathlib.Data.List.DropRight

/-!
# Words and lines

The words of a list are its maximal runs of elements other than a separator
(`words`). A reader that takes the list element by element has seen the words
that a separator has ended (`endedWords`), and the one it is in
(`currentWord`); `words_eq` and the lemmas on one more element say how these
change. The lines of a list are ended by their separator; what follows the last
one is unfinished (`lines`, `lastLine`).
-/

namespace FpgaV3

variable {α : Type} [DecidableEq α] {sep c : α} {l m : List α}

/-- The maximal runs of elements other than `sep`. -/
def words (sep : α) (l : List α) : List (List α) := (l.splitOn sep).filter (· ≠ [])

/-- The words of `l` that a separator follows. -/
def endedWords (sep : α) (l : List α) : List (List α) := words sep (l.rdropWhile (· ≠ sep))

/-- The elements of `l` after its last separator. -/
def currentWord (sep : α) (l : List α) : List α := l.rtakeWhile (· ≠ sep)

theorem words_nil : words sep [] = [] := by
  rw [words, List.splitOn_nil]
  rfl

theorem words_append_sep (l m : List α) : words sep (l ++ sep :: m) = words sep l ++ words sep m := by
  rw [words, List.splitOn_append_cons_self, List.filter_append]
  rfl

theorem words_of_not_mem (h : sep ∉ l) : words sep l = if l = [] then [] else [l] := by
  rw [words, List.splitOn_eq_singleton h]
  split
  · rename_i h0
    rw [h0]
    rfl
  · rename_i h0
    exact List.filter_cons_of_pos (decide_eq_true h0)

theorem endedWords_nil : endedWords sep [] = [] := by rw [endedWords, List.rdropWhile_nil, words_nil]

theorem currentWord_nil : currentWord sep [] = [] := List.rtakeWhile_nil _

theorem endedWords_sep (l : List α) : endedWords sep (l ++ [sep]) = words sep l := by
  rw [endedWords, List.rdropWhile_concat_neg _ _ _ (by simp), words_append_sep, words_nil, List.append_nil]

theorem currentWord_sep (l : List α) : currentWord sep (l ++ [sep]) = [] :=
  List.rtakeWhile_concat_neg _ _ _ (by simp)

theorem endedWords_snoc (hc : c ≠ sep) (l : List α) : endedWords sep (l ++ [c]) = endedWords sep l := by
  rw [endedWords, List.rdropWhile_concat_pos _ _ _ (by simpa using hc), endedWords]

theorem currentWord_snoc (hc : c ≠ sep) (l : List α) : currentWord sep (l ++ [c]) = currentWord sep l ++ [c] :=
  List.rtakeWhile_concat_pos _ _ _ (by simpa using hc)

theorem sep_not_mem_currentWord (l : List α) : sep ∉ currentWord sep l := by
  intro h
  have hne := List.mem_rtakeWhile_imp h
  simp at hne

/-- The words are those ended, and the current one. -/
theorem words_eq (sep : α) (l : List α) :
    words sep l = endedWords sep l ++ if currentWord sep l = [] then [] else [currentWord sep l] := by
  have hsplit : l.rdropWhile (· ≠ sep) ++ currentWord sep l = l := List.rdropWhile_append_rtakeWhile
  rw [← words_of_not_mem (sep_not_mem_currentWord l), endedWords]
  by_cases hnil : l.rdropWhile (· ≠ sep) = []
  · rw [hnil, List.nil_append] at hsplit
    rw [hnil, words_nil, List.nil_append, hsplit]
  · obtain ⟨l', hl⟩ : ∃ l', l.rdropWhile (· ≠ sep) = l' ++ [sep] := by
      have hlast := List.rdropWhile_last_not (· ≠ sep) l hnil
      rw [decide_not, Bool.not_eq_true', decide_eq_false_iff_not, not_not] at hlast
      have happend := (List.dropLast_append_getLast hnil).symm
      rw [hlast] at happend
      exact ⟨_, happend⟩
    rw [hl, List.append_assoc] at hsplit
    rw [hl, words_append_sep, words_nil, List.append_nil, ← words_append_sep]
    exact congrArg (words sep) hsplit.symm

theorem length_endedWords_snoc (c : α) (l : List α) : (endedWords sep l).length ≤ (endedWords sep (l ++ [c])).length := by
  by_cases hc : c = sep
  · rw [hc, endedWords_sep, words_eq, List.length_append]
    exact Nat.le_add_right _ _
  · rw [endedWords_snoc hc]

/-! ## Lines -/

/-- The runs that a `cr` ends. -/
def lines (cr : α) (l : List α) : List (List α) := (l.splitOn cr).dropLast

/-- What follows the last `cr`. -/
def lastLine (cr : α) (l : List α) : List α := (l.splitOn cr).getLastD []

variable {cr : α}

theorem lines_of_not_mem (h : cr ∉ l) : lines cr l = [] ∧ lastLine cr l = l := by
  rw [lines, lastLine, List.splitOn_eq_singleton h]
  exact ⟨rfl, rfl⟩

theorem lines_append (h : cr ∉ l) (m : List α) :
    lines cr (l ++ cr :: m) = l :: lines cr m ∧ lastLine cr (l ++ cr :: m) = lastLine cr m := by
  have hne : m.splitOn cr ≠ [] := List.splitOn_ne_nil _ _
  rw [lines, lastLine, List.splitOn_append_cons_self_of_not_mem h]
  obtain ⟨x, xs, hx⟩ := List.exists_cons_of_ne_nil hne
  rw [lines, lastLine, hx]
  exact ⟨rfl, rfl⟩

/-- There is one line for each `cr`. -/
theorem length_lines (cr : α) (l : List α) : (lines cr l).length = l.count cr := by
  rw [lines, List.length_dropLast]
  induction l with
  | nil => rfl
  | cons c l ih =>
    have hne : 0 < (l.splitOn cr).length := List.length_pos_iff.mpr (List.splitOn_ne_nil _ _)
    rw [List.splitOn_cons_eq_if_modifyHead, List.count_cons]
    split
    · rw [List.length_cons]
      omega
    · rw [List.length_modifyHead]
      omega

end FpgaV3
