import FpgaV3.Framework.World
import FpgaV3.Spec.Console

/-!
# `get_input`

What the loop of `get_input` has read is in its variables (`Scan`): a character
that does not make it leave the line adds to that, and one that does makes the
line unbearable (`inputChar_scan`). Its stores stay within `argv` unless a
space ends argument `MAX_ARG` and something else follows
(`getInput_contained_iff`): `argc` is then `MAX_ARG`, and `argv[argc]` is stored
to before `argc` is checked.
-/

namespace FpgaV3.Proof.Console

open FpgaV3.Spec FpgaV3.Impl.Console

/-- The variables of `get_input` after the characters `l` of a line. -/
structure Scan (l : List Char) (s : Input) : Prop where
  argc : s.argc = (endedWords SPACE l).length
  numChar : s.numChar = (currentWord SPACE l).length
  is_space : s.is_space = decide (currentWord SPACE l = [])
  bearable : Bearable l
  rows : ∀ i w, (endedWords SPACE l)[i]? = some w → Row s.argv i w
  row : ∀ k c, (currentWord SPACE l)[k]? = some c → s.argv s.argc k = c

variable {l cs : List Char} {s : Input} {c : Char}

theorem scan_nil (argv : Argv) : Scan [] { argv := argv } := by
  have hwords : words SPACE [] = [] := words_nil
  refine ⟨?_, ?_, ?_, ⟨?_, ?_⟩, ?_, ?_⟩
  · rw [endedWords_nil]; rfl
  · rw [currentWord_nil]; rfl
  · rw [currentWord_nil]; rfl
  · rw [Short, hwords]
    exact fun _ h => absurd h List.not_mem_nil
  · rw [endedWords_nil]; exact Nat.zero_le _
  · rw [endedWords_nil]
    exact fun i w h => absurd_none h
  · rw [currentWord_nil]
    exact fun i w h => absurd_none h

/-! ## One character -/

theorem inputChar_space (s : Input) : inputChar s SPACE =
    if s.is_space = true then ({ s with is_space := true }, false)
    else if s.argc < MAX_ARG then
      ({ s.store NUL with argc := s.argc + 1, numChar := 0, is_space := true }, false)
    else (s.store NUL, true) := by
  unfold inputChar endArg
  cases hs : s.is_space
  · have hargc : (s.store NUL).argc = s.argc := rfl
    simp only [Bool.not_false, decide_true, Bool.and_true, if_true, hargc, Bool.false_eq_true, if_false]
    split <;> rfl
  · rfl

theorem inputChar_other (s : Input) (hc : c ≠ SPACE) : inputChar s c =
    if s.numChar < MAX_LINE then ({ s.store c with numChar := s.numChar + 1, is_space := false }, false)
    else ({ s with is_space := false }, true) := by
  unfold inputChar addChar
  simp only [decide_eq_false hc, Bool.and_false, Bool.false_eq_true, if_false, Bool.not_false, if_true]
  split <;> rfl

theorem argv_store (s : Input) (c : Char) (i k : Nat) :
    (s.store c).argv i k = if i = s.argc ∧ k = s.numChar then c else s.argv i k := rfl

/-- A store to a row beyond leaves the rows before it. -/
theorem row_store {i : Nat} {w : List Char} (h : Row s.argv i w) (hi : i ≠ s.argc) : Row (s.store c).argv i w := by
  intro k c' hk
  rw [argv_store, if_neg fun h => hi h.1]
  exact h k c' hk

/-- The next store of a row extends it. -/
theorem Scan.extend (h : Scan l s) {k : Nat} {c' : Char} (hk : (currentWord SPACE l ++ [c])[k]? = some c') :
    (s.store c).argv s.argc k = c' := by
  rw [argv_store]
  rcases Nat.lt_trichotomy k s.numChar with hlt | heq | hgt
  · rw [if_neg fun h => by omega]
    rw [h.numChar] at hlt
    rw [List.getElem?_append_left hlt] at hk
    exact h.row k c' hk
  · rw [if_pos ⟨rfl, heq⟩]
    rw [h.numChar] at heq
    rw [List.getElem?_append_right (Nat.le_of_eq heq.symm), heq, Nat.sub_self] at hk
    exact Option.some.inj hk
  · rw [h.numChar] at hgt
    have hnone : (currentWord SPACE l ++ [c])[k]? = none := by
      rw [List.getElem?_eq_none_iff, List.length_append, List.length_singleton]
      omega
    exact absurd_none (hnone.symm.trans hk)

/-- The rows of the words of a line, its end being stored. -/
theorem Scan.words_rows (h : Scan l s) {i : Nat} {w : List Char} (hi : (words SPACE l)[i]? = some w) :
    Row (s.store NUL).argv i w := by
  rw [words_eq] at hi
  rcases Nat.lt_or_ge i (endedWords SPACE l).length with hlt | hge
  · rw [List.getElem?_append_left hlt] at hi
    exact row_store (h.rows i w hi) (by rw [h.argc]; omega)
  · rw [List.getElem?_append_right hge] at hi
    split at hi
    · exact absurd_none hi
    · have hzero : i - (endedWords SPACE l).length = 0 := by
        rw [List.getElem?_eq_some_iff] at hi
        obtain ⟨hlt, -⟩ := hi
        rw [List.length_singleton] at hlt
        omega
      rw [hzero] at hi
      intro k c' hk
      rw [← Option.some.inj hi] at hk
      rw [show i = s.argc by rw [h.argc]; omega]
      exact h.extend hk

theorem short_iff : Short l ↔ (∀ w ∈ endedWords SPACE l, w.length ≤ MAX_LINE) ∧ (currentWord SPACE l).length ≤ MAX_LINE := by
  rw [Short, words_eq, List.forall_mem_append]
  refine and_congr_right fun _ => ?_
  split
  · rename_i h0
    rw [h0]
    exact iff_of_true (fun _ h => absurd h List.not_mem_nil) (Nat.zero_le _)
  · exact List.forall_mem_singleton

theorem short_of_snoc (h : Short (l ++ [c])) : Short l := by
  rw [short_iff] at h
  by_cases hc : c = SPACE
  · rw [hc, endedWords_sep] at h
    exact h.1
  · rw [endedWords_snoc hc, currentWord_snoc hc, List.length_append] at h
    exact short_iff.mpr ⟨h.1, Nat.le_of_succ_le h.2⟩

/-- A space ends the current argument. -/
theorem Scan.space (h : Scan l s) (hcur : currentWord SPACE l ≠ []) (hargc : s.argc < MAX_ARG) :
    Scan (l ++ [SPACE]) { s.store NUL with argc := s.argc + 1, numChar := 0, is_space := true } := by
  have hwords : words SPACE l = endedWords SPACE l ++ [currentWord SPACE l] := by rw [words_eq, if_neg hcur]
  have hlen : (words SPACE l).length = s.argc + 1 := by
    rw [hwords, List.length_append, List.length_singleton, h.argc]
  refine ⟨?_, ?_, ?_, ⟨?_, ?_⟩, ?_, ?_⟩
  · rw [endedWords_sep, hlen]
  · rw [currentWord_sep]; rfl
  · rw [currentWord_sep]; rfl
  · rw [short_iff, endedWords_sep, currentWord_sep]
    exact ⟨h.bearable.1, Nat.zero_le _⟩
  · rw [endedWords_sep, hlen]
    exact hargc
  · rw [endedWords_sep]
    exact fun i w hi => h.words_rows hi
  · rw [currentWord_sep]
    exact fun k c hk => absurd_none hk

/-- Further spaces are ignored. -/
theorem Scan.spaces (h : Scan l s) (hcur : currentWord SPACE l = []) : Scan (l ++ [SPACE]) { s with is_space := true } := by
  have hwords : words SPACE l = endedWords SPACE l := by rw [words_eq, if_pos hcur, List.append_nil]
  refine ⟨?_, ?_, ?_, ⟨?_, ?_⟩, ?_, ?_⟩
  · rw [endedWords_sep, hwords]
    exact h.argc
  · rw [currentWord_sep, ← hcur]
    exact h.numChar
  · rw [currentWord_sep]; rfl
  · rw [short_iff, endedWords_sep, currentWord_sep]
    exact ⟨h.bearable.1, Nat.zero_le _⟩
  · rw [endedWords_sep, hwords]
    exact h.bearable.2
  · rw [endedWords_sep, hwords]
    exact h.rows
  · rw [currentWord_sep]
    exact fun k c hk => absurd_none hk

/-- A character of an argument. -/
theorem Scan.char (h : Scan l s) (hc : c ≠ SPACE) (hnum : s.numChar < MAX_LINE) :
    Scan (l ++ [c]) { s.store c with numChar := s.numChar + 1, is_space := false } := by
  have hne : currentWord SPACE l ++ [c] ≠ [] := List.append_ne_nil_of_right_ne_nil _ (List.cons_ne_nil _ _)
  refine ⟨?_, ?_, ?_, ⟨?_, ?_⟩, ?_, ?_⟩
  · rw [endedWords_snoc hc]
    exact h.argc
  · rw [currentWord_snoc hc, List.length_append, ← h.numChar]
    rfl
  · rw [currentWord_snoc hc, decide_eq_false hne]
  · rw [short_iff, endedWords_snoc hc, currentWord_snoc hc, List.length_append, ← h.numChar]
    exact ⟨(short_iff.mp h.bearable.1).1, hnum⟩
  · rw [endedWords_snoc hc]
    exact h.bearable.2
  · rw [endedWords_snoc hc]
    intro i w hi
    have hlt : i < (endedWords SPACE l).length := (List.getElem?_eq_some_iff.mp hi).1
    exact row_store (h.rows i w hi) (by rw [h.argc]; omega)
  · rw [currentWord_snoc hc]
    exact fun k c' hk => h.extend hk

theorem unbearable_space (h : Scan l s) (hcur : currentWord SPACE l ≠ []) (hargc : ¬ s.argc < MAX_ARG) :
    ¬ Bearable (l ++ [SPACE]) := by
  intro hb
  have hlen := hb.2
  rw [endedWords_sep, words_eq, if_neg hcur, List.length_append, ← h.argc] at hlen
  exact hargc hlen

theorem unbearable_char (h : Scan l s) (hc : c ≠ SPACE) (hnum : ¬ s.numChar < MAX_LINE) : ¬ Short (l ++ [c]) := by
  intro hs
  have hlen := (short_iff.mp hs).2
  rw [currentWord_snoc hc, List.length_append, ← h.numChar] at hlen
  exact hnum hlen

/-- One more character: it is read, or makes the line unbearable. -/
theorem inputChar_scan (h : Scan l s) (c : Char) :
    ((inputChar s c).2 = false ∧ Scan (l ++ [c]) (inputChar s c).1) ∨
      ((inputChar s c).2 = true ∧ ¬ Bearable (l ++ [c])) := by
  by_cases hc : c = SPACE
  · rw [hc, inputChar_space]
    by_cases hcur : currentWord SPACE l = []
    · rw [if_pos (by rw [h.is_space, decide_eq_true hcur])]
      exact Or.inl ⟨rfl, h.spaces hcur⟩
    · rw [if_neg (by rw [h.is_space, decide_eq_false hcur]; decide)]
      by_cases hargc : s.argc < MAX_ARG
      · rw [if_pos hargc]
        exact Or.inl ⟨rfl, h.space hcur hargc⟩
      · rw [if_neg hargc]
        exact Or.inr ⟨rfl, unbearable_space h hcur hargc⟩
  · rw [inputChar_other s hc]
    by_cases hnum : s.numChar < MAX_LINE
    · rw [if_pos hnum]
      exact Or.inl ⟨rfl, h.char hc hnum⟩
    · rw [if_neg hnum]
      exact Or.inr ⟨rfl, fun hb => unbearable_char h hc hnum hb.1⟩

/-! ## The stores -/

theorem stores_store (s : Input) (c : Char) : (s.store c).stores = s.stores ++ [(s.argc, s.numChar)] := rfl

theorem inputChar_stores (s : Input) (c : Char) : ∃ new, (inputChar s c).1.stores = s.stores ++ new := by
  have hnone : s.stores = s.stores ++ [] := (List.append_nil _).symm
  by_cases hc : c = SPACE
  · rw [hc, inputChar_space]
    split
    · exact ⟨[], hnone⟩
    · split
      · exact ⟨_, stores_store s NUL⟩
      · exact ⟨_, stores_store s NUL⟩
  · rw [inputChar_other s hc]
    split
    · exact ⟨_, stores_store s c⟩
    · exact ⟨[], hnone⟩

/-- What a call stores to, it has stored to in the end. -/
theorem stores_grow (cs : List Char) {s : Input} {cell : Nat × Nat} (h : cell ∈ s.stores) :
    cell ∈ (endLine (inputLoop s cs).1 (inputLoop s cs).2).1.stores := by
  induction cs generalizing s with
  | nil => exact h
  | cons c cs ih =>
    rw [inputLoop]
    split
    · exact List.mem_append_left _ h
    · obtain ⟨new, hnew⟩ := inputChar_stores s c
      have hmem : cell ∈ (inputChar s c).1.stores := by
        rw [hnew]
        exact List.mem_append_left _ h
      dsimp only
      split
      · exact hmem
      · exact ih hmem

/-- `Overfull`, the characters `l` of the line being read already. -/
def OverfullFrom (l cs : List Char) : Prop :=
  ∃ l' c rest, cs = l' ++ c :: rest ∧ CR ∉ l' ∧ Short (l ++ l') ∧ (endedWords SPACE (l ++ l')).length = MAX_ARG ∧ c ≠ SPACE

theorem overfullFrom_cons : OverfullFrom l (c :: cs) ↔
    (Short l ∧ (endedWords SPACE l).length = MAX_ARG ∧ c ≠ SPACE) ∨ (c ≠ CR ∧ OverfullFrom (l ++ [c]) cs) := by
  constructor
  · rintro ⟨l', c', rest, hcs, hcr, hs, hlen, hc'⟩
    cases l' with
    | nil =>
      rw [List.append_nil] at hs hlen
      exact Or.inl ⟨hs, hlen, (List.cons.inj hcs).1 ▸ hc'⟩
    | cons x l' =>
      obtain ⟨rfl, rfl⟩ := List.cons.inj hcs
      rw [List.mem_cons, not_or] at hcr
      rw [List.append_cons] at hs hlen
      exact Or.inr ⟨fun h => hcr.1 h.symm, l', c', rest, rfl, hcr.2, hs, hlen, hc'⟩
  · rintro (⟨hs, hlen, hc⟩ | ⟨hcr, l', c', rest, rfl, hcr', hs, hlen, hc'⟩)
    · exact ⟨[], c, cs, rfl, List.not_mem_nil, by rwa [List.append_nil], by rwa [List.append_nil], hc⟩
    · refine ⟨c :: l', c', rest, rfl, ?_, ?_, ?_, hc'⟩
      · rw [List.mem_cons, not_or]
        exact ⟨fun h => hcr h.symm, hcr'⟩
      · rwa [List.append_cons]
      · rwa [List.append_cons]

theorem short_of_append (l' : List Char) (h : Short (l ++ l')) : Short l := by
  induction l' generalizing l with
  | nil => rwa [List.append_nil] at h
  | cons c l' ih =>
    rw [List.append_cons] at h
    exact short_of_snoc (ih h)

/-- The cell that the next character is stored to. -/
theorem inBounds_cell (h : Scan l s) (hargc : s.argc < MAX_ARG) : InBounds (s.argc, s.numChar) := by
  refine ⟨hargc, ?_⟩
  rw [h.numChar]
  exact (short_iff.mp h.bearable.1).2

theorem forall_store {c : Char} (hs : ∀ cell ∈ s.stores, InBounds cell) (hcell : InBounds (s.argc, s.numChar)) :
    ∀ cell ∈ (s.store c).stores, InBounds cell := by
  rw [stores_store, List.forall_mem_append]
  exact ⟨hs, List.forall_mem_singleton.mpr hcell⟩

/-- The rest of a call of `get_input`, no store outside the array having been
made. -/
theorem inputLoop_contained_iff (cs : List Char) {l : List Char} {s : Input} (h : Scan l s)
    (hs : ∀ cell ∈ s.stores, InBounds cell) (hfull : s.argc = MAX_ARG → currentWord SPACE l = []) :
    Contained (endLine (inputLoop s cs).1 (inputLoop s cs).2) ↔ ¬ OverfullFrom l cs := by
  induction cs generalizing l s with
  | nil =>
    refine iff_of_true ⟨hs, fun n cs h => absurd_none h⟩ ?_
    rintro ⟨l', c, rest, hcs, -⟩
    exact absurd hcs (List.append_ne_nil_of_right_ne_nil _ (List.cons_ne_nil _ _)).symm
  | cons c cs ih =>
    have hle : s.argc ≤ MAX_ARG := by
      rw [h.argc]
      exact h.bearable.2
    rw [overfullFrom_cons, not_or, inputLoop, ← h.argc]
    by_cases hcr : c = CR
    · -- the end of the line
      rw [if_pos hcr]
      constructor
      · intro hc
        have hcell := hc.1 (s.argc, s.numChar) (List.mem_append_right _ List.mem_cons_self)
        exact ⟨fun hover => absurd hover.2.1 (Nat.ne_of_lt hcell.1), fun hover => hover.1 hcr⟩
      · intro hover
        have hargc : s.argc < MAX_ARG := by
          refine Nat.lt_of_le_of_ne hle fun heq => hover.1 ⟨h.bearable.1, heq, ?_⟩
          rw [hcr]
          decide
        refine ⟨forall_store hs (inBounds_cell h hargc), fun n cs hn => ?_⟩
        have hcount : (if !s.is_space then s.argc + 1 else s.argc) = n := congrArg Prod.fst (Option.some.inj hn)
        rw [← hcount]
        split
        · exact hargc
        · exact hle
    · rw [if_neg hcr]
      by_cases hc : c = SPACE
      · -- a space is stored only as the end of an argument
        have hnext : ¬ (Short l ∧ s.argc = MAX_ARG ∧ c ≠ SPACE) ∧ ¬ (c ≠ CR ∧ OverfullFrom (l ++ [c]) cs) ↔
            ¬ OverfullFrom (l ++ [c]) cs := by
          rw [and_iff_right fun hover => hover.2.2 hc, not_and, imp_iff_right hcr]
        have hcur (l : List Char) : currentWord SPACE (l ++ [SPACE]) = [] := currentWord_sep l
        rw [hnext, hc, inputChar_space]
        by_cases hword : currentWord SPACE l = []
        · rw [if_pos (by rw [h.is_space, decide_eq_true hword])]
          exact ih (h.spaces hword) hs fun _ => hcur l
        · have hargc : s.argc < MAX_ARG := Nat.lt_of_le_of_ne hle fun heq => hword (hfull heq)
          rw [if_neg (by rw [h.is_space, decide_eq_false hword]; decide), if_pos hargc]
          exact ih (h.space hword hargc) (forall_store (c := NUL) hs (inBounds_cell h hargc)) fun _ => hcur l
      · rw [inputChar_other s hc]
        by_cases hnum : s.numChar < MAX_LINE
        · rw [if_pos hnum]
          by_cases hargc : s.argc < MAX_ARG
          · have hnext : ¬ (Short l ∧ s.argc = MAX_ARG ∧ c ≠ SPACE) ∧ ¬ (c ≠ CR ∧ OverfullFrom (l ++ [c]) cs) ↔
                ¬ OverfullFrom (l ++ [c]) cs := by
              rw [and_iff_right fun hover => absurd hover.2.1 (Nat.ne_of_lt hargc), not_and, imp_iff_right hcr]
            rw [hnext]
            exact ih (h.char hc hnum) (forall_store (c := c) hs (inBounds_cell h hargc)) fun heq => absurd heq (Nat.ne_of_lt hargc)
          · -- the store of an argument too many
            have heq : s.argc = MAX_ARG := Nat.le_antisymm hle (Nat.le_of_not_lt hargc)
            refine iff_of_false (fun hcont => hargc ?_) fun hover => hover.1 ⟨h.bearable.1, heq, hc⟩
            refine (hcont.1 (s.argc, s.numChar) (stores_grow cs ?_)).1
            exact List.mem_append_right _ List.mem_cons_self
        · -- the argument is too long
          rw [if_neg hnum]
          refine iff_of_true ⟨hs, fun n cs hn => ?_⟩ ⟨fun hover => hnum ?_, fun hover => ?_⟩
          · have hcount : 0 = n := congrArg Prod.fst (Option.some.inj hn)
            rw [← hcount]
            exact Nat.zero_le _
          · rw [h.numChar, hfull hover.2.1]
            decide
          · obtain ⟨-, l', c', rest, -, -, hshort, -⟩ := hover
            exact unbearable_char h hc hnum (short_of_append l' hshort)

/-- A call of `get_input` stores to `argv` only, and returns a count of its rows,
if and only if no space ends argument `MAX_ARG` before something else. -/
theorem getInput_contained_iff (argv : Argv) (cs : List Char) : Contained (getInput argv cs) ↔ ¬ Overfull cs :=
  inputLoop_contained_iff cs (scan_nil argv) (fun _ h => absurd h List.not_mem_nil)
    fun (h : 0 = MAX_ARG) => absurd h (by decide)

/-- Twenty arguments, a space after the last, and the end of the line. -/
def twenty : List Char := (List.range 20).flatMap (fun _ => ['a', SPACE]) ++ [CR]

/-- The end of that line is stored in row 20. -/
theorem trailing_space : ¬ Contained (getInput (fun _ _ => NUL) twenty) := by
  intro h
  have hcell : (20, 0) ∈ (getInput (fun _ _ => NUL) twenty).1.stores := by decide
  exact absurd (h.1 (20, 0) hcell).1 (by decide)

end FpgaV3.Proof.Console
