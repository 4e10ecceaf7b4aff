import Mathlib.Data.List.Forall2
import FpgaV3.Proof.Console.Input

/-!
# The lines of the console

How the loop of `get_input` is left (`Outcome`): at the end of the line, with
the whole line scanned; waiting for more of it; or in the middle of a line that
is not bearable, the rest of which the next call reads. So the calls yield the
lines if and only if all of these fit (`inputs_yield_iff`). A line that does not
fit is either left unfinished, which makes the calls return more often than there
are lines (`count_le`), or has a last argument too many, which is counted.
-/

namespace FpgaV3.Proof.Console

open FpgaV3.Spec FpgaV3.Impl.Console

variable {l cs : List Char} {s : Input} {c : Char}

/-! ## Leaving the loop -/

/-- How the loop ends, the characters `l` of the line being scanned already. -/
inductive Outcome (l : List Char) : List Char → Input × Option (Bool × List Char) → Prop
  | ended {m : List Char} {s : Input} (rest : List Char) (hm : CR ∉ m) (h : Scan (l ++ m) s) :
    Outcome l (m ++ CR :: rest) (s, some (false, rest))
  | waiting {cs : List Char} {s : Input} (hcs : CR ∉ cs) (h : Scan (l ++ cs) s) : Outcome l cs (s, none)
  | broken {m : List Char} {c : Char} (s : Input) (rest : List Char) (hm : CR ∉ m ++ [c])
    (h : ¬ Bearable (l ++ (m ++ [c]))) : Outcome l (m ++ c :: rest) (s, some (true, rest))

theorem cr_not_mem_cons (hc : c ≠ CR) (h : CR ∉ l) : CR ∉ c :: l := by
  rw [List.mem_cons, not_or]
  exact ⟨hc.symm, h⟩

theorem Outcome.cons {r : Input × Option (Bool × List Char)} (hc : c ≠ CR) (h : Outcome (l ++ [c]) cs r) :
    Outcome l (c :: cs) r := by
  cases h with
  | ended rest hm h =>
    rw [List.append_assoc] at h
    exact Outcome.ended rest (cr_not_mem_cons hc hm) h
  | waiting hcs h =>
    rw [List.append_assoc] at h
    exact Outcome.waiting (cr_not_mem_cons hc hcs) h
  | broken s rest hm h =>
    rw [List.append_assoc] at h
    exact Outcome.broken (m := c :: _) s rest (cr_not_mem_cons hc hm) h

theorem inputLoop_outcome (h : Scan l s) (cs : List Char) : Outcome l cs (inputLoop s cs) := by
  induction cs generalizing l s with
  | nil => exact Outcome.waiting List.not_mem_nil (by rwa [List.append_nil])
  | cons c cs ih =>
    rw [inputLoop]
    by_cases hcr : c = CR
    · rw [if_pos hcr, hcr]
      exact Outcome.ended (m := []) cs List.not_mem_nil (by rwa [List.append_nil])
    · rw [if_neg hcr]
      dsimp only
      rcases inputChar_scan h c with ⟨hgo, hscan⟩ | ⟨hstop, hunb⟩
      · rw [if_neg (by rw [hgo]; decide)]
        exact (ih hscan).cons hcr
      · rw [if_pos hstop]
        exact Outcome.broken (m := []) _ cs (cr_not_mem_cons hcr List.not_mem_nil) hunb

/-! ## One line -/

theorem length_endedWords_le (l : List Char) : (endedWords SPACE l).length ≤ (words SPACE l).length := by
  rw [words_eq, List.length_append]
  exact Nat.le_add_right _ _

theorem bearable_of_fits (h : Fits l) : Bearable l := ⟨h.1, Nat.le_trans (length_endedWords_le l) h.2⟩

theorem bearable_of_snoc (h : Bearable (l ++ [c])) : Bearable l :=
  ⟨short_of_snoc h.1, Nat.le_trans (length_endedWords_snoc c l) h.2⟩

theorem bearable_of_append (l' : List Char) (h : Bearable (l ++ l')) : Bearable l := by
  induction l' generalizing l with
  | nil => rwa [List.append_nil] at h
  | cons c l' ih =>
    rw [List.append_cons] at h
    exact bearable_of_snoc (ih h)

/-- The count that a call returns at the end of a line. -/
theorem Scan.count (h : Scan l s) : (if !s.is_space then s.argc + 1 else s.argc) = (words SPACE l).length := by
  rw [h.is_space, h.argc, words_eq, List.length_append]
  by_cases hcur : currentWord SPACE l = []
  · rw [decide_eq_true hcur, if_pos hcur]
    rfl
  · rw [decide_eq_false hcur, if_neg hcur]
    rfl

/-- A call that reads a line to its end yields it if and only if it fits: a line
with one argument too many and no space after it has a count of them all. -/
theorem Scan.yields_iff {argc : Nat} (h : Scan l s) (hcount : argc = (words SPACE l).length) :
    Yields (argc, (s.store NUL).argv) l ↔ Fits l := by
  constructor
  · intro hy
    by_contra hfit
    have hzero : argc = 0 := hy.2 hfit
    refine hfit ⟨h.bearable.1, ?_⟩
    rw [← hcount, hzero]
    exact Nat.zero_le _
  · exact fun hfit => ⟨fun _ => ⟨hcount, fun _ _ hi => h.words_rows hi⟩, fun hn => absurd hfit hn⟩

/-! ## All lines -/

theorem length_rest_le {m rest : List Char} {n : Nat} (h : (m ++ c :: rest).length ≤ n + 1) : rest.length ≤ n := by
  rw [List.length_append, List.length_cons] at h
  omega

/-- The calls return at least once for each end of a line. -/
theorem count_le (n : Nat) (argv : Argv) (cs : List Char) (hn : cs.length ≤ n) :
    cs.count CR ≤ (inputs n argv cs).length := by
  induction n generalizing argv cs with
  | zero =>
    rw [List.eq_nil_of_length_eq_zero (Nat.le_zero.mp hn)]
    exact Nat.zero_le _
  | succ n ih =>
    have hout : Outcome [] cs (inputLoop { argv := argv } cs) := inputLoop_outcome (scan_nil argv) cs
    rw [inputs, getInput]
    generalize inputLoop { argv := argv } cs = r at hout
    cases hout with
    | ended rest hm h =>
      rw [List.count_append, List.count_eq_zero_of_not_mem hm, List.count_cons_self, Nat.zero_add]
      exact Nat.succ_le_succ (ih _ rest (length_rest_le hn))
    | waiting hcs h =>
      rw [List.count_eq_zero_of_not_mem hcs]
      exact Nat.zero_le _
    | broken s rest hm h =>
      rw [List.append_cons, List.count_append, List.count_eq_zero_of_not_mem hm, Nat.zero_add]
      exact Nat.le_succ_of_le (ih _ rest (length_rest_le hn))

/-- Lines that all fit have no part that is not bearable. -/
theorem bearable_part {m rest : List Char} (hm : CR ∉ m) (hfit : ∀ line ∈ lines CR (m ++ rest), Fits line)
    (hlast : Bearable (lastLine CR (m ++ rest))) : Bearable m := by
  by_cases hcr : CR ∈ rest
  · obtain ⟨r, rest', hrest, hr⟩ := List.eq_append_cons_of_mem hcr
    have hline : CR ∉ m ++ r := by
      rw [List.mem_append, not_or]
      exact ⟨hm, hr⟩
    rw [hrest, ← List.append_assoc, (lines_append hline rest').1] at hfit
    exact bearable_of_append r (bearable_of_fits (hfit _ List.mem_cons_self))
  · have hline : CR ∉ m ++ rest := by
      rw [List.mem_append, not_or]
      exact ⟨hm, hcr⟩
    rw [(lines_of_not_mem hline).2] at hlast
    exact bearable_of_append rest hlast

/-- The calls of `get_input` yield the lines received, one by one, if and only if
these fit, and the unfinished one is bearable. -/
theorem inputs_yield_iff (argv : Argv) (cs : List Char) {n : Nat} (hn : cs.length ≤ n) :
    List.Forall₂ Yields (inputs n argv cs) (lines CR cs) ↔
      (∀ line ∈ lines CR cs, Fits line) ∧ Bearable (lastLine CR cs) := by
  induction n generalizing argv cs with
  | zero =>
    rw [List.eq_nil_of_length_eq_zero (Nat.le_zero.mp hn)]
    have hnil : CR ∉ [] := List.not_mem_nil
    rw [(lines_of_not_mem hnil).1, (lines_of_not_mem hnil).2]
    exact iff_of_true List.Forall₂.nil ⟨fun _ h => absurd h List.not_mem_nil, (scan_nil argv).bearable⟩
  | succ n ih =>
    have hout : Outcome [] cs (inputLoop { argv := argv } cs) := inputLoop_outcome (scan_nil argv) cs
    rw [inputs, getInput]
    generalize inputLoop { argv := argv } cs = r at hout
    cases hout with
    | @ended m s rest hm h =>
      have hyield : Yields (if !s.is_space then s.argc + 1 else s.argc, (s.store NUL).argv) m ↔ Fits m := h.yields_iff h.count
      rw [(lines_append hm rest).1, (lines_append hm rest).2, List.forall_mem_cons, and_assoc,
        ← ih (s.store NUL).argv rest (length_rest_le hn), ← hyield]
      exact List.forall₂_cons
    | waiting hcs h =>
      rw [(lines_of_not_mem hcs).1, (lines_of_not_mem hcs).2]
      exact iff_of_true List.Forall₂.nil ⟨fun _ h => absurd h List.not_mem_nil, h.bearable⟩
    | broken s rest hm h =>
      refine iff_of_false (fun hy => ?_) fun hfit => h ?_
      · have hlen := hy.length_eq
        have hrest := count_le n s.argv rest (length_rest_le hn)
        rw [length_lines, List.append_cons, List.count_append, List.count_eq_zero_of_not_mem hm, Nat.zero_add] at hlen
        have hmore : (inputs n s.argv rest).length + 1 = rest.count CR := hlen
        omega
      · rw [List.append_cons] at hfit
        exact bearable_part hm hfit.1 hfit.2

/-- Two lines, and part of a third. -/
theorem inputs_yield_iff_two : List.Forall₂ Yields (inputs 6 (fun _ _ => NUL) ['a', SPACE, 'b', CR, CR, 'c'])
    [['a', SPACE, 'b'], []] :=
  (inputs_yield_iff (fun _ _ => NUL) ['a', SPACE, 'b', CR, CR, 'c'] (by decide)).mpr (by decide)

/-- A line with a twenty-first argument, and a command after it. -/
def rejected : List Char :=
  (List.range 21).flatMap (fun _ => ['a', SPACE]) ++ ['q', 'u', 'a', 'd', SPACE, '1', SPACE, '2', CR]

/-- The command is read as a line of its own. -/
theorem rest_is_read : ¬ List.Forall₂ Yields (inputs 60 (fun _ _ => NUL) rejected) (lines CR rejected) := by
  intro h
  exact absurd h.length_eq (by decide)

end FpgaV3.Proof.Console
