import Mathlib.Algebra.Group.Nat.Defs
import FpgaV3.Framework.Words
import FpgaV3.Impl.Console

/-!
# The lines and commands of the console

A line is to be read as its words: an argument is a maximal run of characters
other than spaces (`words`). A line fits if it has no more than `MAX_ARG`
arguments, none longer than `MAX_LINE`.

The number of quadlets of a `block` command is the decimal value of its argument
(`decimal`), limited to the data given and to `MAX_QUADS` (`limit`).
-/

namespace FpgaV3.Spec

open FpgaV3.Impl.Console

/-- A cell of the array. -/
def InBounds (cell : Nat × Nat) : Prop := cell.1 < MAX_ARG ∧ cell.2 ≤ MAX_LINE

/-- A call of `get_input` stores to the array only, and returns a count of its
rows. -/
def Contained (r : Input × Option (Nat × List Char)) : Prop :=
  (∀ cell ∈ r.1.stores, InBounds cell) ∧ ∀ n cs, r.2 = some (n, cs) → n ≤ MAX_ARG

/-- No argument is too long. -/
def Short (l : List Char) : Prop := ∀ w ∈ words SPACE l, w.length ≤ MAX_LINE

/-- A line that is to be read. -/
def Fits (line : List Char) : Prop := Short line ∧ (words SPACE line).length ≤ MAX_ARG

/-- A part of a line that does not make `get_input` leave it. -/
def Bearable (l : List Char) : Prop := Short l ∧ (endedWords SPACE l).length ≤ MAX_ARG

instance (l : List Char) : Decidable (Short l) :=
  inferInstanceAs (Decidable (∀ w ∈ words SPACE l, w.length ≤ MAX_LINE))

instance (line : List Char) : Decidable (Fits line) :=
  inferInstanceAs (Decidable (Short line ∧ (words SPACE line).length ≤ MAX_ARG))

instance (l : List Char) : Decidable (Bearable l) :=
  inferInstanceAs (Decidable (Short l ∧ (endedWords SPACE l).length ≤ MAX_ARG))

/-- In the first line, a space ends argument `MAX_ARG`, and something else follows:
another argument, or the end of the line. -/
def Overfull (cs : List Char) : Prop :=
  ∃ l c rest, cs = l ++ c :: rest ∧ CR ∉ l ∧ Short l ∧ (endedWords SPACE l).length = MAX_ARG ∧ c ≠ SPACE

/-- Row `i` is the string `w`. -/
def Row (argv : Argv) (i : Nat) (w : List Char) : Prop := ∀ k c, (w ++ [NUL])[k]? = some c → argv i k = c

/-- The arguments returned are `ws`. -/
structure Arguments (r : Nat × Argv) (ws : List (List Char)) : Prop where
  argc : r.1 = ws.length
  rows : ∀ i w, ws[i]? = some w → Row r.2 i w

/-- What a line is to yield: its words, or no argument if it does not fit. -/
def Yields (r : Nat × Argv) (line : List Char) : Prop :=
  (Fits line → Arguments r (words SPACE line)) ∧ (¬ Fits line → r.1 = 0)

/-! ## Commands -/

/-- The decimal value of the longest prefix of digits. -/
def decimal (str : List Char) : Nat := (str.takeWhile Char.isDigit).foldl (fun v c => 10 * v + (c.toNat - '0'.toNat)) 0

/-- The most quadlets that a `block` command of `argc` arguments transfers. -/
def limit (argc : Nat) : Nat := if argc > 3 then min (argc - 3) MAX_QUADS else MAX_QUADS

/-- One block of the `n` words given is written. -/
def WritesBlock (argv : Nat → List Char) (n : Nat) (t : Trace ConsoleOp ConsoleOp.Ans) : Prop :=
  ∃ addr data nBytes, ∃ ok : Bool, t = [⟨.writeBlock addr data nBytes, ok⟩] ∧ nBytes.toNat = 4 * n ∧
    ∀ i < n, data i = getHex (argv (3 + i))

/-- One block of `n` words is read, and if that succeeds, these are printed. -/
def ReadsBlock (n : Nat) (t : Trace ConsoleOp ConsoleOp.Ans) : Prop :=
  ∃ addr nBytes data, ∃ ok : Bool, nBytes.toNat = 4 * n ∧
    t = ⟨.readBlock addr nBytes, (ok, data)⟩ :: if ok then (List.range n).map fun i => ⟨.print (data i), ()⟩ else []

/-- The command transfers as many words as it is to, whatever `data` held: no more
than `MAX_QUADS`, of which none is left from before. -/
def Transfers (argc : Nat) (argv : Nat → List Char) : Prop :=
  ∀ data t data', (command argc argv data).Runs t data' →
    if argc > 3 then WritesBlock argv (min (decimal (argv 2)) (limit argc)) t
    else ReadsBlock (min (decimal (argv 2)) (limit argc)) t

/-- The number is not negative as an `int`, and if it does not fit in 32 bits, its
low 32 bits are at least the limit. -/
def FitsInt (argc : Nat) (str : List Char) : Prop :=
  decimal str % 2 ^ 32 < 2 ^ 31 ∧ (decimal str < 2 ^ 32 ∨ limit argc ≤ decimal str % 2 ^ 32)

end FpgaV3.Spec
