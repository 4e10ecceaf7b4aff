import FpgaV3.Framework.Prog

/-!
# The demo console

`main.c` of the standalone demo application: the line reader `get_input`, the
number parsers, and the commands of `main`. Characters come from a list, and a
call that uses it up is waiting for more (`none`). The echo and the messages are
left out; the words that `main` prints are kept.

`argv` is a function, so a store outside the array has its effect on a row
beyond it; `Input.stores` lists the cells stored to.
-/

namespace FpgaV3.Impl.Console

def MAX_ARG : Nat := 20
def MAX_LINE : Nat := 120
def MAX_QUADS : Nat := 32

def CR : Char := Char.ofNat 13
def SPACE : Char := Char.ofNat 32
def NUL : Char := Char.ofNat 0

/-- `static char argv[MAX_ARG][MAX_LINE+1]`, and the memory beyond. -/
abbrev Argv := Nat → Nat → Char

/-- The variables of `get_input`, and the cells of `argv` stored so far. -/
structure Input where
  argv : Argv
  argc : Nat := 0
  numChar : Nat := 0
  is_space : Bool := true
  stores : List (Nat × Nat) := []

/-- `argv[argc][numChar] = c`. -/
def Input.store (s : Input) (c : Char) : Input :=
  { s with
    argv := fun i k => if i = s.argc ∧ k = s.numChar then c else s.argv i k
    stores := s.stores ++ [(s.argc, s.numChar)] }

/-- The end of an argument; `true` if the loop is left. -/
def endArg (s : Input) : Input × Bool :=
  let s := s.store NUL
  if s.argc < MAX_ARG then ({ s with argc := s.argc + 1, numChar := 0 }, false) else (s, true)

/-- A character of an argument; `true` if the loop is left. -/
def addChar (s : Input) (c : Char) : Input × Bool :=
  if s.numChar < MAX_LINE then
    let s := s.store c
    ({ s with numChar := s.numChar + 1 }, false)
  else (s, true)

/-- The body of the loop of `get_input`. -/
def inputChar (s : Input) (c : Char) : Input × Bool :=
  let (s, ignore) := if !s.is_space && c = SPACE then endArg s else (s, false)
  if ignore then (s, true)
  else
    let s := { s with is_space := c = SPACE }
    if !s.is_space then addChar s c else (s, false)

/-- The loop of `get_input`: whether it left the line unfinished, and the
characters it left; `none` if it waits for more. -/
def inputLoop : Input → List Char → Input × Option (Bool × List Char)
  | s, [] => (s, none)
  | s, c :: cs =>
    if c = CR then (s, some (false, cs))
    else
      let (s, ignore) := inputChar s c
      if ignore then (s, some (true, cs)) else inputLoop s cs

/-- What follows the loop: the count returned, and the characters left. -/
def endLine (s : Input) : Option (Bool × List Char) → Input × Option (Nat × List Char)
  | none => (s, none)
  | some (true, cs) => (s, some (0, cs))
  | some (false, cs) =>
    let s := s.store NUL
    (s, some (if !s.is_space then s.argc + 1 else s.argc, cs))

/-- `get_input`: the count it returns, and the characters it left; `none` if it
waits for more. -/
def getInput (argv : Argv) (cs : List Char) : Input × Option (Nat × List Char) :=
  let (s, r) := inputLoop { argv := argv } cs
  endLine s r

/-- The calls of `get_input` that `main` makes, `n` at most: the count each
returns, and `argv` then. -/
def inputs : (n : Nat) → Argv → List Char → List (Nat × Argv)
  | 0, _, _ => []
  | n + 1, argv, cs =>
    match getInput argv cs with
    | (_, none) => []
    | (s, some (argc, cs)) => (argc, s.argv) :: inputs n s.argv cs

/-- The value of a hexadecimal digit. -/
def hexDigit (c : Char) : Option Nat :=
  if '0' ≤ c ∧ c ≤ '9' then some (c.toNat - '0'.toNat)
  else if 'a' ≤ c ∧ c ≤ 'f' then some (10 + (c.toNat - 'a'.toNat))
  else if 'A' ≤ c ∧ c ≤ 'F' then some (10 + (c.toNat - 'A'.toNat))
  else none

/-- The value of a decimal digit. -/
def decDigit (c : Char) : Option Nat :=
  if '0' ≤ c ∧ c ≤ '9' then some (c.toNat - '0'.toNat) else none

/-- The loop of `get_hex` and `get_dec`, which ends at the first character that is
no digit. -/
def digits (base : BitVec 32) (digit : Char → Option Nat) (val : BitVec 32) : List Char → BitVec 32
  | [] => val
  | p :: ps =>
    match digit p with
    | some c => digits base digit (base * val + BitVec.ofNat 32 c) ps
    | none => val

/-- `get_hex`. -/
def getHex (str : List Char) : BitVec 32 := digits 16 hexDigit 0 str

/-- `get_dec`. -/
def getDec (str : List Char) : BitVec 32 := digits 10 decDigit 0 str

/-! ## Commands -/

/-- The memory at `data`. -/
abbrev Words := Nat → BitVec 32

/-- The calls of the commands. -/
inductive ConsoleOp where
  | readQuadlet (addr : BitVec 16)
  | writeQuadlet (addr : BitVec 16) (data : BitVec 32)
  | readBlock (addr : BitVec 16) (nBytes : BitVec 32)
  | writeBlock (addr : BitVec 16) (data : Words) (nBytes : BitVec 32)
  | print (word : BitVec 32)

/-- Their answers: the return value, and what was read. -/
@[reducible] def ConsoleOp.Ans : ConsoleOp → Type
  | .readQuadlet _ => Bool × BitVec 32
  | .readBlock _ _ => Bool × Words
  | .writeQuadlet _ _ | .writeBlock _ _ _ => Bool
  | .print _ => Unit

abbrev ConsoleProg := Prog ConsoleOp ConsoleOp.Ans

/-- Prints `data[i]`, and the `n - 1` words after it. -/
def printWords (data : Words) : (n i : Nat) → ConsoleProg Unit
  | 0, _ => return ()
  | n + 1, i => do
    .perform (ConsoleOp.print (data i))
    printWords data n (i + 1)

/-- `data[i] = get_hex(argv[3+i])` for `i` below `num`. -/
def setWords (argv : Nat → List Char) (data : Words) (num : Int) : Words :=
  fun i => if (i : Int) < num then getHex (argv (3 + i)) else data i

/-- The command `quad`. -/
def quad (argc : Nat) (argv : Nat → List Char) (data : Words) : ConsoleProg Words := do
  let addr := (getHex (argv 1)).setWidth 16
  if argc > 2 then
    let data : Words := fun i => if i = 0 then getHex (argv 2) else data i
    let _ ← .perform (ConsoleOp.writeQuadlet addr (data 0))
    return data
  else
    let (ok, val) ← .perform (ConsoleOp.readQuadlet addr)
    let data : Words := fun i => if ok ∧ i = 0 then val else data i
    if ok then .perform (ConsoleOp.print (data 0))
    return data

/-- The command `block`. -/
def block (argc : Nat) (argv : Nat → List Char) (data : Words) : ConsoleProg Words := do
  let addr := (getHex (argv 1)).setWidth 16
  -- `num` is an `int`
  let num : Int := (getDec (argv 2)).toInt
  let num := if num > MAX_QUADS then (MAX_QUADS : Int) else num
  if argc > 3 then
    let num := if num > (argc : Int) - 3 then (argc : Int) - 3 else num
    let data := setWords argv data num
    let _ ← .perform (ConsoleOp.writeBlock addr data (BitVec.ofInt 32 num * 4))
    return data
  else
    let (ok, data) ← .perform (ConsoleOp.readBlock addr (BitVec.ofInt 32 num * 4))
    if ok then printWords data num.toNat 0
    return data

/-- What `main` does with the arguments of a line: `argv` are the strings. -/
def command (argc : Nat) (argv : Nat → List Char) (data : Words) : ConsoleProg Words :=
  if argv 0 = ['q', 'u', 'a', 'd'] ∧ argc > 1 then quad argc argv data
  else if argv 0 = ['b', 'l', 'o', 'c', 'k'] ∧ argc > 2 then block argc argv data
  else return data

end FpgaV3.Impl.Console
