import FpgaV3.Impl.Gpiod
import FpgaV3.Impl.Init
import FpgaV3.Impl.Mmap
import FpgaV3.Framework.Embed

/-!
# `fpgav3block`

`fpgav3block.cpp`, over both drivers (`Methods`). The program is `fpgav3quad` if its name
says so. What is printed for `-v` is left out, and the array is not freed at the end.

An `unsigned long` has 32 bits.
-/

namespace FpgaV3.Impl

inductive BlockOp where
  | mmap (op : RegOp)
  | gpiod (op : GpioOp)
  | new (num : Int)
  | memset (num : Int)
  | load (q : Nat)
  | store (q : Nat) (v : BitVec 32)
  | cout (items : List Item)
deriving DecidableEq

/-- Their answers: that of the driver's call, whether `data` was allocated (if not, an
exception is thrown), the value read. -/
@[reducible] def BlockOp.Ans : BlockOp → Type
  | .mmap op => op.Ans
  | .gpiod op => op.Ans
  | .new _ => Bool
  | .load _ => BitVec 32
  | .memset _ | .store _ _ | .cout _ => Unit

abbrev BlockProg := Prog BlockOp BlockOp.Ans

namespace Block

/-! ## Strings -/

/-- `strstr(haystack, needle) != 0` -/
def strstr : (haystack needle : List Char) → Bool
  | [], needle => needle.isEmpty
  | c :: cs, needle => needle.isPrefixOf (c :: cs) || strstr cs needle

def isspace (c : Char) : Bool := c = ' ' || (9 ≤ c.toNat && c.toNat ≤ 13)

/-- The value of a digit; 36 for any other character. -/
def digitValue (c : Char) : Nat :=
  if 48 ≤ c.toNat ∧ c.toNat ≤ 57 then c.toNat - 48
  else if 97 ≤ c.toNat ∧ c.toNat ≤ 122 then c.toNat - 87
  else if 65 ≤ c.toNat ∧ c.toNat ≤ 90 then c.toNat - 55
  else 36

/-- The number that digits stand for. -/
def number (base : Nat) (digits : List Char) : Nat := digits.foldl (fun n c => base * n + digitValue c) 0

/-- The sign, and what follows. -/
def sign : List Char → Bool × List Char
  | '-' :: str => (true, str)
  | '+' :: str => (false, str)
  | str => (false, str)

/-- `0x` before a hexadecimal number is skipped. -/
def hexPrefix : List Char → List Char
  | '0' :: 'x' :: str => str
  | '0' :: 'X' :: str => str
  | str => str

/-- `strtoul(str, 0, base)`, for bases 10 and 16: `ULONG_MAX` if the number is too large. -/
def strtoul (str : List Char) (base : Nat) : BitVec 32 :=
  let (negative, str) := sign (str.dropWhile isspace)
  let str := if base = 16 then hexPrefix str else str
  let n := number base (str.takeWhile fun c => digitValue c < base)
  if 2 ^ 32 ≤ n then BitVec.allOnes 32
  else if negative then -BitVec.ofNat 32 n
  else BitVec.ofNat 32 n

/-! ## The drivers -/

/-- The methods of an `EMIO_Interface` object: `init` that its constructor calls,
`destroy` its destructor. -/
structure Methods where
  init : BlockProg (Bool × Interface)
  setEventMode : Interface → Bool → BlockProg Interface
  getCurTime : BlockProg Timespec
  readQuadlet : Interface → BitVec 16 → BlockProg (Option (BitVec 32) × Interface)
  writeQuadlet : Interface → BitVec 16 → BitVec 32 → BlockProg (Bool × Interface)
  readBlock : Interface → BitVec 16 → BitVec 32 → BlockProg (Bool × Interface)
  writeBlock : Interface → BitVec 16 → BitVec 32 → BlockProg (Bool × Interface)
  destroy : BlockProg Unit

def ofMmap {α : Type} (p : RegProg α) : BlockProg α := p.embed .mmap fun _ r => r

def ofGpiod {α : Type} (p : GpioProg α) : BlockProg α := p.embed .gpiod fun _ r => r

/-- Events are not implemented. -/
def mmapMethods (fuel : Nat) : Methods where
  init := ofMmap (Mmap.init {})
  setEventMode s _ := return { s with useEvents := false }
  getCurTime := ofMmap Mmap.getCurTime
  readQuadlet s addr := ofMmap (Mmap.readQuadlet fuel s addr)
  writeQuadlet s addr data := ofMmap (Mmap.writeQuadlet fuel s addr data)
  readBlock s addr nBytes := ofMmap (Mmap.readBlock fuel s addr nBytes)
  writeBlock s addr nBytes := ofMmap (Mmap.writeBlock fuel s addr nBytes)
  destroy := ofMmap (.perform (RegOp.munmap Mmap.GPIO_SIZE))

def gpiodMethods (fuel : Nat) : Methods where
  init := ofGpiod (Gpiod.init {})
  setEventMode s newState := ofGpiod (Gpiod.setEventMode s newState)
  getCurTime := ofGpiod Gpiod.getCurTime
  readQuadlet s addr := ofGpiod (Gpiod.readQuadlet fuel s addr)
  writeQuadlet s addr data := ofGpiod (Gpiod.writeQuadlet fuel s addr data)
  readBlock s addr nBytes := ofGpiod (Gpiod.readBlock fuel s addr nBytes)
  writeBlock s addr nBytes := ofGpiod (Gpiod.writeBlock fuel s addr nBytes)
  destroy := ofGpiod do
    .perform (GpioOp.release .regData)
    .perform (GpioOp.release .regAddr)
    .perform (GpioOp.release .ctrl)
    .perform GpioOp.chipClose

/-- The clock is read twice, ten times. -/
def calibrate (m : Methods) : Nat → BlockProg Unit
  | 0 => return ()
  | n + 1 => do
    let _ ← m.getCurTime
    let _ ← m.getCurTime
    calibrate m n

/-- `SetTimingMode` -/
def setTimingMode (m : Methods) (s : Interface) (newMode : BitVec 32) : BlockProg Interface := do
  .onlyIf (newMode > 0) (calibrate m 10)
  return { s with doTiming := newMode.toNat }

/-! ## The arguments -/

/-- The variables of `main`. -/
structure Vars where
  j : Nat := 0
  args_found : Nat := 0
  addr : BitVec 16 := 0
  num : Int := 1
  data1 : BitVec 32 := 0
  useGpiod : Bool := false
  eventMode : BitVec 32 := 2
  timingMode : BitVec 32 := 0
deriving DecidableEq

def cout (items : List Item) : BlockProg Unit := .perform (BlockOp.cout items)

def chars (s : List Char) : Item := .text (s.map fun c => BitVec.ofNat 8 c.toNat)

/-- `c-'0'` -/
def modeOf (c : Char) : BitVec 32 := BitVec.ofNat 32 c.toNat - 48

/-- An argument that begins with `-`, which is left out. -/
def option (v : Vars) : List Char → Vars
  | 'g' :: _ => { v with useGpiod := true }
  | 't' :: c :: _ => { v with timingMode := modeOf c }
  | 'e' :: c :: _ => { v with eventMode := modeOf c }
  | _ => v

/-- Any other argument; `none` if an exception is thrown. -/
def argument (isQuad : Bool) (arg : List Char) (v : Vars) : BlockProg (Option Vars) := do
  if v.args_found = 0 then return some { v with addr := (strtoul arg 16).setWidth 16, args_found := v.args_found + 1 }
  else if v.args_found = 1 ∧ isQuad then return some { v with data1 := strtoul arg 16, args_found := v.args_found + 1 }
  else if v.args_found = 1 then
    let num := (strtoul arg 10).toInt
    if !(← .perform (BlockOp.new num)) then return none
    .perform (BlockOp.memset num)
    return some { v with num := num, args_found := v.args_found + 1 }
  else if !isQuad ∧ v.j < v.num then
    .perform (BlockOp.store v.j (bswap32 (strtoul arg 16)))
    return some { v with j := v.j + 1, args_found := v.args_found + 1 }
  else
    cout [.text (text "Warning: extra parameter: "), chars arg]
    return some { v with args_found := v.args_found + 1 }

def arguments (isQuad : Bool) : List (List Char) → Vars → BlockProg (Option Vars)
  | [], v => return some v
  | ('-' :: arg) :: args, v => arguments isQuad args (option v arg)
  | arg :: args, v => do
    match ← argument isQuad arg v with
    | none => return none
    | some v => arguments isQuad args v

/-! ## main -/

def usage (isQuad : Bool) (name : List Char) : BlockProg Unit := do
  cout [.text (text "Usage: "), chars name, .text (text " [-v] [-g] [-e<n>] [-t<n>] <address in hex> ")]
  if isQuad then cout [.text (text "[value to write in hex]")]
  else cout [.text (text "<address in hex> <number of quadlets> [write data quadlets in hex]")]
  cout [.text (text "       where -v is for verbose output")]
  cout [.text (text "             -g specifies to use gpiod interface")]
  cout [.text (text "             -e<n> is to use polling (0) or events (1)")]
  cout [.text (text "             -t<n> is for timing measurement: 0 (no timing), 1 (total time only), 2+ (all timing)")]

/-- A word is printed. -/
def coutWord (w : BitVec 32) : BlockProg Unit := cout [.text (text "0x"), .hex w]

/-- The words of the array from `j` on, `n` being left. -/
def coutData : (n j : Nat) → BlockProg Unit
  | 0, _ => return ()
  | n + 1, j => do
    let data ← .perform (BlockOp.load j)
    coutWord (bswap32 data)
    coutData n (j + 1)

/-- `4*num`, as an `unsigned int`. -/
def nBytes (num : Int) : BitVec 32 := BitVec.ofInt 32 (4 * num)

/-- The data are read, and printed if there is no error. -/
def readData (m : Methods) (v : Vars) (emio : Interface) : BlockProg Unit := do
  if v.num = 1 then
    let (data1, _) ← m.readQuadlet emio v.addr
    match data1 with
    | some data1 => coutWord data1
    | none => return ()
  else if v.num > 1 then
    let (ok, _) ← m.readBlock emio v.addr (nBytes v.num)
    if ok then coutData v.num.toNat 0
    else return ()
  else return ()

/-- The word that is written, if there is one. -/
def wordData (isQuad : Bool) (v : Vars) : BlockProg (BitVec 32) :=
  if isQuad then return v.data1
  else .perform (BlockOp.load 0)

/-- The word or the words are written. -/
def transfer (m : Methods) (isQuad : Bool) (v : Vars) (emio : Interface) : BlockProg Bool := do
  if v.num = 1 then
    let data1 ← wordData isQuad v
    let (ret, _) ← m.writeQuadlet emio v.addr data1
    return ret
  else if v.num > 1 then
    let (ret, _) ← m.writeBlock emio v.addr (nBytes v.num)
    return ret
  else return false

def writeData (m : Methods) (isQuad : Bool) (v : Vars) (emio : Interface) : BlockProg Unit := do
  let ret ← transfer m isQuad v emio
  .onlyIf (!ret) (cout [.text (text "Write failed")])

/-- The mode of waiting, if one was given. -/
def setMode (m : Methods) (eventMode : BitVec 32) (emio : Interface) : BlockProg Interface :=
  if eventMode = 0 then m.setEventMode emio false
  else if eventMode = 1 then m.setEventMode emio true
  else return emio

/-- The rest of `main`, after the arguments. -/
def access (m : Methods) (isQuad : Bool) (v : Vars) : BlockProg Int := do
  let (ok, emio) ← m.init
  if !ok then
    cout [.text (text "Error initializing EMIO bus interface")]
    return -1
  let emio ← setMode m v.eventMode emio
  let emio ← setTimingMode m emio v.timingMode
  if (isQuad ∧ v.args_found = 1) ∨ (!isQuad ∧ v.args_found ≤ 2) then readData m v emio
  else writeData m isQuad v emio
  m.destroy
  return 0

/-- `main`, with the name of the program and the other arguments; `none` if an exception
ends it. -/
def main (fuel : Nat) (name : List Char) (args : List (List Char)) : BlockProg (Option Int) := do
  let isQuad := strstr name "fpgav3quad".toList
  match ← arguments isQuad args {} with
  | none => return none
  | some v =>
    if v.args_found < 1 then
      usage isQuad name
      return some 0
    let ret ← access (if v.useGpiod then gpiodMethods fuel else mmapMethods fuel) isQuad v
    return some ret

end Block

end FpgaV3.Impl
