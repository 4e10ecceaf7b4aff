import FpgaV3.Impl.Board

/-!
# The memory test

`memtest.c`: `memtest`, `memtest_simple`, `memtest_pat128`, `memtest_lfsr`, `memtest_all`
and the remote command of `memtest_run`, over the accesses to registers and memory, to
`err_buf`, and the output. The times, which are floating-point numbers, and the progress
bar are left out.

All tests write a word to each address, flush the caches, and compare what they read:
`writeAndRead` takes what is particular to a test as a parameter (`Test`). The counters are
natural numbers: those of one test stay below 2^29.
-/

namespace FpgaV3.Impl

inductive MemOp where
  | regRead (addr : BitVec 32)
  | regWrite (addr val : BitVec 32)
  | dCacheInvalidate
  | setErrBuf (i : Int) (val : BitVec 32)
  | printf (fmt : String) (args : List Arg)

/-- Their answers: the word read. -/
@[reducible] def MemOp.Ans : MemOp → Type
  | .regRead _ => BitVec 32
  | .regWrite _ _ | .dCacheInvalidate | .setErrBuf _ _ | .printf _ _ => Unit

abbrev MemEvent := Event MemOp MemOp.Ans

abbrev MemProg := Prog MemOp MemOp.Ans

namespace Memtest

def MAILBOX_DONE : BitVec 32 := 0xF8001028
def MAILBOX_STAT : BitVec 32 := 0xF800102C
def MAILBOX_START : BitVec 32 := 0xF8001030
def MAILBOX_SIZE : BitVec 32 := 0xF8001034
def MAILBOX_RESULT : BitVec 32 := 0xF8001038
def MAILBOX_MODE : BitVec 32 := 0xF800104C

def ERR_INFO : BitVec 32 := 0xE000B080

def TIMER : BitVec 32 := 0xF8002000

/-- `DDR_LOW_BASE`, the address of `ddrc_ctrl`. -/
def R00 : BitVec 32 := 0xF8006000

def regRead (addr : BitVec 32) : MemProg (BitVec 32) := .perform (MemOp.regRead addr)
def regWrite (addr val : BitVec 32) : MemProg Unit := .perform (MemOp.regWrite addr val)
def dCacheInvalidate : MemProg Unit := .perform MemOp.dCacheInvalidate
def setErrBuf (i : Int) (val : BitVec 32) : MemProg Unit := .perform (MemOp.setErrBuf i val)
def printf (fmt : String) (args : List Arg) : MemProg Unit := .perform (MemOp.printf fmt args)

/-- A counter as an argument of `printf`. -/
def count (n : Nat) : Arg := .word (BitVec.ofNat 32 n)

/-- The global variables. -/
structure Globals where
  werr : Nat := 0
  epp : BitVec 32 := 0
  errcnt : Fin 4 → Nat := fun _ => 0
  qmask : BitVec 32 := 0xffffffff
  bus_width : Nat := 32
  verbose : BitVec 32 := 1
  rseed : BitVec 32 := 0
  memtest_stat : Bool := true
  pat1 : Nat → BitVec 32 := fun _ => 0
  pat2 : Nat → BitVec 32 := fun _ => 0

/-- `YLFSR`, the bits of an `int` being those of its arithmetic shift. -/
def YLFSR (a : BitVec 32) : BitVec 32 :=
  (a <<< 1) + (((a.sshiftRight 30 &&& 1) ^^^ (a.sshiftRight 27 &&& 1)) ^^^ 1)

def calcValue (lfsr : BitVec 32) : BitVec 32 :=
  let lsb := (lfsr.sshiftRight 30 &&& 1) ^^^ (lfsr.sshiftRight 27 &&& 1)
  let lsb := lsb ^^^ 1
  (lfsr <<< 1) + lsb

def timerInit : MemProg Unit := do
  regWrite TIMER 0x1f
  regWrite (TIMER + 0x0c) 0x30

def timerRead : MemProg (BitVec 32) := regRead (TIMER + 0x18)

/-! ## Errors -/

/-- `error_info`, the number of errors being `werr`: nothing checks that there is one. -/
def errorInfo (werr : Nat) (addr wrdat rddat : BitVec 32) : MemProg Unit := do
  .onlyIf (werr ≤ 1) do
    regWrite ERR_INFO addr
    regWrite (ERR_INFO + 4) wrdat
    regWrite (ERR_INFO + 8) rddat
  .onlyIf (werr ≤ 80) do
    let n : Int := werr - 1
    setErrBuf (3 * n) addr
    setErrBuf (3 * n + 1) wrdat
    setErrBuf (3 * n + 2) rddat

/-- The counters of one test. -/
structure Counts where
  merr : Nat := 0
  lerrcnt : Fin 4 → Nat := fun _ => 0

/-- The byte of lane `j`. -/
def laneMask (j : Fin 4) : BitVec 32 := 0xff#32 <<< (8 * j.val)

/-- An error is counted, in each lane where it is seen. -/
def Counts.count (c : Counts) (data ref : BitVec 32) : Counts where
  merr := c.merr + 1
  lerrcnt j := if data &&& laneMask j ≠ ref &&& laneMask j then c.lerrcnt j + 1 else c.lerrcnt j

/-- There are lots of errors: `memtest` alone does not look first whether there is one. -/
def Counts.exhausted (c : Counts) : Bool := decide (∀ j, c.lerrcnt j > 1000)

/-! ## Writing and comparing -/

/-- What is particular to a test: the letter in its messages, its mode, the word for the
`q`-th address, with the random value before and after it, the first random value, the
address that is given to `error_info`, and the words after which the errors are looked
at. -/
structure Test where
  letter : String
  mode : Nat
  gen : BitVec 32 → Nat → BitVec 32 × BitVec 32
  randval : BitVec 32 := 0
  logged : BitVec 32 → Nat → BitVec 32 := fun addr _ => addr
  checked : Nat → Bool := fun _ => true

/-- The address of the `q`-th word. -/
def wordAddr (start : BitVec 32) (q : Nat) : BitVec 32 := start + BitVec.ofNat 32 (4 * q)

/-- The number of iterations over `size` bytes, an `int`, in steps of `step`. -/
def steps (size : BitVec 32) (step : Nat) : Nat := (size.toInt.toNat + (step - 1)) / step

/-- The words from the `q`-th on are written, `n` being left. -/
def writePass (t : Test) (start : BitVec 32) : (n q : Nat) → (randval : BitVec 32) → MemProg Unit
  | 0, _, _ => return ()
  | n + 1, q, randval => do
    let (ref, randval) := t.gen randval q
    regWrite (wordAddr start q) ref
    writePass t start n (q + 1) randval

/-- The `q`-th word is not what was written. -/
def mismatch (t : Test) (addr : BitVec 32) (q : Nat) (data ref : BitVec 32) (c : Counts) (g : Globals) :
    MemProg (Counts × Globals) := do
  let g := { g with werr := g.werr + 1 }
  let c := c.count data ref
  .onlyIf (g.verbose &&& 8 ≠ 0 ∧ c.merr ≤ 10)
    (printf ("\rMemtest_" ++ t.letter ++ " ERROR: addr=0x%X rd/ref/xor = 0x%08X 0x%08X 0x%08X \r\n")
      [.word addr, .word data, .word ref, .word (data ^^^ ref)])
  errorInfo g.werr (t.logged addr q) ref data
  return (c, g)

/-- The `q`-th word is compared with what was written. -/
def compareWord (t : Test) (addr : BitVec 32) (q : Nat) (data ref : BitVec 32) (c : Counts) (g : Globals) :
    MemProg (Counts × Globals) :=
  if data ≠ ref then mismatch t addr q data ref c g else return (c, g)

/-- The words from the `q`-th on are read and compared, `n` being left. -/
def readPass (t : Test) (start : BitVec 32) : (n q : Nat) → (randval : BitVec 32) → Counts → Globals →
    MemProg (Counts × Globals)
  | 0, _, _, c, g => return (c, g)
  | n + 1, q, randval, c, g => do
    let (ref, randval) := t.gen randval q
    let data ← regRead (wordAddr start q)
    let (c, g) ← compareWord t (wordAddr start q) q data ref c g
    -- to save time when there are lots of errors
    if t.checked q && c.exhausted then return (c, g)
    else readPass t start n (q + 1) randval c g

/-- The test as far as the writes. -/
def writeWords (t : Test) (start : BitVec 32) (n : Nat) (g : Globals) : MemProg Unit := do
  .onlyIf g.memtest_stat (regWrite MAILBOX_STAT (100 + BitVec.ofNat 32 t.mode))
  timerInit
  writePass t start n 0 t.randval
  dCacheInvalidate

/-- The test, as far as `n` words are written and compared. -/
def writeAndRead (t : Test) (start : BitVec 32) (n : Nat) (g : Globals) : MemProg (Counts × Globals) := do
  writeWords t start n g
  readPass t start n 0 t.randval {} g

/-- The end of a test: its counts are reported, and added to the global ones. -/
def finish (t : Test) (loop : BitVec 32) (c : Counts) (g : Globals) : MemProg Globals := do
  let _ ← timerRead
  .onlyIf (g.verbose &&& 1 ≠ 0)
    (printf ("\rMemtest_" ++ t.letter ++ " (%3d:%2d)      %d         [%8d] [%8d] [%8d] [%8d]    %g\n")
      [.word loop, count t.mode, count c.merr, count (c.lerrcnt 0), count (c.lerrcnt 1), count (c.lerrcnt 2),
        count (c.lerrcnt 3)])
  return { g with
    errcnt := fun j => g.errcnt j + c.lerrcnt j
    epp := if c.merr > 0 then g.epp + 1#32 <<< t.mode else g.epp }

/-! ## The tests -/

/-- The word for each address in a block of 16 bytes is one of four, and an error in it
is logged at `addr+4+j`, `addr` being that of the block. -/
def simpleTest (mode : Nat) (dat : Nat → BitVec 32) : Test where
  letter := "s"
  mode := mode
  gen randval q := (dat (q % 4), randval)
  logged addr q := let j := q % 4; addr - BitVec.ofNat 32 (4 * j) + 4 + BitVec.ofNat 32 j
  checked q := q % 4 = 3

/-- `memtest_simple`: the four words of a block are looked at in an inner loop. -/
def memtestSimple (start size : BitVec 32) (mode : Nat) (loop d0 d1 d2 d3 : BitVec 32) (g : Globals) :
    MemProg Globals := do
  let dat := fun j => [d0 &&& g.qmask, d1 &&& g.qmask, d2 &&& g.qmask, d3 &&& g.qmask].getD j 0
  let t := simpleTest mode dat
  let n := 4 * steps size 16
  writeWords t start n g
  if loop = -1 then return g
  let (c, g) ← readPass t start n 0 t.randval {} g
  finish t loop c g

def seed (mode : Nat) (loop rseed : BitVec 32) : BitVec 32 := 0x12345678 + loop + BitVec.ofNat 32 (19 * mode) + rseed

def lfsrTest (mode : Nat) (loop qmask rseed : BitVec 32) : Test where
  letter := "l"
  mode := mode
  gen randval _ := let randval := YLFSR randval; (randval &&& qmask, randval)
  randval := seed mode loop rseed

def memtestLfsr (start size : BitVec 32) (mode : Nat) (loop : BitVec 32) (g : Globals) : MemProg Globals := do
  let g := { g with rseed := g.rseed + 0x017c1e23 }
  let t := lfsrTest mode loop g.qmask g.rseed
  let (c, g) ← writeAndRead t start (steps size 4) g
  finish t loop c g

def pat128Test (mode : Nat) (pat : Nat → BitVec 32) (qmask : BitVec 32) : Test where
  letter := "p"
  mode := mode
  gen randval q := (pat (q % 128) &&& qmask, randval)

def memtestPat128 (start size : BitVec 32) (mode : Nat) (loop : BitVec 32) (pat : Nat → BitVec 32) (g : Globals) :
    MemProg Globals := do
  let t := pat128Test mode pat g.qmask
  let (c, g) ← writeAndRead t start (steps size 4) g
  finish t loop c g

/-- `pattern1`, for a 32-bit memory. -/
def pattern1 : List (BitVec 32) := [
  0x00000000, 0x00000000, 0xFFFFFFFF, 0x00000000,
  0x00000000, 0xFFFFFFFF, 0x00000000, 0xFFFFFFFF,
  0xFFFFFFFF, 0xFFFFFFFF, 0x00000000, 0xFFFFFFFF,
  0xFFFFFFFF, 0x00000000, 0xFFFFFFFF, 0x00000000]

/-- `pattern1_16bit`, for a 16-bit memory. -/
def pattern1_16bit : List (BitVec 32) := [
  0x00000000, 0x0000FFFF, 0xFFFF0000, 0xFFFF0000,
  0xFFFFFFFF, 0xFFFF0000, 0x0000FFFF, 0x0000FFFF,
  0x00000000, 0x0000FFFF, 0xFFFF0000, 0xFFFF0000,
  0xFFFFFFFF, 0xFFFF0000, 0x0000FFFF, 0x0000FFFF]

def invertmask : List (BitVec 32) := [
  0x01010101, 0x02020202, 0x04040404, 0x08080808,
  0x10101010, 0x20202020, 0x40404040, 0x80808080]

/-- The word of `memtest` for the `q`-th address, and the next random value. -/
def memtestGen (start : BitVec 32) (mode : Nat) (qmask randval : BitVec 32) (q : Nat) : BitVec 32 × BitVec 32 :=
  let odd := q % 2 = 1
  match mode with
  | 0 => (wordAddr start q &&& qmask, randval)
  | 1 => (0, randval)
  | 2 => (0xffffffff, randval)
  | 3 => (0xAAAAAAAA, randval)
  | 4 => (0x55555555, randval)
  | 5 => (if odd then 0xffffffff else 0, randval)
  | 6 => (if odd then 0 else 0xffffffff, randval)
  | 7 => (if odd then 0xaaaaaaaa else 0x55555555, randval)
  | 8 => (if odd then 0x55555555 else 0xaaaaaaaa, randval)
  | 9 => (pattern1.getD (q % 16) 0, randval)
  | 10 => (pattern1.getD (q % 16) 0 ^^^ invertmask.getD (q / 16 % 8) 0, randval)
  | _ => let randval := calcValue randval; (randval, randval)

def memtestTest (start : BitVec 32) (mode : Nat) (loop qmask : BitVec 32) : Test where
  letter := "0"
  mode := mode
  gen := memtestGen start mode qmask
  randval := seed mode loop 0

/-- `memtest`: the caches are flushed after the reads too. -/
def memtest (start size : BitVec 32) (mode : Nat) (loop : BitVec 32) (g : Globals) : MemProg Globals := do
  let t := memtestTest start mode loop g.qmask
  let (c, g) ← writeAndRead t start (steps size 4) g
  dCacheInvalidate
  finish t loop c g

/-! ## memtest_all -/

/-- Tests 5 to 8 are others for a bus of 16 bits. -/
def busTests (bus_width : Nat) (start size lp : BitVec 32) : List (Globals → MemProg Globals) :=
  if bus_width = 32 then
    [memtestSimple start size 5 lp 0 0xFFFFFFFF 0 0xFFFFFFFF,
     memtestSimple start size 6 lp 0xFFFFFFFF 0 0xFFFFFFFF 0,
     memtestSimple start size 7 lp 0x55555555 0xAAAAAAAA 0x55555555 0xAAAAAAAA,
     memtestSimple start size 8 lp 0xAAAAAAAA 0x55555555 0xAAAAAAAA 0x55555555]
  else
    [memtestSimple start size 5 lp 0xFFFF0000 0xFFFF0000 0xFFFF0000 0xFFFF0000,
     memtestSimple start size 6 lp 0x0000FFFF 0x0000FFFF 0x0000FFFF 0x0000FFFF,
     memtestSimple start size 7 lp 0xAAAA5555 0xAAAA5555 0xAAAA5555 0xAAAA5555,
     memtestSimple start size 8 lp 0x5555AAAA 0x5555AAAA 0x5555AAAA 0x5555AAAA]

/-- The tests, in the order of their bits in `sel`. -/
def tests (bus_width : Nat) (start size lp : BitVec 32) : List (Globals → MemProg Globals) :=
  [memtest start size 0 lp,
   memtestSimple start size 1 lp 0 0 0 0,
   memtestSimple start size 2 lp 0xFFFFFFFF 0xFFFFFFFF 0xFFFFFFFF 0xFFFFFFFF,
   memtestSimple start size 3 lp 0xAAAAAAAA 0xAAAAAAAA 0xAAAAAAAA 0xAAAAAAAA,
   memtestSimple start size 4 lp 0x55555555 0x55555555 0x55555555 0x55555555] ++
  busTests bus_width start size lp ++
  [fun g => memtestPat128 start size 9 lp g.pat1 g,
   fun g => memtestPat128 start size 10 lp g.pat2 g,
   memtestLfsr start size 11 lp,
   memtestLfsr start size 12 lp,
   memtestLfsr start size 13 lp,
   memtestLfsr start size 14 lp]

/-- Test `k`, if it is selected. -/
def ifSelected (sel : BitVec 32) (k : Nat) (test : Globals → MemProg Globals) (g : Globals) : MemProg Globals :=
  if sel.getLsbD k then test g else return g

/-- Of the tests from the `k`-th on, those selected are run. -/
def selected (sel : BitVec 32) : (k : Nat) → List (Globals → MemProg Globals) → Globals → MemProg Globals
  | _, [], g => return g
  | k, test :: tests, g => do
    let g ← ifSelected sel k test g
    selected sel (k + 1) tests g

def clearErrBuf : (n j : Nat) → MemProg Unit
  | 0, _ => return ()
  | n + 1, j => do
    setErrBuf j 0
    clearErrBuf n (j + 1)

/-- `memtest_all`, `err_buf` being the address of `err_buf[0]`. -/
def memtestAll (start size sel lp err_buf : BitVec 32) (g : Globals) : MemProg Globals := do
  let g := { g with werr := 0, epp := 0 }
  errorInfo g.werr 0 0 0
  regWrite (ERR_INFO + 16) err_buf
  clearErrBuf 250 0
  let g := { g with errcnt := fun _ => 0 }
  let g ← selected sel 0 (tests g.bus_width start size lp) g
  regWrite (ERR_INFO + 24) g.epp
  return g

/-! ## The remote command -/

/-- `update_patterns` -/
def updatePatterns (g : Globals) : Globals :=
  let pattern := if g.bus_width = 32 then pattern1 else pattern1_16bit
  { g with
    pat1 := fun i => if i < 128 then pattern.getD (i % 16) 0 else g.pat1 i
    pat2 := fun i => if i < 128 then pattern.getD (i % 16) 0 ^^^ invertmask.getD (i / 16 % 8) 0 else g.pat2 i }

/-- `check_bus_width` -/
def checkBusWidth (g : Globals) : MemProg Globals := do
  let a ← regRead R00
  let bw := a.sshiftRight 2 &&& 3
  return updatePatterns { g with bus_width := if bw = 1 then 16 else 32 }

/-- A count, an `int`, limited to 16 bits. -/
def limited (n : Nat) : BitVec 32 :=
  let a := BitVec.ofNat 32 n
  if a.toInt > 0x0ffff then 0x0ffff else a

def resultAddr (i : Nat) : BitVec 32 := MAILBOX_RESULT + BitVec.ofNat 32 (4 * i)

/-- The loop of `upload_memtest_results`, over the lanes that are left. -/
def uploadLanes (errcnt : Fin 4 → Nat) : List (Fin 4) → MemProg Unit
  | [] => return ()
  | j :: js => do
    regWrite (resultAddr j) (limited (errcnt j))
    uploadLanes errcnt js

/-- `upload_memtest_results` -/
def uploadMemtestResults (g : Globals) : MemProg Unit := do
  uploadLanes g.errcnt [0, 1, 2, 3]
  regWrite (resultAddr 4) (limited g.werr)

def mbyte : BitVec 32 := 1024 * 1024

/-- The checks of the start and the size, which are an `int` each. -/
def testRange (test_start test_size : BitVec 32) : BitVec 32 × BitVec 32 :=
  let test_start := if test_start.slt mbyte then mbyte else test_start
  let test_start := if (1023 * mbyte).slt test_start then mbyte else test_start
  let test_size := if test_size.slt mbyte then mbyte else test_size
  if (1024 * mbyte).slt (test_start + test_size) then (mbyte, 16 * mbyte) else (test_start, test_size)

/-- `memtest_run` after a remote command to test a range, as far as `MAILBOX_DONE`. The
product with `mbyte`, which may overflow, is truncated. -/
def remoteMemtest (printerr err_buf : BitVec 32) (g : Globals) : MemProg Globals := do
  let g ← checkBusWidth g
  let test_start ← regRead MAILBOX_START
  let a ← regRead MAILBOX_SIZE
  let r := testRange (test_start * mbyte) ((a &&& 0x3ff) * mbyte)
  let sel ← regRead MAILBOX_MODE
  let g ← memtestAll r.1 r.2 sel 0 err_buf { g with verbose := 1 + printerr * 8 }
  uploadMemtestResults g
  let k ← regRead MAILBOX_DONE
  regWrite MAILBOX_DONE (k + 1)
  return g

end Memtest

end FpgaV3.Impl
