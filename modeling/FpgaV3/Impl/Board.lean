import FpgaV3.Impl.Qspi

/-!
# Board information on the standalone platform

`FpgaV3_Init_QSPI` (`fsbl_hooks.c`) and `TestBoardID` (`menu.c`), over the
functions that they call. A call of `EMIO_ReadQuadlet` that fails leaves the
variable as it is: `hw_version`, `board_status` and `status_reg` are what the
variables hold before, `status_reg` in each iteration.
-/

namespace FpgaV3.Impl

/-- An argument of `xil_printf` or `printf`. -/
inductive Arg where
  | word (w : BitVec 32)
  | text (s : String)
  | mem (mem : Mem)

inductive BoardOp where
  | emioInit
  | readQuadlet (addr : BitVec 16)
  | writePromData (data : Mem) (nBytes : Nat)
  | qspiAccess (offset length : Nat)
  | printf (fmt : String) (args : List Arg)
  | usleep (usec : Nat)

/-- Their answers: the word read, if the call returned true, and whether the flash
was read, with the buffer. -/
@[reducible] def BoardOp.Ans : BoardOp → Type
  | .emioInit | .printf _ _ | .usleep _ => Unit
  | .readQuadlet _ => Option (BitVec 32)
  | .writePromData _ _ => Bool
  | .qspiAccess _ _ => Bool × Mem

abbrev BoardEvent := Event BoardOp BoardOp.Ans

abbrev BoardProg := Prog BoardOp BoardOp.Ans

namespace Board

/-- `EMIO_ReadQuadlet(addr, &var)`, the return value being dropped. -/
def readTo (addr : BitVec 16) (var : BitVec 32) : BoardProg (BitVec 32) := do
  let data ← .perform (BoardOp.readQuadlet addr)
  return data.getD var

def printf (fmt : String) (args : List Arg) : BoardProg Unit := .perform (BoardOp.printf fmt args)

/-- `(status&0x0f000000)>>24` -/
def boardId (status : BitVec 32) : Nat := ((status &&& 0x0f000000) >>> 24).toNat

/-! ## FpgaV3_Init_QSPI -/

/-- The board information, `hw_version` having been read. -/
def boardInfo (hw_version board_status : BitVec 32) : BoardProg Unit := do
  if hw_version = 0x42434647 then
    let board_status ← readTo 0 board_status
    printf "Board ID: %d\r\n" [.word (BitVec.ofNat 32 (boardId board_status))]
    printf "Board status: %x" [.word board_status]
    .onlyIf (board_status &&& 0x00800000 ≠ 0) (printf ", No board" [])
    .onlyIf (board_status &&& 0x00400000 ≠ 0) (printf ", QLA" [])
    .onlyIf (board_status &&& 0x00200000 ≠ 0) (printf ", DQLA" [])
    .onlyIf (board_status &&& 0x00100000 ≠ 0) (printf ", DRAC" [])
    printf "\r\n" []
  else printf "Did not find BCFG firmware: %x\r\n" [.word hw_version]

/-- The serial number, copied to the FPGA and printed. -/
def serialNumber (fuel : Nat) : BoardProg Unit := do
  let (ok, sn_buff) ← .perform (BoardOp.qspiAccess 0xff0000 16)
  if ok then
    if chunk sn_buff 0 5 = Qspi.tag then
      let _ ← .perform (BoardOp.writePromData sn_buff 16)
      match Qspi.fpgaV3_Init_QSPI fuel sn_buff with
      | none => .stop
      | some r => printf "FPGA S/N: %s\r\n" [.mem fun i => r.mem (i + 5)]
    else return ()
  else printf "Failed to read from QSPI\r\n" []

/-- `FpgaV3_Init_QSPI`, of the version `version`, or `git_version` if that differs. -/
def fpgaV3_Init_QSPI (version git_version : String) (fuel : Nat) (hw_version board_status : BitVec 32) :
    BoardProg Bool := do
  printf "\r\n*** FPGA V3 ***\r\n\n" []
  printf "Software Version %s" [.text version]
  .onlyIf (git_version ≠ version) (printf " (git %s)" [.text git_version])
  printf "\r\n\n" []
  .perform BoardOp.emioInit
  let hw_version ← readTo 4 hw_version
  boardInfo hw_version board_status
  serialNumber fuel
  return true

/-! ## TestBoardID -/

/-- The variables of `TestBoardID`. -/
structure Switch where
  switchOK : BitVec 32 := 0
  last_id : Nat := 16
  prev_id : Nat := 16
  debounce : BitVec 32 := 0

/-- A sample is counted, or another count is begun. -/
def Switch.count (s : Switch) (board_id : Nat) : Switch :=
  if board_id = s.prev_id then { s with debounce := s.debounce + 1 } else { s with prev_id := board_id, debounce := 0 }

/-- The body of the loop, after `board_id` was read. -/
def check (board_id : Nat) (s : Switch) : BoardProg Switch := do
  let s := s.count board_id
  .perform (BoardOp.usleep 10000)
  if board_id ≠ s.last_id ∧ s.debounce.toInt ≥ 10 then
    let mask := 1#32 <<< board_id
    if s.switchOK &&& mask = 0 then
      printf "  Found %d\r\n" [.word (BitVec.ofNat 32 board_id)]
      return { s with switchOK := s.switchOK ||| mask, last_id := board_id, debounce := 0 }
    else return { s with last_id := board_id, debounce := 0 }
  else return s

/-- The body of the loop. -/
def sample (status_reg : BitVec 32) (s : Switch) : BoardProg Switch := do
  let status_reg ← readTo 0 status_reg
  check (boardId status_reg) s

/-- The loop, from iteration `i` on. -/
def samples (status_reg : Nat → BitVec 32) : (fuel i : Nat) → Switch → BoardProg Unit
  | 0, _, _ => .stop
  | fuel + 1, i, s =>
    if s.switchOK ≠ 0x0000ffff then do
      let s ← sample (status_reg i) s
      samples status_reg fuel (i + 1) s
    else return ()

def testBoardID (fuel : Nat) (status_reg : Nat → BitVec 32) : BoardProg Bool := do
  printf "Rotate switch to all 16 settings\r\n" []
  samples status_reg fuel 0 {}
  printf "\r\n" []
  return true

end Board

end FpgaV3.Impl
