import FpgaV3.Impl.Interface

/-!
# `EMIO_Interface_Mmap`

The driver that maps the GPIO registers (`fpgav3_emio_mmap.cpp`). Its calls
are the register accesses, the clock readings and the accesses to the block
data of the caller (`data[q]`).

The wait for `op_done` has no bound of its own if the clock does not advance:
`fuel` bounds the number of its iterations (`stop` when it is used up). The
two block loops do the same to `outreg`, `addr` and the bus, and differ in
what they do before an access is requested and after it is acknowledged;
`blockLoop` takes these as parameters.
-/

namespace FpgaV3.Impl

/-- The registers of `EMIO_Reg`, and the clock control register. -/
inductive Reg where
  | outputLower | outputUpper | inputLower | inputUpper
  | dirLower | outEnLower | dirUpper | outEnUpper | aperClkCtrl
deriving DecidableEq

/-- Their values: the offsets of the registers. -/
def Reg.offset : Reg → Nat
  | .outputLower => 0x48
  | .outputUpper => 0x4c
  | .inputLower => 0x68
  | .inputUpper => 0x6c
  | .dirLower => 0x284
  | .outEnLower => 0x288
  | .dirUpper => 0x2c4
  | .outEnUpper => 0x2c8
  | .aperClkCtrl => 0x12c

/-! `EMIO_Bits`, the bit masks for the upper EMIO bits. -/

namespace Bits

def regAddr : BitVec 32 := 0x0000ffff
def requestBus : BitVec 32 := 0x00010000
def opDone : BitVec 32 := 0x00020000
def regWen : BitVec 32 := 0x00040000
def blkStart : BitVec 32 := 0x00080000
def blkEnd : BitVec 32 := 0x00100000
def write : BitVec 32 := 0x00200000
def grantBus : BitVec 32 := 0x00400000
def lsb : BitVec 32 := 0x00800000
def version : BitVec 32 := 0xf0000000

end Bits

/-- The calls of the drivers that access the GPIO registers. -/
inductive RegOp where
  | openMem
  | mmapInit (base_addr : BitVec 32) (size : BitVec 16)
  | munmap (size : BitVec 16)
  | regRead (r : Reg)
  | regWrite (r : Reg) (v : BitVec 32)
  | getCurTime
  | load (q : Nat)
  | store (q : Nat) (v : BitVec 32)
deriving DecidableEq

/-- Their answers: whether a region was opened or mapped, the value read. -/
@[reducible] def RegOp.Ans : RegOp → Type
  | .openMem | .mmapInit _ _ => Bool
  | .regRead _ | .load _ => BitVec 32
  | .getCurTime => Timespec
  | .munmap _ | .regWrite _ _ | .store _ _ => Unit

abbrev RegEvent := Event RegOp RegOp.Ans

abbrev RegProg := Prog RegOp RegOp.Ans

def registerRead (r : Reg) : RegProg (BitVec 32) := .perform (RegOp.regRead r)
def registerWrite (r : Reg) (v : BitVec 32) : RegProg Unit := .perform (RegOp.regWrite r v)
def load (q : Nat) : RegProg (BitVec 32) := .perform (RegOp.load q)
def store (q : Nat) (v : BitVec 32) : RegProg Unit := .perform (RegOp.store q v)

/-- `blk_start` is replaced by `blk_end` for the last quadlet. -/
def markLast (nQuads q : Nat) (outreg : BitVec 32) : BitVec 32 :=
  if q = nQuads - 1 then (outreg &&& ~~~Bits.blkStart) ||| Bits.blkEnd else outreg

/-- The LSB line follows the address. -/
def updateLsb (addr : BitVec 16) (outreg : BitVec 32) : BitVec 32 :=
  if addr &&& 0x0001 ≠ 0 then outreg ||| Bits.lsb else outreg &&& ~~~Bits.lsb

/-- The block loop from quadlet `q` on, `n` quadlets being left: `ready q`
before the access is requested, `done q` once it is acknowledged. -/
def blockLoop (ready : Nat → RegProg Unit) (wait : RegProg Bool) (done : Nat → RegProg Unit)
    (nQuads : Nat) : (n q : Nat) → (addr : BitVec 16) → (outreg : BitVec 32) → RegProg Bool
  | 0, _, _, _ => return true
  | n + 1, q, addr, outreg => do
    ready q
    let outreg := updateLsb addr (markLast nQuads q outreg)
    registerWrite .outputUpper outreg
    let ok ← wait
    if ok then
      done q
      blockLoop ready wait done nQuads n (q + 1) (addr + 1) outreg
    else
      registerWrite .outputUpper 0
      return false

namespace Mmap

def SLCR_BASE_ADDR : BitVec 32 := 0xF8000000
def APER_CLK_CTRL : BitVec 16 := 0x012C
def GPIO_CLK_BIT : BitVec 32 := 1 <<< 22
def GPIO_BASE_ADDR : BitVec 32 := 0xE000A000
def GPIO_SIZE : BitVec 16 := 0x02E8

/-- The upper bits that are outputs. -/
def upperOutputs : BitVec 32 :=
  Bits.regAddr ||| Bits.requestBus ||| Bits.regWen ||| Bits.blkStart ||| Bits.blkEnd ||| Bits.lsb

/-- Sets the clock bit, if it is not. -/
def setClock : RegProg Unit := do
  let aper_clk_reg ← registerRead .aperClkCtrl
  if aper_clk_reg &&& GPIO_CLK_BIT = 0 then
    registerWrite .aperClkCtrl (aper_clk_reg ||| GPIO_CLK_BIT)
  else return ()

/-- `Init`, on a newly constructed object. -/
def init (s : Interface) : RegProg (Bool × Interface) := do
  if !(← .perform RegOp.openMem) then return (false, s)
  if !(← .perform (RegOp.mmapInit SLCR_BASE_ADDR (APER_CLK_CTRL + 4))) then return (false, s)
  setClock
  .perform (RegOp.munmap (APER_CLK_CTRL + 4))
  if !(← .perform (RegOp.mmapInit GPIO_BASE_ADDR GPIO_SIZE)) then return (false, s)
  registerWrite .dirUpper 0
  let upper ← registerRead .inputUpper
  let s := { s with version := (upper &&& Bits.version) >>> 28 }
  if s.version > 1 then return (false, s)
  registerWrite .dirLower 0
  let s := { s with isInput := true }
  registerWrite .dirUpper upperOutputs
  registerWrite .outputUpper 0
  registerWrite .outEnUpper upperOutputs
  return (true, s)

/-- `~EMIO_Interface_Mmap`, `Init` having returned `ok`. -/
def destroy (ok : Bool) : RegProg Unit := .onlyIf ok (.perform (RegOp.munmap GPIO_SIZE))

/-- `GetCurTime`. -/
def getCurTime : RegProg Timespec := .perform RegOp.getCurTime

/-- A clock reading taken only if `doTiming > level`. -/
def timestamp (s : Interface) (level : Nat) : RegProg Unit :=
  if s.doTiming > level then do
    let _ ← getCurTime
    return ()
  else return ()

/-- `(RegisterRead(Reg_InputUpper) & Bits_OpDone)^(!state)`, as a `bool`. -/
def opdone (upper : BitVec 32) (state : Bool) : Bool :=
  (upper &&& Bits.opDone) ^^^ (if state then 0 else 1) != 0

/-- The polling loop of `WaitOpDone`, `dt` being the time since `waitStart`. -/
def pollLoop (timeout : Int) (state : Bool) (waitStart : Timespec) : Nat → Int → RegProg Unit
  | 0, _ => .stop
  | fuel + 1, dt => do
    if dt < timeout then
      let upper ← registerRead .inputUpper
      if opdone upper state then return ()
      let curTime ← getCurTime
      pollLoop timeout state waitStart fuel (timeDiff waitStart curTime)
    else return ()

/-- `WaitOpDone`: waits for `op_done` to be set or cleared. -/
def waitOpDone (fuel : Nat) (s : Interface) (state : Bool) : RegProg Bool := do
  let upper ← registerRead .inputUpper
  if !opdone upper state then
    let waitStart ← getCurTime
    pollLoop s.timeout state waitStart fuel 0
  return true

/-- Sets the data lines to input, if they are not. -/
def setInput (s : Interface) : RegProg Interface := do
  if s.isInput then return s
  registerWrite .dirLower 0x00000000
  return { s with isInput := true }

/-- Sets the data lines to output and enables them, if they are inputs. -/
def setOutput (s : Interface) : RegProg Interface := do
  if !s.isInput then return s
  registerWrite .dirLower 0xffffffff
  registerWrite .outEnLower 0xffffffff
  return { s with isInput := false }

/-- `ReadQuadlet`: the word read, if it returns true. -/
def readQuadlet (fuel : Nat) (s : Interface) (addr : BitVec 16) :
    RegProg (Option (BitVec 32) × Interface) := do
  timestamp s 0
  let s ← setInput s
  let outreg := addr.setWidth 32
  registerWrite .outputUpper (outreg ||| Bits.requestBus)
  timestamp s 1
  let ok ← waitOpDone fuel s true
  if ok then
    timestamp s 1
    let data ← registerRead .inputLower
    registerWrite .outputUpper 0x00000000
    let _ ← waitOpDone fuel s false
    timestamp s 0
    return (some data, s)
  else
    registerWrite .outputUpper (outreg &&& ~~~Bits.requestBus)
    return (none, s)

/-- `WriteQuadlet`. -/
def writeQuadlet (fuel : Nat) (s : Interface) (addr : BitVec 16) (data : BitVec 32) :
    RegProg (Bool × Interface) := do
  timestamp s 0
  let s ← setOutput s
  registerWrite .outputLower data
  let outreg := addr.setWidth 32
  registerWrite .outputUpper (outreg ||| Bits.regWen ||| Bits.requestBus)
  timestamp s 1
  let ret ← waitOpDone fuel s true
  if ret then timestamp s 1
  registerWrite .outputUpper 0x00000000
  let _ ← waitOpDone fuel s false
  if ret then timestamp s 0
  return (true, s)

/-- `ReadBlock`, storing the words in the caller's `data`. -/
def readBlock (fuel : Nat) (s : Interface) (addr : BitVec 16) (nBytes : BitVec 32) :
    RegProg (Bool × Interface) := do
  if s.version < 1 then return (false, s)
  timestamp s 0
  let s ← setInput s
  let outreg := addr.setWidth 32 ||| Bits.blkStart ||| Bits.requestBus
  timestamp s 1
  let ok ← blockLoop (fun _ => return ()) (waitOpDone fuel s true)
    (fun q => do
      let val ← registerRead .inputLower
      store q (bswap32 val))
    (nQuads nBytes) (nQuads nBytes) 0 addr outreg
  if ok then
    timestamp s 1
    registerWrite .outputUpper 0
    let _ ← waitOpDone fuel s false
    timestamp s 0
    return (true, s)
  else return (false, s)

/-- `WriteBlock`, loading the words from the caller's `data`. -/
def writeBlock (fuel : Nat) (s : Interface) (addr : BitVec 16) (nBytes : BitVec 32) :
    RegProg (Bool × Interface) := do
  if s.version < 1 then return (false, s)
  timestamp s 0
  let s ← setOutput s
  let outreg := addr.setWidth 32 ||| Bits.blkStart ||| Bits.requestBus
  timestamp s 1
  let ok ← blockLoop
    (fun q => do
      let val ← load q
      registerWrite .outputLower (bswap32 val))
    (waitOpDone fuel s true) (fun _ => return ())
    (nQuads nBytes) (nQuads nBytes) 0 addr outreg
  if ok then
    timestamp s 1
    let _ ← waitOpDone fuel s false
    registerWrite .outputUpper 0
    timestamp s 0
    return (true, s)
  else return (false, s)

/-- A request, and whether it returned true. -/
def exec (fuel : Nat) : Request → Interface → RegProg (Bool × Interface)
  | .readQuadlet addr, s => do
    let (data, s) ← readQuadlet fuel s addr
    return (data.isSome, s)
  | .writeQuadlet addr data, s => writeQuadlet fuel s addr data
  | .readBlock addr nBytes, s => readBlock fuel s addr nBytes
  | .writeBlock addr nBytes, s => writeBlock fuel s addr nBytes

end Mmap

end FpgaV3.Impl
