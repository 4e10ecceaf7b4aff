import FpgaV3.Impl.Mmap

/-!
# The standalone library

`fpgav3_emio.c` of the standalone platform: the register accesses are those
of the mmap driver, made with `Xil_In32` and `Xil_Out32`. There is no object;
the direction of the data lines is set by every request and checked against
what the firmware sees of the bus.

`WaitOpDone` always returns true, and no request looks at its result. Its
second loop polls without a timeout: `fuel` bounds it.
-/

namespace FpgaV3.Impl.Standalone

/-- `EMIO_Init`. -/
def init : RegProg Unit := do
  registerWrite .dirLower 0x00000000
  registerWrite .dirUpper Mmap.upperOutputs
  registerWrite .outputUpper 0x00000000
  registerWrite .outEnUpper Mmap.upperOutputs

/-- `EMIO_GetVersion`. -/
def getVersion : RegProg (BitVec 32) := do
  let upper ← registerRead .inputUpper
  return (upper &&& Bits.version) >>> 28

/-- The first loop of `WaitOpDone`, `n` iterations being left: whether all were
used, and the last sample. -/
def firstLoop : Nat → BitVec 32 → RegProg (Bool × BitVec 32)
  | 0, upper => return (true, upper)
  | n + 1, upper =>
    if upper &&& Bits.opDone = 0 then do
      let upper ← registerRead .inputUpper
      firstLoop n upper
    else return (false, upper)

/-- The second loop of `WaitOpDone`. -/
def secondLoop : Nat → BitVec 32 → RegProg Unit
  | 0, _ => .stop
  | fuel + 1, upper =>
    if upper &&& Bits.opDone = 0 then do
      let upper ← registerRead .inputUpper
      secondLoop fuel upper
    else return ()

/-- `WaitOpDone`. -/
def waitOpDone (fuel num : Nat) : RegProg Bool := do
  let (out, upper) ← firstLoop num 0
  .onlyIf out (secondLoop fuel upper)
  return true

/-- `setDataInput`. -/
def setDataInput : RegProg Bool := do
  registerWrite .dirLower 0x00000000
  let upper ← registerRead .inputUpper
  return upper &&& (Bits.requestBus ||| Bits.write) = 0

/-- `setDataOutput`. -/
def setDataOutput : RegProg Bool := do
  registerWrite .dirLower 0xffffffff
  registerWrite .outEnLower 0xffffffff
  let upper ← registerRead .inputUpper
  return upper &&& (Bits.requestBus ||| Bits.write) = Bits.write

/-- `EMIO_ReadQuadlet`: the word read, if it returns true. -/
def readQuadlet (fuel : Nat) (addr : BitVec 16) : RegProg (Option (BitVec 32)) := do
  let ok ← setDataInput
  if ok then
    let outreg := addr.setWidth 32
    registerWrite .outputUpper (outreg ||| Bits.requestBus)
    let _ ← waitOpDone fuel 5
    let data ← registerRead .inputLower
    registerWrite .outputUpper 0x00000000
    return some data
  else return none

/-- `EMIO_WriteQuadlet`. -/
def writeQuadlet (fuel : Nat) (addr : BitVec 16) (data : BitVec 32) : RegProg Bool := do
  let ok ← setDataOutput
  if ok then
    registerWrite .outputLower data
    let outreg := addr.setWidth 32
    registerWrite .outputUpper (outreg ||| Bits.regWen ||| Bits.requestBus)
    let _ ← waitOpDone fuel 5
    registerWrite .outputUpper 0x00000000
    return true
  else return false

/-- `EMIO_ReadBlock`, storing the words in the caller's `data`. -/
def readBlock (fuel : Nat) (addr : BitVec 16) (nBytes : BitVec 32) : RegProg Bool := do
  let ver ← getVersion
  if ver ≠ 1 then return false
  let ok ← setDataInput
  if ok then
    let outreg := addr.setWidth 32 ||| Bits.blkStart ||| Bits.requestBus
    let _ ← blockLoop (fun _ => return ()) (waitOpDone fuel 5)
      (fun q => do
        let val ← registerRead .inputLower
        store q val)
      (nQuads nBytes) (nQuads nBytes) 0 addr outreg
    registerWrite .outputUpper 0
    return true
  else return false

/-- `EMIO_WriteBlock`, loading the words from the caller's `data`. -/
def writeBlock (fuel : Nat) (addr : BitVec 16) (nBytes : BitVec 32) : RegProg Bool := do
  let ver ← getVersion
  if ver ≠ 1 then return false
  let ok ← setDataOutput
  if ok then
    let outreg := addr.setWidth 32 ||| Bits.blkStart ||| Bits.requestBus
    let _ ← blockLoop
      (fun q => do
        let val ← load q
        registerWrite .outputLower val)
      (waitOpDone fuel 5) (fun _ => return ())
      (nQuads nBytes) (nQuads nBytes) 0 addr outreg
    registerWrite .outputUpper 0
    return true
  else return false

/-- A request, and whether it returned true. -/
def exec (fuel : Nat) : Request → RegProg Bool
  | .readQuadlet addr => do
    let data ← readQuadlet fuel addr
    return data.isSome
  | .writeQuadlet addr data => writeQuadlet fuel addr data
  | .readBlock addr nBytes => readBlock fuel addr nBytes
  | .writeBlock addr nBytes => writeBlock fuel addr nBytes

end FpgaV3.Impl.Standalone
