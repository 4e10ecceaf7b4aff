import FpgaV3.Impl.Interface

/-!
# `EMIO_Interface_Gpiod`

The driver that uses libgpiod (`fpgav3_emio_gpiod.cpp`). Its calls are those
of the library on the lines of `gpiod_info`, the clock readings and the
accesses to the block data of the caller.

Not every result of a library call is looked at: `let _ ←` is a call whose
result the source drops. Every failure inside a block ends in the same two
calls (`lower`).
-/

namespace FpgaV3.Impl

def INDEX_EMIO_START : Nat := 54

/-- The lines and bulks of `gpiod_info`, and the lines `Init` reads the version
from. -/
inductive Lines where
  | version | regData | regAddr | addrLsb | opDone | busGrant | reqBus | ctrl
deriving DecidableEq

/-- The offsets of the lines on the chip, as `Init` requests them. -/
def Lines.offsets : Lines → List Nat
  | .version => (List.range 4).map fun i => INDEX_EMIO_START + 63 - i
  | .regData => (List.range 32).map fun i => INDEX_EMIO_START + 31 - i
  | .regAddr => (List.range 16).map fun i => INDEX_EMIO_START + 47 - i
  | .reqBus => [INDEX_EMIO_START + 48]
  | .opDone => [INDEX_EMIO_START + 49]
  | .ctrl => [INDEX_EMIO_START + 50, INDEX_EMIO_START + 51, INDEX_EMIO_START + 52]
  | .busGrant => [INDEX_EMIO_START + 54]
  | .addrLsb => [INDEX_EMIO_START + 55]

/-- The calls of the driver. -/
inductive GpioOp where
  | chipOpen
  | chipClose
  | getLines (g : Lines)
  | getLine (g : Lines)
  | requestInput (g : Lines)
  | requestOutput (g : Lines) (values : List Int)
  | requestRisingEdgeEvents (g : Lines)
  | release (g : Lines)
  | setDirectionInput (g : Lines)
  | setDirectionOutput (g : Lines) (values : List Int)
  | setValue (g : Lines) (values : List Int)
  | getValue (g : Lines)
  | getValueBulk (g : Lines)
  | eventWait (g : Lines) (timeout : Int)
  | eventRead (g : Lines)
  | getCurTime
  | load (q : Nat)
  | store (q : Nat) (v : BitVec 32)
deriving DecidableEq

/-- Their answers: the return value, whether a pointer is not null, the values
of the lines. -/
@[reducible] def GpioOp.Ans : GpioOp → Type
  | .chipOpen | .getLine _ => Bool
  | .chipClose | .release _ | .store _ _ => Unit
  | .getValueBulk _ => Int × List Int
  | .getCurTime => Timespec
  | .load _ => BitVec 32
  | .getLines _ | .requestInput _ | .requestOutput _ _ | .requestRisingEdgeEvents _ | .setDirectionInput _
  | .setDirectionOutput _ _ | .setValue _ _ | .getValue _ | .eventWait _ _ | .eventRead _ => Int

abbrev GpioEvent := Event GpioOp GpioOp.Ans

abbrev GpioProg := Prog GpioOp GpioOp.Ans

namespace Gpiod

def setValue (g : Lines) (values : List Int) : GpioProg Int := .perform (GpioOp.setValue g values)
def getValueBulk (g : Lines) : GpioProg (Int × List Int) := .perform (GpioOp.getValueBulk g)
def load (q : Nat) : GpioProg (BitVec 32) := .perform (GpioOp.load q)
def store (q : Nat) (v : BitVec 32) : GpioProg Unit := .perform (GpioOp.store q v)
def getCurTime : GpioProg Timespec := .perform GpioOp.getCurTime

/-! `ctrl_lines` is `reg_wen`, `blk_start`, `blk_end`. -/

def ctrl_zero : List Int := [0, 0, 0]
def ctrl_qwrite : List Int := [1, 0, 1]
def ctrl_blkStart : List Int := [0, 1, 0]
def ctrl_blkEnd : List Int := [0, 0, 1]

/-- `reg_addr_values`, most significant bit first. -/
def addrValues (addr : BitVec 16) : List Int :=
  (List.range 16).map fun i => if addr &&& (0x8000 >>> i) ≠ 0 then 1 else 0

/-- `reg_addr_values[15]`. -/
def lsbValue (addr : BitVec 16) : Int := if addr &&& 0x0001 ≠ 0 then 1 else 0

/-- `reg_wdata_values`, most significant bit first. -/
def dataValues (data : BitVec 32) : List Int :=
  (List.range 32).map fun i => if data &&& (0x80000000 >>> i) ≠ 0 then 1 else 0

/-- The word read from lines, most significant bit first. -/
def ofValues (values : List Int) : BitVec 32 :=
  values.foldl (fun data v => (data <<< 1) ||| BitVec.ofInt 32 v) 0

/-- `SetEventMode`. -/
def setEventMode (s : Interface) (newState : Bool) : GpioProg Interface := do
  .perform (GpioOp.release .opDone)
  if newState then
    let _ ← .perform (GpioOp.requestRisingEdgeEvents .opDone)
    return { s with useEvents := newState }
  else
    let _ ← .perform (GpioOp.requestInput .opDone)
    return { s with useEvents := newState }

/-- A step of `Init` that closes the chip if it fails. -/
def orClose (s : Interface) (ok : Bool) (next : GpioProg (Bool × Interface)) : GpioProg (Bool × Interface) :=
  if ok then next else do
    .perform GpioOp.chipClose
    return (false, s)

/-- `Init`, on a newly constructed object. -/
def init (s : Interface) : GpioProg (Bool × Interface) := do
  if !(← .perform GpioOp.chipOpen) then return (false, s)
  let rc ← .perform (GpioOp.getLines .version)
  orClose s (rc = 0) do
  let rc ← .perform (GpioOp.requestInput .version)
  orClose s (rc = 0) do
  let (_, version_values) ← getValueBulk .version
  let s := { s with version := ofValues version_values }
  .perform (GpioOp.release .version)
  orClose s (¬ s.version > 1) do
  let rc ← .perform (GpioOp.getLines .regData)
  orClose s (rc = 0) do
  let rc ← .perform (GpioOp.requestInput .regData)
  orClose s (rc = 0) do
  let s := { s with isInput := true }
  let rc ← .perform (GpioOp.getLines .regAddr)
  orClose s (rc = 0) do
  let rc ← .perform (GpioOp.requestOutput .regAddr (addrValues 0))
  orClose s (rc = 0) do
  let _ ← .perform (GpioOp.getLine .addrLsb)
  let rc ← .perform (GpioOp.requestOutput .addrLsb [lsbValue 0])
  orClose s (rc = 0) do
  let ok ← .perform (GpioOp.getLine .opDone)
  orClose s ok do
  let _ ← .perform (GpioOp.getLine .busGrant)
  let _ ← .perform (GpioOp.requestRisingEdgeEvents .busGrant)
  let ok ← .perform (GpioOp.getLine .reqBus)
  orClose s ok do
  let rc ← .perform (GpioOp.requestOutput .reqBus [0])
  orClose s (rc = 0) do
  let rc ← .perform (GpioOp.getLines .ctrl)
  orClose s (rc = 0) do
  let rc ← .perform (GpioOp.requestOutput .ctrl ctrl_zero)
  orClose s (rc = 0) do
  let s ← setEventMode s s.useEvents
  return (true, s)

/-- `~EMIO_Interface_Gpiod`, of an object whose `Init` has succeeded. -/
def destroy : GpioProg Unit := do
  .perform (GpioOp.release .regData)
  .perform (GpioOp.release .regAddr)
  .perform (GpioOp.release .ctrl)
  .perform GpioOp.chipClose

/-- A clock reading taken only if `doTiming > level`. -/
def timestamp (s : Interface) (level : Nat) : GpioProg Unit :=
  if s.doTiming > level then do
    let _ ← getCurTime
    return ()
  else return ()

/-- The polling loop of `WaitOpDone`: the last value of the line. -/
def pollLoop (timeout : Int) (waitStart : Timespec) : Nat → Int → Int → GpioProg Int
  | 0, _, _ => .stop
  | fuel + 1, val, dt =>
    if val ≤ 0 ∧ dt < timeout then do
      let val ← .perform (GpioOp.getValue .opDone)
      let curTime ← getCurTime
      pollLoop timeout waitStart fuel val (timeDiff waitStart curTime)
    else return val

/-- `WaitOpDone`. -/
def waitOpDone (fuel : Nat) (s : Interface) : GpioProg Bool :=
  if s.useEvents then do
    let rc ← .perform (GpioOp.eventWait .opDone s.timeout)
    if rc = 1 then
      let rc ← .perform (GpioOp.eventRead .opDone)
      return rc = 0
    else return false
  else do
    let val ← .perform (GpioOp.getValue .opDone)
    if val ≤ 0 then
      let waitStart ← getCurTime
      let val ← pollLoop s.timeout waitStart fuel val 0
      return val = 1
    else return val = 1

/-- Sets the data lines to input, if they are not. -/
def setInput (s : Interface) : GpioProg (Bool × Interface) :=
  if s.isInput then return (true, s)
  else do
    let rc ← .perform (GpioOp.setDirectionInput .regData)
    if rc = 0 then return (true, { s with isInput := true }) else return (false, s)

/-- Sets the data lines to output, with the values given, if they are inputs. -/
def setOutput (s : Interface) (values : List Int) : GpioProg (Bool × Interface) :=
  if s.isInput then do
    let rc ← .perform (GpioOp.setDirectionOutput .regData values)
    if rc = 0 then return (true, { s with isInput := false }) else return (false, s)
  else return (true, s)

/-- Lowers `req_bus` and the control lines. -/
def lower : GpioProg Unit := do
  let _ ← setValue .reqBus [0]
  let _ ← setValue .ctrl ctrl_zero

/-- `ReadQuadlet`: the word read, if it returns true. -/
def readQuadlet (fuel : Nat) (s : Interface) (addr : BitVec 16) :
    GpioProg (Option (BitVec 32) × Interface) := do
  timestamp s 0
  let (ok, s) ← setInput s
  if ok then
    let _ ← setValue .regAddr (addrValues addr)
    let _ ← setValue .ctrl ctrl_zero
    let _ ← setValue .reqBus [1]
    timestamp s 1
    let ok ← waitOpDone fuel s
    if ok then
      timestamp s 1
      let (ret, reg_rdata_values) ← getValueBulk .regData
      let _ ← setValue .reqBus [0]
      if ret = 0 then
        timestamp s 0
        return (some (ofValues reg_rdata_values), s)
      else return (none, s)
    else
      let _ ← setValue .reqBus [0]
      return (none, s)
  else return (none, s)

/-- `WriteQuadlet`. -/
def writeQuadlet (fuel : Nat) (s : Interface) (addr : BitVec 16) (data : BitVec 32) :
    GpioProg (Bool × Interface) := do
  timestamp s 0
  -- the values are written with the direction, or by themselves
  .onlyIf (!s.isInput) do
    let _ ← setValue .regData (dataValues data)
  let (ok, s) ← setOutput s (dataValues data)
  if ok then
    let _ ← setValue .regAddr (addrValues addr)
    let _ ← setValue .ctrl ctrl_qwrite
    let _ ← setValue .reqBus [1]
    timestamp s 1
    let ret ← waitOpDone fuel s
    .onlyIf ret (timestamp s 1)
    lower
    .onlyIf ret (timestamp s 0)
    return (ret, s)
  else return (false, s)

/-- Presents quadlet `q` of a `ReadBlock`, if it is not the first; `lsb` is
that of its address. -/
def readNext (nQuads q : Nat) (lsb : Int) : GpioProg Bool :=
  if q > 0 then do
    if q = nQuads - 1 then
      let rc ← setValue .ctrl ctrl_blkEnd
      if rc ≠ 0 then return false
    let rc ← setValue .addrLsb [lsb]
    return rc = 0
  else return true

/-- The loop of `ReadBlock` from quadlet `q` on, `n` quadlets being left. -/
def readLoop (fuel : Nat) (s : Interface) (nQuads : Nat) : (n q : Nat) → (lsb : Int) → GpioProg Bool
  | 0, _, _ => return true
  | n + 1, q, lsb => do
    let lsb := if q > 0 then ~~~lsb else lsb
    let ok ← readNext nQuads q lsb
    if ok then
      let ok ← waitOpDone fuel s
      if ok then
        let (rc, reg_rdata_values) ← getValueBulk .regData
        if rc = 0 then
          store q (bswap32 (ofValues reg_rdata_values))
          readLoop fuel s nQuads n (q + 1) lsb
        else
          lower
          return false
      else
        lower
        return false
    else
      lower
      return false

/-- `ReadBlock`, storing the words in the caller's `data`. -/
def readBlock (fuel : Nat) (s : Interface) (addr : BitVec 16) (nBytes : BitVec 32) :
    GpioProg (Bool × Interface) := do
  if s.version < 1 then return (false, s)
  timestamp s 0
  let (ok, s) ← setInput s
  if ok then
    let rc ← setValue .ctrl ctrl_blkStart
    if rc = 0 then
      let rc ← setValue .regAddr (addrValues addr)
      if rc = 0 then
        let _ ← setValue .addrLsb [lsbValue addr]
        let rc ← setValue .reqBus [1]
        if rc = 0 then
          timestamp s 1
          let ok ← readLoop fuel s (nQuads nBytes) (nQuads nBytes) 0 (lsbValue addr)
          if ok then
            timestamp s 1
            lower
            timestamp s 0
            return (true, s)
          else return (false, s)
        else
          let _ ← setValue .ctrl ctrl_zero
          return (false, s)
      else
        let _ ← setValue .ctrl ctrl_zero
        return (false, s)
    else return (false, s)
  else return (false, s)

/-- The loop of `WriteBlock` from quadlet `q` on, `n` quadlets being left. -/
def writeLoop (fuel : Nat) (s : Interface) (nQuads : Nat) : (n q : Nat) → (lsb : Int) → GpioProg Bool
  | 0, _, _ => return true
  | n + 1, q, lsb => do
    let lsb := ~~~lsb
    let val ← load q
    let _ ← setValue .regData (dataValues (bswap32 val))
    .onlyIf (q = nQuads - 1) do
      let _ ← setValue .ctrl ctrl_blkEnd
    let rc ← setValue .addrLsb [lsb]
    if rc = 0 then
      let ok ← waitOpDone fuel s
      if ok then writeLoop fuel s nQuads n (q + 1) lsb
      else
        lower
        return false
    else
      lower
      return false

/-- `WriteBlock`, loading the words from the caller's `data`. -/
def writeBlock (fuel : Nat) (s : Interface) (addr : BitVec 16) (nBytes : BitVec 32) :
    GpioProg (Bool × Interface) := do
  if s.version < 1 then return (false, s)
  timestamp s 0
  let val ← load 0
  -- the first word is written with the direction only
  let (ok, s) ← setOutput s (dataValues (bswap32 val))
  if ok then
    let _ ← setValue .regAddr (addrValues addr)
    let _ ← setValue .addrLsb [lsbValue addr]
    let _ ← setValue .ctrl ctrl_blkStart
    let _ ← setValue .reqBus [1]
    let ok ← waitOpDone fuel s
    if ok then
      timestamp s 1
      let ok ← writeLoop fuel s (nQuads nBytes) (nQuads nBytes - 1) 1 (lsbValue addr)
      if ok then
        timestamp s 1
        lower
        timestamp s 0
        return (true, s)
      else return (false, s)
    else
      lower
      return (false, s)
  else return (false, s)

/-- A request, and whether it returned true. -/
def exec (fuel : Nat) : Request → Interface → GpioProg (Bool × Interface)
  | .readQuadlet addr, s => do
    let (data, s) ← readQuadlet fuel s addr
    return (data.isSome, s)
  | .writeQuadlet addr data, s => writeQuadlet fuel s addr data
  | .readBlock addr nBytes, s => readBlock fuel s addr nBytes
  | .writeBlock addr nBytes, s => writeBlock fuel s addr nBytes

end Gpiod

end FpgaV3.Impl
