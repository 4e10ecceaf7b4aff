import FpgaV3.Impl.Qspi

/-!
# Booting from SD

`FpgaV3_Init_SD` (`fsbl_hooks.c`), over the QSPI driver, of which `WINBOND_ID` is a
constant. What it prints is left out, and the calls that set the options of the
interface.
-/

namespace FpgaV3.Impl

inductive BootOp where
  | lookupConfig
  | cfgInitialize
  | polledTransfer (data : List Byte)
deriving DecidableEq

/-- Their answers: whether the call succeeded, and the bytes received, as many as
were sent, if the transfer did. -/
@[reducible] def BootOp.Ans : BootOp → Type
  | .lookupConfig | .cfgInitialize => Bool
  | .polledTransfer _ => Option (List Byte)

abbrev BootEvent := Event BootOp BootOp.Ans

abbrev BootProg := Prog BootOp BootOp.Ans

namespace Boot

def READ_ID_CMD : Byte := 0x9f
def READ_STATUS_REG2 : Byte := 0x35
def WRITE_STATUS_REG2 : Byte := 0x31
def QE_BIT_MASK : Byte := 0x02
def WRITE_ENABLE_CMD : Byte := 0x06

/-- `XQspiPs_PolledTransfer` of the bytes `data`: what it leaves in `ReadBuffer`, if it
succeeds. -/
def polledTransfer (data : List Byte) (readBuffer : Mem) : BootProg (Option Mem) := do
  let bytes ← .perform (BootOp.polledTransfer data)
  return bytes.map (overlay readBuffer 0)

/-- Quad Enable is programmed, if it is not set. -/
def programQE (readBuffer : Mem) : BootProg Bool := do
  if readBuffer 1 &&& QE_BIT_MASK ≠ 0 then return true
  let some readBuffer ← polledTransfer [WRITE_ENABLE_CMD] readBuffer | return false
  let some _ ← polledTransfer [WRITE_STATUS_REG2, readBuffer 1 ||| QE_BIT_MASK] readBuffer | return false
  return true

/-- The identification in `ReadBuffer` is that of a W25Q128JV or W25Q128JV-M. -/
def identified (WINBOND_ID : Byte) (readBuffer : Mem) : Bool :=
  readBuffer 1 = WINBOND_ID ∧ readBuffer 3 = 0x18 ∧ (readBuffer 2 = 0x40 ∨ readBuffer 2 = 0x70)

/-- The chip is identified, and its Quad Enable bit checked. -/
def checkQE (WINBOND_ID : Byte) (readBuffer : Mem) : BootProg Bool := do
  let some readBuffer ← polledTransfer [READ_ID_CMD, 0, 0, 0] readBuffer | return false
  if !identified WINBOND_ID readBuffer then return false
  let some readBuffer ← polledTransfer [READ_STATUS_REG2, 0] readBuffer | return false
  programQE readBuffer

/-- `FpgaV3_Init_SD`, `readBuffer` being what `ReadBuffer` holds at first. -/
def fpgaV3_Init_SD (WINBOND_ID : Byte) (readBuffer : Mem) : BootProg Bool := do
  if !(← .perform BootOp.lookupConfig) then return false
  if !(← .perform BootOp.cfgInitialize) then return false
  checkQE WINBOND_ID readBuffer

end Boot

end FpgaV3.Impl
