import Mathlib.Algebra.Group.Nat.Defs
import FpgaV3.Framework.Memory
import FpgaV3.Framework.Prog

/-!
# The QSPI flash

`GetFpgaSerialNumber`, `ProgramFpgaSerialNumber` and `ProgramFlash`
(`fpgav3_qspi.cpp`), over the system calls on the flash device and on the file
to be copied, and the decoding of the serial number by the boot loader
(`fsbl_hooks.c`) and the manufacturing test (`menu.c`). What they print but the
serial number is left out, and with it the numbers of sectors (`numSame`,
`numDiff`).

A call that fails leaves what it would have stored: `mtd_info` and `src_stat`
are not initialised then, and a buffer keeps its contents.
-/

namespace FpgaV3.Impl

abbrev Byte := BitVec 8

/-- Memory, from the start of a buffer on. -/
abbrev Mem := Nat → Byte

/-- The flash device, and the file. -/
inductive Fd where
  | flash | file
deriving DecidableEq

inductive QspiOp where
  | openFd (fd : Fd)
  | closeFd (fd : Fd)
  | memGetInfo
  | memUnlock (start length : Nat)
  | memErase (start length : Nat)
  | fstat
  | malloc (size : Nat)
  | read (fd : Fd) (n : Nat)
  | write (data : List Byte)
  | lseek (off : Int)
deriving DecidableEq

/-- Their answers: whether a file was opened or a buffer allocated, the return
value, with `mtd_info.erasesize` and `src_stat.st_size` after the call, and what
was read, if that did not fail. -/
@[reducible] def QspiOp.Ans : QspiOp → Type
  | .openFd _ | .malloc _ => Bool
  | .closeFd _ => Unit
  | .memUnlock _ _ | .memErase _ _ | .write _ | .lseek _ => Int
  | .memGetInfo | .fstat => Int × Nat
  | .read _ _ => Option (List Byte)

abbrev QspiEvent := Event QspiOp QspiOp.Ans

abbrev QspiProg := Prog QspiOp QspiOp.Ans

namespace Qspi

def FPGA_SN_SIZE : Nat := 9

/-- `"FPGA "` -/
def tag : List Byte := [0x46, 0x50, 0x47, 0x41, 0x20]

/-- `read(fd, buf, n)`, the return value being dropped. -/
def readTo (fd : Fd) (n : Nat) (buf : Mem) : QspiProg Mem := do
  let bytes ← .perform (QspiOp.read fd n)
  return overlay buf 0 (bytes.getD [])

/-- `ProgramFpgaSerialNumber` of the string `sn`. -/
def programFpgaSerialNumber (sn : List Byte) : QspiProg Bool := do
  let sn_len := sn.length
  if sn_len ≥ FPGA_SN_SIZE then return false
  if !(← .perform (QspiOp.openFd .flash)) then return false
  let (_, erasesize) ← .perform QspiOp.memGetInfo
  let _ ← .perform (QspiOp.memUnlock 0 erasesize)
  let _ ← .perform (QspiOp.memErase 0 erasesize)
  let n ← .perform (QspiOp.write tag)
  if n ≠ 5 then
    .perform (QspiOp.closeFd .flash)
    return false
  else
    let n ← .perform (QspiOp.write sn)
    .perform (QspiOp.closeFd .flash)
    return n = sn_len

/-- What a search for 0xff leaves of the string at `mem`, `size` being the size of
its buffer, and the number of bytes it examined. -/
structure Terminated where
  mem : Mem
  examined : Nat

/-- `strchr(mem, 0xff)`, and the NUL that is stored there or else at `last`. -/
def terminate (fuel : Nat) (mem : Mem) (last : Nat) : Option Terminated :=
  match strchr mem 0xff fuel 0 with
  | none => none
  | some (p, true) => some ⟨overlay mem p [0], p + 1⟩
  | some (p, false) => some ⟨overlay mem last [0], p + 1⟩

/-- `GetFpgaSerialNumber`, `sn` being the memory from the caller's buffer on. -/
def getFpgaSerialNumber (fuel : Nat) (sn : Mem) : QspiProg Terminated := do
  let sn := overlay sn 0 [0]
  if !(← .perform (QspiOp.openFd .flash)) then return ⟨sn, 0⟩
  let data ← .perform (QspiOp.read .flash 5)
  if data = some tag then
    let sn ← readTo .flash (FPGA_SN_SIZE - 1) sn
    match terminate fuel sn (FPGA_SN_SIZE - 1) with
    | none => .stop
    | some r =>
      .perform (QspiOp.closeFd .flash)
      return r
  else
    .perform (QspiOp.closeFd .flash)
    return ⟨sn, 0⟩

/-- The decoding of `sn_buff`, which holds 16 bytes: the buffer that is printed
from byte 5 on, if it is. -/
def decode (fuel : Nat) (sn_buff : Mem) : Option Terminated :=
  if chunk sn_buff 0 5 = tag then terminate fuel sn_buff 13 else none

/-- `FpgaV3_Init_QSPI` -/
def fpgaV3_Init_QSPI (fuel : Nat) (sn_buff : Mem) : Option Terminated := decode fuel sn_buff

/-- `menu` -/
def menu (fuel : Nat) (sn_buff : Mem) : Option Terminated := decode fuel sn_buff

/-! ## ProgramFlash -/

/-- The offset `-nb`, a `size_t`, as an `off_t`, both of 32 bits. -/
def negOffset (nb : Nat) : Int := (-(BitVec.ofNat 32 nb)).toInt

/-- The body of the loop, for the sector at `nBytes`. -/
def sector (erasesize st_size nBytes : Nat) (bufs : Mem × Mem) : QspiProg (Mem × Mem) := do
  let bytesLeft := st_size - nBytes
  let nb := if bytesLeft < erasesize then bytesLeft else erasesize
  let fileBuf ← readTo .file nb bufs.1
  let devBuf ← readTo .flash nb bufs.2
  if chunk fileBuf 0 nb = chunk devBuf 0 nb then return (fileBuf, devBuf)
  else
    let _ ← .perform (QspiOp.lseek (negOffset nb))
    let _ ← .perform (QspiOp.memUnlock nBytes erasesize)
    let _ ← .perform (QspiOp.memErase nBytes erasesize)
    let _ ← .perform (QspiOp.write (chunk fileBuf 0 nb))
    return (fileBuf, devBuf)

/-- The loop over the sectors from `nBytes` on. -/
def sectors (erasesize st_size : Nat) : (fuel nBytes : Nat) → Mem × Mem → QspiProg Unit
  | 0, _, _ => .stop
  | fuel + 1, nBytes, bufs =>
    if nBytes < st_size then do
      let bufs ← sector erasesize st_size nBytes bufs
      -- `nBytes` is a `size_t`
      sectors erasesize st_size fuel ((nBytes + erasesize) % 2 ^ 32) bufs
    else return ()

/-- `ProgramFlash`, `bufs` being what `malloc` finds in its buffers. -/
def programFlash (fuel : Nat) (bufs : Mem × Mem) : QspiProg Bool := do
  if !(← .perform (QspiOp.openFd .file)) then return false
  if !(← .perform (QspiOp.openFd .flash)) then
    .perform (QspiOp.closeFd .file)
    return false
  let (_, erasesize) ← .perform QspiOp.memGetInfo
  let fileBuf ← .perform (QspiOp.malloc erasesize)
  let devBuf ← .perform (QspiOp.malloc erasesize)
  if !fileBuf || !devBuf then
    .perform (QspiOp.closeFd .file)
    .perform (QspiOp.closeFd .flash)
    return false
  let (_, st_size) ← .perform QspiOp.fstat
  sectors erasesize st_size fuel 0 bufs
  .perform (QspiOp.closeFd .file)
  .perform (QspiOp.closeFd .flash)
  return true

end Qspi

end FpgaV3.Impl
