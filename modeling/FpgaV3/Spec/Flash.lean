import FpgaV3.Framework.Env
import FpgaV3.Impl.Qspi

/-!
# The flash partition

A partition of NOR flash and the file to be copied, as the system calls see
them (`Nor`): reads and writes advance the file offsets, an erase sets a sector,
and a write clears bits. With `nor` every call completes, as far as the
partition and the file go; a `flaky` call may fail, or transfer less, unless
more is asked of it.
-/

namespace FpgaV3.Spec

open FpgaV3.Impl

/-- The bytes of the partition, the offsets of the two open files, and the ranges
erased or written so far. -/
structure Nor where
  flash : Mem
  pos : Nat := 0
  filePos : Nat := 0
  changed : List (Nat × Nat) := []

/-- The sizes of a sector and of the partition, and the file. -/
structure Media where
  erasesize : Nat
  size : Nat
  file : List Byte

namespace Nor

/-- `bs` is written at the offset. -/
def write (σ : Nor) (bs : List Byte) : Nor :=
  { σ with
    flash := program σ.flash σ.pos bs
    pos := σ.pos + bs.length
    changed := σ.changed ++ [(σ.pos, bs.length)] }

/-- The sector at `start` is erased. -/
def erased (σ : Nor) (start length : Nat) : Nor :=
  { σ with
    flash := erase σ.flash start length
    changed := σ.changed ++ [(start, length)] }

end Nor

/-- Every call completes: it transfers what is asked for, up to the end of the
partition or of the file. -/
def nor (m : Media) : Env QspiOp QspiOp.Ans Nor where
  step σ
    | .openFd .flash => (true, { σ with pos := 0 })
    | .openFd .file => (true, { σ with filePos := 0 })
    | .closeFd _ => ((), σ)
    | .memGetInfo => ((0, m.erasesize), σ)
    | .memUnlock _ _ => (0, σ)
    | .memErase start length => (0, σ.erased start length)
    | .fstat => ((0, m.file.length), σ)
    | .malloc _ => (true, σ)
    | .read .flash n =>
      let k := min n (m.size - σ.pos)
      (some (chunk σ.flash σ.pos k), { σ with pos := σ.pos + k })
    | .read .file n =>
      let bs := (m.file.drop σ.filePos).take n
      (some bs, { σ with filePos := σ.filePos + bs.length })
    | .write data =>
      let bs := data.take (m.size - σ.pos)
      ((bs.length : Int), σ.write bs)
    | .lseek off => ((σ.pos : Int) + off, { σ with pos := ((σ.pos : Int) + off).toNat })

/-- The partition after a call that was answered so: a call that fails changes
nothing. -/
def Nor.after (σ : Nor) : QspiEvent → Nor
  | ⟨.openFd .flash, ok⟩ => if ok then { σ with pos := 0 } else σ
  | ⟨.openFd .file, ok⟩ => if ok then { σ with filePos := 0 } else σ
  | ⟨.memErase start length, rc⟩ => if rc = 0 then σ.erased start length else σ
  | ⟨.read .flash _, bs⟩ => { σ with pos := σ.pos + (bs.getD []).length }
  | ⟨.read .file _, bs⟩ => { σ with filePos := σ.filePos + (bs.getD []).length }
  | ⟨.write data, n⟩ => if 0 ≤ n then σ.write (data.take n.toNat) else σ
  | ⟨.lseek _, off⟩ => if 0 ≤ off then { σ with pos := off.toNat } else σ
  | _ => σ

/-- What a call may be answered: it may fail, and a read or a write may transfer
less than is asked for. -/
def Answers (m : Media) (σ : Nor) : QspiEvent → Prop
  | ⟨.memGetInfo, r⟩ => r.1 = 0 → r.2 = m.erasesize
  | ⟨.fstat, r⟩ => r.2 = m.file.length
  | ⟨.read .flash n, bs⟩ => ∀ l, bs = some l → ∃ k ≤ min n (m.size - σ.pos), l = chunk σ.flash σ.pos k
  | ⟨.read .file n, bs⟩ => ∀ l, bs = some l → ∃ k ≤ n, l = (m.file.drop σ.filePos).take k
  | ⟨.write data, n⟩ => n = -1 ∨ 0 ≤ n ∧ n ≤ (min data.length (m.size - σ.pos) : Nat)
  | ⟨.lseek off, r⟩ => r = -1 ∨ r = (σ.pos : Int) + off
  | _ => True

/-- The call does not fail, and transfers all that is asked for. -/
def Completes : QspiEvent → Prop
  | ⟨.memGetInfo, r⟩ => r.1 = 0
  | ⟨.memErase _ _, rc⟩ => rc = 0
  | ⟨.read _ n, bs⟩ => bs.map List.length = some n
  | ⟨.write data, n⟩ => n = (data.length : Int)
  | ⟨.lseek _, r⟩ => 0 ≤ r
  | _ => True

/-- The size of the sector is obtained, and the sector erased. -/
def Erases : QspiEvent → Prop
  | ⟨.memGetInfo, r⟩ => r.1 = 0
  | ⟨.memErase _ _, rc⟩ => rc = 0
  | _ => True

/-- The calls are answered so, and all satisfy `ok`. -/
def flaky (m : Media) (ok : QspiEvent → Prop) : World QspiOp QspiOp.Ans Nor :=
  World.obs (fun σ x => Answers m σ x ∧ ok x) Nor.after

/-! ## Sectors -/

/-- The number of sectors of the file. -/
def sectorCount (m : Media) : Nat := (m.file.length + m.erasesize - 1) / m.erasesize

/-- The flash begins with the file. -/
def HasFile (m : Media) (flash : Mem) : Prop := ∀ i c, m.file[i]? = some c → flash i = c

/-- The bytes of the file in sector `k` are in the flash. -/
def Matches (m : Media) (flash : Mem) (k : Nat) : Prop :=
  ∀ i c, k * m.erasesize ≤ i → i < (k + 1) * m.erasesize → m.file[i]? = some c → flash i = c

/-- Sector `k` was neither erased nor written. -/
def Untouched (m : Media) (changed : List (Nat × Nat)) (k : Nat) : Prop :=
  ∀ r ∈ changed, ∀ i, r.1 ≤ i → i < r.1 + r.2 → ¬ (k * m.erasesize ≤ i ∧ i < (k + 1) * m.erasesize)

/-- The flash `flash` was programmed with the file. -/
structure Flashed (m : Media) (flash : Mem) (σ : Nor) : Prop where
  file : HasFile m σ.flash
  kept : ∀ k, Matches m flash k ∨ sectorCount m ≤ k → Untouched m σ.changed k
  tail : ∀ i, m.file.length ≤ i → i < sectorCount m * m.erasesize → σ.flash i = flash i ∨ σ.flash i = 0xff

/-! ## The serial number -/

/-- The flash begins with the tag, `sn`, and an erased byte. -/
def HasRecord (sn : List Byte) (flash : Mem) : Prop :=
  ∀ k c, (Qspi.tag ++ (sn ++ [0xff]))[k]? = some c → flash k = c

/-- A string that `ProgramFpgaSerialNumber` accepts. -/
structure Accepted (sn : List Byte) : Prop where
  length : sn.length < Qspi.FPGA_SN_SIZE
  bytes : ∀ c ∈ sn, c ≠ 0xff ∧ c ≠ 0

/-- The caller's buffer holds `sn`, and nothing beyond it was examined or changed. -/
structure Got (sn : List Byte) (mem : Mem) (r : Qspi.Terminated) : Prop where
  string : CString r.mem 0 sn
  examined : r.examined ≤ Qspi.FPGA_SN_SIZE
  kept : ∀ i, Qspi.FPGA_SN_SIZE ≤ i → r.mem i = mem i

/-- The decoder prints `sn`, whatever follows the 16 bytes that it is given. -/
def Prints (decoder : Nat → Mem → Option Qspi.Terminated) (fuel : Nat) (flash : Mem) (sn : List Byte) : Prop :=
  ∀ buf, chunk buf 0 16 = chunk flash 0 16 → ∃ r, decoder fuel buf = some r ∧ CString r.mem 5 sn

end FpgaV3.Spec
