import FpgaV3.Framework.Client
import FpgaV3.Impl.Standalone
import FpgaV3.Spec.Device
import FpgaV3.Spec.Quadlet

/-!
# Clients of the drivers

A client of a driver makes requests, and accesses its own block data between them
(`ClientOp`). What it is meant to see is a bank of registers (`registerFile`): every
request succeeds, and reads and writes the registers at once; a word of a block is the
value of the register, or its byte swap.

`shownDevices` is a firmware as in `devices` that also shows what it sees of the bus, as the
standalone library asks for, and `gpioDevices` one behind a library that never fails,
polled for `op_done`.
-/

namespace FpgaV3.Spec

open FpgaV3.Impl

inductive ClientOp where
  | readQuadlet (addr : BitVec 16)
  | writeQuadlet (addr : BitVec 16) (data : BitVec 32)
  | readBlock (addr : BitVec 16) (nBytes : BitVec 32)
  | writeBlock (addr : BitVec 16) (nBytes : BitVec 32)
  | load (q : Nat)
  | store (q : Nat) (v : BitVec 32)

/-- Their answers: the word read, if the request returned true; whether it did. -/
@[reducible] def ClientOp.Ans : ClientOp → Type
  | .readQuadlet _ => Option (BitVec 32)
  | .writeQuadlet _ _ | .readBlock _ _ | .writeBlock _ _ => Bool
  | .load _ => BitVec 32
  | .store _ _ => Unit

abbrev Client := Prog ClientOp ClientOp.Ans

/-- The gpiod driver can perform the operation: blocks are only read, from an even
address on. -/
def ClientOp.Plain : ClientOp → Prop
  | .readBlock addr _ => addr.getLsbD 0 = false
  | .writeBlock _ _ => False
  | _ => True

/-- The registers, and the block data of the client. -/
structure RegisterFile where
  regs : BitVec 16 → BitVec 32
  mem : Nat → BitVec 32

/-- The first `n` words of the block data are the registers from `addr` on. -/
def RegisterFile.readBlock (f : RegisterFile) (swap : BitVec 32 → BitVec 32) (addr : BitVec 16) (n : Nat) : RegisterFile :=
  { f with mem := fun i => if i < n then swap (f.regs (addr + BitVec.ofNat 16 i)) else f.mem i }

/-- The registers from `addr` on are the first `n` words of the block data. -/
def RegisterFile.writeBlock (f : RegisterFile) (swap : BitVec 32 → BitVec 32) (addr : BitVec 16) (n : Nat) : RegisterFile :=
  { f with regs := fill f.regs addr (fun i => swap (f.mem i)) n }

/-- What the client is meant to see. -/
def registerFile (swap : BitVec 32 → BitVec 32) : Env ClientOp ClientOp.Ans RegisterFile where
  step
    | f, .readQuadlet addr => (some (f.regs addr), f)
    | f, .writeQuadlet addr data => (true, { f with regs := put f.regs addr data })
    | f, .readBlock addr nBytes => (true, f.readBlock swap addr (nQuads nBytes))
    | f, .writeBlock addr nBytes => (true, f.writeBlock swap addr (nQuads nBytes))
    | f, .load q => (f.mem q, f)
    | f, .store q v => ((), { f with mem := fun i => if i = q then v else f.mem i })

/-- The operations as the mmap driver performs them. -/
def mmapOps (fuel : Nat) : (o : ClientOp) → Interface → RegProg (o.Ans × Interface)
  | .readQuadlet addr, s => Mmap.readQuadlet fuel s addr
  | .writeQuadlet addr data, s => Mmap.writeQuadlet fuel s addr data
  | .readBlock addr nBytes, s => Mmap.readBlock fuel s addr nBytes
  | .writeBlock addr nBytes, s => Mmap.writeBlock fuel s addr nBytes
  | .load q, s => do
    let v ← load q
    return (v, s)
  | .store q v, s => do
    store q v
    return ((), s)

/-- The operations as the standalone library performs them. -/
def standaloneOps (fuel : Nat) : (o : ClientOp) → Unit → RegProg (o.Ans × Unit)
  | .readQuadlet addr, _ => do
    let data ← Standalone.readQuadlet fuel addr
    return (data, ())
  | .writeQuadlet addr data, _ => do
    let ok ← Standalone.writeQuadlet fuel addr data
    return (ok, ())
  | .readBlock addr nBytes, _ => do
    let ok ← Standalone.readBlock fuel addr nBytes
    return (ok, ())
  | .writeBlock addr nBytes, _ => do
    let ok ← Standalone.writeBlock fuel addr nBytes
    return (ok, ())
  | .load q, _ => do
    let v ← load q
    return (v, ())
  | .store q v, _ => do
    store q v
    return ((), ())

/-- What `Reg_InputUpper` shows of the bus: version 1, whether a request is on it, and
whether the data lines are outputs. -/
structure Shown (l : Emio) (v : BitVec 32) : Prop where
  version : (v &&& Bits.version) >>> 28 = 1
  bus : v &&& (Bits.requestBus ||| Bits.write) =
    (if l.reqBus then Bits.requestBus else 0) ||| (if l.dir = 0 then 0 else Bits.write)

/-- A firmware that acknowledges each access, and shows the bus. -/
def shownDevices (timeout : Int) (limit : Nat) : World RegOp RegOp.Ans Device where
  step σ e r σ' := (devices timeout limit).step σ e r σ' ∧
    match e, r with
    | .regRead .inputUpper, v => Shown σ.bus.lines v
    | _, _ => True

/-- The operations as the gpiod driver performs them. -/
def gpiodOps (fuel : Nat) : (o : ClientOp) → Interface → GpioProg (o.Ans × Interface)
  | .readQuadlet addr, s => Gpiod.readQuadlet fuel s addr
  | .writeQuadlet addr data, s => Gpiod.writeQuadlet fuel s addr data
  | .readBlock addr nBytes, s => Gpiod.readBlock fuel s addr nBytes
  | .writeBlock addr nBytes, s => Gpiod.writeBlock fuel s addr nBytes
  | .load q, s => do
    let v ← Gpiod.load q
    return (v, s)
  | .store q v, s => do
    Gpiod.store q v
    return ((), s)

/-- The same firmware behind the lines of the library, of which none fails. -/
def gpioDevices (timeout : Int) (limit : Nat) : World GpioOp GpioOp.Ans Device where
  step σ e r σ' :=
    match e, r with
    | .getValue .opDone, v => (σ.wait.settled = false → v = if σ.left = 0 then 1 else 0) ∧ σ' = σ.sample
    | .getValueBulk .regData, x =>
      (σ.wait = .acked → σ.bus.lines.dir = 0 → x = (0, levels σ.data)) ∧ σ' = σ
    | .getCurTime, t => σ.InTime timeout t ∧ σ' = σ.clock t
    | .load q, v => v = σ.mem q ∧ σ' = σ
    | .store q v, _ => σ' = { σ with mem := fun i => if i = q then v else σ.mem i }
    | e, r => succeeds ⟨e, r⟩ ∧ ∃ k ≤ limit, σ' = σ.drive (σ.bus.lines.call ⟨e, r⟩) k

end FpgaV3.Spec
