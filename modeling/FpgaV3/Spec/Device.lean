import FpgaV3.Framework.Bank
import FpgaV3.Framework.Env
import FpgaV3.Spec.Drive
import FpgaV3.Spec.Handshake

/-!
# The registers behind the EMIO lines

A firmware of version 1 with a bank of registers (`Device`). When `req_bus`
rises it latches the address lines and performs an access there; each later
change of `addr_lsb` while `req_bus` stays high is an access at the next
address. The direction is that of the data lines: inputs read the register,
outputs write it. Each access is acknowledged within the timeout: the sample
of `op_done` that finds it set comes after at most `limit` clear ones, and the
clock readings between them do not reach the timeout.

The caller's block data (`mem`) are part of the state.
-/

namespace FpgaV3.Spec

open FpgaV3.Impl

/-- The registers, the lines, the address and the data of the last access,
where its handshake stands, and how many samples will still be clear. -/
structure Device where
  regs : BitVec 16 → BitVec 32
  mem : Nat → BitVec 32
  bus : Bus
  addr : BitVec 16 := 0
  data : BitVec 32 := 0
  wait : Wait := .idle
  left : Nat := 0

namespace Device

/-- The access of address `a` with the lines `l`, to be acknowledged after `k`
clear samples. -/
def access (s : Device) (a : BitVec 16) (l : Emio) (k : Nat) : Device :=
  { s with
    regs := if l.dir = 0 then s.regs else put s.regs a l.lower
    data := if l.dir = 0 then s.regs a else s.data
    addr := a
    wait := .asked
    left := k }

/-- The lines change to `l`. -/
def drive (s : Device) (l : Emio) (k : Nat) : Device :=
  let s' := { s with bus := s.bus.put l }
  if s.bus.lines.triggers l then s'.access (if s.bus.lines.reqBus then s.addr + 1 else l.regAddr) l k
  else { s' with wait := if s.bus.lines.reqBus && !l.reqBus then .idle else s.wait }

/-- A sample of `op_done`. -/
def sample (s : Device) : Device :=
  if s.wait.settled then s
  else if s.left = 0 then { s with wait := .acked }
  else { s with wait := if s.wait = .asked then .polled else s.wait, left := s.left - 1 }

/-- A reading of the clock. -/
def clock (s : Device) (t : Timespec) : Device :=
  if s.wait = .polled then { s with wait := .since t } else s

/-- The time has not run out at a reading `t` of the clock. -/
def InTime (s : Device) (timeout : Int) (t : Timespec) : Prop :=
  match s.wait with
  | .polled => 0 < timeout
  | .since t₀ => timeDiff t₀ t < timeout
  | _ => True

end Device

/-- The firmware, the clock and the caller's memory. -/
def devices (timeout : Int) (limit : Nat) : World RegOp RegOp.Ans Device where
  step s
    | .regWrite r v, _, s' => ∃ k ≤ limit, s' = s.drive (s.bus.lines.write r v) k
    | .regRead .inputUpper, v, s' => (s.wait.settled = false → opDone v = decide (s.left = 0)) ∧ s' = s.sample
    | .regRead .inputLower, v, s' => (s.wait = .acked → s.bus.lines.dir = 0 → v = s.data) ∧ s' = s
    | .getCurTime, t, s' => s.InTime timeout t ∧ s' = s.clock t
    | .load q, v, s' => v = s.mem q ∧ s' = s
    | .store q v, _, s' => s' = { s with mem := fun i => if i = q then v else s.mem i }
    | _, _, s' => s' = s

/-- A firmware that acknowledges every access at the first sample, the clock
standing still. -/
def prompt : Env RegOp RegOp.Ans Device where
  step s
    | .regWrite r v => ((), s.drive (s.bus.lines.write r v) 0)
    | .regRead .inputUpper => (if s.left = 0 then 0x10020000 else 0x10000000, s.sample)
    | .regRead _ => (s.data, s)
    | .getCurTime => let t := match s.wait with | .since t => t | _ => ⟨0, 0⟩; (t, s.clock t)
    | .load q => (s.mem q, s)
    | .store q v => ((), { s with mem := fun i => if i = q then v else s.mem i })
    | .openMem => (true, s)
    | .mmapInit _ _ => (true, s)
    | .munmap _ => ((), s)

/-- No request is in progress. -/
structure Device.Resting (s : Interface) (σ : Device) : Prop where
  kept : Kept s σ.bus
  wait : σ.wait = .idle

/-- `WriteQuadlet` for each of `n` quadlets from `q` on. -/
def writeQuadlets (fuel : Nat) (addr : BitVec 16) (data : Nat → BitVec 32) :
    (n q : Nat) → Interface → RegProg (Bool × Interface)
  | 0, _, s => return (true, s)
  | n + 1, q, s => do
    let (ok, s) ← Mmap.writeQuadlet fuel s (addr + BitVec.ofNat 16 q) (data q)
    let (oks, s) ← writeQuadlets fuel addr data n (q + 1) s
    return (ok && oks, s)

end FpgaV3.Spec
