import FpgaV3.Framework.Env
import FpgaV3.Impl.Mmap

/-!
# Arbitrary inputs

The environment that answers the reads of the GPIO input registers, and of
the clock, with the successive elements of arbitrary sequences (`Inputs`). A
position in them (`Cursor`) is the state.

`Inputs.AckAt` says when a wait for `op_done` sees it set, and
`Inputs.AllAcked` when each of several waits in a row does.
-/

namespace FpgaV3.Spec

open FpgaV3.Impl

/-- The values that successive reads of `Reg_InputUpper`, `Reg_InputLower` and
the clock return, and the caller's block data. -/
structure Inputs where
  upper : Nat → BitVec 32
  lower : Nat → BitVec 32
  clock : Nat → Timespec
  mem : Nat → BitVec 32

/-- The number of values of each sequence already read. -/
structure Cursor where
  upper : Nat := 0
  lower : Nat := 0
  clock : Nat := 0

/-- `op_done` is set in a sample of `Reg_InputUpper`. -/
def opDone (upper : BitVec 32) : Bool := upper &&& Bits.opDone != 0

namespace Inputs

def env (inp : Inputs) : Env RegOp RegOp.Ans Cursor where
  step c
    | .regRead .inputUpper => (inp.upper c.upper, { c with upper := c.upper + 1 })
    | .regRead .inputLower => (inp.lower c.lower, { c with lower := c.lower + 1 })
    | .regRead _ => (0, c)
    | .getCurTime => (inp.clock c.clock, { c with clock := c.clock + 1 })
    | .load q => (inp.mem q, c)
    | .openMem => (true, c)
    | .mmapInit _ _ => (true, c)
    | .munmap _ => ((), c)
    | .regWrite _ _ => ((), c)
    | .store _ _ => ((), c)

/-- The wait that starts with sample `u` of `Reg_InputUpper` and reading `c` of
the clock sees `op_done` set in its sample `k`: the samples before are clear,
and after each of them less than the timeout has passed since the first. -/
def AckAt (inp : Inputs) (timeout : Int) (u c k : Nat) : Prop :=
  opDone (inp.upper (u + k)) = true ∧
    ∀ m < k, opDone (inp.upper (u + m)) = false ∧
      timeDiff (inp.clock c) (inp.clock (c + m)) < timeout

/-- Each of `n` waits in a row, the first starting at `u` and `c`, sees
`op_done` set before it times out. A wait that sees it in its sample `k` has
taken `k + 1` samples and read the clock `k` times. -/
def AllAcked (inp : Inputs) (timeout : Int) : (n u c : Nat) → Prop
  | 0, _, _ => True
  | n + 1, u, c => ∃ k, inp.AckAt timeout u c k ∧ inp.AllAcked timeout n (u + k + 1) (c + k)

end Inputs

end FpgaV3.Spec
