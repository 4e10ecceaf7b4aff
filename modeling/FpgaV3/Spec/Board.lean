import FpgaV3.Framework.Env
import FpgaV3.Impl.Board

/-!
# The switch for the board number

The switch is in a position once it is read there 11 times in a row (`Held`). The
reads of the status register are answered one after the other (`source`).
-/

namespace FpgaV3.Spec

open FpgaV3.Impl FpgaV3.Impl.Board

/-- Among the samples are 11 in a row that are `k`. -/
def Held (k : Nat) (ids : List Nat) : Prop := List.replicate 11 k <:+: ids

/-- All 16 positions were. -/
def AllHeld (ids : List Nat) : Prop := ∀ k < 16, Held k ids

instance (k : Nat) (ids : List Nat) : Decidable (Held k ids) := inferInstanceAs (Decidable (_ <:+: _))

instance (ids : List Nat) : Decidable (AllHeld ids) := inferInstanceAs (Decidable (∀ k < 16, Held k ids))

/-- Read `n` of the status register is answered with `status n`. -/
def source (status : Nat → Option (BitVec 32)) : Env BoardOp BoardOp.Ans Nat where
  step n
    | .readQuadlet _ => (status n, n + 1)
    | .emioInit | .printf _ _ | .usleep _ => ((), n)
    | .writePromData _ _ => (false, n)
    | .qspiAccess _ _ => ((false, fun _ => 0), n)

/-- The first `n` samples, `status` having been read. -/
def ids (status : Nat → BitVec 32) (n : Nat) : List Nat := (List.range n).map fun i => boardId (status i)

/-- The body of the loop, `n` times. -/
def rounds (status_reg : Nat → BitVec 32) : (n i : Nat) → Switch → BoardProg Switch
  | 0, _, s => return s
  | n + 1, i, s => do
    let s ← sample (status_reg i) s
    rounds status_reg n (i + 1) s

end FpgaV3.Spec
