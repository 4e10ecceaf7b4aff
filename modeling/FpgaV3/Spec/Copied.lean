import Mathlib.Algebra.Group.Nat.Defs
import FpgaV3.Impl.Prom

/-!
# A complete copy to the PROM registers
-/

namespace FpgaV3.Spec

open FpgaV3.Impl

/-- A call of `WriteQuadlet`: the register, the word, and whether it succeeded. -/
def quadletWrite : PromEvent → Option (Nat × BitVec 32 × Bool)
  | ⟨.writeQuadlet addr data, ok⟩ => some (addr.toNat, data, ok)
  | _ => none

/-- The calls of `WriteQuadlet` in a trace. -/
def quadletWrites (t : Trace PromOp PromOp.Ans) : List (Nat × BitVec 32 × Bool) := t.filterMap quadletWrite

/-- The big-endian word of source bytes `4*i` to `4*i+3`. -/
def bigEndian (data : Nat → BitVec 8) (i : Nat) : BitVec 32 :=
  data (4 * i) ++ data (4 * i + 1) ++ data (4 * i + 2) ++ data (4 * i + 3)

/-- Each of the first `n` words is written with success to its own register, in
increasing order, and nothing else is written. -/
def Copied (data : Nat → BitVec 8) (n : Nat) (t : Trace PromOp PromOp.Ans) : Prop :=
  quadletWrites t = (List.range n).map fun i => (0x2000 + i, bigEndian data i, true)

/-- The buffer that the flash was read to. -/
def Filled (data : Nat → BitVec 8) (t : Trace PromOp PromOp.Ans) : Prop := ∃ nbytes n, ⟨.read nbytes, (n, data)⟩ ∈ t

/-- The number of quadlets of `nBytes` bytes. -/
def promWords (nBytes : Nat) : Nat := (nBytes + 3) / 4

end FpgaV3.Spec
