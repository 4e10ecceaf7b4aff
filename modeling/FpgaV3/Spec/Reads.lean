import FpgaV3.Framework.Same
import FpgaV3.Impl.Init
import FpgaV3.Spec.Board

/-!
# Reads that fail

A read of a register that fails leaves its variable as it is. A program does not
depend on such a value if it does the same whatever the variables hold at first
(`Same`), everything else being answered alike: registers 4 and 0 as given, other calls
by any environment.
-/

namespace FpgaV3.Spec

open FpgaV3.Impl FpgaV3.Impl.Board

variable {S : Type}

namespace Init

/-- `IsOK` returns `ok`, and the registers are read as given. -/
def withReads (v : Env InitOp InitOp.Ans S) (ok : Bool) (hw status : Option (BitVec 32)) : Env InitOp InitOp.Ans S where
  step s
    | .isOK => (ok, (v.step s .isOK).2)
    | .readQuadlet addr => (if addr = 4 then hw else status, (v.step s (.readQuadlet addr)).2)
    | e => v.step s e

/-- The registers that decide what is done can be read. -/
def Readable (hw status : Option (BitVec 32)) : Prop :=
  hw.isSome ∧ (hw.map Init.hwStr = some (text "BCFG") → status.isSome)

end Init

namespace Board

/-- The registers are read as given. -/
def withReads (v : Env BoardOp BoardOp.Ans S) (hw status : Option (BitVec 32)) : Env BoardOp BoardOp.Ans S where
  step s
    | .readQuadlet addr => (if addr = 4 then hw else status, (v.step s (.readQuadlet addr)).2)
    | e => v.step s e

/-- The registers that are printed can be read. -/
def Readable (hw status : Option (BitVec 32)) : Prop := hw.isSome ∧ (hw = some 0x42434647 → status.isSome)

/-- Wherever 11 reads in a row may have been of one position, 11 up to there were: no
position is taken for held because of a read that failed. -/
def Settled (status : Nat → Option (BitVec 32)) : Prop :=
  ∀ k < 16, ∀ n, (∀ i, n ≤ i → i < n + 11 → ∀ w, status i = some w → boardId w = k) →
    ∃ m ≤ n, ∀ i, m ≤ i → i < m + 11 → ∃ w, status i = some w ∧ boardId w = k

end Board

end FpgaV3.Spec
