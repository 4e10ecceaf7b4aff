import FpgaV3.Framework.Env
import FpgaV3.Spec.DriveGpio

/-!
# A healthy board

Environments in which no call fails and the firmware, of version 1, has always
answered.
-/

namespace FpgaV3.Spec

open FpgaV3.Impl

/-- A firmware of version 1 that has always answered. -/
def ready : Env RegOp RegOp.Ans Unit where
  step _
    | .regRead _ => (0x10020000, ())
    | .openMem => (true, ())
    | .mmapInit _ _ => (true, ())
    | .getCurTime => (⟨0, 0⟩, ())
    | .load _ => (0, ())
    | .munmap _ => ((), ())
    | .regWrite _ _ => ((), ())
    | .store _ _ => ((), ())

/-- A library that never fails. -/
def obliging : Env GpioOp GpioOp.Ans Unit where
  step _
    | .chipOpen => (true, ())
    | .getLine _ => (true, ())
    | .getValueBulk _ => ((0, List.replicate 32 0), ())
    | .getValue _ => (1, ())
    | .eventWait _ _ => (1, ())
    | .getCurTime => (⟨0, 0⟩, ())
    | .load _ => (0, ())
    | .chipClose => ((), ())
    | .release _ => ((), ())
    | .store _ _ => ((), ())
    | .getLines _ => (0, ())
    | .requestInput _ => (0, ())
    | .requestOutput _ _ => (0, ())
    | .requestRisingEdgeEvents _ => (0, ())
    | .setDirectionInput _ => (0, ())
    | .setDirectionOutput _ _ => (0, ())
    | .setValue _ _ => (0, ())
    | .eventRead _ => (0, ())

/-- The lines after `Init`. -/
def low : Bus := ⟨⟨0, 0, 0, 0⟩, []⟩

end FpgaV3.Spec
