import Mathlib.Logic.Function.Basic
import FpgaV3.Framework.Guard
import FpgaV3.Impl.Gpiod

/-!
# The lines that are requested

The library gives out a line of an open chip, and lets it be used for what it was
requested for: its value is set if it is an output, read if it is an input, and
its events are waited for if those were requested (`GpioChip.Permits`). A call that
fails changes nothing.

The driver does not look at four results: whether the lines for the LSB and the
bus grant are given out, and whether `op_done` is requested, as an input or for
its events. `consumers` are the runs in which these do not fail.
-/

namespace FpgaV3.Spec

open FpgaV3.Impl

inductive Mode where
  | free | input | output | events
deriving DecidableEq

/-- Whether the chip is open, the lines that were given out, and what each was
requested for. -/
structure GpioChip where
  isOpen : Bool := false
  got : Lines → Bool := fun _ => false
  mode : Lines → Mode := fun _ => .free

namespace GpioChip

def Permits (σ : GpioChip) : GpioOp → Prop
  | .chipOpen => σ.isOpen = false
  | .chipClose | .getLines _ | .getLine _ => σ.isOpen = true
  | .requestInput g | .requestOutput g _ | .requestRisingEdgeEvents g => σ.got g = true ∧ σ.mode g = .free
  | .release g => σ.got g = true
  | .setDirectionInput g | .setDirectionOutput g _ => σ.mode g = .input ∨ σ.mode g = .output
  | .setValue g _ => σ.mode g = .output
  | .getValue g | .getValueBulk g => σ.mode g = .input
  | .eventWait g _ | .eventRead g => σ.mode g = .events
  | .getCurTime | .load _ | .store _ _ => True

def give (σ : GpioChip) (g : Lines) : GpioChip := { σ with got := Function.update σ.got g true }

def request (σ : GpioChip) (g : Lines) (m : Mode) : GpioChip := { σ with mode := Function.update σ.mode g m }

/-- The chip after a call. Closing it releases its lines. -/
def call (σ : GpioChip) : GpioEvent → GpioChip
  | ⟨.chipOpen, ok⟩ => if ok then { isOpen := true } else σ
  | ⟨.chipClose, _⟩ => {}
  | ⟨.getLines g, rc⟩ => if rc = 0 then σ.give g else σ
  | ⟨.getLine g, ok⟩ => if ok then σ.give g else σ
  | ⟨.requestInput g, rc⟩ => if rc = 0 then σ.request g .input else σ
  | ⟨.requestOutput g _, rc⟩ => if rc = 0 then σ.request g .output else σ
  | ⟨.requestRisingEdgeEvents g, rc⟩ => if rc = 0 then σ.request g .events else σ
  | ⟨.release g, _⟩ => σ.request g .free
  | ⟨.setDirectionInput g, rc⟩ => if rc = 0 then σ.request g .input else σ
  | ⟨.setDirectionOutput g _, rc⟩ => if rc = 0 then σ.request g .output else σ
  | _ => σ

end GpioChip

/-- The results that the driver does not look at. -/
def Unchecked : GpioEvent → Prop
  | ⟨.getLine .addrLsb, ok⟩ | ⟨.getLine .busGrant, ok⟩ => ok = true
  | ⟨.requestInput .opDone, rc⟩ | ⟨.requestRisingEdgeEvents .opDone, rc⟩ => rc = 0
  | _ => True

def consumers : World GpioOp GpioOp.Ans GpioChip := World.obs (fun _ => Unchecked) GpioChip.call

end FpgaV3.Spec
