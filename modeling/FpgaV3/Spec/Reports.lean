import FpgaV3.Framework.Word
import FpgaV3.Framework.World
import FpgaV3.Impl.Gpiod

/-!
# What a request reports

What the trace of the gpiod driver must say if a request returns true
(`Reported`): until `req_bus` is lowered, every call that set the direction,
presented lines or requested a quadlet succeeded; each quadlet was sampled
with `op_done` 1 before the next was requested, its data read or `req_bus`
lowered; and each word stored came from a successful read of the data lines.

`unchecked` lists the calls whose results the driver drops.
-/

namespace FpgaV3.Spec

open FpgaV3.Impl FpgaV3.Impl.Gpiod

/-- What was seen of a request. -/
structure Report where
  /-- No call has failed, and no quadlet was left unacknowledged. -/
  sound : Bool := true
  /-- `req_bus` was raised. -/
  raised : Bool := false
  /-- A quadlet is requested and not yet acknowledged. -/
  pending : Bool := false
  /-- `req_bus` was lowered: what follows only cleans up. -/
  lowered : Bool := false
  /-- The number of quadlets acknowledged. -/
  acked : Nat := 0
  /-- The word last read from the data lines. -/
  word : Option (BitVec 32) := none
deriving DecidableEq

namespace Report

/-- A call that presents lines to the firmware. -/
def present (s : Report) (rc : Int) : Report := { s with sound := s.sound && rc = 0 }

/-- A call that requests a quadlet. -/
def request (s : Report) (rc : Int) : Report :=
  { s with sound := s.sound && !s.pending && rc = 0, raised := true, pending := true }

/-- A sample of `op_done`. -/
def sample (s : Report) (val : Int) : Report :=
  if s.pending && val = 1 then { s with pending := false, acked := s.acked + 1 } else s

end Report

def report (s : Report) (x : GpioEvent) : Report :=
  if s.lowered then s else
  match x with
  | ⟨.setDirectionInput _, rc⟩ => s.present rc
  | ⟨.setDirectionOutput _ _, rc⟩ => s.present rc
  | ⟨.setValue .reqBus values, rc⟩ =>
    if values = [0] then { s with sound := s.sound && !s.pending, lowered := true } else s.request rc
  | ⟨.setValue .addrLsb _, rc⟩ => if s.raised then s.request rc else s.present rc
  | ⟨.setValue _ _, rc⟩ => s.present rc
  | ⟨.getValue _, val⟩ => s.sample val
  | ⟨.getValueBulk _, r⟩ =>
    { s with sound := s.sound && !s.pending, word := if r.1 = 0 then some (ofValues r.2) else none }
  | ⟨.store _ v, _⟩ => { s with sound := s.sound && s.word = some (bswap32 v), word := none }
  | _ => s

/-- The trace of a request that reports no failure is without one. -/
def Reported (req : Request) (t : Trace GpioOp GpioOp.Ans) : Prop :=
  (t.foldl report {}).sound = true ∧ (t.foldl report {}).lowered = true ∧ req.quads ≤ (t.foldl report {}).acked

instance {req : Request} {t : Trace GpioOp GpioOp.Ans} : Decidable (Reported req t) :=
  inferInstanceAs (Decidable (_ ∧ _ ∧ _))

/-- The calls made for a request, before it lowers the lines, whose results
the driver does not look at. -/
def unchecked : Request → GpioOp → Bool
  | .readQuadlet _, .setValue g values => g = .regAddr || g = .ctrl || (g = .reqBus && values = [1])
  | .writeQuadlet _ _, .setValue g values =>
    g = .regData || g = .regAddr || (g = .ctrl && values ≠ ctrl_zero) || (g = .reqBus && values = [1])
  | .readBlock addr _, .setValue g values => g = .addrLsb && values = [lsbValue addr]
  | .writeBlock addr _, .setValue g values =>
    g = .regData || g = .regAddr || (g = .addrLsb && values = [lsbValue addr]) ||
      (g = .ctrl && values ≠ ctrl_zero) || (g = .reqBus && values = [1])
  | _, _ => false

/-- The return value of a call that sets lines. -/
def returned : GpioEvent → Int
  | ⟨.setValue _ _, rc⟩ => rc
  | _ => 0

end FpgaV3.Spec
