import FpgaV3.Spec.Inputs

/-!
# The handshake of a register access

What the trace of a driver says of its handshakes. A quadlet is requested by
a write to `Reg_OutputUpper` with `req_bus` set and acknowledged by a sample
of `Reg_InputUpper` with `op_done` set. `Acknowledged`: every quadlet that the
trace requests is acknowledged before the driver goes on with the next write
or reads the data, and without being polled for longer than the timeout; and
`req_bus` is low at the end.
-/

namespace FpgaV3.Spec

open FpgaV3.Impl

/-- `req_bus` is set in a word written to `Reg_OutputUpper`. -/
def reqBus (v : BitVec 32) : Bool := v.getLsbD 16

/-- Where the handshake of a quadlet stands: `req_bus` is low; the quadlet is
requested; it was sampled and not acknowledged; it is polled since a time; it
is acknowledged. -/
inductive Wait where
  | idle
  | asked
  | polled
  | since (t : Timespec)
  | acked
deriving DecidableEq

/-- No quadlet is requested and not acknowledged. -/
def Wait.settled (w : Wait) : Bool := w = .idle || w = .acked

/-- The handshake and the number of quadlets acknowledged, after a further
call; `none` once a quadlet was left unacknowledged: by a new write to the
register, by a read of the data, or by polling until the timeout. -/
def ack (timeout : Int) : Option (Wait × Nat) → RegEvent → Option (Wait × Nat)
  | none, _ => none
  | some (w, m), ⟨.regWrite .outputUpper v, _⟩ =>
    if w.settled then some (if reqBus v then .asked else .idle, m) else none
  | some (w, m), ⟨.regRead .inputUpper, v⟩ =>
    if w.settled then some (w, m)
    else if opDone v then some (.acked, m + 1)
    else some (if w = .asked then .polled else w, m)
  | some (w, m), ⟨.regRead .inputLower, _⟩ => if w.settled then some (w, m) else none
  | some (w, m), ⟨.getCurTime, t⟩ =>
    match w with
    | .polled => if 0 < timeout then some (.since t, m) else none
    | .since t₀ => if timeDiff t₀ t < timeout then some (.since t₀, m) else none
    | w => some (w, m)
  | some x, _ => some x

/-- The trace requests `n` quadlets, each acknowledged in time, and leaves
`req_bus` low. -/
def Acknowledged (timeout : Int) (n : Nat) (t : Trace RegOp RegOp.Ans) : Prop :=
  t.foldl (ack timeout) (some (.idle, 0)) = some (.idle, n)

instance {timeout : Int} {n : Nat} {t : Trace RegOp RegOp.Ans} : Decidable (Acknowledged timeout n t) :=
  inferInstanceAs (Decidable (_ = _))

end FpgaV3.Spec
