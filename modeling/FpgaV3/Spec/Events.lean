import FpgaV3.Framework.Session
import FpgaV3.Spec.DriveGpio

/-!
# The events of the op_done line

The kernel queues an event at each rise of `op_done` while the line is
requested for events; reading an event removes the oldest one, and releasing
the line empties the queue (`Kernel`). The firmware raises `op_done` once for
each access that was triggered, at any later time (`Kernel.Due`). The accesses
are numbered from 1, and an event is the number of the access it was raised
for.
-/

namespace FpgaV3.Spec

open FpgaV3.Impl

/-- The lines, and the events of `op_done`: whether the line is requested for
events, those queued, those of the accesses answered so far, and those the
driver has read. -/
structure Kernel where
  bus : Bus
  edges : Bool := false
  queue : List Nat := []
  risen : List Nat := []
  taken : List Nat := []

namespace Kernel

/-- `op_done` rises for the accesses `gs`, one after the other. -/
def rise (s : Kernel) (gs : List Nat) : Kernel :=
  { s with risen := s.risen ++ gs, queue := if s.edges then s.queue ++ gs else s.queue }

/-- The accesses `gs`, later than the first `g₀`, are triggered and not yet
answered. -/
structure Due (g₀ : Nat) (s : Kernel) (gs : List Nat) : Prop where
  nodup : gs.Nodup
  later : ∀ g ∈ gs, g₀ < g
  triggered : ∀ g ∈ gs, g ≤ s.bus.accesses.length
  fresh : ∀ g ∈ gs, g ∉ s.risen

/-- The events after a call. -/
def events (s : Kernel) : GpioEvent → Kernel
  | ⟨.release .opDone, _⟩ => { s with edges := false, queue := [] }
  | ⟨.requestRisingEdgeEvents .opDone, rc⟩ => if rc = 0 then { s with edges := true } else s
  | ⟨.eventRead .opDone, rc⟩ =>
    if rc = 0 then { s with queue := s.queue.tail, taken := s.taken ++ s.queue.head?.toList } else s
  | _ => s

/-- Only a queued event is waited for or read with success; no call on the
lines fails. -/
def Admits (s : Kernel) : GpioEvent → Prop
  | ⟨.eventWait .opDone _, rc⟩ => rc = 1 → s.queue ≠ []
  | ⟨.eventRead .opDone, rc⟩ => rc = 0 → s.queue ≠ []
  | x => succeeds x

/-- The kernel after a call. -/
def answer (s : Kernel) (x : GpioEvent) : Kernel := { s.events x with bus := s.bus.driveGpio x }

end Kernel

/-- The kernel and the firmware, which answers no access up to `g₀`: before
each call `op_done` may rise. -/
def kernels (g₀ : Nat) : World GpioOp GpioOp.Ans Kernel :=
  ⟨fun s e r s' => ∃ gs, s.Due g₀ gs ∧ (s.rise gs).Admits ⟨e, r⟩ ∧ s' = (s.rise gs).answer ⟨e, r⟩⟩

/-- What a caller of the driver may do. -/
inductive Command where
  | request (req : Request)
  | setEventMode (newState : Bool)
deriving DecidableEq

/-- The quadlets that the caller asks for. -/
def Command.quads : Command → Nat
  | .request req => req.quads
  | .setEventMode _ => 0

/-- A command, and whether it returned true. -/
def command (fuel : Nat) : Command → Interface → GpioProg (Bool × Interface)
  | .request req, s => Gpiod.exec fuel req s
  | .setEventMode newState, s => do
    let s ← Gpiod.setEventMode s newState
    return (true, s)

abbrev EventCall := Call GpioOp GpioOp.Ans Kernel Command Interface Bool

/-- The events read after `taken` are those of the first accesses after `g₀`, in
their order, and there is one for each quadlet. -/
def ReadOwn (g₀ : Nat) (taken : List Nat) (quads : Nat) (s : Kernel) : Prop :=
  ∃ n, quads ≤ n ∧ s.taken = taken ++ List.range' (g₀ + 1) n

/-- The events that the call has read are those of its own accesses. -/
def Own (c : EventCall) : Prop := ReadOwn c.pre.bus.accesses.length c.pre.taken c.op.quads c.post

/-- No event was left when the call was made, and `op_done` did not rise for an
earlier access during the call. -/
structure Prompt (c : EventCall) : Prop where
  empty : c.pre.queue = []
  own : ∀ g ∈ c.post.risen.drop c.pre.risen.length, c.pre.bus.accesses.length < g

end FpgaV3.Spec
