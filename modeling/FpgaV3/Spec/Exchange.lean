import FpgaV3.Spec.Handshake

/-!
# The exchanges of a request

What the trace of a request says of its quadlets, without a timeout: each is
requested by a write to `Reg_OutputUpper`, acknowledged by a sample of
`Reg_InputUpper`, and its word sampled from `Reg_InputLower` before the next
write to `Reg_OutputUpper` (`Exchange.call`).
-/

namespace FpgaV3.Spec

open FpgaV3.Impl

/-- Where the exchange of a quadlet stands: `req_bus` is low, the quadlet is
requested, or it is acknowledged. -/
inductive Turn where
  | idle | asked | acked
deriving DecidableEq

/-- The exchanges so far: the number of quadlets acknowledged, the samples of
`Reg_InputLower`, each with the number of its quadlet, the words stored in the
caller's data, and the words written to `Reg_OutputUpper`. -/
structure Exchange where
  turn : Turn := .idle
  acked : Nat := 0
  samples : List (Nat × BitVec 32) := []
  stored : List (Nat × BitVec 32) := []
  written : List (BitVec 32) := []
deriving DecidableEq

/-- The exchanges after a call; `none` if it writes `Reg_OutputUpper` before the
quadlet is acknowledged, or samples `Reg_InputLower` when none is. -/
def Exchange.call (x : Exchange) : RegEvent → Option Exchange
  | ⟨.regWrite .outputUpper v, _⟩ =>
    if x.turn = .asked then none
    else some { x with turn := if reqBus v then .asked else .idle, written := x.written ++ [v] }
  | ⟨.regRead .inputUpper, u⟩ =>
    if x.turn = .asked ∧ opDone u = true then some { x with turn := .acked, acked := x.acked + 1 } else some x
  | ⟨.regRead .inputLower, v⟩ =>
    if x.turn = .acked then some { x with samples := x.samples ++ [(x.acked - 1, v)] } else none
  | ⟨.store q v, _⟩ => some { x with stored := x.stored ++ [(q, v)] }
  | _ => some x

/-- The exchanges follow the calls, whatever these are answered. -/
def exchanges : World RegOp RegOp.Ans (Option Exchange) :=
  World.obs (fun _ _ => True) fun o x => o.bind (·.call x)

/-- The exchanges of a trace. -/
def exchange (t : Trace RegOp RegOp.Ans) : Option Exchange := t.foldl (fun o x => o.bind (·.call x)) (some {})

/-- No request reached the bus, and nothing was stored. -/
def Exchange.Refused (x : Exchange) : Prop := x.written = [] ∧ x.stored = []

/-- `n` quadlets were exchanged, and then all lines were lowered. -/
structure Exchange.Complete (n : Nat) (x : Exchange) : Prop where
  turn : x.turn = .idle
  acked : x.acked = n
  last : x.written.getLast? = some 0

/-- The words that a block transfer stores are the samples of its quadlets. -/
structure Exchange.Moves (req : Request) (x : Exchange) : Prop where
  stored : x.stored = x.samples
  quads : x.samples.map Prod.fst = if req.isRead then List.range req.quads else []

end FpgaV3.Spec
