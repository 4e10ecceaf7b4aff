import FpgaV3.Framework.World
import FpgaV3.Spec.Handshake

/-!
# The end of a handshake

A handshake ends when `op_done` falls after `req_bus` did. `Closed`: what the
driver has done of it at the end of a call; it has lowered `req_bus` and then
sampled `op_done` clear, or polled for it until the timeout.

`Peer` is the firmware's side: `op_done` is raised for a request, stays high
until `req_bus` falls, and drops at some later sample. A sample that finds it
high for an earlier request while a new one waits is `stale`.
-/

namespace FpgaV3.Spec

open FpgaV3.Impl

/-- How far the handshake is closed: `req_bus` has not been lowered; it was
just lowered; `op_done` was then sampled high; it is polled since a time; the
handshake is closed. -/
inductive Closing where
  | open
  | low
  | polled
  | since (t : Timespec)
  | closed
deriving DecidableEq

def close (timeout : Int) : Closing → RegEvent → Closing
  | c, ⟨.regWrite .outputUpper v, _⟩ => if reqBus v then .open else if c = .open then .low else c
  | c, ⟨.regRead .inputUpper, v⟩ =>
    if c = .open then .open
    else if opDone v = false then .closed
    else if c = .low then if 0 < timeout then .polled else .closed
    else c
  | c, ⟨.getCurTime, t⟩ =>
    match c with
    | .polled => .since t
    | .since t₀ => if timeDiff t₀ t < timeout then .since t₀ else .closed
    | c => c
  | c, _ => c

/-- The call lowers `req_bus`, and then samples `op_done` clear or polls for
it until the timeout. -/
def Closed (timeout : Int) (t : Trace RegOp RegOp.Ans) : Prop :=
  t.foldl (close timeout) .open = .closed

instance {timeout : Int} {t : Trace RegOp RegOp.Ans} : Decidable (Closed timeout t) :=
  inferInstanceAs (Decidable (_ = _))

/-- The level of `req_bus`, and whether no sample taken with `req_bus` low had
`op_done` set. -/
def drop : Bool × Bool → RegEvent → Bool × Bool
  | (_, ok), ⟨.regWrite .outputUpper v, _⟩ => (reqBus v, ok)
  | (req, ok), ⟨.regRead .inputUpper, v⟩ => (req, ok && (req || !opDone v))
  | x, _ => x

/-- Every sample taken with `req_bus` low has `op_done` clear. -/
def Dropped (t : Trace RegOp RegOp.Ans) : Prop := (t.foldl drop (false, true)).2 = true

/-- The handshake as the firmware sees it: the level of `req_bus`, the number
of requests so far, the request that `op_done` is high for, and whether a
sample was stale. -/
structure Peer where
  req : Bool := false
  gen : Nat := 0
  level : Option Nat := none
  stale : Bool := false
deriving DecidableEq

namespace Peer

/-- `op_done` changes to `l`: it stays; it is raised for the request that is
waiting; it drops, the request it was raised for being over. -/
def Changes (s : Peer) (l : Option Nat) : Prop :=
  l = s.level ∨ (s.req = true ∧ l = some s.gen) ∨
    (l = none ∧ (s.req = true → s.level ≠ some s.gen))

/-- The sample of `op_done` raised for `l` is taken for the answer to the
current request, and is not. -/
def misread (s : Peer) (l : Option Nat) : Bool := s.req && l.isSome && l != some s.gen

/-- The firmware as a world. -/
def world : World RegOp RegOp.Ans Peer where
  step
    | s, .regWrite .outputUpper v, _, s' =>
      s' = { s with req := reqBus v, gen := if reqBus v && !s.req then s.gen + 1 else s.gen }
    | s, .regRead .inputUpper, v, s' => ∃ l, s.Changes l ∧ opDone v = l.isSome ∧
      s' = { s with level := l, stale := s.stale || s.misread l }
    | s, _, _, s' => s' = s

/-- No request is waiting, `op_done` is low, and no sample was stale. -/
structure Rest (s : Peer) : Prop where
  req : s.req = false
  level : s.level = none
  stale : s.stale = false

end Peer

end FpgaV3.Spec
