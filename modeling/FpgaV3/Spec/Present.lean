import FpgaV3.Framework.Session
import FpgaV3.Spec.Events

/-!
# The quadlets that the gpiod driver presents

The driver requests the first quadlet of a block by raising `req_bus`, and each
further one by a write to the LSB line while `req_bus` is high, whether that
write changes the level or not. `Presented` lists the lines at each of these
calls: those of a block must carry the words of the block (`Carried`) and the
parity of the addresses (`Sequenced`), which alternates (`Toggles`).
-/

namespace FpgaV3.Spec

open FpgaV3.Impl

/-- What a successful `Init` and any commands after it lead to, whichever calls
fail but those that lower the lines. -/
def History (fuel : Nat) (s : Interface) (b : Bus) : Prop :=
  ∃ (t : Trace GpioOp GpioOp.Ans) (x : Interface) (b₀ b₁ : Bus)
    (cs : List (Call GpioOp GpioOp.Ans Bus Command Interface Bool)), (Gpiod.init {}).Runs t (true, x) ∧
    (gpioBuses cleans).Path b₀ t b₁ ∧ Session (gpioBuses cleans) (command fuel) x b₁ cs s b

/-- The lines, and the lines at each request of a quadlet. -/
structure Presented where
  lines : Emio
  requests : List Emio := []

/-- The call that changes the lines from `l` to `l'` requests a quadlet. -/
def isRequest (l l' : Emio) : GpioOp → Bool
  | .setValue .addrLsb _ => l'.reqBus
  | _ => !l.reqBus && l'.reqBus

/-- The lines after a call. -/
def Presented.call (p : Presented) (x : GpioEvent) : Presented :=
  let l := p.lines.call x
  ⟨l, p.requests ++ if isRequest p.lines l x.1 then [l] else []⟩

/-- The caller's block data are `d`. -/
def Holds (d : Nat → BitVec 32) : GpioEvent → Prop
  | ⟨.load q, v⟩ => v = d q
  | _ => True

/-- The quadlets presented if no call on the lines fails. -/
def presenting (d : Nat → BitVec 32) : World GpioOp GpioOp.Ans Presented :=
  World.obs (fun _ x => succeeds x ∧ Holds d x) Presented.call

/-- Quadlet `q` carries word `q` of the block, byte-swapped, on the data lines. -/
def Carried (d : Nat → BitVec 32) (ls : List Emio) : Prop :=
  ∀ q l, ls[q]? = some l → l.DataOut ∧ l.lower = bswap32 (d q)

/-- The LSB line is that of the address of each quadlet. -/
def Sequenced (addr : BitVec 16) (ls : List Emio) : Prop :=
  ∀ q l, ls[q]? = some l → l.addrLsb = (addr + BitVec.ofNat 16 q).getLsbD 0

/-- The LSB line changes from each quadlet to the next. -/
def Toggles (ls : List Emio) : Prop :=
  ∀ q l l', ls[q]? = some l → ls[q + 1]? = some l' → l'.addrLsb ≠ l.addrLsb

end FpgaV3.Spec
