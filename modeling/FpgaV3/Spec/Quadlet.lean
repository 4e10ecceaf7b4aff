import FpgaV3.Spec.Present

/-!
# The quadlet requests of both drivers

What the drivers present at the rise of `req_bus` (`Rises`) in a quadlet
request, and the word that is on the data lines for a read.
-/

namespace FpgaV3.Spec

open FpgaV3.Impl

/-- What a successful `Init` of the mmap driver and any requests after it lead
to. -/
def RegHistory (fuel : Nat) (s : Interface) (b : Bus) : Prop :=
  ∃ (t : Trace RegOp RegOp.Ans) (x : Interface) (b₀ b₁ : Bus)
    (cs : List (Call RegOp RegOp.Ans Bus Request Interface Bool)), (Mmap.init {}).Runs t (true, x) ∧
    buses.Path b₀ t b₁ ∧ Session buses (Mmap.exec fuel) x b₁ cs s b

/-- The lines, and the lines at each rise of `req_bus`. -/
structure Rises where
  lines : Emio
  rises : List Emio := []

/-- The lines change to `l`. -/
def Rises.put (r : Rises) (l : Emio) : Rises :=
  ⟨l, r.rises ++ if !r.lines.reqBus && l.reqBus then [l] else []⟩

/-- The lines after a call of the mmap driver. -/
def Emio.access (l : Emio) : RegEvent → Emio
  | ⟨.regWrite r v, _⟩ => l.write r v
  | _ => l

/-- The values of the lines of a bulk whose levels are those of the word. -/
def levels (w : BitVec 32) : List Int :=
  Lines.regData.offsets.map fun k => if w.getLsbD (k - INDEX_EMIO_START) then 1 else 0

/-- The data lines are at the levels of `w` whenever they are read. -/
def Levels (w : BitVec 32) : GpioEvent → Prop
  | ⟨.getValueBulk .regData, (_, values)⟩ => values = levels w
  | _ => True

/-- The same, as the mmap driver reads them. -/
def Sampled (w : BitVec 32) : RegEvent → Prop
  | ⟨.regRead .inputLower, v⟩ => v = w
  | _ => True

/-- The rises of `req_bus` if no call on the lines fails. -/
def gpioRises (w : BitVec 32) : World GpioOp GpioOp.Ans Rises :=
  World.obs (fun _ x => succeeds x ∧ Levels w x) fun r x => r.put (r.lines.call x)

def regRises (w : BitVec 32) : World RegOp RegOp.Ans Rises :=
  World.obs (fun _ x => Sampled w x) fun r x => r.put (r.lines.access x)

/-- The address and the control lines of a quadlet request. -/
structure Asks (addr : BitVec 16) (wen : Bool) (l : Emio) : Prop where
  regAddr : l.regAddr = addr
  regWen : l.regWen = wen
  blkStart : l.blkStart = false

/-- The lines that both drivers set in the same way for a quadlet. -/
structure Alike (l l' : Emio) : Prop where
  regAddr : l.regAddr = l'.regAddr
  regWen : l.regWen = l'.regWen
  blkStart : l.blkStart = l'.blkStart

theorem Asks.alike {addr : BitVec 16} {wen : Bool} {l l' : Emio} (h : Asks addr wen l) (h' : Asks addr wen l') :
    Alike l l' :=
  ⟨h.regAddr.trans h'.regAddr.symm, h.regWen.trans h'.regWen.symm, h.blkStart.trans h'.blkStart.symm⟩

end FpgaV3.Spec
