import FpgaV3.Impl.Standalone

/-!
# Copying to the PROM registers

`EMIO_Interface::WritePromData` (`fpgav3_emio.cpp`), which calls the
`WriteQuadlet` of the object, `EMIO_WritePromData` of the standalone library,
and `CopyQspiToFpga` (`fpgav3init.cpp`). The two `WritePromData` have the same
loop; `promLoop` takes the load of a word and `WriteQuadlet` as parameters, `X`
being the object.
-/

namespace FpgaV3.Impl

section
variable {E : Type} {R : E → Type} {X : Type}

/-- `uint16_t nQuads = (nBytes+3)/4`. -/
def promQuads (nBytes : BitVec 32) : Nat := (((nBytes + 3) / 4).setWidth 16).toNat

/-- The loop from quadlet `i` on, `n` quadlets being left. -/
def promLoop (load : Nat → Prog E R (BitVec 32)) (writeQuadlet : BitVec 16 → BitVec 32 → X → Prog E R (Bool × X)) :
    (n i : Nat) → X → Prog E R (Bool × X)
  | 0, _, s => return (true, s)
  | n + 1, i, s => do
    let val ← load i
    let (ok, s) ← writeQuadlet (0x2000 + BitVec.ofNat 16 i) (bswap32 val) s
    if ok then promLoop load writeQuadlet n (i + 1) s else return (false, s)

end

/-- `EMIO_Interface::WritePromData` of an `EMIO_Interface_Mmap`. -/
def Mmap.writePromData (fuel : Nat) (s : Interface) (nBytes : BitVec 32) : RegProg (Bool × Interface) :=
  promLoop load (fun addr data s => writeQuadlet fuel s addr data) (promQuads nBytes) 0 s

/-- `EMIO_WritePromData`. -/
def Standalone.writePromData (fuel : Nat) (nBytes : BitVec 32) : RegProg Bool := do
  let (ok, _) ← promLoop load (fun addr data _ => do
    let ok ← writeQuadlet fuel addr data
    return (ok, ())) (promQuads nBytes) 0 ()
  return ok

/-! ## Over any `WriteQuadlet` -/

/-- The calls of `CopyQspiToFpga`: those of the flash device, and `WriteQuadlet`
of the `EMIO_Interface` object. -/
inductive PromOp where
  | openDev
  | read (nbytes : BitVec 16)
  | close
  | writeQuadlet (addr : BitVec 16) (data : BitVec 32)
deriving DecidableEq

/-- Their answers: the return value, and the buffer that `read` filled. -/
@[reducible] def PromOp.Ans : PromOp → Type
  | .openDev => Int
  | .read _ => Int × (Nat → BitVec 8)
  | .close => Unit
  | .writeQuadlet _ _ => Bool

abbrev PromEvent := Event PromOp PromOp.Ans

abbrev PromProg := Prog PromOp PromOp.Ans

namespace Prom

/-- `*(uint32_t *)(data+i*4)`, on a little-endian processor. -/
def wordAt (data : Nat → BitVec 8) (i : Nat) : BitVec 32 :=
  data (4 * i + 3) ++ data (4 * i + 2) ++ data (4 * i + 1) ++ data (4 * i)

def writeQuadlet (addr : BitVec 16) (data : BitVec 32) (_ : Unit) : PromProg (Bool × Unit) := do
  let ok ← .perform (PromOp.writeQuadlet addr data)
  return (ok, ())

/-- `EMIO_Interface::WritePromData`. -/
def writePromData (data : Nat → BitVec 8) (nBytes : BitVec 32) : PromProg Bool := do
  let (ok, _) ← promLoop (fun i => return wordAt data i) writeQuadlet (promQuads nBytes) 0 ()
  return ok

/-- `EMIO_WritePromData`, which does the same with `EMIO_WriteQuadlet`. -/
def emioWritePromData (data : Nat → BitVec 8) (nBytes : BitVec 32) : PromProg Bool := writePromData data nBytes

/-- `CopyQspiToFpga`. -/
def copyQspiToFpga (nbytes : BitVec 16) : PromProg Bool := do
  let fd ← .perform PromOp.openDev
  if fd < 0 then return false
  -- `nbytes+3` is computed in `int`, and `4*nQuads` stored in the `uint16_t`
  let nQuads : BitVec 16 := BitVec.ofNat 16 ((nbytes.toNat + 3) / 4)
  let nbytes : BitVec 16 := 4 * nQuads
  let (n, data) ← .perform (PromOp.read nbytes)
  .perform PromOp.close
  if n ≠ nbytes.toNat then return false
  let _ ← writePromData data (nbytes.setWidth 32)
  return true

end Prom

end FpgaV3.Impl
