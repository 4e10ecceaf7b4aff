import FpgaV3.Framework.World

/-!
# The EMIO lines

The 64 EMIO bits between the processor and the FPGA, as the processor drives
them (`Emio`): `emio[31:0]` are the data lines, with their directions and
output enables, `emio[63:32]` the address and control lines.

The firmware performs a register access when `req_bus` rises, and a further
one each time `addr_lsb` changes while `req_bus` stays high (`triggers`). A
bus (`Bus`) follows the lines and lists the accesses, each with the lines it
was presented with.
-/

namespace FpgaV3.Spec

/-- The levels the processor drives on `emio[31:0]` (`lower`) and
`emio[63:32]` (`upper`); whether each data line is an output (`dir`) and
enabled (`en`). -/
structure Emio where
  lower : BitVec 32
  upper : BitVec 32
  dir : BitVec 32
  en : BitVec 32
deriving DecidableEq

namespace Emio

def regAddr (l : Emio) : BitVec 16 := l.upper.setWidth 16
def reqBus (l : Emio) : Bool := l.upper.getLsbD 16
def regWen (l : Emio) : Bool := l.upper.getLsbD 18
def blkStart (l : Emio) : Bool := l.upper.getLsbD 19
def blkEnd (l : Emio) : Bool := l.upper.getLsbD 20
def addrLsb (l : Emio) : Bool := l.upper.getLsbD 23

/-- The data lines are inputs. -/
def DataIn (l : Emio) : Prop := l.dir = 0

/-- The data lines are outputs, and enabled. -/
def DataOut (l : Emio) : Prop := l.dir = BitVec.allOnes 32 ∧ l.en = BitVec.allOnes 32

/-- No request, and no control line high. -/
structure Idle (l : Emio) : Prop where
  reqBus : l.reqBus = false
  regWen : l.regWen = false
  blkStart : l.blkStart = false
  blkEnd : l.blkEnd = false

/-- The firmware performs an access as the lines change from `l` to `l'`. -/
def triggers (l l' : Emio) : Bool :=
  l'.reqBus && (!l.reqBus || l.addrLsb != l'.addrLsb)

end Emio

/-- The lines, and the accesses performed so far. -/
structure Bus where
  lines : Emio
  accesses : List Emio := []

namespace Bus

/-- The lines change to `l`. -/
def put (b : Bus) (l : Emio) : Bus :=
  ⟨l, b.accesses ++ if b.lines.triggers l then [l] else []⟩

@[simp] theorem lines_put (b : Bus) (l : Emio) : (b.put l).lines = l := rfl

theorem put_of_triggers {b : Bus} {l : Emio} (h : b.lines.triggers l = true) :
    b.put l = ⟨l, b.accesses ++ [l]⟩ := by simp [put, h]

theorem put_of_not {b : Bus} {l : Emio} (h : b.lines.triggers l = false) :
    b.put l = ⟨l, b.accesses⟩ := by simp [put, h]

end Bus

end FpgaV3.Spec
