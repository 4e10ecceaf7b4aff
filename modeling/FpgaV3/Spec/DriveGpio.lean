import FpgaV3.Framework.Word
import FpgaV3.Impl.Gpiod
import FpgaV3.Spec.Drive

/-!
# The lines as libgpiod sets them

How the calls of the library change the EMIO lines. The value of a line is
high if it is not zero; a call that fails leaves its lines unchanged.
-/

namespace FpgaV3.Spec

open FpgaV3.Impl

namespace Emio

/-- EMIO bit `k` is set to `b`. -/
def setLine (l : Emio) (k : Nat) (b : Bool) : Emio :=
  if k < 32 then { l with lower := setBit l.lower k b } else { l with upper := setBit l.upper (k - 32) b }

/-- The lines of a bulk are set to the values. -/
def setLines (l : Emio) (g : Lines) (values : List Int) : Emio :=
  (g.offsets.zip values).foldl (fun l x => l.setLine (x.1 - INDEX_EMIO_START) (x.2 != 0)) l

/-- The lines after a call of the library. -/
def call (l : Emio) : GpioEvent → Emio
  | ⟨.setValue g values, rc⟩ => if rc = 0 then l.setLines g values else l
  | ⟨.requestOutput g values, rc⟩ => if rc = 0 then l.setLines g values else l
  | ⟨.requestInput .regData, rc⟩ => if rc = 0 then { l with dir := 0 } else l
  | ⟨.setDirectionInput .regData, rc⟩ => if rc = 0 then { l with dir := 0 } else l
  | ⟨.setDirectionOutput .regData values, rc⟩ =>
    if rc = 0 then { l.setLines .regData values with dir := BitVec.allOnes 32, en := BitVec.allOnes 32 } else l
  | _ => l

end Emio

/-- The bus after a call. -/
def Bus.driveGpio (b : Bus) (x : GpioEvent) : Bus := b.put (b.lines.call x)

def touchesGpio : GpioOp → List Nat
  | .load q | .store q _ => [q]
  | _ => []

def touchedGpio (t : Trace GpioOp GpioOp.Ans) : List Nat := t.flatMap fun x => touchesGpio x.1

/-- The call only lowers request or control lines. -/
def isCleanup (g : Lines) (values : List Int) : Prop := (g = .reqBus ∨ g = .ctrl) ∧ ∀ v ∈ values, v = 0

/-- The library lowers the request and control lines that are high whenever it
is asked to; any other call may fail. -/
def cleans (b : Bus) : GpioEvent → Prop
  | ⟨.setValue g values, rc⟩ => isCleanup g values → rc = 0 ∨ b.lines.setLines g values = b.lines
  | _ => True

/-- No call on the lines fails. -/
def succeeds : GpioEvent → Prop
  | ⟨.setValue _ _, rc⟩ => rc = 0
  | ⟨.setDirectionInput _, rc⟩ => rc = 0
  | ⟨.setDirectionOutput _ _, rc⟩ => rc = 0
  | ⟨.getValueBulk _, rc⟩ => rc.1 = 0
  | _ => True

/-- The lines follow the calls of a library that fails as `adm` says. -/
def gpioBuses (adm : Bus → GpioEvent → Prop) : World GpioOp GpioOp.Ans Bus := World.obs adm Bus.driveGpio

end FpgaV3.Spec
