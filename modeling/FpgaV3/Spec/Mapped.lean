import FpgaV3.Framework.Guard
import FpgaV3.Impl.Mmap

/-!
# The mapped region

Registers are accessed through `mmap_region`, a part of the physical memory that
starts at `base_addr`: an access is to the mapping that exists at the time, and to
a word that is in it (`Mapping.Permits`). A region is unmapped with the size it was
mapped with, and no other is mapped before that, since nothing could unmap it then.
-/

namespace FpgaV3.Spec

open FpgaV3.Impl

/-- The base address of the registers that a register belongs to. -/
def base : Reg → BitVec 32
  | .aperClkCtrl => Mmap.SLCR_BASE_ADDR
  | _ => Mmap.GPIO_BASE_ADDR

/-- Whether `/dev/mem` is open, and the base address and the size of the mapping. -/
structure Mapping where
  isOpen : Bool := false
  region : Option (BitVec 32 × BitVec 16) := none
deriving DecidableEq

namespace Mapping

/-- The word of the register is mapped. -/
def Has (σ : Mapping) (r : Reg) : Prop := ∃ size, σ.region = some (base r, size) ∧ r.offset + 4 ≤ size.toNat

def Permits (σ : Mapping) : RegOp → Prop
  | .openMem => σ.isOpen = false
  | .mmapInit _ _ => σ.isOpen = true ∧ σ.region = none
  | .munmap size => ∃ b, σ.region = some (b, size)
  | .regRead r | .regWrite r _ => σ.Has r
  | .getCurTime | .load _ | .store _ _ => True

/-- The mapping after a call. -/
def call (σ : Mapping) : RegEvent → Mapping
  | ⟨.openMem, ok⟩ => if ok then { σ with isOpen := true } else σ
  | ⟨.mmapInit b size, ok⟩ => if ok then { σ with region := some (b, size) } else σ
  | ⟨.munmap _, _⟩ => { σ with region := none }
  | _ => σ

end Mapping

def mappings : World RegOp RegOp.Ans Mapping := World.obs (fun _ _ => True) Mapping.call

end FpgaV3.Spec
