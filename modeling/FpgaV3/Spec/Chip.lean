import FpgaV3.Framework.World
import FpgaV3.Impl.Boot

/-!
# The flash chip

A chip has its identification, status register 2 and the write-enable latch. It sends
what a command asks for, and obeys the commands that enable a write and write the
register. A transfer that fails may have been obeyed or not.
-/

namespace FpgaV3.Spec

open FpgaV3.Impl FpgaV3.Impl.Boot

/-- The first bytes of the identification are the manufacturer, the type and the
capacity. -/
structure Chip where
  id : Nat → Byte
  sr2 : Byte
  wel : Bool

namespace Chip

/-- The chip after a command. -/
def obey (c : Chip) : List Byte → Chip
  | [cmd] => if cmd = WRITE_ENABLE_CMD then { c with wel := true } else c
  | [cmd, value] => if cmd = WRITE_STATUS_REG2 ∧ c.wel then { c with sr2 := value, wel := false } else c
  | _ => c

/-- What the chip may send while it receives `data`: as much, and after the command
the identification or the register, if it is asked for. -/
structure Sends (c : Chip) (data bytes : List Byte) : Prop where
  length : bytes.length = data.length
  id : data.head? = some READ_ID_CMD → ∀ k b, bytes[k + 1]? = some b → b = c.id k
  sr2 : data.head? = some READ_STATUS_REG2 → ∀ b, bytes[1]? = some b → b = c.sr2

/-- Quad Enable is set. -/
def QuadEnabled (c : Chip) : Prop := c.sr2 &&& QE_BIT_MASK ≠ 0

/-- A W25Q128JV or a W25Q128JV-M. -/
def Known (WINBOND_ID manufacturer type capacity : Byte) : Prop :=
  manufacturer = WINBOND_ID ∧ capacity = 0x18 ∧ (type = 0x40 ∨ type = 0x70)

end Chip

/-- The chip at the other end of the transfers. -/
def chip : World BootOp BootOp.Ans Chip where
  step c
    | .polledTransfer data, some bytes, c' => c.Sends data bytes ∧ c' = c.obey data
    | .polledTransfer data, none, c' => c' = c ∨ c' = c.obey data
    | .lookupConfig, _, c' | .cfgInitialize, _, c' => c' = c

/-- A run of `FpgaV3_Init_SD`, with the chip before and after it. -/
structure BootRun where
  pre : Chip
  trace : Trace BootOp BootOp.Ans
  post : Chip

/-- The runs `bs`, one at each boot, begin with the chip `c`. Power is off in between, so
the write-enable latch may change. -/
inductive Boots (WINBOND_ID : Byte) : Chip → List BootRun → Prop
  | nil {c} : Boots WINBOND_ID c []
  | cons {c c' t r readBuffer bs} (wel : Bool) (hr : (fpgaV3_Init_SD WINBOND_ID readBuffer).Runs t r)
      (hp : chip.Path c t c') (rest : Boots WINBOND_ID { c' with wel := wel } bs) : Boots WINBOND_ID c (⟨c, t, c'⟩ :: bs)

/-- A write of status register 2. -/
def IsWrite : BootEvent → Prop
  | ⟨.polledTransfer (cmd :: _), _⟩ => cmd = WRITE_STATUS_REG2
  | _ => False

/-- A write of `data` to the register may follow the calls `t`, by which a chip that was
`c` is known: a write was enabled just before, and `data` is the register with Quad
Enable. -/
structure Allowed (WINBOND_ID : Byte) (c : Chip) (t : Trace BootOp BootOp.Ans) (data : List Byte) : Prop where
  known : Chip.Known WINBOND_ID (c.id 0) (c.id 1) (c.id 2)
  identified : ∃ b, ⟨.polledTransfer [READ_ID_CMD, 0, 0, 0], some [b, c.id 0, c.id 1, c.id 2]⟩ ∈ t
  enabled : ∃ t₀ bytes, t = t₀ ++ [⟨.polledTransfer [WRITE_ENABLE_CMD], some bytes⟩]
  value : ∀ c', chip.Path c t c' → data = [c'.sr2 ||| QE_BIT_MASK]

/-- Every write of a run is allowed, and there is none if Quad Enable is set; the run
changes nothing else of the register. -/
structure SafeRun (WINBOND_ID : Byte) (b : BootRun) : Prop where
  writes : ∀ t₁ data r t₂, b.trace = t₁ ++ ⟨.polledTransfer (WRITE_STATUS_REG2 :: data), r⟩ :: t₂ →
    Allowed WINBOND_ID b.pre t₁ data
  none : b.pre.QuadEnabled → ∀ x ∈ b.trace, ¬ IsWrite x
  register : b.post.sr2 = b.pre.sr2 ∨ b.post.sr2 = b.pre.sr2 ||| QE_BIT_MASK

end FpgaV3.Spec
