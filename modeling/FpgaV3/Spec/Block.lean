import FpgaV3.Impl.Block
import FpgaV3.Spec.Device

/-!
# A system that runs `fpgav3block`

A device with a bus of version 1 behind the registers of the processor, the array that the
program allocates, and what it prints (`Host`, `boards`). The arguments are hexadecimal
and decimal numbers (`Hex`, `Numeral`).
-/

namespace FpgaV3.Spec

open FpgaV3.Impl FpgaV3.Impl.Block

/-- The device, with the contents of the array; its length; whether it was only accessed
within it; and what was printed. -/
structure Host where
  dev : Device
  len : Nat := 0
  inside : Bool := true
  out : List (List Item) := []

namespace Host

/-- Another array. -/
def withMem (τ : Host) (mem : Nat → BitVec 32) : Host := { τ with dev := { τ.dev with mem := mem } }

/-- An access to quadlet `q` of the array. -/
def touch (τ : Host) (q : Nat) : Host := { τ with inside := τ.inside && decide (q < τ.len) }

/-- The next program, with an array that it has not allocated yet. -/
def restart (τ : Host) (mem : Nat → BitVec 32) : Host := { dev := { τ.dev with mem := mem } }

end Host

/-- The memory can be mapped, and the bus has version 1. -/
def Granted : (op : RegOp) → op.Ans → Prop
  | .openMem, r => r = true
  | .mmapInit _ _, r => r = true
  | .regRead .inputUpper, v => (v &&& Bits.version) >>> 28 = 1
  | _, _ => True

/-- The accesses of the driver to the array. -/
def Host.accessed (τ : Host) : RegOp → Host
  | .load q | .store q _ => τ.touch q
  | _ => τ

/-- The mmap driver's calls are answered by the device, which acknowledges each access
after at most `limit` samples, and before the timeout. -/
def boards (limit : Nat) : World BlockOp BlockOp.Ans Host where
  step τ
    | .mmap op, r, τ' => Granted op r ∧ ∃ σ, (devices 250000 limit).step τ.dev op r σ ∧ τ' = { τ.accessed op with dev := σ }
    | .gpiod _, _, _ => True
    | .new num, ok, τ' => ok = decide (0 ≤ num) ∧ ∃ mem, τ' = { τ.withMem mem with len := num.toNat }
    | .memset num, _, τ' => τ' = { τ.withMem (fun q => if (q : Int) < num then 0 else τ.dev.mem q) with
        inside := τ.inside && decide (num ≤ τ.len) }
    | .load q, v, τ' => v = τ.dev.mem q ∧ τ' = τ.touch q
    | .store q v, _, τ' => τ' = (τ.withMem fun i => if i = q then v else τ.dev.mem i).touch q
    | .cout items, _, τ' => τ' = { τ with out := τ.out ++ [items] }

/-- The digits of the number `n`. -/
structure Numeral (base : Nat) (arg : List Char) (n : Nat) : Prop where
  nonempty : arg ≠ []
  digits : ∀ c ∈ arg, digitValue c < base
  value : number base arg = n

instance (base : Nat) (arg : List Char) (n : Nat) : Decidable (Numeral base arg n) :=
  decidable_of_iff ((arg ≠ [] ∧ arg.all fun c => decide (digitValue c < base)) ∧ number base arg = n)
    ⟨fun h => ⟨h.1.1, fun c hc => of_decide_eq_true (List.all_eq_true.mp h.1.2 c hc), h.2⟩,
      fun h => ⟨⟨h.nonempty, List.all_eq_true.mpr fun c hc => decide_eq_true (h.digits c hc)⟩, h.value⟩⟩

/-- A number in hexadecimal digits, or these after `0x`. -/
def Hex (arg : List Char) (n : Nat) : Prop := Numeral 16 arg n ∨ ∃ digits, arg = '0' :: 'x' :: digits ∧ Numeral 16 digits n

/-- The words `ws` and zeros are in the `n` registers from `a` on. -/
def Stored (n : Nat) (a : BitVec 16) (ws : List (BitVec 32)) (regs : BitVec 16 → BitVec 32) : Prop :=
  ∀ i < n, regs (a + BitVec.ofNat 16 i) = ws.getD i 0

/-- The lines that tell of the words. -/
def printed (n : Nat) (ws : List (BitVec 32)) : List (List Item) :=
  (List.range n).map fun i => [.text (text "0x"), .hex (ws.getD i 0)]

end FpgaV3.Spec
