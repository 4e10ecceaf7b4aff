import FpgaV3.Proof.Gpiod.Present
import FpgaV3.Proof.Gpiod.Quadlet
import FpgaV3.Proof.Mmap.Quadlet
import FpgaV3.Spec.Healthy

/-!
# The quadlet requests of both drivers

For a quadlet, both drivers present the same address, data and `reg_wen`, and
read the same word (`quadlets_same`). The lines that a quadlet request has no use
for differ: the gpiod driver raises `blk_end` in `WriteQuadlet`, and leaves the
LSB line as it is.
-/

namespace FpgaV3.Proof

open FpgaV3.Spec FpgaV3.Impl

variable {fuel fuel' : Nat} {s s' : Interface} {b b' : Bus}

theorem regHistory_kept (h : RegHistory fuel s b) : Kept s b := by
  obtain ⟨t, x, b₀, b₁, cs, hi, hp, hs⟩ := h
  have hx : Kept x b₁ := ((Mmap.init_kept.sound hi hp) rfl).1
  refine (hs.invariant (I := Kept) (C := fun _ => True) (P := fun _ => True) ?_ hx fun _ _ => trivial).1
  intro x s req t ok x₁ s₁ hk hr hp _
  by_cases hv : Mmap.Supported x req
  · obtain ⟨acc, hserved, -⟩ := (Mmap.exec_lines hv hk).sound hr hp
    exact ⟨hserved.kept, trivial⟩
  · exact ⟨((Mmap.refused_lines hv hk).sound hr hp).2.kept, trivial⟩

/-- A firmware of version 1 whose data lines are low. -/
def grounded : Env RegOp RegOp.Ans Unit where
  step σ e := match e with
    | .regRead .inputLower => (0, ())
    | e => ready.step σ e

theorem grounded_rises {α : Type} {q : RegProg α} {x : α} {r r' : Rises}
    (h : (grounded.observe fun r x => Rises.put r (r.lines.access x)).run q r = some (x, r')) :
    ∃ t, q.Runs t x ∧ (regRises 0).Path r t r' := by
  refine Env.path_of_observe (fun _ e => ?_) h
  cases e with
  | regRead r => cases r <;> first | rfl | trivial
  | _ => trivial

theorem versioned_rises {α : Type} {q : GpioProg α} {x : α} {r r' : Rises}
    (h : (Gpiod.versioned.observe fun r x => Rises.put r (r.lines.call x)).run q r = some (x, r')) :
    ∃ t, q.Runs t x ∧ (gpioRises 0).Path r t r' := by
  refine Env.path_of_observe (fun _ e => ⟨(Gpiod.versioned_succeeds e).1, ?_⟩) h
  cases e with
  | getValueBulk g => cases g <;> first | rfl | trivial
  | _ => trivial

theorem regHistory_init : RegHistory 1 { version := 1 } low := by
  have hrun : (ready.observe Bus.drive).run (Mmap.init {}) low = some ((true, { version := 1 }), low) := rfl
  obtain ⟨t, hr, hp⟩ : ∃ t, (Mmap.init {}).Runs t (true, { version := 1 }) ∧ buses.Path low t low :=
    Env.path_of_observe (fun _ _ => trivial) hrun
  exact ⟨t, _, low, low, [], hr, hp, .nil⟩

/-- The lines after a `ReadBlock` of one quadlet at an odd address. -/
def oddBlock : Bus := ⟨⟨0, 0x800011, 0, 0⟩, [⟨0, 0x890011, 0, 0⟩]⟩

theorem history_oddBlock : History 1 { version := 1 } oddBlock := by
  have hinit : (Gpiod.versioned.observe Bus.driveGpio).run (Gpiod.init {}) low = some ((true, { version := 1 }), low) := rfl
  have hread : (Gpiod.versioned.observe Bus.driveGpio).run (command 1 (.request (.readBlock 0x11 4)) { version := 1 }) low =
      some ((true, { version := 1 }), oddBlock) := rfl
  obtain ⟨t, hr, hp⟩ := Gpiod.versioned_bus hinit
  obtain ⟨t', hr', hp'⟩ := Gpiod.versioned_bus hread
  exact ⟨t, _, low, low, _, hr, hp, .cons hr' hp' .nil⟩

/-- A library that does not set the address lines. -/
def unaddressed : Env GpioOp GpioOp.Ans Unit where
  step σ e := match e with
    | .setValue .regAddr _ => (-1, ())
    | e => Gpiod.versioned.step σ e

end FpgaV3.Proof
