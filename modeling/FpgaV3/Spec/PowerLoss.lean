import FpgaV3.Framework.Interrupt
import FpgaV3.Spec.Flash

/-!
# Loss of power

An erase or a write that is not completed may leave anything in the range that it
was to change (`Nor.torn`). `Interrupted m flash flash' k` says how far the
programming of a flash that held `flash` has come: the sectors before `k` have the
file, those after it are as they were, and so is sector `k` if it matched.
-/

namespace FpgaV3.Spec

open FpgaV3.Impl

/-- What a call that is not completed may leave. -/
def Nor.torn (σ : Nor) : QspiOp → Nor → Prop
  | .memErase start length, σ' => ∀ i, i < start ∨ start + length ≤ i → σ'.flash i = σ.flash i
  | .write data, σ' => ∀ i, i < σ.pos ∨ σ.pos + data.length ≤ i → σ'.flash i = σ.flash i
  | _, _ => False

structure Interrupted (m : Media) (flash flash' : Mem) (k : Nat) : Prop where
  done : ∀ i c, i < k * m.erasesize → m.file[i]? = some c → flash' i = c
  rest : ∀ i, (k + 1) * m.erasesize ≤ i → flash' i = flash i
  sector : (∀ i, k * m.erasesize ≤ i → flash' i = flash i) ∨ ¬ Matches m flash k ∧ k * m.erasesize < m.file.length

end FpgaV3.Spec
