import FpgaV3.Framework.World

/-!
# Sessions

A session is a run of operations of an object, one after the other, in a
world: `exec o x` is the program of operation `o` on an object in state `x`,
returning its answer and the object's new state. `Session` lists the calls
that were made (`Call`), with the state of the world at each, and
`Session.invariant` is induction over them.
-/

namespace FpgaV3

variable {E : Type} {R : E → Type} {S O X β : Type}

/-- A call of an operation in a session: the object and the world when it was
made, its trace, its answer, and the world it left. -/
structure Call (E : Type) (R : E → Type) (S O X β : Type) where
  op : O
  obj : X
  pre : S
  trace : Trace E R
  ans : β
  post : S

/-- The calls `cs`, one after the other, lead an object in state `x` and a
world in state `s` to `x'` and `s'`. -/
inductive Session (w : World E R S) (exec : O → X → Prog E R (β × X)) :
    X → S → List (Call E R S O X β) → X → S → Prop
  | nil {x s} : Session w exec x s [] x s
  | cons {x s o t b x₁ s₁ cs x' s'} (hr : (exec o x).Runs t (b, x₁)) (hp : w.Path s t s₁)
      (rest : Session w exec x₁ s₁ cs x' s') : Session w exec x s (⟨o, x, s, t, b, s₁⟩ :: cs) x' s'

/-- What every call of an operation satisfying `C` keeps holds after a session
of such calls, and what it gives of each call holds of each. -/
theorem Session.invariant {w : World E R S} {exec : O → X → Prog E R (β × X)} {I : X → S → Prop}
    {C P : Call E R S O X β → Prop}
    (hI : ∀ {x s o t b x₁ s₁}, I x s → (exec o x).Runs t (b, x₁) → w.Path s t s₁ →
      C ⟨o, x, s, t, b, s₁⟩ → I x₁ s₁ ∧ P ⟨o, x, s, t, b, s₁⟩)
    {x x' : X} {s s' : S} {cs : List (Call E R S O X β)} (h : Session w exec x s cs x' s')
    (hx : I x s) (hC : ∀ c ∈ cs, C c) : I x' s' ∧ ∀ c ∈ cs, P c := by
  induction h with
  | nil => exact ⟨hx, fun _ hc => absurd hc List.not_mem_nil⟩
  | cons hr hp _ ih =>
    rw [List.forall_mem_cons] at hC
    obtain ⟨hx₁, hP⟩ := hI hx hr hp hC.1
    obtain ⟨hx', hPs⟩ := ih hx₁ hC.2
    exact ⟨hx', List.forall_mem_cons.mpr ⟨hP, hPs⟩⟩

end FpgaV3
