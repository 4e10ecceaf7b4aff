import FpgaV3.Framework.Env

/-!
# Clients of an object

A client is a program over the operations of an object. If each operation has
a program of its own, on the state of the object (`impl`), the client becomes a
program over the calls of those (`Prog.serve`).

If those programs do in a world what an abstract machine `v` says of the
operations, for states that `I` relates (`Serves`), then so does every client
whose operations are among them (`wp_serve`): it ends with the result that it
has on the machine. The client may choose its operations after the answers to
the earlier ones.
-/

namespace FpgaV3

variable {O : Type} {A : O → Type} {E : Type} {R : E → Type} {X S T α : Type}

/-- Each operation is its program. -/
def Prog.serve (impl : (o : O) → X → Prog E R (A o × X)) : Prog O A α → X → Prog E R (α × X)
  | .ret a, x => .ret (a, x)
  | .call o k, x => impl o x >>= fun y => (k y.1).serve impl y.2
  | .stop, _ => .stop

/-- The operations satisfying `P` do what the machine says. -/
def Serves (w : World E R S) (impl : (o : O) → X → Prog E R (A o × X)) (v : Env O A T) (I : X → S → T → Prop)
    (P : O → Prop) : Prop :=
  ∀ o x s t, P o → I x s t → WP w False (impl o x) s fun y s' => y.1 = (v.step t o).1 ∧ I y.2 s' (v.step t o).2

variable {w : World E R S} {impl : (o : O) → X → Prog E R (A o × X)} {v : Env O A T} {I : X → S → T → Prop}
  {P : O → Prop}

theorem wp_serve (hi : Serves w impl v I P) {p : Prog O A α} (hp : p.All P) {x : X} {s : S} {t t' : T} {a : α}
    (h : I x s t) (hr : v.run p t = some (a, t')) :
    WP w False (p.serve impl x) s fun y s' => y.1 = a ∧ I y.2 s' t' := by
  induction p generalizing x s t with
  | ret b =>
    simp only [Env.run_ret, Option.some.injEq, Prod.mk.injEq] at hr
    obtain ⟨rfl, rfl⟩ := hr
    exact ⟨rfl, h⟩
  | call o k ih =>
    rw [Prog.serve, wp_bind]
    refine WP.mono (hi o x s t hp.1 h) fun y s' hy => ?_
    obtain ⟨hy, hI⟩ := hy
    rw [hy]
    exact ih _ (hp.2 _) hI hr
  | stop => cases hr

end FpgaV3
