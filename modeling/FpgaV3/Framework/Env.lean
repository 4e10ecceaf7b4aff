import FpgaV3.Framework.World

/-!
# Deterministic environments

An environment that answers every call with one value (`Env`) runs a program
to its result (`Env.run`, `none` if a bound is used up). As a world
(`Env.world`) it allows that one run: a total `WP` there says that the run
ends, and how (`Env.run_of_wp`).
-/

namespace FpgaV3

/-- A machine that answers every call. -/
structure Env (E : Type) (R : E → Type) (S : Type) where
  step : S → (e : E) → R e × S

namespace Env

variable {E : Type} {R : E → Type} {S α β : Type} {lim : Prop}

/-- The result of a program and the state it leaves, if it ends. -/
def run (v : Env E R S) : Prog E R α → S → Option (α × S)
  | .ret a, s => some (a, s)
  | .call e k, s => v.run (k (v.step s e).1) (v.step s e).2
  | .stop, _ => none

@[simp] theorem run_ret {v : Env E R S} {a : α} {s : S} : v.run (.ret a) s = some (a, s) := rfl
@[simp] theorem run_pure {v : Env E R S} {a : α} {s : S} : v.run (pure a) s = some (a, s) := rfl

theorem run_bind {v : Env E R S} {p : Prog E R α} {f : α → Prog E R β} {s : S} :
    v.run (p >>= f) s = (v.run p s).bind fun x => v.run (f x.1) x.2 := by
  induction p generalizing s with
  | ret a => rfl
  | call e k ih => simp only [Prog.call_bind, run, ih]
  | stop => rfl

/-- The environment as a world. -/
def world (v : Env E R S) : World E R S := ⟨fun s e r s' => v.step s e = (r, s')⟩

@[simp] theorem step_world {v : Env E R S} {s s' : S} {e : E} {r : R e} :
    v.world.step s e r s' ↔ v.step s e = (r, s') := Iff.rfl

theorem wp_world_call {v : Env E R S} {e : E} {k : R e → Prog E R α} {s : S} {Q : α → S → Prop} :
    WP v.world lim (.call e k) s Q ↔ WP v.world lim (k (v.step s e).1) (v.step s e).2 Q := by
  simp only [wp_call, step_world]
  exact ⟨fun h => h _ _ rfl, fun h r s' e => by rw [e] at h; exact h⟩

theorem run_of_wp {v : Env E R S} {p : Prog E R α} {s : S} {Q : α → S → Prop}
    (h : WP v.world False p s Q) : ∃ a s', v.run p s = some (a, s') ∧ Q a s' := by
  induction p generalizing s with
  | ret a => exact ⟨a, s, rfl, h⟩
  | call e k ih => exact ih _ (wp_world_call.mp h)
  | stop => exact h.elim

/-- The calls a program makes of the environment. -/
def trace (v : Env E R S) : Prog E R α → S → Trace E R
  | .ret _, _ => []
  | .call e k, s => ⟨e, (v.step s e).1⟩ :: v.trace (k (v.step s e).1) (v.step s e).2
  | .stop, _ => []

/-- The run of an environment is a run of the program along a path of it. -/
theorem runs_of_run {v : Env E R S} {p : Prog E R α} {s s' : S} {a : α}
    (h : v.run p s = some (a, s')) : p.Runs (v.trace p s) a ∧ v.world.Path s (v.trace p s) s' := by
  induction p generalizing s with
  | ret b =>
    simp only [run_ret, Option.some.injEq, Prod.mk.injEq] at h
    exact ⟨⟨rfl, h.1.symm⟩, h.2.symm⟩
  | call e k ih =>
    obtain ⟨hr, hp⟩ := ih _ h
    exact ⟨⟨_, _, rfl, hr⟩, ⟨_, rfl, hp⟩⟩
  | stop => cases h

/-- An environment whose answers a world allows: its run is a path there. -/
theorem path_of_run {T : Type} {v : Env E R S} {w : World E R T} {f : S → T}
    (h : ∀ s e, w.step (f s) e (v.step s e).1 (f (v.step s e).2)) {p : Prog E R α} {s s' : S} {a : α}
    (hr : v.run p s = some (a, s')) : w.Path (f s) (v.trace p s) (f s') := by
  induction p generalizing s with
  | ret b =>
    simp only [run_ret, Option.some.injEq, Prod.mk.injEq] at hr
    rw [hr.2]
    rfl
  | call e k ih => exact ⟨_, h s e, ih _ hr⟩
  | stop => cases hr

/-- The environment with an observer that computes `f` of the calls. -/
def observe (v : Env E R Unit) (f : S → Event E R → S) : Env E R S :=
  ⟨fun s e => ((v.step () e).1, f s ⟨e, (v.step () e).1⟩)⟩

/-- A run under observation is a path of any observer that admits its calls. -/
theorem path_of_observe {v : Env E R Unit} {f : S → Event E R → S} {adm : S → Event E R → Prop}
    (h : ∀ s e, adm s ⟨e, (v.step () e).1⟩) {p : Prog E R α} {s s' : S} {a : α}
    (hr : (v.observe f).run p s = some (a, s')) : ∃ t, p.Runs t a ∧ (World.obs adm f).Path s t s' := by
  have hstep (s : S) (e : E) : (World.obs adm f).step s e ((v.observe f).step s e).1 ((v.observe f).step s e).2 :=
    ⟨h s e, rfl⟩
  exact ⟨_, (runs_of_run hr).1, path_of_run (f := id) hstep hr⟩

/-- What holds of every answer holds of the calls of a run. -/
theorem trace_all {v : Env E R S} {P : Event E R → Prop} (h : ∀ s e, P ⟨e, (v.step s e).1⟩) (p : Prog E R α) (s : S) :
    ∀ x ∈ v.trace p s, P x := by
  induction p generalizing s with
  | ret a => exact fun _ h => absurd h List.not_mem_nil
  | call e k ih => exact List.forall_mem_cons.mpr ⟨h s e, ih _ _⟩
  | stop => exact fun _ h => absurd h List.not_mem_nil

end Env

end FpgaV3
