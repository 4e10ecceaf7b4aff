import FpgaV3.Framework.Env

/-!
# Programs that do the same

Two programs do the same in an environment if they make the same calls, which are
then answered alike, and end alike (`Same`). What they have in common can be left out
(`same_bind`), and programs that begin alike go on from one state (`Same.seq`).
-/

namespace FpgaV3

variable {E : Type} {R : E → Type} {S α β : Type} {v : Env E R S} {p q : Prog E R α} {f g : α → Prog E R β} {s s' : S}

theorem Env.trace_bind : v.trace (p >>= f) s =
    v.trace p s ++ ((v.run p s).map fun x => v.trace (f x.1) x.2).getD [] := by
  induction p generalizing s with
  | ret a => rfl
  | call e k ih => exact congrArg (List.cons _) (ih _)
  | stop => rfl

structure Same (v : Env E R S) (p q : Prog E R α) (s : S) : Prop where
  trace : v.trace p s = v.trace q s
  run : v.run p s = v.run q s

theorem Same.refl (v : Env E R S) (p : Prog E R α) (s : S) : Same v p p s := ⟨rfl, rfl⟩

theorem same_call {e : E} {k k' : R e → Prog E R α} :
    Same v (.call e k) (.call e k') s ↔ Same v (k (v.step s e).1) (k' (v.step s e).1) (v.step s e).2 :=
  ⟨fun h => ⟨List.tail_eq_of_cons_eq h.trace, h.run⟩, fun h => ⟨congrArg (List.cons _) h.trace, h.run⟩⟩

/-- The same call first. -/
theorem same_perform {e : E} {f g : R e → Prog E R β} :
    Same v (.perform e >>= f) (.perform e >>= g) s ↔ Same v (f (v.step s e).1) (g (v.step s e).1) (v.step s e).2 :=
  same_call

/-- The same program first. -/
theorem same_bind : Same v (p >>= f) (p >>= g) s ↔ ∀ a s', v.run p s = some (a, s') → Same v (f a) (g a) s' := by
  induction p generalizing s with
  | ret a =>
    constructor
    · intro h a' s' hrun
      obtain ⟨rfl, rfl⟩ := Prod.mk.inj (Option.some.inj hrun)
      exact h
    · exact fun h => h a s rfl
  | call e k ih => exact same_call.trans (ih _)
  | stop => exact ⟨fun _ _ _ hrun => absurd_none hrun, fun _ => ⟨rfl, rfl⟩⟩

theorem same_bind_of_run {a : α} (h : v.run p s = some (a, s')) :
    Same v (p >>= f) (p >>= g) s ↔ Same v (f a) (g a) s' := by
  rw [same_bind, h]
  simp only [Option.some.injEq, Prod.mk.injEq, and_imp]
  exact ⟨fun h => h a s' rfl rfl, fun h a' s₁ ha hs => ha ▸ hs ▸ h⟩

theorem Same.bind (h : Same v p q s) (f : α → Prog E R β) : Same v (p >>= f) (q >>= f) s where
  trace := by rw [Env.trace_bind, Env.trace_bind, h.trace, h.run]
  run := by rw [Env.run_bind, Env.run_bind, h.run]

/-- Programs that make the same calls first. -/
theorem Same.seq {a b : α} (htrace : v.trace p s = v.trace q s) (hp : v.run p s = some (a, s'))
    (hq : v.run q s = some (b, s')) (h : Same v (f a) (g b) s') : Same v (p >>= f) (q >>= g) s where
  trace := by
    rw [Env.trace_bind, Env.trace_bind, htrace, hp, hq]
    exact congrArg _ h.trace
  run := by
    rw [Env.run_bind, Env.run_bind, hp, hq]
    exact h.run

end FpgaV3
