import FpgaV3.Framework.Env

/-!
# Interrupted programs

Power may be lost before a call of a program, within one, or after the last.
`torn s e s'` says that a call of `e` in state `s` that is not completed may
leave `s'`; `Cut w torn p s s'`, that a run of `p` in `w` from `s` may be
interrupted in `s'`.

`Always w torn J p s` says that `J` holds wherever a run is interrupted. Its
rules are those of `WP`: a call is interrupted before it, within it or after
it (`always_call`), and a sequence in its first part or in its second, from
where the first ends (`always_bind`).
-/

namespace FpgaV3

variable {E : Type} {R : E → Type} {S α β : Type}

theorem Prog.bind_assoc {γ : Type} (p : Prog E R α) (f : α → Prog E R β) (g : β → Prog E R γ) :
    p >>= f >>= g = p >>= fun a => f a >>= g := by
  induction p with
  | ret a => rfl
  | call e k ih => exact congrArg (Prog.call e) (funext ih)
  | stop => rfl

/-- A run of the program from `s` may be interrupted in `s'`. -/
def Cut (w : World E R S) (torn : S → E → S → Prop) : Prog E R α → S → S → Prop
  | .ret _, s, s' => s' = s
  | .call e k, s, s' => s' = s ∨ torn s e s' ∨ ∃ r s₁, w.step s e r s₁ ∧ Cut w torn (k r) s₁ s'
  | .stop, s, s' => s' = s

/-- `J` holds wherever a run of the program is interrupted. -/
def Always (w : World E R S) (torn : S → E → S → Prop) (J : S → Prop) (p : Prog E R α) (s : S) : Prop :=
  ∀ s', Cut w torn p s s' → J s'

variable {w : World E R S} {torn : S → E → S → Prop} {J : S → Prop} {s s' : S}

@[simp] theorem always_ret {a : α} : Always w torn J (.ret a : Prog E R α) s ↔ J s := forall_eq

@[simp] theorem always_pure {a : α} : Always w torn J (pure a : Prog E R α) s ↔ J s := forall_eq

theorem always_call {e : E} {k : R e → Prog E R α} : Always w torn J (.call e k) s ↔
    J s ∧ (∀ s', torn s e s' → J s') ∧ ∀ r s₁, w.step s e r s₁ → Always w torn J (k r) s₁ := by
  constructor
  · intro h
    exact ⟨h s (Or.inl rfl), fun s' ht => h s' (Or.inr (Or.inl ht)),
      fun r s₁ hs s' hc => h s' (Or.inr (Or.inr ⟨r, s₁, hs, hc⟩))⟩
  · rintro ⟨hnow, htorn, hk⟩ s' hc
    rcases hc with rfl | ht | ⟨r, s₁, hs, hc⟩
    · exact hnow
    · exact htorn s' ht
    · exact hk r s₁ hs s' hc

/-- The first part of a sequence is interrupted, or the second from where the first ends. -/
theorem always_bind {p : Prog E R α} {f : α → Prog E R β} (hp : Always w torn J p s)
    (hf : WP w True p s fun a s₁ => Always w torn J (f a) s₁) : Always w torn J (p >>= f) s := by
  induction p generalizing s with
  | ret a => exact hf
  | call e k ih =>
    obtain ⟨hnow, htorn, hk⟩ := always_call.mp hp
    exact always_call.mpr ⟨hnow, htorn, fun r s₁ hs => ih r (hk r s₁ hs) (hf r s₁ hs)⟩
  | stop => exact hp

theorem always_ite {c : Prop} [Decidable c] {p q : Prog E R α} (hp : c → Always w torn J p s)
    (hq : ¬ c → Always w torn J q s) : Always w torn J (if c then p else q) s := by
  split
  · exact hp (by assumption)
  · exact hq (by assumption)

/-- A call, and what follows it. -/
theorem always_step {e : E} {f : R e → Prog E R β} (hnow : J s) (ht : ∀ s', torn s e s' → J s')
    (hf : WP w True (.perform e) s fun r s₁ => Always w torn J (f r) s₁) : Always w torn J (.perform e >>= f) s :=
  always_call.mpr ⟨hnow, ht, hf⟩

/-- The state of an environment after at most `n` calls of the program. -/
def Env.after (v : Env E R S) : Nat → Prog E R α → S → S
  | n + 1, .call e k, s => v.after n (k (v.step s e).1) (v.step s e).2
  | _, _, s => s

theorem Env.cut_after (v : Env E R S) (torn : S → E → S → Prop) (n : Nat) (p : Prog E R α) (s : S) :
    Cut v.world torn p s (v.after n p s) := by
  induction p generalizing n s with
  | ret a => cases n <;> rfl
  | call e k ih =>
    cases n with
    | zero => exact Or.inl rfl
    | succ n => exact Or.inr (Or.inr ⟨_, _, rfl, ih _ n _⟩)
  | stop => cases n <;> rfl

end FpgaV3
