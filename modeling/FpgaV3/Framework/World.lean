import FpgaV3.Framework.Prog

/-!
# Worlds

A world is a labelled transition system that answers the calls of a program:
`step s e r s'` says that in state `s` the call `e` may be answered with `r`,
leading to `s'`. What a device, a kernel or a clock may do is a world, and so
is an observer that only computes something of the calls (`World.obs`).

`WP w lim p s Q`: every run of `p` in `w` from `s` that returns ends in a
result and a state satisfying `Q`; `lim` is what is asked of a run that uses
up a bound (`True`: nothing; `False`: there is none). It is defined by
recursion on the program, so that simplifying with its equations executes the
program symbolically.

* `WP.sound`: `WP` speaks of the runs (`Prog.Runs`) whose trace is a path of
  the world; `WP.exists`: there is one, if every call is answered.
* `WP.mono`, `wp_bind`: consequence and sequence.
* `path_observe`: adding an observer to a world.
* `wp_invariant`: what each call keeps, the program keeps.
-/

namespace FpgaV3

/-- A labelled transition system that answers calls. -/
structure World (E : Type) (R : E → Type) (S : Type) where
  step : S → (e : E) → R e → S → Prop

variable {E : Type} {R : E → Type} {S M α β : Type}

/-- The case of a result that is false. -/
theorem absurd_false {p : Prop} (h : false = true) : p := absurd h Bool.false_ne_true

/-- The case of no result. -/
theorem absurd_none {p : Prop} {a : α} (h : none = some a) : p := absurd h.symm (Option.some_ne_none a)

namespace World

/-- The trace `t` leads the world from `s` to `s'`. -/
def Path (w : World E R S) : S → Trace E R → S → Prop
  | s, [], s' => s' = s
  | s, ⟨e, r⟩ :: t, s' => ∃ s₁, w.step s e r s₁ ∧ w.Path s₁ t s'

@[simp] theorem path_nil {w : World E R S} {s s' : S} : w.Path s [] s' ↔ s' = s := Iff.rfl

@[simp] theorem path_cons {w : World E R S} {s s' : S} {e : E} {r : R e} {t : Trace E R} :
    w.Path s (⟨e, r⟩ :: t) s' ↔ ∃ s₁, w.step s e r s₁ ∧ w.Path s₁ t s' := Iff.rfl

/-- The world that computes `f` of the calls it admits. -/
def obs (adm : S → Event E R → Prop) (f : S → Event E R → S) : World E R S :=
  ⟨fun s e r s' => adm s ⟨e, r⟩ ∧ s' = f s ⟨e, r⟩⟩

@[simp] theorem step_obs {adm : S → Event E R → Prop} {f : S → Event E R → S} {s s' : S} {e : E}
    {r : R e} : (obs adm f).step s e r s' ↔ adm s ⟨e, r⟩ ∧ s' = f s ⟨e, r⟩ := Iff.rfl

/-- An observer of calls that are all admitted computes a fold over the
trace. -/
theorem path_obs {ok : Event E R → Prop} {f : S → Event E R → S} {s s' : S} {t : Trace E R} :
    (obs (fun _ => ok) f).Path s t s' ↔ (∀ x ∈ t, ok x) ∧ s' = t.foldl f s := by
  induction t generalizing s with
  | nil => simp
  | cons x t ih =>
    obtain ⟨e, r⟩ := x
    simp only [path_cons, step_obs, ih, List.forall_mem_cons, List.foldl_cons]
    constructor
    · rintro ⟨_, ⟨h, rfl⟩, ht, rfl⟩
      exact ⟨⟨h, ht⟩, rfl⟩
    · rintro ⟨⟨h, ht⟩, rfl⟩
      exact ⟨_, ⟨h, rfl⟩, ht, rfl⟩

/-- The state of an observer is a fold over the trace. -/
theorem path_foldl {adm : S → Event E R → Prop} {f : S → Event E R → S} {s s' : S} {t : Trace E R}
    (h : (obs adm f).Path s t s') : s' = t.foldl f s := by
  induction t generalizing s with
  | nil => exact h
  | cons x t ih =>
    obtain ⟨s₁, ⟨-, rfl⟩, h⟩ := h
    exact ih h

/-- Two observers side by side. -/
theorem foldl_prod {M N : Type} {f : M → Event E R → M} {g : N → Event E R → N} {t : Trace E R} {m : M} {n : N} :
    t.foldl (fun σ x => (f σ.1 x, g σ.2 x)) (m, n) = (t.foldl f m, t.foldl g n) := by
  induction t generalizing m n with
  | nil => rfl
  | cons x t ih => exact ih

/-- The world with an observer that computes `f` of the calls. -/
def observe (w : World E R S) (f : M → Event E R → M) : World E R (S × M) :=
  ⟨fun s e r s' => w.step s.1 e r s'.1 ∧ s'.2 = f s.2 ⟨e, r⟩⟩

@[simp] theorem step_observe {w : World E R S} {f : M → Event E R → M} {s s' : S × M} {e : E}
    {r : R e} : (w.observe f).step s e r s' ↔ w.step s.1 e r s'.1 ∧ s'.2 = f s.2 ⟨e, r⟩ := Iff.rfl

theorem path_observe {w : World E R S} {f : M → Event E R → M} {s s' : S × M} {t : Trace E R} :
    (w.observe f).Path s t s' ↔ w.Path s.1 t s'.1 ∧ s'.2 = t.foldl f s.2 := by
  induction t generalizing s with
  | nil => exact Prod.ext_iff
  | cons x t ih =>
    obtain ⟨e, r⟩ := x
    simp only [path_cons, step_observe, ih, List.foldl_cons]
    constructor
    · rintro ⟨s₁, ⟨h, hm⟩, ht, e₂⟩
      exact ⟨⟨_, h, ht⟩, by rw [e₂, hm]⟩
    · rintro ⟨⟨s₁, h, ht⟩, e₂⟩
      exact ⟨(s₁, f s.2 ⟨e, r⟩), ⟨h, rfl⟩, ht, e₂⟩

theorem Path.observe {w : World E R S} {s s' : S} {t : Trace E R} (h : w.Path s t s')
    (f : M → Event E R → M) (m : M) : (w.observe f).Path (s, m) t (s', t.foldl f m) :=
  path_observe.mpr ⟨h, rfl⟩

end World

/-- Every run of the program in the world from `s` that returns ends in a
result and a state satisfying `Q`; a run that uses up a bound satisfies
`lim`. -/
def WP (w : World E R S) (lim : Prop) : Prog E R α → S → (α → S → Prop) → Prop
  | .ret a, s, Q => Q a s
  | .call e k, s, Q => ∀ r s', w.step s e r s' → WP w lim (k r) s' Q
  | .stop, _, _ => lim

section
variable {w : World E R S} {lim : Prop} {s s' : S} {Q Q' : α → S → Prop}

@[simp] theorem wp_ret {a : α} : WP w lim (.ret a) s Q ↔ Q a s := Iff.rfl

@[simp] theorem wp_pure {a : α} : WP w lim (pure a) s Q ↔ Q a s := Iff.rfl

@[simp] theorem wp_stop : WP w lim (.stop : Prog E R α) s Q ↔ lim := Iff.rfl

@[simp] theorem wp_call {e : E} {k : R e → Prog E R α} :
    WP w lim (.call e k) s Q ↔ ∀ r s', w.step s e r s' → WP w lim (k r) s' Q := Iff.rfl

@[simp] theorem wp_perform {e : E} {Q : R e → S → Prop} :
    WP w lim (.perform e) s Q ↔ ∀ r s', w.step s e r s' → Q r s' := Iff.rfl

@[simp] theorem wp_bind {p : Prog E R α} {f : α → Prog E R β} {Q : β → S → Prop} :
    WP w lim (p >>= f) s Q ↔ WP w lim p s fun a s₁ => WP w lim (f a) s₁ Q := by
  induction p generalizing s with
  | ret a => rfl
  | call e k ih => simp only [Prog.call_bind, wp_call, ih]
  | stop => rfl

theorem wp_ite {c : Prop} [Decidable c] {p q : Prog E R α} :
    WP w lim (if c then p else q) s Q ↔ (c → WP w lim p s Q) ∧ (¬ c → WP w lim q s Q) := by
  split <;> simp_all

theorem wp_onlyIf {c : Prop} [Decidable c] {p : Prog E R Unit} {Q : Unit → S → Prop} :
    WP w lim (.onlyIf c p) s Q ↔ (c → WP w lim p s Q) ∧ (¬ c → Q () s) := wp_ite

theorem WP.mono {p : Prog E R α} (h : WP w lim p s Q) (hQ : ∀ a s', Q a s' → Q' a s') :
    WP w lim p s Q' := by
  induction p generalizing s with
  | ret a => exact hQ a s h
  | call e k ih => exact fun r s' hs => ih r (h r s' hs)
  | stop => exact h

/-- A postcondition that holds anyway. -/
theorem wp_trivial {p : Prog E R α} (h : ∀ a s', Q a s') : WP w True p s Q := by
  induction p generalizing s with
  | ret a => exact h a s
  | call e k ih => exact fun r _ _ => ih r
  | stop => exact trivial

theorem WP.and {p : Prog E R α} (h : WP w lim p s Q) (h' : WP w lim p s Q') :
    WP w lim p s fun a s' => Q a s' ∧ Q' a s' := by
  induction p generalizing s with
  | ret a => exact ⟨h, h'⟩
  | call e k ih => exact fun r s' hs => ih r (h r s' hs) (h' r s' hs)
  | stop => exact h

/-- A postcondition of the runs that return. -/
theorem WP.and_returned {p : Prog E R α} (h : WP w lim p s Q) (h' : WP w True p s Q') :
    WP w lim p s fun a s' => Q a s' ∧ Q' a s' := by
  induction p generalizing s with
  | ret a => exact ⟨h, h'⟩
  | call e k ih => exact fun r s' hs => ih r (h r s' hs) (h' r s' hs)
  | stop => exact h

theorem WP.sound {p : Prog E R α} (h : WP w lim p s Q) {t : Trace E R} {a : α} (hr : p.Runs t a)
    (hp : w.Path s t s') : Q a s' := by
  induction p generalizing s t with
  | ret b =>
    obtain ⟨rfl, rfl⟩ := hr
    exact hp ▸ h
  | call e k ih =>
    obtain ⟨r, t', rfl, hr⟩ := hr
    obtain ⟨s₁, hs, hp⟩ := hp
    exact ih r (h r s₁ hs) hr hp
  | stop => exact hr.elim

/-- A program that uses up no bound. -/
theorem WP.ends {p : Prog E R α} (h : WP w True p s Q) (hp : p.Ends) : WP w lim p s Q := by
  induction p generalizing s with
  | ret a => exact h
  | call e k ih => exact fun r s' hs => ih r (h r s' hs) (hp r)
  | stop => exact hp.elim

/-- A world that admits less. -/
theorem WP.restrict {w' : World E R S} (hw : ∀ s e r s', w'.step s e r s' → w.step s e r s') {p : Prog E R α}
    (h : WP w lim p s Q) : WP w' lim p s Q := by
  induction p generalizing s with
  | ret a => exact h
  | call e k ih => exact fun r s' hs => ih r (h r s' (hw s e r s' hs))
  | stop => exact h

/-- Where every call is answered, a program that ends has a run. -/
theorem WP.exists (hlive : ∀ s e, ∃ r s', w.step s e r s') {p : Prog E R α} (h : WP w False p s Q) : ∃ a s', Q a s' := by
  induction p generalizing s with
  | ret a => exact ⟨a, s, h⟩
  | call e k ih =>
    obtain ⟨r, s', hs⟩ := hlive s e
    exact ih r (h r s' hs)
  | stop => exact h.elim

end

/-- What each of a program's calls keeps, the program keeps. -/
theorem wp_invariant {P : E → Prop} {I : S → Prop} {w : World E R S}
    (hI : ∀ s e r s', P e → w.step s e r s' → I s → I s') {p : Prog E R α} (hp : p.All P) {s : S}
    (h : I s) : WP w True p s fun _ => I := by
  induction p generalizing s with
  | ret a => exact h
  | call e k ih => exact fun r s' hs => ih r (hp.2 r) (hI s e r s' hp.1 hs h)
  | stop => exact trivial

end FpgaV3
