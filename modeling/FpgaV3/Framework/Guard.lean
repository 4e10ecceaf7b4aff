import FpgaV3.Framework.Session

/-!
# Guarded programs

Some calls may be made only in some states of the world: a file is read only
while it is open. `Guard w ok p s Q` says that `p`, run in `w` from `s`, makes
no call that `ok` forbids, whether the run returns or not, and that a run that
returns ends in a result and a state satisfying `Q`. Its rules are those of
`WP`, with an obligation for each call.

* `Guard.call`, `Guard.sound`: what it says of the runs.
* `guard_invariant`: a program whose calls are all allowed in the states of an
  invariant that they keep.
* `guard_session`: the operations of an object, called one after the other.
-/

namespace FpgaV3

variable {E : Type} {R : E → Type} {S α β : Type}

/-- After the calls of `t`, the program calls `e`. -/
def Prog.Calls : Prog E R α → Trace E R → E → Prop
  | .call e _, [], e' => e' = e
  | .call e k, x :: t, e' => ∃ r, x = ⟨e, r⟩ ∧ (k r).Calls t e'
  | _, _, _ => False

/-- No call is made that `ok` forbids, and `Q` holds at the end. -/
def Guard (w : World E R S) (ok : S → E → Prop) : Prog E R α → S → (α → S → Prop) → Prop
  | .ret a, s, Q => Q a s
  | .call e k, s, Q => ok s e ∧ ∀ r s', w.step s e r s' → Guard w ok (k r) s' Q
  | .stop, _, _ => True

variable {w : World E R S} {ok : S → E → Prop} {s s' : S} {Q Q' : α → S → Prop}

@[simp] theorem guard_ret {a : α} : Guard w ok (.ret a) s Q ↔ Q a s := Iff.rfl

@[simp] theorem guard_pure {a : α} : Guard w ok (pure a) s Q ↔ Q a s := Iff.rfl

@[simp] theorem guard_perform {e : E} {Q : R e → S → Prop} :
    Guard w ok (.perform e) s Q ↔ ok s e ∧ ∀ r s', w.step s e r s' → Q r s' := Iff.rfl

@[simp] theorem guard_bind {p : Prog E R α} {f : α → Prog E R β} {Q : β → S → Prop} :
    Guard w ok (p >>= f) s Q ↔ Guard w ok p s fun a s₁ => Guard w ok (f a) s₁ Q := by
  induction p generalizing s with
  | ret a => rfl
  | call e k ih => simp only [Prog.call_bind, Guard, ih]
  | stop => rfl

theorem guard_ite {c : Prop} [Decidable c] {p q : Prog E R α} (hp : c → Guard w ok p s Q)
    (hq : ¬ c → Guard w ok q s Q) : Guard w ok (if c then p else q) s Q := by
  split
  · exact hp (by assumption)
  · exact hq (by assumption)

theorem Guard.mono {p : Prog E R α} (h : Guard w ok p s Q) (hQ : ∀ a s', Q a s' → Q' a s') : Guard w ok p s Q' := by
  induction p generalizing s with
  | ret a => exact hQ a s h
  | call e k ih => exact ⟨h.1, fun r s' hs => ih r (h.2 r s' hs)⟩
  | stop => trivial

theorem Guard.call {p : Prog E R α} (h : Guard w ok p s Q) {t : Trace E R} {e : E} (hc : p.Calls t e)
    (hp : w.Path s t s') : ok s' e := by
  induction p generalizing s t with
  | ret a => exact hc.elim
  | call e' k ih =>
    cases t with
    | nil =>
      obtain rfl : e = e' := hc
      obtain rfl : s' = s := hp
      exact h.1
    | cons x t =>
      obtain ⟨r, rfl, hc⟩ := hc
      obtain ⟨s₁, hs, hp⟩ := hp
      exact ih r (h.2 r s₁ hs) hc hp
  | stop => exact hc.elim

theorem Guard.wp {p : Prog E R α} (h : Guard w ok p s Q) : WP w True p s Q := by
  induction p generalizing s with
  | ret a => exact h
  | call e k ih => exact fun r s' hs => ih r (h.2 r s' hs)
  | stop => trivial

theorem Guard.sound {p : Prog E R α} (h : Guard w ok p s Q) {t : Trace E R} {a : α} (hr : p.Runs t a)
    (hp : w.Path s t s') : Q a s' := h.wp.sound hr hp

/-- The calls are allowed wherever an invariant holds, and keep it. -/
theorem guard_invariant {P : E → Prop} {I : S → Prop} (hok : ∀ s e, P e → I s → ok s e)
    (hI : ∀ s e r s', P e → w.step s e r s' → I s → I s') {p : Prog E R α} (hp : p.All P) (h : I s) :
    Guard w ok p s fun _ => I := by
  induction p generalizing s with
  | ret a => exact h
  | call e k ih => exact ⟨hok s e hp.1 h, fun r s' hs => ih r (hp.2 r) (hI s e r s' hp.1 hs h)⟩
  | stop => trivial

/-- What the operations of an object keep holds after a session of them. -/
theorem guard_session {O X β : Type} {exec : O → X → Prog E R (β × X)} {I : X → S → Prop}
    (hexec : ∀ o x s, I x s → Guard w ok (exec o x) s fun y s' => I y.2 s') {x x' : X} {cs : List (Call E R S O X β)}
    (h : Session w exec x s cs x' s') (hI : I x s) : I x' s' := by
  induction h with
  | nil => exact hI
  | cons hr hp _ ih => exact ih ((hexec _ _ _ hI).sound hr hp)

end FpgaV3
