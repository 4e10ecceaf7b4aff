/-!
# Interaction programs

A program (`Prog E R α`) calls operations of a signature `E`, each answered
with a value of its response type `R e`, and returns an `α`. It is a tree: a
call branches on the answer, so a program says what the code does for every
answer it may get, without fixing who answers. `stop` is a loop that used up
its bound before it ended.

* `Runs p t a`: the calls of `p`, answered as in the trace `t`, lead to `a`.
* `runs_bind`: the trace of a sequence is the traces of its parts in a row.
* `All P p`: every call that `p` may make satisfies `P`.
* `Ends p`: no run of `p` uses up a bound.
-/

namespace FpgaV3

/-- A program over the operations `E`, the answers to `e` being of type `R e`. -/
inductive Prog (E : Type) (R : E → Type) (α : Type) where
  | ret (a : α)
  | call (e : E) (k : R e → Prog E R α)
  | stop

/-- An operation with its answer. -/
abbrev Event (E : Type) (R : E → Type) : Type := (e : E) × R e

/-- The calls of a run, in order. -/
abbrev Trace (E : Type) (R : E → Type) : Type := List (Event E R)

namespace Prog

variable {E : Type} {R : E → Type} {α β γ : Type}

protected def bind : Prog E R α → (α → Prog E R β) → Prog E R β
  | .ret a, f => f a
  | .call e k, f => .call e fun r => (k r).bind f
  | .stop, _ => .stop

instance : Monad (Prog E R) where
  pure := .ret
  bind := Prog.bind

/-- One call, returning its answer. -/
def perform (e : E) : Prog E R (R e) := .call e .ret

/-- The program `p`, if `c` holds. -/
def onlyIf (c : Prop) [Decidable c] (p : Prog E R Unit) : Prog E R Unit := if c then p else .ret ()

@[simp] theorem ret_bind (a : α) (f : α → Prog E R β) : (.ret a : Prog E R α) >>= f = f a := rfl
@[simp] theorem stop_bind (f : α → Prog E R β) : (.stop : Prog E R α) >>= f = .stop := rfl
@[simp] theorem call_bind (e : E) (k : R e → Prog E R α) (f : α → Prog E R β) :
    (.call e k : Prog E R α) >>= f = .call e fun r => k r >>= f := rfl

/-- The calls of the program, answered as in `t`, lead to the result `b`. -/
def Runs : Prog E R α → Trace E R → α → Prop
  | .ret a, t, b => t = [] ∧ b = a
  | .call e k, t, b => ∃ r t', t = ⟨e, r⟩ :: t' ∧ (k r).Runs t' b
  | .stop, _, _ => False

@[simp] theorem runs_ret {a b : α} {t : Trace E R} : (.ret a : Prog E R α).Runs t b ↔ t = [] ∧ b = a :=
  Iff.rfl

@[simp] theorem runs_pure {a b : α} {t : Trace E R} : (pure a : Prog E R α).Runs t b ↔ t = [] ∧ b = a :=
  Iff.rfl

@[simp] theorem runs_stop {t : Trace E R} {b : α} : (.stop : Prog E R α).Runs t b ↔ False := Iff.rfl

@[simp] theorem runs_call {e : E} {k : R e → Prog E R α} {t : Trace E R} {b : α} :
    (.call e k : Prog E R α).Runs t b ↔ ∃ r t', t = ⟨e, r⟩ :: t' ∧ (k r).Runs t' b := Iff.rfl

/-- The trace of a sequence is the trace of its first part, then that of the
second. -/
theorem runs_bind {p : Prog E R α} {f : α → Prog E R β} {t : Trace E R} {b : β} :
    (p >>= f).Runs t b ↔ ∃ t₁ t₂ a, t = t₁ ++ t₂ ∧ p.Runs t₁ a ∧ (f a).Runs t₂ b := by
  induction p generalizing t with
  | ret a =>
    simp only [ret_bind, runs_ret]
    constructor
    · exact fun h => ⟨[], t, a, rfl, ⟨rfl, rfl⟩, h⟩
    · rintro ⟨t₁, t₂, a', rfl, ⟨rfl, rfl⟩, h⟩
      exact h
  | call e k ih =>
    simp only [call_bind, runs_call, ih]
    constructor
    · rintro ⟨r, t', rfl, t₁, t₂, a, rfl, h₁, h₂⟩
      exact ⟨⟨e, r⟩ :: t₁, t₂, a, rfl, ⟨r, t₁, rfl, h₁⟩, h₂⟩
    · rintro ⟨_, t₂, a, rfl, ⟨r, t₁, rfl, h₁⟩, h₂⟩
      exact ⟨r, t₁ ++ t₂, rfl, t₁, t₂, a, rfl, h₁, h₂⟩
  | stop =>
    constructor
    · exact False.elim
    · rintro ⟨_, _, _, _, h, _⟩
      exact h

/-- Every call the program may make satisfies `P`. -/
def All (P : E → Prop) : Prog E R α → Prop
  | .ret _ => True
  | .call e k => P e ∧ ∀ r, (k r).All P
  | .stop => True

variable {P : E → Prop}

@[simp] theorem all_pure {a : α} : (pure a : Prog E R α).All P ↔ True := Iff.rfl

@[simp] theorem all_perform {e : E} : (perform e : Prog E R (R e)).All P ↔ P e :=
  ⟨And.left, fun h => ⟨h, fun _ => trivial⟩⟩

theorem all_bind {p : Prog E R α} {f : α → Prog E R β} (hp : p.All P) (hf : ∀ a, (f a).All P) :
    (p >>= f).All P := by
  induction p with
  | ret a => exact hf a
  | call e k ih => exact ⟨hp.1, fun r => ih r (hp.2 r)⟩
  | stop => trivial

theorem All.mono {P' : E → Prop} {p : Prog E R α} (hp : p.All P) (h : ∀ e, P e → P' e) : p.All P' := by
  induction p with
  | ret a => trivial
  | call e k ih => exact ⟨h e hp.1, fun r => ih r (hp.2 r)⟩
  | stop => trivial

theorem All.trace {p : Prog E R α} (hp : p.All P) {t : Trace E R} {a : α} (hr : p.Runs t a) :
    ∀ x ∈ t, P x.1 := by
  induction p generalizing t with
  | ret b => rw [hr.1]; exact fun _ h => absurd h List.not_mem_nil
  | call e k ih =>
    obtain ⟨r, t', rfl, hr⟩ := hr
    exact List.forall_mem_cons.mpr ⟨hp.1, ih r (hp.2 r) hr⟩
  | stop => exact hr.elim

theorem all_ite {c : Prop} [Decidable c] {p q : Prog E R α} (hp : c → p.All P) (hq : ¬ c → q.All P) :
    (if c then p else q).All P := by
  split
  · exact hp (by assumption)
  · exact hq (by assumption)

theorem all_onlyIf {c : Prop} [Decidable c] {p : Prog E R Unit} (hp : p.All P) : (onlyIf c p).All P := by
  unfold onlyIf
  split
  · exact hp
  · trivial

/-- No bound is used up, whatever the answers are. -/
def Ends : Prog E R α → Prop
  | .ret _ => True
  | .call _ k => ∀ r, (k r).Ends
  | .stop => False

theorem ends_bind {p : Prog E R α} {f : α → Prog E R β} (hp : p.Ends) (hf : ∀ a, (f a).Ends) : (p >>= f).Ends := by
  induction p with
  | ret a => exact hf a
  | call e k ih => exact fun r => ih r (hp r)
  | stop => exact hp.elim

theorem all_of_forall (h : ∀ e, P e) (p : Prog E R α) : p.All P := by
  induction p with
  | ret a => trivial
  | call e k ih => exact ⟨h e, ih⟩
  | stop => trivial

end Prog

end FpgaV3
