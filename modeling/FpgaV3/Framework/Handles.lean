import Mathlib.Logic.Function.Basic
import FpgaV3.Framework.Guard

/-!
# Handles

Some calls acquire a handle, if they succeed, and others release it or use it:
`Handles` says which. `H.Permits` asks that a handle is acquired while it is not
held, and released or used while it is. A program is `H.Balanced` if, with no
handle held, it makes only such calls and holds none when it returns. The rules
are those of sequence and choice, for acquiring and releasing a handle, and for a part
that does neither (`holding_part`).
-/

namespace FpgaV3

/-- The handle that a call acquires if the answer says so, the one it releases, and
those it uses. -/
structure Handles (E : Type) (R : E → Type) (N : Type) where
  acquires : E → Option N
  acquired : (e : E) → R e → Bool
  releases : E → Option N
  uses : E → List N

namespace Handles

variable {E : Type} {R : E → Type} {N α β : Type} [DecidableEq N] (H : Handles E R N)

def Permits (held : N → Bool) (e : E) : Prop :=
  (∀ n, H.acquires e = some n → held n = false) ∧ (∀ n, H.releases e = some n → held n = true) ∧
    ∀ n ∈ H.uses e, held n = true

/-- The handles that are held after a call. -/
def call (held : N → Bool) (x : Event E R) : N → Bool :=
  match H.acquires x.1, H.releases x.1 with
  | some n, _ => if H.acquired x.1 x.2 then Function.update held n true else held
  | none, some n => Function.update held n false
  | none, none => held

def world : World E R (N → Bool) := World.obs (fun _ _ => True) H.call

/-- With the handles of `ns` held, only permitted calls are made, and none is held at the end. -/
def Holding (ns : List N) (p : Prog E R α) : Prop :=
  Guard H.world H.Permits p (fun n => decide (n ∈ ns)) fun _ held => held = fun _ => false

/-- From no handle held to no handle held. -/
abbrev Balanced (p : Prog E R α) : Prop := H.Holding [] p

variable {H} {ns : List N} {n : N} {e : E}

theorem balanced_pure {a : α} : H.Balanced (pure a : Prog E R α) := by
  funext n
  simp

theorem balanced_bind {p : Prog E R α} {f : α → Prog E R β} (hp : H.Balanced p) (hf : ∀ a, H.Balanced (f a)) :
    H.Balanced (p >>= f) := by
  refine guard_bind.mpr (hp.mono fun a held h => ?_)
  have hnone : held = fun n => decide (n ∈ ([] : List N)) := by
    rw [h]
    funext n
    simp
  rw [hnone]
  exact hf a

theorem holding_ite {c : Prop} [Decidable c] {p q : Prog E R α} (hp : c → H.Holding ns p) (hq : ¬ c → H.Holding ns q) :
    H.Holding ns (if c then p else q) := guard_ite hp hq

/-- The call acquires and releases nothing, and uses what is in `ns`. -/
def Stays (H : Handles E R N) (ns : List N) (e : E) : Prop :=
  H.acquires e = none ∧ H.releases e = none ∧ ∀ n ∈ H.uses e, n ∈ ns

/-- A part that acquires and releases nothing. -/
theorem holding_part {p : Prog E R α} {f : α → Prog E R β} (hp : p.All (H.Stays ns)) (hf : ∀ a, H.Holding ns (f a)) :
    H.Holding ns (p >>= f) := by
  have hpart : Guard H.world H.Permits p (fun n => decide (n ∈ ns)) fun _ held => held = fun n => decide (n ∈ ns) := by
    refine guard_invariant (I := fun held => held = fun n => decide (n ∈ ns)) (fun held e he h => ?_)
      (fun held e r held' he hs h => ?_) hp rfl
    · obtain ⟨ha, hr, hu⟩ := he
      rw [h]
      refine ⟨fun n hn => ?_, fun n hn => ?_, fun n hn => decide_eq_true (hu n hn)⟩
      · exact absurd (hn.symm.trans ha) (Option.some_ne_none n)
      · exact absurd (hn.symm.trans hr) (Option.some_ne_none n)
    · rw [hs.2, h, call]
      simp only [he.1, he.2.1]
  refine guard_bind.mpr (hpart.mono fun a held h => ?_)
  rw [h]
  exact hf a

theorem holding_use {f : R e → Prog E R α} (he : H.Stays ns e) (hf : ∀ r, H.Holding ns (f r)) :
    H.Holding ns (.perform e >>= f) := holding_part (Prog.all_perform.mpr he) hf

/-- A call that acquires a handle, or fails. -/
theorem holding_acquire {f : R e → Prog E R α} (ha : H.acquires e = some n) (hr : H.releases e = none)
    (hu : H.uses e = []) (hn : n ∉ ns)
    (hf : ∀ r, (H.acquired e r = true → H.Holding (n :: ns) (f r)) ∧ (H.acquired e r = false → H.Holding ns (f r))) :
    H.Holding ns (.perform e >>= f) := by
  refine guard_bind.mpr ⟨⟨fun n' hn' => ?_, fun n' hn' => ?_, fun n' hn' => ?_⟩, fun r held hs => ?_⟩
  · obtain rfl : n = n' := Option.some.inj (ha.symm.trans hn')
    exact decide_eq_false hn
  · exact absurd (hn'.symm.trans hr) (Option.some_ne_none n')
  · rw [hu] at hn'
    exact absurd hn' List.not_mem_nil
  · have hheld : held = H.call (fun m => decide (m ∈ ns)) ⟨e, r⟩ := hs.2
    simp only [call, ha] at hheld
    cases hok : H.acquired e r
    · rw [hok, if_neg Bool.false_ne_true] at hheld
      rw [hheld]
      exact (hf r).2 hok
    · have hcons : Function.update (fun m => decide (m ∈ ns)) n true = fun m => decide (m ∈ n :: ns) := by
        funext m
        by_cases hm : m = n
        · subst hm
          simp
        · rw [Function.update_of_ne hm]
          simp [hm]
      rw [hok, if_pos rfl, hcons] at hheld
      rw [hheld]
      exact (hf r).1 hok

/-- A call that releases a handle, after which those of `ns'` are held. -/
theorem holding_release (ns' : List N) {f : R e → Prog E R α} (ha : H.acquires e = none) (hr : H.releases e = some n)
    (hu : H.uses e = []) (hn : n ∈ ns) (hns : ∀ m, m ∈ ns' ↔ m ∈ ns ∧ m ≠ n) (hf : ∀ r, H.Holding ns' (f r)) :
    H.Holding ns (.perform e >>= f) := by
  refine guard_bind.mpr ⟨⟨fun n' hn' => ?_, fun n' hn' => ?_, fun n' hn' => ?_⟩, fun r held hs => ?_⟩
  · exact absurd (hn'.symm.trans ha) (Option.some_ne_none n')
  · obtain rfl : n = n' := Option.some.inj (hr.symm.trans hn')
    exact decide_eq_true hn
  · rw [hu] at hn'
    exact absurd hn' List.not_mem_nil
  · have hheld : held = H.call (fun m => decide (m ∈ ns)) ⟨e, r⟩ := hs.2
    simp only [call, ha, hr] at hheld
    have hrest : Function.update (fun m => decide (m ∈ ns)) n false = fun m => decide (m ∈ ns') := by
      funext m
      by_cases hm : m = n
      · subst hm
        simp [hns]
      · rw [Function.update_of_ne hm]
        simp [hns, hm]
    rw [hheld, hrest]
    exact hf r

end Handles

end FpgaV3
