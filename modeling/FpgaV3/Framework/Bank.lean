import Mathlib.Algebra.Group.Nat.Defs

/-!
# Banks of registers

A bank is a function from addresses of `w` bits to the values of its registers.
`fill f a v n` writes the values `v 0`, …, `v (n - 1)` to the addresses from
`a` on, which wrap around.

* `fill_apply`: as long as the addresses are distinct, each value is found
  where it was written.
* `fill_front`: the first value may be written first or the others after it.
-/

namespace FpgaV3

/-- The bank with `x` at `a`. -/
def put {w : Nat} {β : Type} (f : BitVec w → β) (a : BitVec w) (x : β) : BitVec w → β :=
  fun b => if b = a then x else f b

/-- The bank with the first `n` values of `v` from `a` on. -/
def fill {w : Nat} {β : Type} (f : BitVec w → β) (a : BitVec w) (v : Nat → β) : Nat → BitVec w → β
  | 0 => f
  | n + 1 => put (fill f a v n) (a + BitVec.ofNat w n) (v n)

variable {w : Nat} {β : Type} {f : BitVec w → β} {a : BitVec w} {v : Nat → β}

theorem put_same {x : β} : put f a x a = x := if_pos rfl

theorem put_other {b : BitVec w} {x : β} (h : b ≠ a) : put f a x b = f b := if_neg h

theorem add_ofNat_inj {i j : Nat} : a + BitVec.ofNat w i = a + BitVec.ofNat w j ↔ i % 2 ^ w = j % 2 ^ w := by
  rw [BitVec.add_right_inj, ← BitVec.toNat_inj, BitVec.toNat_ofNat, BitVec.toNat_ofNat]

theorem add_succ (i : Nat) : a + BitVec.ofNat w (i + 1) = a + 1 + BitVec.ofNat w i := by
  rw [BitVec.add_assoc, Nat.add_comm i 1, BitVec.ofNat_add]
  rfl

/-- Every value is found where it was written, if the later ones at the same
address are equal to it. -/
theorem fill_apply {n k : Nat} (hk : k < n) (h : ∀ j < n, k < j → j % 2 ^ w = k % 2 ^ w → v j = v k) :
    fill f a v n (a + BitVec.ofNat w k) = v k := by
  induction n with
  | zero => exact absurd hk (Nat.not_lt_zero k)
  | succ n ih =>
    by_cases he : k % 2 ^ w = n % 2 ^ w
    · rw [fill, add_ofNat_inj.mpr he, put_same]
      rcases Nat.lt_or_ge k n with hlt | hge
      · exact h n (Nat.lt_succ_self n) hlt he.symm
      · rw [show k = n by omega]
    · have hlt : k < n := by
        rcases Nat.lt_or_ge k n with hlt | hge
        · exact hlt
        · exact absurd (by rw [show k = n by omega]) he
      rw [fill, put_other fun e => he (add_ofNat_inj.mp e)]
      exact ih hlt fun j hj => h j (by omega)

/-- Every value is found where it was written if and only if those at one address are
equal. -/
theorem fill_apply_iff {n : Nat} : (∀ k < n, fill f a v n (a + BitVec.ofNat w k) = v k) ↔
    ∀ j < n, ∀ k < n, j % 2 ^ w = k % 2 ^ w → v j = v k := by
  constructor
  · intro h j hj k hk heq
    rw [← h j hj, add_ofNat_inj.mpr heq]
    exact h k hk
  · exact fun h k hk => fill_apply hk fun j hj _ heq => h j hj k hk heq

theorem fill_congr {v' : Nat → β} {n : Nat} (h : ∀ i < n, v i = v' i) : fill f a v n = fill f a v' n := by
  induction n with
  | zero => rfl
  | succ n ih => rw [fill, fill, ih fun i hi => h i (by omega), h n (by omega)]

/-- Distinct addresses. -/
theorem fill_apply_of_le {n k : Nat} (hk : k < n) (hn : n ≤ 2 ^ w) :
    fill f a v n (a + BitVec.ofNat w k) = v k := by
  refine fill_apply hk fun j hj hlt he => ?_
  rw [Nat.mod_eq_of_lt (by omega), Nat.mod_eq_of_lt (by omega)] at he
  omega

theorem fill_front (n : Nat) : fill f a v (n + 1) = fill (put f a (v 0)) (a + 1) (fun i => v (i + 1)) n := by
  induction n with
  | zero => rw [fill, fill, fill, BitVec.add_zero]
  | succ n ih => rw [fill, ih, fill, add_succ]

end FpgaV3
