import Mathlib.Data.Set.Function
import Mathlib.Order.Interval.Set.Defs

/-!
# Stores to a memory that may decode addresses wrongly

`stores f key v n` is the memory `f` after the stores of `v 0`, …, `v (n - 1)`, in this
order, store `i` going to the cell `key i`. Each value is still in its cell if and only
if stores to one cell were of one value (`stores_apply_iff`): if different values are
stored everywhere, that is if no two stores went to one cell (`stores_injOn`).
-/

namespace FpgaV3

variable {κ β : Type} [DecidableEq κ] {f : κ → β} {key : Nat → κ} {v : Nat → β} {i n : Nat}

def stores (f : κ → β) (key : Nat → κ) (v : Nat → β) : Nat → κ → β
  | 0 => f
  | n + 1 => Function.update (stores f key v n) (key n) (v n)

theorem stores_other {c : κ} (h : ∀ i < n, key i ≠ c) : stores f key v n c = f c := by
  induction n with
  | zero => rfl
  | succ n ih =>
    rw [stores, Function.update_of_ne (h n (by omega)).symm]
    exact ih fun i hi => h i (by omega)

/-- A cell that was stored to holds one of the values stored there. -/
theorem stores_mem (hi : i < n) : ∃ j < n, key j = key i ∧ stores f key v n (key i) = v j := by
  induction n with
  | zero => omega
  | succ n ih =>
    by_cases he : key i = key n
    · exact ⟨n, by omega, he.symm, by rw [stores, he, Function.update_self]⟩
    · have hlt : i < n := by
        rcases Nat.lt_or_ge i n with hlt | hge
        · exact hlt
        · exact absurd (by rw [show i = n by omega]) he
      obtain ⟨j, hj, hkey, hv⟩ := ih hlt
      exact ⟨j, by omega, hkey, by rw [stores, Function.update_of_ne he, hv]⟩

/-- Every value is in its cell if and only if those stored to one cell are equal. -/
theorem stores_apply_iff : (∀ i < n, stores f key v n (key i) = v i) ↔
    ∀ i < n, ∀ j < n, key i = key j → v i = v j := by
  constructor
  · intro h i hi j hj hkey
    rw [← h i hi, hkey, h j hj]
  · intro h i hi
    obtain ⟨j, hj, hkey, hv⟩ := stores_mem (f := f) (v := v) hi
    rw [hv]
    exact h j hj i hi hkey

/-- Different values are all in their cells if and only if no two went to one cell. -/
theorem stores_injOn (hv : Set.InjOn v (Set.Iio n)) : (∀ i < n, stores f key v n (key i) = v i) ↔
    Set.InjOn key (Set.Iio n) := by
  rw [stores_apply_iff]
  constructor
  · exact fun h i hi j hj hkey => hv hi hj (h i hi j hj hkey)
  · intro h i hi j hj hkey
    rw [h hi hj hkey]

end FpgaV3
