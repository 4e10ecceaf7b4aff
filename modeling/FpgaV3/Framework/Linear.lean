import Mathlib.Data.List.Iterate
import Mathlib.Dynamics.PeriodicPts.Lemmas

/-!
# Linear maps on words

Maps on words that take exclusive or to exclusive or (`Linear`). If all words
are made of `1, f 1, f (f 1), …`, as coordinates of the single bits show
(`Coordinates`), what becomes of a word in `n` steps of `f` is known from what
becomes of 1 (`Linear.iterate_eq`), and that is found for `2 ^ k` steps by `k`
squarings (`Linear.squares_one`). So it can be decided whether every word
returns after `2 ^ k - 1` steps (`Linear.iterate_eq_self`).

If every word returns after a prime number of steps, one that is not fixed runs
through as many different words (`injOn_iterate`).
-/

namespace FpgaV3

variable {w : Nat}

/-- The map takes exclusive or to exclusive or. -/
def Linear (f : BitVec w → BitVec w) : Prop := ∀ x y, f (x ^^^ y) = f x ^^^ f y

/-- The exclusive or of the words at the bits that are set in `x`. -/
def combine : List (BitVec w) → BitVec w → BitVec w
  | [], _ => 0
  | c :: cs, x => (if x.getLsbD 0 then c else 0) ^^^ combine cs (x >>> 1)

/-- The words with one bit set. -/
def bits (w : Nat) : List (BitVec w) := (List.range w).map (BitVec.twoPow w)

/-- What `ms` combines from `1, f 1, f (f 1), …` are the single bits. -/
def Coordinates (f : BitVec w → BitVec w) (ms : List (BitVec w)) : Prop :=
  ms.map (combine (List.iterate f 1 w)) = bits w

instance (f : BitVec w → BitVec w) (ms : List (BitVec w)) : Decidable (Coordinates f ms) :=
  inferInstanceAs (Decidable (_ = _))

/-- What becomes of `x` in the steps that lead from 1 to `v`. -/
def follow (f : BitVec w → BitVec w) (ms : List (BitVec w)) (v x : BitVec w) : BitVec w :=
  combine (List.iterate f v w) (combine ms x)

/-- What becomes of 1 in `2 ^ k` times as many steps as lead to `v`. -/
def squares (f : BitVec w → BitVec w) (ms : List (BitVec w)) : Nat → BitVec w → BitVec w
  | 0, v => v
  | k + 1, v => follow f ms (squares f ms k v) (squares f ms k v)

/-! ## Combinations -/

theorem linear_combine (cs : List (BitVec w)) : Linear (combine cs) := by
  induction cs with
  | nil => exact fun _ _ => BitVec.xor_self.symm
  | cons c cs ih =>
    intro x y
    have hbit : (if (x ^^^ y).getLsbD 0 then c else 0) =
        (if x.getLsbD 0 then c else 0) ^^^ (if y.getLsbD 0 then c else 0) := by
      rw [BitVec.getLsbD_xor]
      cases x.getLsbD 0 <;> cases y.getLsbD 0 <;> simp
    simp only [combine, hbit, BitVec.ushiftRight_xor_distrib, ih (x >>> 1)]
    ac_rfl

/-- The bits from `i` on are bit `i` and those from `i + 1` on. -/
theorem shift_succ (x : BitVec w) (i : Nat) : x >>> i <<< i =
    (if x.getLsbD i then BitVec.twoPow w i else 0) ^^^ (x >>> (i + 1) <<< (i + 1)) := by
  apply BitVec.eq_of_getLsbD_eq
  intro j hj
  by_cases hji : j = i
  · subst hji
    cases h : x.getLsbD j <;> simp_all [BitVec.getLsbD_eq_getElem]
  · have hlast : (if x.getLsbD i then BitVec.twoPow w i else 0).getLsbD j = false := by
      split <;> simp [Ne.symm hji]
    rw [BitVec.getLsbD_xor, hlast, Bool.false_xor]
    rcases Nat.lt_or_ge j i with hlt | hge
    · simp [hlt, show j < i + 1 by omega]
    · simp [hj, show ¬ j < i by omega, show ¬ j < i + 1 by omega, show i + (j - i) = j by omega,
        show i + 1 + (j - (i + 1)) = j by omega]

theorem combine_range' (x : BitVec w) {i n : Nat} (h : i + n = w) :
    combine ((List.range' i n).map (BitVec.twoPow w)) (x >>> i) = x >>> i <<< i := by
  induction n generalizing i with
  | zero =>
    apply BitVec.eq_of_getLsbD_eq
    intro j hj
    simp [combine, show j < i by omega]
  | succ n ih =>
    have hbit : (x >>> i).getLsbD 0 = x.getLsbD i := by simp
    rw [List.range'_succ, List.map_cons, combine, hbit, ← BitVec.shiftRight_add, ih (by omega), shift_succ x i]

/-- A word is made of its bits. -/
theorem combine_bits (x : BitVec w) : combine (bits w) x = x := by
  have h := combine_range' x (Nat.zero_add w)
  rwa [BitVec.ushiftRight_zero, BitVec.shiftLeft_zero, ← List.range_eq_range'] at h

namespace Linear

variable {f g : BitVec w → BitVec w} {ms : List (BitVec w)}

theorem zero (hf : Linear f) : f 0 = 0 := by
  have h := hf 0 0
  rwa [BitVec.xor_self, BitVec.xor_self] at h

theorem iterate (hf : Linear f) (n : Nat) : Linear f^[n] := by
  induction n with
  | zero => exact fun _ _ => rfl
  | succ n ih => exact fun x y => by simp only [Function.iterate_succ_apply, hf x y, ih (f x)]

theorem combine_map (hf : Linear f) (cs : List (BitVec w)) (x : BitVec w) : combine (cs.map f) x = f (combine cs x) := by
  induction cs generalizing x with
  | nil => exact hf.zero.symm
  | cons c cs ih =>
    rw [List.map_cons, combine, combine, hf, ih]
    split
    · rfl
    · rw [hf.zero]

theorem iterate_map (n : Nat) (v : BitVec w) (k : Nat) : List.iterate f (f^[n] v) k = (List.iterate f v k).map f^[n] := by
  induction k generalizing v with
  | zero => rfl
  | succ k ih => rw [List.iterate, List.iterate, List.map_cons, ← ih, ← Function.iterate_succ_apply,
      ← Function.iterate_succ_apply' f]

/-- Where 1 goes says where every word goes. -/
theorem iterate_eq (hf : Linear f) (hc : Coordinates f ms) (n : Nat) (x : BitVec w) :
    f^[n] x = follow f ms (f^[n] 1) x := by
  rw [follow, iterate_map, (hf.iterate n).combine_map, ← (linear_combine _).combine_map ms, hc, combine_bits]

theorem squares_one (hf : Linear f) (hc : Coordinates f ms) (k : Nat) : squares f ms k (f 1) = f^[2 ^ k] 1 := by
  induction k with
  | zero => rfl
  | succ k ih => rw [squares, ih, ← hf.iterate_eq hc, ← Function.iterate_add_apply, ← Nat.two_mul, ← Nat.pow_succ']

/-- Every word returns after `2 ^ k - 1` steps, if the squarings return. -/
theorem iterate_eq_self (hf : Linear f) (hinj : Function.Injective f) (hc : Coordinates f ms) {k : Nat}
    (h : squares f ms k (f 1) = f 1) (x : BitVec w) : f^[2 ^ k - 1] x = x := by
  have hk : f^[2 ^ k] x = f x := by
    rw [hf.iterate_eq hc, ← hf.squares_one hc, h]
    exact (hf.iterate_eq hc 1 x).symm
  apply hinj
  rw [← hk, ← Function.iterate_succ_apply' f, Nat.succ_eq_add_one, Nat.sub_add_cancel Nat.one_le_two_pow]

end Linear

/-- A point that returns after a prime number `p` of steps and is not fixed runs through
`p` different points. -/
theorem injOn_iterate {α : Type} {f : α → α} {x : α} {p : Nat} (hp : p.Prime) (h : f^[p] x = x) (hx : f x ≠ x) :
    Set.InjOn (fun n => f^[n] x) (Set.Iio p) := by
  have : Fact p.Prime := ⟨hp⟩
  have hmin := Function.minimalPeriod_eq_prime (f := f) (x := x) (p := p) h hx
  have hinj := Function.iterate_injOn_Iio_minimalPeriod (f := f) (x := x)
  rwa [hmin] at hinj

end FpgaV3
