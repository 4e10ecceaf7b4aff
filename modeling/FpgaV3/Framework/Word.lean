/-!
# Words

Byte order and single bits of words: `bswap32` reverses the four bytes of a
32-bit word (an involution, `bswap32_bswap32`); `setBit x i b` is `x` with
bit `i` set to `b` (`getLsbD_setBit`). A bit that is clear may be added
(`getLsbD_add_bit`).
-/

namespace FpgaV3

/-- The word with its four bytes in reverse order. -/
def bswap32 (x : BitVec 32) : BitVec 32 :=
  x.extractLsb' 0 8 ++ x.extractLsb' 8 8 ++ x.extractLsb' 16 8 ++ x.extractLsb' 24 8

/-- Bit `i` of byte `i / 8` comes from byte `3 - i / 8`. -/
theorem getLsbD_bswap32 (x : BitVec 32) {i : Nat} (hi : i < 32) :
    (bswap32 x).getLsbD i = x.getLsbD (8 * (3 - i / 8) + i % 8) := by
  have h : i / 8 = 0 ∨ i / 8 = 1 ∨ i / 8 = 2 ∨ i / 8 = 3 := by omega
  simp only [bswap32, BitVec.getLsbD_append, BitVec.getLsbD_extractLsb']
  rcases h with h | h | h | h <;> rw [h]
  · simp only [show i < 8 by omega, if_true, decide_true, Bool.true_and]
    congr 1; omega
  · simp only [show ¬ i < 8 by omega, show i - 8 < 8 by omega, if_true, if_false, decide_true, Bool.true_and]
    congr 1; omega
  · simp only [show ¬ i < 8 by omega, show ¬ i - 8 < 8 by omega, show i - 8 - 8 < 8 by omega, if_true,
      if_false, decide_true, Bool.true_and]
    congr 1; omega
  · simp only [show ¬ i < 8 by omega, show ¬ i - 8 < 8 by omega, show ¬ i - 8 - 8 < 8 by omega,
      show i - 8 - 8 - 8 < 8 by omega, if_false, decide_true, Bool.true_and]
    congr 1; omega

@[simp] theorem bswap32_bswap32 (x : BitVec 32) : bswap32 (bswap32 x) = x := by
  apply BitVec.eq_of_getLsbD_eq
  intro i hi
  rw [getLsbD_bswap32 _ hi, getLsbD_bswap32 _ (by omega)]
  congr 1; omega

theorem bswap32_append (a b c d : BitVec 8) : bswap32 (a ++ b ++ c ++ d) = d ++ c ++ b ++ a := by
  apply BitVec.eq_of_getLsbD_eq
  intro i hi
  simp only [bswap32, BitVec.getLsbD_append, BitVec.getLsbD_extractLsb']
  grind

/-- The word with bit `i` set to `b`. -/
def setBit {w : Nat} (x : BitVec w) (i : Nat) (b : Bool) : BitVec w :=
  if b then x ||| BitVec.twoPow w i else x &&& ~~~ BitVec.twoPow w i

theorem getLsbD_setBit {w : Nat} (x : BitVec w) {i : Nat} (hi : i < w) (b : Bool) (j : Nat) :
    (setBit x i b).getLsbD j = if j = i then b else x.getLsbD j := by
  by_cases hj : j = i
  · subst hj
    cases b <;> simp [setBit, hi]
  · have := Ne.symm hj
    cases b
    · simp only [setBit, Bool.false_eq_true, if_false, BitVec.getLsbD_and, BitVec.getLsbD_not,
        BitVec.getLsbD_twoPow, this, decide_false, Bool.and_false, Bool.not_false, Bool.and_true, hj]
      by_cases hw : j < w
      · simp [hw]
      · simp [hw, BitVec.getLsbD_of_ge _ _ (Nat.le_of_not_lt hw)]
    · simp [setBit, hj, this, BitVec.getLsbD_twoPow]

/-- Bit `k`, which is clear, is added. -/
theorem getLsbD_add_bit {w : Nat} {x : BitVec w} {k : Nat} (h : x.getLsbD k = false) {i : Nat} (hi : i < w) :
    (x + 1#w <<< k).getLsbD i = (x.getLsbD i || decide (i = k)) := by
  have hbit : ∀ i < w, (1#w <<< k).getLsbD i = decide (i = k) := by
    intro i hi
    by_cases hik : i = k
    · subst hik
      simp [hi]
    · simp [hi, hik]
      omega
  have hand : x &&& 1#w <<< k = 0#w := by
    apply BitVec.eq_of_getLsbD_eq
    intro j hj
    rw [BitVec.getLsbD_and, hbit j hj, BitVec.getLsbD_zero]
    by_cases hjk : j = k
    · rw [hjk, h, Bool.false_and]
    · simp [hjk]
  rw [BitVec.add_eq_or_of_and_eq_zero _ _ hand, BitVec.getLsbD_or, hbit i hi]

end FpgaV3
