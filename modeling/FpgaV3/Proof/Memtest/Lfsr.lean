import FpgaV3.Framework.Linear
import FpgaV3.Proof.Memtest.Faults
import Mathlib.NumberTheory.LucasLehmer

/-!
# The words of `memtest_lfsr`

The lower 31 bits of the random value, inverted, are the state of a linear shift register
(`setWidth_YLFSR`), whose steps have the prime period 2^31 - 1 (`shift_period`). So the
words of a test are different, unless the register starts at zero and all words are the
same, and `memtest_lfsr` finds two words that share a cell (`memtestLfsr_addressing`).
-/

namespace FpgaV3.Proof.Memtest

open FpgaV3.Spec FpgaV3.Impl FpgaV3.Impl.Memtest

/-! ## The shift register -/

/-- The shift register with taps 30 and 27. -/
def shift (x : BitVec 31) : BitVec 31 := x <<< 1 ^^^ (if x.getLsbD 30 ^^ x.getLsbD 27 then 1 else 0)

theorem getLsbD_shift {x : BitVec 31} {i : Nat} (hi : i < 31) :
    (shift x).getLsbD i = if i = 0 then x.getLsbD 30 ^^ x.getLsbD 27 else x.getLsbD (i - 1) := by
  have hone : (1 : BitVec 31).getLsbD i = decide (i = 0) := by
    rw [show (1 : BitVec 31) = BitVec.twoPow 31 0 from rfl, BitVec.getLsbD_twoPow]
    simp [eq_comm]
  unfold shift
  rw [BitVec.getLsbD_xor, BitVec.getLsbD_shiftLeft]
  split
  · rename_i h
    rw [hone, h]
    by_cases h0 : i = 0
    · simp [h0]
    · simp [h0, hi, show ¬ i < 1 by omega]
  · rename_i h
    rw [Bool.not_eq_true] at h
    rw [show (0 : BitVec 31).getLsbD i = false from BitVec.getLsbD_zero, h]
    by_cases h0 : i = 0
    · simp [h0]
    · simp [h0, hi, show ¬ i < 1 by omega]

theorem linear_shift : Linear shift := by
  intro x y
  apply BitVec.eq_of_getLsbD_eq
  intro i hi
  rw [BitVec.getLsbD_xor, getLsbD_shift hi, getLsbD_shift hi, getLsbD_shift hi]
  simp only [BitVec.getLsbD_xor]
  split
  · cases x.getLsbD 30 <;> cases x.getLsbD 27 <;> cases y.getLsbD 30 <;> cases y.getLsbD 27 <;> rfl
  · rfl

/-- Only zero goes to zero, so that no two words go to the same. -/
theorem injective_shift : Function.Injective shift := by
  intro x y h
  have hbit : ∀ i < 31, (shift x).getLsbD i = (shift y).getLsbD i := fun i _ => by rw [h]
  have hlow : ∀ i < 30, x.getLsbD i = y.getLsbD i := fun i hi => by
    have hi' := hbit (i + 1) (by omega)
    rwa [getLsbD_shift (by omega), getLsbD_shift (by omega), if_neg (Nat.succ_ne_zero i), if_neg (Nat.succ_ne_zero i),
      Nat.add_sub_cancel] at hi'
  apply BitVec.eq_of_getLsbD_eq
  intro i hi
  rcases Nat.lt_or_ge i 30 with hlt | hge
  · exact hlow i hlt
  · have h0 := hbit 0 (by omega)
    rw [getLsbD_shift (by omega), getLsbD_shift (by omega), if_pos rfl, if_pos rfl, hlow 27 (by omega)] at h0
    rw [show i = 30 by omega]
    exact Bool.xor_left_inj.mp h0

/-- The register shifts the bits up, until it feeds bit 27 back. -/
def coordinates : List (BitVec 31) :=
  (List.range 31).map fun i => if i < 28 then 1 <<< i else 1 <<< i ^^^ 1 <<< (i - 28)

theorem coordinates_shift : Coordinates shift coordinates := by decide +kernel

theorem squares_shift : squares shift coordinates 31 (shift 1) = shift 1 := by decide +kernel

theorem shift_period (x : BitVec 31) : shift^[2 ^ 31 - 1] x = x :=
  linear_shift.iterate_eq_self injective_shift coordinates_shift squares_shift x

theorem prime_period : Nat.Prime (2 ^ 31 - 1) := lucas_lehmer_sufficiency 31 (by norm_num) (by norm_num)

/-- Only zero stays where it is. -/
theorem eq_zero_of_fixed {x : BitVec 31} (h : shift x = x) : x = 0 := by
  have hsame : ∀ i < 31, x.getLsbD i = x.getLsbD 0 := by
    intro i hi
    induction i with
    | zero => rfl
    | succ i ih =>
      rw [← ih (by omega)]
      nth_rewrite 1 [← h]
      rw [getLsbD_shift hi, if_neg (Nat.succ_ne_zero i), Nat.add_sub_cancel]
  have h0 : x.getLsbD 0 = false := by
    rw [← h, getLsbD_shift (by omega), if_pos rfl, hsame 30 (by omega), hsame 27 (by omega), Bool.xor_self]
  apply BitVec.eq_of_getLsbD_eq
  intro i hi
  rw [hsame i hi, h0]
  exact BitVec.getLsbD_zero.symm

theorem injOn_shift {x : BitVec 31} (hx : x ≠ 0) : Set.InjOn (fun n => shift^[n] x) (Set.Iio (2 ^ 31 - 1)) :=
  injOn_iterate prime_period (shift_period x) fun h => hx (eq_zero_of_fixed h)

/-! ## The random values -/

theorem shiftBit (a : BitVec 32) {k : Nat} (hk : k < 32) :
    a.sshiftRight k &&& 1 = if a.getLsbD k then 1 else 0 := by
  apply BitVec.eq_of_getLsbD_eq
  intro i hi
  rw [BitVec.getLsbD_and, BitVec.getLsbD_sshiftRight, show (1 : BitVec 32) = BitVec.twoPow 32 0 from rfl,
    BitVec.getLsbD_twoPow]
  by_cases h0 : i = 0
  · subst h0
    simp only [Nat.not_le.mpr hi, decide_false, Bool.not_false, Bool.true_and, Nat.add_zero, hk, if_true]
    cases a.getLsbD k <;> simp
  · cases h : a.getLsbD k <;> simp [Ne.symm h0]

/-- The bit that is shifted in. -/
theorem YLFSR_eq (a : BitVec 32) : YLFSR a = a <<< 1 ||| (if a.getLsbD 30 ^^ a.getLsbD 27 then 0 else 1) := by
  unfold YLFSR
  rw [shiftBit a (by omega), shiftBit a (by omega)]
  have hbit : ∀ b b' : Bool, (((if b then 1 else 0) ^^^ (if b' then 1 else 0)) ^^^ 1 : BitVec 32) =
      if b ^^ b' then 0 else 1 := by decide
  rw [hbit, BitVec.add_eq_or_of_and_eq_zero]
  apply BitVec.eq_of_getLsbD_eq
  intro i hi
  by_cases h0 : i = 0
  · subst h0
    simp
  · split <;> simp [show (1 : BitVec 32) = BitVec.twoPow 32 0 from rfl, Ne.symm h0]

theorem setWidth_YLFSR (a : BitVec 32) : (YLFSR a).setWidth 31 = ~~~ shift (~~~ a.setWidth 31) := by
  rw [YLFSR_eq]
  apply BitVec.eq_of_getLsbD_eq
  intro i hi
  rw [BitVec.getLsbD_not, getLsbD_shift hi, BitVec.getLsbD_setWidth, BitVec.getLsbD_or]
  by_cases h0 : i = 0
  · subst h0
    cases h30 : a.getLsbD 30 <;> cases h27 : a.getLsbD 27 <;> simp_all [BitVec.getLsbD_eq_getElem]
  · have hbit : (if a.getLsbD 30 ^^ a.getLsbD 27 then 0 else 1 : BitVec 32).getLsbD i = false := by
      split <;> simp [show (1 : BitVec 32) = BitVec.twoPow 32 0 from rfl, Ne.symm h0]
    rw [hbit]
    simp [BitVec.getLsbD_eq_getElem, h0, hi, show i < 32 by omega, show ¬ i < 1 by omega, show i - 1 < 31 by omega,
      show i - 1 < 32 by omega]

variable {κ : Type} [DecidableEq κ] {start size loop : BitVec 32} {n k : Nat} {g g' : Globals} {decode : BitVec 32 → κ}
  {s : κ → BitVec 32}

theorem word_lfsr {mode : Nat} {rseed : BitVec 32} (i : Nat) :
    word (lfsrTest mode loop 0xffffffff rseed) i = YLFSR^[i + 1] (seed mode loop rseed) := by
  have hrand : ∀ i, rand (lfsrTest mode loop 0xffffffff rseed) i = YLFSR^[i] (seed mode loop rseed) := by
    intro i
    induction i with
    | zero => rfl
    | succ i ih =>
      rw [Function.iterate_succ_apply', ← ih]
      rfl
  rw [Function.iterate_succ_apply', ← hrand]
  exact BitVec.and_allOnes

theorem setWidth_iterate (a : BitVec 32) (i : Nat) :
    (YLFSR^[i] a).setWidth 31 = ~~~ shift^[i] (~~~ a.setWidth 31) := by
  induction i with
  | zero => exact BitVec.not_not.symm
  | succ i ih => rw [Function.iterate_succ_apply', Function.iterate_succ_apply', setWidth_YLFSR, ih, BitVec.not_not]

/-- The seed with which all random values are the same. -/
def Stuck (a : BitVec 32) : Prop := a.setWidth 31 = BitVec.allOnes 31

theorem YLFSR_stuck {a : BitVec 32} (h : Stuck a) : YLFSR a = BitVec.allOnes 32 := by
  have hbit : ∀ i < 31, a.getLsbD i = true := fun i hi => by
    have hi' := congrArg (fun x => x.getLsbD i) h
    simpa only [BitVec.getLsbD_setWidth, hi, decide_true, Bool.true_and, BitVec.getLsbD_allOnes] using hi'
  rw [YLFSR_eq, hbit 30 (by omega), hbit 27 (by omega)]
  apply BitVec.eq_of_getLsbD_eq
  intro i hi
  rw [BitVec.getLsbD_or, BitVec.getLsbD_allOnes, BitVec.getLsbD_shiftLeft, decide_eq_true hi]
  cases i with
  | zero => rfl
  | succ i => simp only [Nat.add_sub_cancel, hbit i (by omega), Nat.not_lt.mpr (Nat.succ_le_succ (Nat.zero_le i)),
      decide_false, Bool.not_false, Bool.true_and, Bool.true_or]

theorem word_stuck {mode : Nat} {rseed : BitVec 32} (h : Stuck (seed mode loop rseed)) (i : Nat) :
    word (lfsrTest mode loop 0xffffffff rseed) i = BitVec.allOnes 32 := by
  rw [word_lfsr]
  induction i with
  | zero => exact YLFSR_stuck h
  | succ i ih => rw [Function.iterate_succ_apply', ih, YLFSR_stuck (by unfold Stuck; decide)]

/-- With any other seed, the words of a test are different. -/
theorem injOn_word_lfsr {mode : Nat} {rseed : BitVec 32} (h : ¬ Stuck (seed mode loop rseed)) :
    Set.InjOn (word (lfsrTest mode loop 0xffffffff rseed)) (Set.Iio (2 ^ 31 - 1)) := by
  intro i hi j hj heq
  have hne : ~~~ (seed mode loop rseed).setWidth 31 ≠ 0 := fun h0 => h (by
    rw [Stuck, ← BitVec.not_not (b := (seed mode loop rseed).setWidth 31), h0]
    exact BitVec.not_zero)
  have hlow := congrArg (BitVec.setWidth 31) heq
  rw [word_lfsr, word_lfsr, setWidth_iterate, setWidth_iterate, BitVec.not_inj, Function.iterate_succ_apply',
    Function.iterate_succ_apply'] at hlow
  exact injOn_shift hne hi hj (injective_shift hlow)

/-! ## Addressing -/

theorem le_period (hb : Below start n) : n ≤ 2 ^ 31 - 1 := by
  have hlt : ERR_INFO.toNat < 2 ^ 32 := ERR_INFO.isLt
  unfold Below at hb
  omega

/-- In a memory without other faults, `memtest_lfsr` finds that two words share a cell, unless its seed is the one
from which all words are the same. -/
theorem memtestLfsr_addressing {tr : Trace MemOp MemOp.Ans} {s' : κ → BitVec 32} (hb : Below start (rangeWords size))
    (hmask : g.qmask = 0xffffffff) (hr : (memtestLfsr start size k loop g).Runs tr g')
    (hp : (memory start (rangeWords size) decode plain).Path s tr s') :
    g'.werr = g.werr ↔
      Set.InjOn decode {a | InRange start (steps size 4) a} ∨ Stuck (seed k loop (g.rseed + 0x017c1e23)) := by
  have h : Verdict decode plain start (lfsrTest k loop 0xffffffff (g.rseed + 0x017c1e23)) (steps size 4) s g g' :=
    hmask ▸ (says_lfsr hb g s).sound hr hp
  rw [injOn_cell hb steps_le]
  constructor
  · intro herr
    by_cases hs : Stuck (seed k loop (g.rseed + 0x017c1e23))
    · exact Or.inr hs
    · have hle : steps size 4 ≤ 2 ^ 31 - 1 := steps_le.trans (le_period hb)
      exact Or.inl (h.injOn ((injOn_word_lfsr hs).mono fun i hi => Nat.lt_of_lt_of_le hi hle) herr)
  · intro hor
    refine h.clean fun i hi data hdata => ?_
    rw [show data = _ from hdata]
    refine stores_apply_iff.mpr (fun i hi j hj heq => ?_) i hi
    rcases hor with hinj | hs
    · rw [hinj hi hj heq]
    · rw [word_stuck hs, word_stuck hs]

/-- A word is lost. -/
theorem memtestLfsr_addressing_line : ∃ tr g', (memtestLfsr 0x100000 8 11 1 {}).Runs tr g' ∧ ¬ g'.werr = 0 := by
  obtain ⟨tr, g', s', hr, hp⟩ := faulty_run 0x100000 4 (fun a => a &&& ~~~4) (fun _ c => c)
    (memtestLfsr 0x100000 8 11 1 {}) (fun _ => 0) (by decide +kernel)
  have h := memtestLfsr_addressing (by unfold Below; decide) rfl hr hp
  refine ⟨tr, g', hr, fun hzero => ?_⟩
  rcases h.mp hzero with hinj | hs
  · have heq := hinj (show InRange 0x100000 2 0x100000 by decide) (show InRange 0x100000 2 0x100004 by decide) rfl
    exact absurd heq (by decide)
  · exact absurd hs (by unfold Stuck; decide)

end FpgaV3.Proof.Memtest
