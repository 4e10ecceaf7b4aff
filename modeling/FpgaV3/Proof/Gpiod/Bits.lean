import FpgaV3.Proof.Gpiod.Calls

/-!
# The bits of a bulk

A bulk sets each of its lines to its own value (`bit_setLines`) and no other
(`bit_setLines_other`). So a word written most significant bit first arrives as
that word: on the data lines (`lower_set`) and the address lines
(`regAddr_set`).
-/

namespace FpgaV3.Proof.Gpiod

open FpgaV3.Spec FpgaV3.Impl FpgaV3.Impl.Gpiod

/-- EMIO bit `k`. -/
def bit (l : Emio) (k : Nat) : Bool := if k < 32 then l.lower.getLsbD k else l.upper.getLsbD (k - 32)

theorem bit_setLine {l : Emio} {k j : Nat} {b : Bool} (hk : k < 64) :
    bit (l.setLine k b) j = if j = k then b else bit l j := by
  unfold bit Emio.setLine
  by_cases hl : k < 32
  · rw [if_pos hl]
    dsimp only
    rw [getLsbD_setBit _ hl]
    split <;> split <;> first | rfl | omega
  · rw [if_neg hl]
    dsimp only
    rw [getLsbD_setBit _ (by omega)]
    by_cases hj : j < 32
    · rw [if_pos hj, if_pos hj, if_neg (by omega)]
    · rw [if_neg hj, if_neg hj]
      by_cases he : j = k
      · rw [if_pos he, if_pos (by omega)]
      · rw [if_neg he, if_neg (by omega)]

/-- The lines of the bulk are on the chip's EMIO lines, each once. -/
theorem offsets_nodup (g : Lines) : g.offsets.Nodup := by cases g <;> decide

theorem offsets_range (g : Lines) : ∀ k ∈ g.offsets, 54 ≤ k ∧ k < 118 := by cases g <;> decide

theorem pairwise_zip {α β : Type} {xs : List α} {ys : List β} (h : xs.Nodup) :
    (xs.zip ys).Pairwise fun x y => x.1 ≠ y.1 := by
  induction xs generalizing ys with
  | nil => exact .nil
  | cons x xs ih =>
    rw [List.nodup_cons] at h
    cases ys with
    | nil => exact .nil
    | cons y ys =>
      refine .cons (fun z hz e => h.1 ?_) (ih h.2)
      rw [show x = z.1 from e]
      exact (List.of_mem_zip hz).1

theorem bit_foldl {xs : List (Nat × Int)} {l : Emio} {j : Nat}
    (hr : ∀ x ∈ xs, 54 ≤ x.1 ∧ x.1 < 118) (hj : ∀ x ∈ xs, x.1 ≠ j + 54) :
    bit (xs.foldl (fun l x => l.setLine (x.1 - INDEX_EMIO_START) (x.2 != 0)) l) j = bit l j := by
  induction xs generalizing l with
  | nil => rfl
  | cons x xs ih =>
    rw [List.forall_mem_cons] at hr hj
    rw [List.foldl_cons, ih hr.2 hj.2, INDEX_EMIO_START, bit_setLine (by omega), if_neg (by omega)]

/-- A line of a bulk takes its value. -/
theorem bit_setLines {l : Emio} {g : Lines} {values : List Int} {k : Nat} {v : Int}
    (h : (k + 54, v) ∈ g.offsets.zip values) : bit (l.setLines g values) k = (v != 0) := by
  have hr : ∀ x ∈ g.offsets.zip values, 54 ≤ x.1 ∧ x.1 < 118 :=
    fun x hx => offsets_range g _ (List.of_mem_zip hx).1
  have hn : (g.offsets.zip values).Pairwise fun x y => x.1 ≠ y.1 := pairwise_zip (offsets_nodup g)
  unfold Emio.setLines
  generalize g.offsets.zip values = xs at h hr hn
  induction xs generalizing l with
  | nil => exact absurd h List.not_mem_nil
  | cons x xs ih =>
    rw [List.forall_mem_cons] at hr
    rw [List.pairwise_cons] at hn
    rw [List.foldl_cons]
    rcases List.mem_cons.mp h with rfl | h
    · rw [bit_foldl hr.2 fun y hy e => hn.1 y hy e.symm, INDEX_EMIO_START, bit_setLine (by omega), if_pos (by omega)]
    · exact ih h hr.2 hn.2

/-- The other lines keep their levels. -/
theorem bit_setLines_other {l : Emio} {g : Lines} {values : List Int} {k : Nat} (h : k + 54 ∉ g.offsets) :
    bit (l.setLines g values) k = bit l k :=
  bit_foldl (fun _ hx => offsets_range g _ (List.of_mem_zip hx).1)
    fun _ hx e => h (e ▸ (List.of_mem_zip hx).1)

theorem lower_eq {l : Emio} {x : BitVec 32} (h : ∀ k < 32, bit l k = x.getLsbD k) : l.lower = x := by
  refine BitVec.eq_of_getLsbD_eq fun k hk => ?_
  rw [← h k hk, bit, if_pos hk]

theorem and_twoPow_ne_zero {w k : Nat} (hk : k < w) (x : BitVec w) :
    x &&& BitVec.twoPow w k ≠ 0 ↔ x.getLsbD k = true := by
  have hbit (j : Nat) : (x &&& BitVec.twoPow w k).getLsbD j = (x.getLsbD j && decide (k = j)) := by
    rw [BitVec.getLsbD_and, BitVec.getLsbD_twoPow, decide_eq_true hk, Bool.true_and]
  have hzero (j : Nat) : (0 : BitVec w).getLsbD j = false := BitVec.getLsbD_zero
  constructor
  · intro hne
    by_cases hx : x.getLsbD k = true
    · exact hx
    · refine absurd (BitVec.eq_of_getLsbD_eq fun j _ => ?_) hne
      rw [hbit, hzero, Bool.and_eq_false_iff]
      by_cases hj : k = j
      · exact Or.inl (hj ▸ Bool.eq_false_iff.mpr hx)
      · exact Or.inr (decide_eq_false hj)
  · intro hx h0
    have hb := hbit k
    rw [h0, hx, hzero, decide_eq_true rfl] at hb
    exact absurd hb (by decide)

/-- The data lines carry the word whose bits are set one by one, most
significant bit first. -/
theorem lower_set (l : Emio) (x : BitVec 32) : (l.setLines .regData (dataValues x)).lower = x := by
  refine lower_eq fun k hk => ?_
  have hmem : (k + 54, if x &&& ↑(0x80000000 >>> (31 - k)) ≠ 0 then 1 else 0) ∈
      Lines.regData.offsets.zip (dataValues x) := by
    rw [Lines.offsets, dataValues, List.zip_map']
    refine List.mem_map.mpr ⟨31 - k, List.mem_range.mpr (by omega), Prod.ext ?_ rfl⟩
    show 54 + 31 - (31 - k) = k + 54
    omega
  have hmask : ∀ i < 32, ((0x80000000 >>> i : Nat) : BitVec 32) = BitVec.twoPow 32 (31 - i) := by decide
  have hand := and_twoPow_ne_zero hk x
  rw [bit_setLines hmem, hmask _ (by omega), show 31 - (31 - k) = k by omega]
  cases hx : x.getLsbD k
  · rw [if_neg fun h => absurd (hand.mp h) (by rw [hx]; decide)]; rfl
  · rw [if_pos (hand.mpr hx)]; rfl

/-- The address lines carry the address. -/
theorem regAddr_set (l : Emio) (a : BitVec 16) : (l.setLines .regAddr (addrValues a)).regAddr = a := by
  refine BitVec.eq_of_getLsbD_eq fun k hk => ?_
  have hmem : (k + 32 + 54, if a &&& ↑(0x8000 >>> (15 - k)) ≠ 0 then 1 else 0) ∈
      Lines.regAddr.offsets.zip (addrValues a) := by
    rw [Lines.offsets, addrValues, List.zip_map']
    refine List.mem_map.mpr ⟨15 - k, List.mem_range.mpr (by omega), Prod.ext ?_ rfl⟩
    show 54 + 47 - (15 - k) = k + 32 + 54
    omega
  have hmask : ∀ i < 16, ((0x8000 >>> i : Nat) : BitVec 16) = BitVec.twoPow 16 (15 - i) := by decide
  have hand := and_twoPow_ne_zero hk a
  have hset := bit_setLines (l := l) hmem
  rw [bit, if_neg (by omega), hmask _ (by omega), show 15 - (15 - k) = k by omega, Nat.add_sub_cancel] at hset
  rw [Emio.regAddr, BitVec.getLsbD_setWidth, decide_eq_true hk, Bool.true_and, hset]
  cases ha : a.getLsbD k
  · rw [if_neg fun h => absurd (hand.mp h) (by rw [ha]; decide)]; rfl
  · rw [if_pos (hand.mpr ha)]; rfl

/-- A bulk of address or control lines leaves the data lines alone. -/
theorem lower_setLines {l : Emio} {g : Lines} {values : List Int} (hg : g ≠ .regData) :
    (l.setLines g values).lower = l.lower := by
  refine lower_eq fun k hk => ?_
  have hother : k + 54 ∉ g.offsets := fun hk' => by
    have hrange : ∀ j ∈ g.offsets, 86 ≤ j := by cases g <;> first | exact absurd rfl hg | decide
    have := hrange _ hk'
    omega
  rw [bit_setLines_other hother, bit, if_pos hk]

end FpgaV3.Proof.Gpiod
