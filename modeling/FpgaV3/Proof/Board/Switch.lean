import FpgaV3.Spec.Board

/-!
# The switch for the board number

After the samples `xs` a position is marked if it was held (`Counted.bits`). The
last position to be accepted is one that was, and unless it is read again, the
counter is the length of the present run (`Counted.run`). A sample keeps this
(`Counted.next`), so the test ends with the first sample after which all 16
positions were held (`debounced`).
-/

namespace FpgaV3.Proof.Board

open FpgaV3.Spec FpgaV3.Impl FpgaV3.Impl.Board

variable {xs : List Nat} {s : Switch} {a k m : Nat}

/-! ## Runs of a sample -/

theorem run_concat : List.replicate (m + 1) k <:+ xs ++ [a] ↔ k = a ∧ List.replicate m k <:+ xs := by
  rw [List.replicate_succ', List.suffix_concat_iff]
  constructor
  · intro h
    obtain ⟨t, ht, hsuffix⟩ := h.resolve_left (List.append_ne_nil_of_right_ne_nil _ (List.cons_ne_nil k []))
    obtain ⟨rfl, hk⟩ := List.append_inj' ht rfl
    exact ⟨List.head_eq_of_cons_eq hk, hsuffix⟩
  · intro h
    exact Or.inr ⟨_, by rw [h.1], h.2⟩

theorem last_concat (h : [k] <:+ xs ++ [a]) : k = a := (run_concat (m := 0).mp h).1

theorem run_single (h : List.replicate (m + 1) k <:+ xs) : [k] <:+ xs := by
  rw [List.replicate_succ'] at h
  exact (List.suffix_append _ _).trans h

/-- A position is held by the last 11 samples, or was before. -/
theorem held_concat : Held k (xs ++ [a]) ↔ Held k xs ∨ k = a ∧ List.replicate 10 k <:+ xs := by
  rw [Held, List.infix_concat_iff, run_concat, or_comm]
  rfl

theorem held_lt (h : ∀ x ∈ xs, x < 16) (hk : Held k xs) : k < 16 :=
  h k (hk.subset (List.mem_replicate.mpr ⟨by decide, rfl⟩))

/-! ## One sample -/

/-- The variables after a sample. -/
def next (s : Switch) (board_id : Nat) : Switch :=
  if board_id ≠ (s.count board_id).last_id ∧ (s.count board_id).debounce.toInt ≥ 10 then
    { s.count board_id with
      switchOK := (s.count board_id).switchOK ||| 1#32 <<< board_id
      last_id := board_id
      debounce := 0 }
  else s.count board_id

structure Counted (xs : List Nat) (s : Switch) : Prop where
  bits : ∀ k, s.switchOK.getLsbD k = true ↔ Held k xs
  last : s.last_id ≠ 16 → Held s.last_id xs
  prev : ∀ k, [k] <:+ xs → k = s.prev_id
  run : s.prev_id ≠ s.last_id →
    s.debounce.toNat ≤ 9 ∧ ∀ m, List.replicate m s.prev_id <:+ xs ↔ m ≤ s.debounce.toNat + 1

theorem counted_nil : Counted [] {} where
  bits k := by
    rw [Held, List.infix_nil]
    exact ⟨fun h => absurd_false (BitVec.getLsbD_zero.symm.trans h), fun h => absurd h (List.cons_ne_nil _ _)⟩
  last h := absurd rfl h
  prev k h := absurd (List.suffix_nil.mp h) (List.cons_ne_nil _ _)
  run h := absurd rfl h

theorem getLsbD_mask (ha : a < 16) : (1#32 <<< a).getLsbD k = true ↔ k = a := by
  rw [BitVec.getLsbD_shiftLeft, BitVec.getLsbD_one]
  simp only [Bool.and_eq_true, Bool.not_eq_true', decide_eq_true_eq, decide_eq_false_iff_not]
  omega

theorem getLsbD_mark (w : BitVec 32) (ha : a < 16) :
    (w ||| 1#32 <<< a).getLsbD k = true ↔ w.getLsbD k = true ∨ k = a := by
  rw [BitVec.getLsbD_or, Bool.or_eq_true, getLsbD_mask ha]

/-- The bit of a position is tested. -/
theorem and_mask_eq_zero {w : BitVec 32} (ha : a < 16) : w &&& 1#32 <<< a = 0 ↔ w.getLsbD a = false := by
  constructor
  · intro h
    have hbit := congrArg (·.getLsbD a) h
    have hzero : BitVec.getLsbD (0 : BitVec 32) a = false := BitVec.getLsbD_zero
    simp only [BitVec.getLsbD_and, (getLsbD_mask ha).mpr rfl, Bool.and_true, hzero] at hbit
    exact hbit
  · intro h
    refine BitVec.eq_of_getLsbD_eq fun k _ => ?_
    have hzero : BitVec.getLsbD (0 : BitVec 32) k = false := BitVec.getLsbD_zero
    rw [BitVec.getLsbD_and, hzero, Bool.and_eq_false_iff]
    by_cases hk : k = a
    · exact Or.inl (hk ▸ h)
    · exact Or.inr (Bool.eq_false_iff.mpr fun hmask => hk ((getLsbD_mask ha).mp hmask))

theorem toNat_succ {w : BitVec 32} (h : w.toNat < 10) : (w + 1).toNat = w.toNat + 1 := by
  rw [BitVec.toNat_add]
  exact Nat.mod_eq_of_lt (by show w.toNat + 1 < 2 ^ 32; omega)

namespace Counted

/-- The position that was accepted last is read again. -/
theorem again (h : Counted xs s) (ha : a < 16) (hprev : a = s.prev_id) (hlast : s.prev_id = s.last_id) :
    Counted (xs ++ [a]) { s with debounce := s.debounce + 1 } where
  bits k := by
    have hheld : Held s.last_id xs := h.last (by omega)
    rw [held_concat, h.bits]
    refine ⟨Or.inl, fun hk => hk.elim id fun hka => ?_⟩
    rw [hka.1, hprev, hlast]
    exact hheld
  last h16 := held_concat.mpr (Or.inl (h.last h16))
  prev k hk := (last_concat hk).trans hprev
  run hne := absurd hlast hne

/-- The present run is too short. -/
theorem longer (h : Counted xs s) (hprev : a = s.prev_id) (hlast : s.prev_id ≠ s.last_id) (hshort : s.debounce.toNat < 9) :
    Counted (xs ++ [a]) { s with debounce := s.debounce + 1 } where
  bits k := by
    rw [held_concat, h.bits]
    refine ⟨Or.inl, fun hk => hk.elim id fun hka => ?_⟩
    have hten := (((h.run hlast).2 10).mp (hprev ▸ hka.1 ▸ hka.2))
    omega
  last h16 := held_concat.mpr (Or.inl (h.last h16))
  prev k hk := (last_concat hk).trans hprev
  run _ := by
    show (s.debounce + 1).toNat ≤ 9 ∧ ∀ m, List.replicate m s.prev_id <:+ xs ++ [a] ↔ m ≤ (s.debounce + 1).toNat + 1
    rw [toNat_succ (by omega)]
    refine ⟨by omega, fun m => ?_⟩
    cases m with
    | zero => exact ⟨fun _ => Nat.zero_le _, fun _ => List.nil_suffix⟩
    | succ m =>
      rw [run_concat, (h.run hlast).2 m]
      omega

/-- A position was held long enough. -/
theorem accepted (h : Counted xs s) (ha : a < 16) (hprev : a = s.prev_id) (hlast : s.prev_id ≠ s.last_id)
    (hlong : s.debounce.toNat = 9) :
    Counted (xs ++ [a]) { s with switchOK := s.switchOK ||| 1#32 <<< a, last_id := a, debounce := 0 } where
  bits k := by
    have hrun : List.replicate 10 a <:+ xs := by
      rw [hprev]
      exact ((h.run hlast).2 10).mpr (by omega)
    rw [held_concat, getLsbD_mark _ ha, h.bits]
    refine or_congr_right ⟨fun hk => ⟨hk, hk ▸ hrun⟩, And.left⟩
  last _ := held_concat.mpr (Or.inr ⟨rfl, hprev ▸ ((h.run hlast).2 10).mpr (by omega)⟩)
  prev k hk := (last_concat hk).trans hprev
  run hne := absurd hprev.symm hne

/-- Another position is read. -/
theorem other (h : Counted xs s) (hprev : a ≠ s.prev_id) :
    Counted (xs ++ [a]) { s with prev_id := a, debounce := 0 } where
  bits k := by
    rw [held_concat, h.bits]
    refine ⟨Or.inl, fun hk => hk.elim id fun hka => ?_⟩
    exact absurd (h.prev a (hka.1 ▸ run_single hka.2)) hprev
  last h16 := held_concat.mpr (Or.inl (h.last h16))
  prev k hk := last_concat hk
  run _ := by
    refine ⟨Nat.zero_le 9, fun m => ?_⟩
    show List.replicate m a <:+ xs ++ [a] ↔ m ≤ 0 + 1
    cases m with
    | zero => exact ⟨fun _ => Nat.zero_le _, fun _ => List.nil_suffix⟩
    | succ m =>
      rw [run_concat]
      cases m with
      | zero => exact ⟨fun _ => Nat.le_refl _, fun _ => ⟨rfl, List.nil_suffix⟩⟩
      | succ m => exact ⟨fun hm => absurd (h.prev a (run_single hm.2)) hprev, fun hm => absurd hm (by omega)⟩

end Counted

theorem Counted.next (h : Counted xs s) (ha : a < 16) : Counted (xs ++ [a]) (next s a) := by
  rw [Board.next, Switch.count]
  by_cases hprev : a = s.prev_id
  · rw [if_pos hprev]
    by_cases hlast : s.prev_id = s.last_id
    · rw [if_neg fun haccept => haccept.1 (hprev.trans hlast)]
      exact h.again ha hprev hlast
    · have hle := (h.run hlast).1
      have hint : (s.debounce + 1).toInt = (s.debounce.toNat + 1 : Nat) := by
        rw [BitVec.toInt_eq_toNat_of_lt (by rw [toNat_succ (by omega)]; omega), toNat_succ (by omega)]
      by_cases hlong : s.debounce.toNat = 9
      · rw [if_pos ⟨fun heq => hlast (hprev.symm.trans heq), by rw [hint]; omega⟩]
        exact h.accepted ha hprev hlast hlong
      · rw [if_neg fun haccept => by have hten := haccept.2; rw [hint] at hten; omega]
        exact h.longer hprev hlast (by omega)
  · rw [if_neg hprev, if_neg fun haccept => absurd haccept.2 (show ¬ (0#32).toInt ≥ 10 by decide)]
    exact h.other hprev

theorem boardId_lt (status : BitVec 32) : boardId status < 16 := by
  have hle : (status &&& 0x0f000000).toNat ≤ 0x0f000000 := by
    rw [BitVec.toNat_and]
    exact Nat.and_le_right
  rw [boardId, BitVec.toNat_ushiftRight, Nat.shiftRight_eq_div_pow]
  omega

theorem ids_succ (f : Nat → BitVec 32) (n : Nat) : ids f (n + 1) = ids f n ++ [boardId (f n)] := by
  rw [ids, List.range_succ, List.map_append]
  rfl

theorem ids_lt (f : Nat → BitVec 32) (n : Nat) : ∀ x ∈ ids f n, x < 16 := by
  intro x hx
  obtain ⟨i, -, rfl⟩ := List.mem_map.mp hx
  exact boardId_lt (f i)

/-- The test is done when all positions were held. -/
theorem Counted.full_iff (h : Counted xs s) (hxs : ∀ x ∈ xs, x < 16) : s.switchOK = 0x0000ffff ↔ AllHeld xs := by
  have hlow : ∀ k < 16, BitVec.getLsbD (0x0000ffff : BitVec 32) k = true := by decide
  have hhigh : ∀ k < 32, ¬ k < 16 → BitVec.getLsbD (0x0000ffff : BitVec 32) k = false := by decide
  constructor
  · intro heq k hk
    rw [← h.bits, heq]
    exact hlow k hk
  · intro hall
    refine BitVec.eq_of_getLsbD_eq fun k hk => ?_
    by_cases hk16 : k < 16
    · rw [hlow k hk16]
      exact (h.bits k).mpr (hall k hk16)
    · rw [hhigh k hk hk16]
      exact Bool.eq_false_iff.mpr fun hbit => hk16 (held_lt hxs ((h.bits k).mp hbit))

/-! ## The program -/

variable {status : Nat → Option (BitVec 32)} {status_reg : Nat → BitVec 32}

/-- What the variable holds after read `i`. -/
def readAs (status : Nat → Option (BitVec 32)) (status_reg : Nat → BitVec 32) (i : Nat) : BitVec 32 :=
  (status i).getD (status_reg i)

/-- A position that is marked already. -/
theorem or_mask {w : BitVec 32} (ha : a < 16) (h : ¬ w &&& 1#32 <<< a = 0) : w ||| 1#32 <<< a = w := by
  rw [and_mask_eq_zero ha, Bool.not_eq_false] at h
  refine BitVec.eq_of_getLsbD_eq fun k hk => Bool.eq_iff_iff.mpr ?_
  rw [getLsbD_mark w ha]
  exact ⟨fun hk => hk.elim id fun heq => heq ▸ h, Or.inl⟩

theorem run_check (s : Switch) (ha : a < 16) (n : Nat) : (source status).run (check a s) n = some (next s a, n) := by
  rw [check, next]
  show (source status).run (ite _ (ite _ _ _) _) n = _
  split
  · split
    · rfl
    · rename_i hset
      rw [or_mask ha hset]
      rfl
  · rfl

theorem run_sample (s : Switch) (n : Nat) :
    (source status).run (sample (status_reg n) s) n = some (next s (boardId (readAs status status_reg n)), n + 1) :=
  run_check s (boardId_lt _) (n + 1)

theorem run_rounds (n i : Nat) {s : Switch} (h : Counted (ids (readAs status status_reg) i) s) :
    ∃ s', (source status).run (rounds status_reg n i s) i = some (s', i + n) ∧
      Counted (ids (readAs status status_reg) (i + n)) s' := by
  induction n generalizing i s with
  | zero => exact ⟨s, rfl, h⟩
  | succ n ih =>
    have hnext := h.next (boardId_lt (readAs status status_reg i))
    rw [← ids_succ] at hnext
    rw [rounds, Env.run_bind, run_sample, Option.bind_some, show i + (n + 1) = i + 1 + n by omega]
    exact ih (i + 1) hnext

theorem run_samples (fuel i n : Nat) {s : Switch} (h : Counted (ids (readAs status status_reg) i) s) :
    (source status).run (samples status_reg fuel i s) i = some ((), n) ↔
      i ≤ n ∧ n < i + fuel ∧ AllHeld (ids (readAs status status_reg) n) ∧
        ∀ j, i ≤ j → j < n → ¬ AllHeld (ids (readAs status status_reg) j) := by
  induction fuel generalizing i s with
  | zero => exact ⟨absurd_none, fun hn => absurd hn.2.1 (by omega)⟩
  | succ fuel ih =>
    have hfull := h.full_iff (ids_lt _ i)
    rw [samples]
    split
    · rename_i hopen
      have hnot : ¬ AllHeld (ids (readAs status status_reg) i) := fun hall => hopen (hfull.mpr hall)
      have hnext := h.next (boardId_lt (readAs status status_reg i))
      rw [← ids_succ] at hnext
      rw [Env.run_bind, run_sample, Option.bind_some, ih (i + 1) hnext]
      constructor
      · intro h
        refine ⟨by omega, by omega, h.2.2.1, fun j hij hjn => ?_⟩
        rcases Nat.eq_or_lt_of_le hij with heq | hlt
        · exact heq ▸ hnot
        · exact h.2.2.2 j hlt hjn
      · intro h
        have hne : i ≠ n := fun heq => hnot (heq ▸ h.2.2.1)
        exact ⟨by omega, by omega, h.2.2.1, fun j hij hjn => h.2.2.2 j (by omega) hjn⟩
    · rename_i hclosed
      have hall := hfull.mp (Decidable.not_not.mp hclosed)
      constructor
      · intro h
        have heq : i = n := congrArg Prod.snd (Option.some.inj h)
        subst heq
        exact ⟨Nat.le_refl i, by omega, hall, fun j hij hji => absurd hji (by omega)⟩
      · intro h
        have hle : n ≤ i := Nat.not_lt.mp fun hlt => h.2.2.2 i (Nat.le_refl i) hlt hall
        rw [show n = i by omega]
        rfl

/-- The test returns with the first read after which all positions were held. -/
theorem run_testBoardID (fuel n : Nat) :
    (source status).run (testBoardID fuel status_reg) 0 = some (true, n) ↔
      n < fuel ∧ AllHeld (ids (readAs status status_reg) n) ∧ ∀ j < n, ¬ AllHeld (ids (readAs status status_reg) j) := by
  have hloop : (source status).run (testBoardID fuel status_reg) 0 = some (true, n) ↔
      (source status).run (samples status_reg fuel 0 {}) 0 = some ((), n) := by
    show (source status).run (samples status_reg fuel 0 {} >>= _) 0 = _ ↔ _
    rw [Env.run_bind]
    cases (source status).run (samples status_reg fuel 0 {}) 0 with
    | none => exact ⟨absurd_none, absurd_none⟩
    | some x =>
      show some (true, x.2) = some (true, n) ↔ some ((), x.2) = some ((), n)
      simp only [Option.some.injEq, Prod.mk.injEq, true_and]
  rw [hloop, run_samples fuel 0 n counted_nil, Nat.zero_add]
  exact ⟨fun h => ⟨h.2.1, h.2.2.1, fun j hj => h.2.2.2 j (Nat.zero_le j) hj⟩,
    fun h => ⟨Nat.zero_le n, h.1, h.2.1, fun j _ hj => h.2.2 j hj⟩⟩

/-- A position is marked if and only if 11 samples in a row were read there, however
long the switch bounces or stays: the counter may even wrap around. The test returns
with the first sample after which all are marked. -/
theorem debounced (status : Nat → BitVec 32) (status_reg : Nat → BitVec 32) :
    (∀ n, ∃ s, (source fun i => some (status i)).run (rounds status_reg n 0 {}) 0 = some (s, n) ∧
      ∀ k, s.switchOK.getLsbD k = true ↔ Held k (ids status n)) ∧
    ∀ fuel n, (source fun i => some (status i)).run (testBoardID fuel status_reg) 0 = some (true, n) ↔
      n < fuel ∧ AllHeld (ids status n) ∧ ∀ j < n, ¬ AllHeld (ids status j) := by
  refine ⟨fun n => ?_, fun fuel n => run_testBoardID fuel n⟩
  have hrounds : ∃ s, (source fun i => some (status i)).run (rounds status_reg n 0 {}) 0 = some (s, 0 + n) ∧
      Counted (ids status (0 + n)) s := run_rounds n 0 counted_nil
  obtain ⟨s, hrun, h⟩ := hrounds
  rw [Nat.zero_add] at hrun h
  exact ⟨s, hrun, h.bits⟩

end FpgaV3.Proof.Board
