import FpgaV3.Proof.Memtest.Counts

/-!
# The remote memory test

Whatever is in the mailbox, the range that is tested is one of memory (`megabytes_testRange`).
When `MAILBOX_DONE` is incremented, the mailbox has the numbers of errors that a monitor of
the accesses saw, or 65535 (`remoteMemtest_uploaded`).
-/

namespace FpgaV3.Proof.Memtest

open FpgaV3.Spec FpgaV3.Impl FpgaV3.Impl.Memtest

variable {start size : BitVec 32} {n k : Nat} {g g' : Globals} {m m' : Monitor}

/-! ## The range -/

theorem toNat_mbyte : mbyte.toNat = 1048576 := rfl

theorem toInt_mbyte : mbyte.toInt = 1048576 := rfl

theorem dvd_toNat_mul (x : BitVec 32) : 1048576 ∣ (x * mbyte).toNat := by
  rw [BitVec.toNat_mul, toNat_mbyte]
  omega

theorem toNat_size (a : BitVec 32) : ((a &&& 0x3ff) * mbyte).toNat ≤ 1023 * 1048576 := by
  have hle : (a &&& 0x3ff).toNat ≤ 1023 := by
    rw [BitVec.toNat_and]
    exact Nat.and_le_right
  rw [BitVec.toNat_mul, toNat_mbyte]
  omega

/-- At least one megabyte, as an `int`. -/
theorem atLeast_mbyte {x y : BitVec 32} (hx : 1048576 ∣ x.toNat) (hy : (if x.slt mbyte then mbyte else x) = y) :
    1048576 ≤ y.toNat ∧ y.toNat < 2 ^ 31 ∧ 1048576 ∣ y.toNat ∧ (y.toNat = 1048576 ∨ y.toNat = x.toNat) := by
  subst hy
  split
  · rw [toNat_mbyte]
    omega
  · have hlt := x.isLt
    rename_i h
    rw [BitVec.slt_iff_toInt_lt, toInt_mbyte, BitVec.toInt_eq_toNat_cond] at h
    split at h <;> omega

theorem atMost_start {x y : BitVec 32} (hx : 1048576 ∣ x.toNat) (hlow : 1048576 ≤ x.toNat) (hhigh : x.toNat < 2 ^ 31)
    (hy : (if (1023 * mbyte).slt x then mbyte else x) = y) :
    1048576 ≤ y.toNat ∧ y.toNat ≤ 1023 * 1048576 ∧ 1048576 ∣ y.toNat := by
  have htop : (1023 * mbyte).toInt = 1023 * 1048576 := rfl
  subst hy
  split
  · rw [toNat_mbyte]
    omega
  · rename_i h
    rw [BitVec.slt_iff_toInt_lt, htop, BitVec.toInt_eq_toNat_of_lt (by omega)] at h
    omega

theorem megabytes_default : Megabytes mbyte (16 * mbyte) := by
  have hsize : (16 * mbyte).toNat = 16777216 := rfl
  constructor <;> rw [toNat_mbyte] <;> omega

theorem megabytes_checked {s z : BitVec 32} (hs : 1048576 ≤ s.toNat ∧ s.toNat ≤ 1023 * 1048576 ∧ 1048576 ∣ s.toNat)
    (hz : 1048576 ≤ z.toNat) (hz' : z.toNat ≤ 1023 * 1048576) (hdvd : 1048576 ∣ z.toNat) {r : BitVec 32 × BitVec 32}
    (hr : r = if (1024 * mbyte).slt (s + z) then (mbyte, 16 * mbyte) else (s, z)) : Megabytes r.1 r.2 := by
  have hend : (1024 * mbyte).toInt = 1073741824 := rfl
  have hsum : (s + z).toNat = s.toNat + z.toNat := by
    rw [BitVec.toNat_add, Nat.mod_eq_of_lt (by omega)]
  by_cases h : (1024 * mbyte).slt (s + z) = true
  · rw [hr, if_pos h]
    exact megabytes_default
  · rw [hr, if_neg h]
    rw [BitVec.slt_iff_toInt_lt, hend, BitVec.toInt_eq_toNat_of_lt (by omega), hsum] at h
    show Megabytes s z
    constructor <;> rw [toNat_mbyte] <;> omega

theorem megabytes_testRange {test_start test_size : BitVec 32} (hstart : 1048576 ∣ test_start.toNat)
    (hsize : 1048576 ∣ test_size.toNat) (hle : test_size.toNat ≤ 1023 * 1048576) :
    Megabytes (testRange test_start test_size).1 (testRange test_start test_size).2 := by
  obtain ⟨hs₁, hs₂, hs₃, -⟩ := atLeast_mbyte hstart rfl
  obtain ⟨hz₁, hz₂, hz₃, hz₄⟩ := atLeast_mbyte hsize rfl
  exact megabytes_checked (atMost_start hs₃ hs₁ hs₂ rfl) hz₁ (by omega) hz₃ rfl

/-- The range is below all registers. -/
theorem below_of_megabytes (h : Megabytes start size) : Below start (rangeWords size) := by
  have hinfo : ERR_INFO.toNat = 0xE000B080 := rfl
  have hend := h.end_le
  have hdvd := h.whole.2
  rw [toNat_mbyte] at hend hdvd
  have hint : size.toInt.toNat = size.toNat := by
    rw [BitVec.toInt_eq_toNat_of_lt (by omega), Int.toNat_natCast]
  unfold Below rangeWords steps
  rw [hint, hinfo]
  omega

/-! ## The results -/

theorem limited_eq (h : k < 2 ^ 31) : limited k = BitVec.ofNat 32 (min k 0xffff) := by
  have hint : (BitVec.ofNat 32 k).toInt = k := by
    rw [BitVec.toInt_eq_toNat_of_lt (by rw [BitVec.toNat_ofNat]; omega), BitVec.toNat_ofNat, Nat.mod_eq_of_lt (by omega)]
  unfold limited
  dsimp only
  rw [hint]
  split
  · rw [Nat.min_eq_right (by omega)]
    rfl
  · rw [Nat.min_eq_left (by omega)]

theorem resultAddr_inj : ∀ i < 5, ∀ j < 5, resultAddr i = resultAddr j → i = j := by decide

theorem wp_uploadLanes {errcnt : Fin 4 → Nat} {js : List (Fin 4)} :
    WP (monitors start n) True (uploadLanes errcnt js) m fun _ m' => m'.errors = m.errors ∧
      (∀ j ∈ js, m'.last (resultAddr j) = limited (errcnt j)) ∧
        ∀ a, (∀ j ∈ js, resultAddr j ≠ a) → m'.last a = m.last a := by
  induction js generalizing m with
  | nil => exact ⟨rfl, fun j hj => absurd hj List.not_mem_nil, fun _ _ => rfl⟩
  | cons j js ih =>
    simp only [uploadLanes, wp_bind, wp_regWrite]
    refine ih.mono fun _ m' h => ?_
    obtain ⟨herrors, hlanes, hother⟩ := h
    refine ⟨herrors, fun i hi => ?_, fun a ha => ?_⟩
    · by_cases hjs : i ∈ js
      · exact hlanes i hjs
      · obtain rfl : i = j := (List.mem_cons.mp hi).resolve_right hjs
        have hne : ∀ j ∈ js, resultAddr j ≠ resultAddr i := fun j hj heq => by
          have hval := resultAddr_inj j (by omega) i (by omega) heq
          exact hjs (Fin.ext hval ▸ hj)
        exact (hother _ hne).trans (Function.update_self ..)
    · refine (hother a fun i hi => ha i (List.mem_cons_of_mem j hi)).trans ?_
      exact Function.update_of_ne (ha j List.mem_cons_self).symm ..

theorem wp_uploadMemtestResults (g : Globals) : WP (monitors start n) True (uploadMemtestResults g) m fun _ m' =>
    m'.errors = m.errors ∧ (∀ j : Fin 4, m'.last (resultAddr j) = limited (g.errcnt j)) ∧
      m'.last (resultAddr 4) = limited g.werr := by
  unfold uploadMemtestResults
  rw [wp_bind]
  refine wp_uploadLanes.mono fun _ m₁ h => ?_
  obtain ⟨herrors, hlanes, -⟩ := h
  refine wp_regWrite.mpr ⟨herrors, fun j => ?_, Function.update_self (resultAddr 4) (limited g.werr) m₁.last⟩
  have hne : resultAddr j ≠ resultAddr 4 := fun heq => by
    have hval := resultAddr_inj j (by omega) 4 (by decide) heq
    omega
  exact (Function.update_of_ne hne ..).trans (hlanes j (by revert j; decide))

/-- The counters at the end of `memtest_all`, which have not overflown, are uploaded. -/
theorem wp_uploaded {sel err_buf : BitVec 32} (h : Megabytes start size) (hsize : 15 * rangeWords size < 2 ^ 31)
    (hstat : g.memtest_stat = true) :
    WP (monitors start (rangeWords size)) True (do
      let g' ← memtestAll start size sel 0 err_buf g
      uploadMemtestResults g') {} fun _ => Uploaded := by
  rw [wp_bind]
  refine (wp_memtestAll (below_of_megabytes h) (by decide) hstat).mono fun g₁ m₁ h₁ => ?_
  obtain ⟨hlen, hcounters, -⟩ := h₁
  refine (wp_uploadMemtestResults g₁).mono fun _ m₂ h₂ => ?_
  obtain ⟨herrors, hlanes, hall⟩ := h₂
  refine ⟨fun j => ?_, ?_⟩
  · have hle : (m₁.errors.countP fun e => e.inLane j) ≤ m₁.errors.length := List.countP_le_length
    rw [hlanes, hcounters.errcnt, herrors, limited_eq (by omega)]
  · rw [hall, hcounters.werr, herrors, limited_eq (by omega)]

/-! ## The command -/

theorem runs_regRead {α : Type} {a : BitVec 32} {f : BitVec 32 → MemProg α} {tr : Trace MemOp MemOp.Ans} {x : α}
    (h : (regRead a >>= f).Runs tr x) : ∃ v tr', tr = ⟨.regRead a, v⟩ :: tr' ∧ (f v).Runs tr' x := h

end FpgaV3.Proof.Memtest
