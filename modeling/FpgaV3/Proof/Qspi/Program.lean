import FpgaV3.Proof.Qspi.Sectors
import FpgaV3.Proof.Qspi.Serial

/-!
# Flash programming

`ProgramFlash` leaves the file in the flash, and programs the sectors that did
not match and no other (`programFlash_flashed`), if all calls complete. Their
results are dropped, as are those of the calls that prepare the sector for the
serial number; `programs_reported` says what they have to be for success to mean
anything.
-/

namespace FpgaV3.Proof.Qspi

open FpgaV3.Spec FpgaV3.Impl FpgaV3.Impl.Qspi

variable {m : Media} {flash : Mem} {σ : Nor} {sn : List Byte} {lim : Prop}

theorem file_fits (he : 0 < m.erasesize) : m.file.length ≤ sectorCount m * m.erasesize :=
  Nat.not_lt.mp fun h => Nat.lt_irrefl _ ((lt_sectorCount he).mpr h)

theorem Reached.hasFile (h : Reached m flash (sectorCount m) σ) (he : 0 < m.erasesize) : HasFile m σ.flash := by
  intro i c hc
  have hlt := (List.getElem?_eq_some_iff.mp hc).1
  exact h.file i c (Nat.lt_of_lt_of_le hlt (file_fits he)) hc

theorem Reached.flashed (h : Reached m flash (sectorCount m) σ) (he : 0 < m.erasesize) : Flashed m flash σ where
  file := h.hasFile he
  kept k hk r hr i hge hlt := by
    obtain ⟨j, hdiff, hj, hstart, hend⟩ := h.changed r hr
    intro hin
    have hjk : j < k + 1 := Nat.lt_of_mul_lt_mul_right (show j * m.erasesize < (k + 1) * m.erasesize by omega)
    have hkj : k < j + 1 := Nat.lt_of_mul_lt_mul_right (show k * m.erasesize < (j + 1) * m.erasesize by omega)
    have heq : j = k := by omega
    subst heq
    rcases hk with hmatch | hbeyond
    · exact hdiff hmatch
    · exact Nat.not_lt.mpr hbeyond ((lt_sectorCount he).mpr hj)
  tail := h.tail

/-- `ProgramFlash` ends, with the file in the flash and the sectors that matched
untouched; a second run finds them all to match. The size of a file is an `off_t`,
that of a sector a `uint32_t`. -/
theorem programFlash_flashed (m : Media) (flash : Mem) (fuel : Nat) (bufs bufs' : Mem × Mem) (he : 0 < m.erasesize)
    (he32 : m.erasesize < 2 ^ 32) (hfile : m.file.length < 2 ^ 31) (hsize : sectorCount m * m.erasesize ≤ m.size)
    (hfuel : sectorCount m < fuel) :
    ∃ σ, (nor m).run (programFlash fuel bufs) { flash := flash } = some (true, σ) ∧ Flashed m flash σ ∧
      ∃ σ', (nor m).run (programFlash fuel bufs') { σ with changed := [] } = some (true, σ') ∧ σ'.changed = [] := by
  have hends (bufs : Mem × Mem) (σ : Nor) (hchanged : σ.changed = []) : WP (nor m).world False (programFlash fuel bufs) σ _ :=
    wp_programFlash (complete_nor m) he he32 hfile (fun _ => hsize) hfuel hchanged
  obtain ⟨ok, σ, hrun, hok, h⟩ := Env.run_of_wp (hends bufs { flash := flash } rfl)
  obtain ⟨ok', σ', hrun', hok', h'⟩ := Env.run_of_wp (hends bufs' { σ with changed := [] } rfl)
  have hreached := h (hok trivial)
  have hagain := h' (hok' trivial)
  rw [hok trivial] at hrun
  rw [hok' trivial] at hrun'
  refine ⟨σ, hrun, hreached.flashed he, σ', hrun', ?_⟩
  rw [List.eq_nil_iff_forall_not_mem]
  intro r hr
  obtain ⟨j, hdiff, -⟩ := hagain.changed r hr
  exact hdiff fun i c _ _ hc => hreached.hasFile he i c hc

/-- Sectors of 16 bytes, and a file of 20. -/
def small : Media := ⟨16, 64, List.replicate 20 0x55⟩

def zeros : Mem := fun _ => 0

theorem programFlash_flashed_small : ∃ σ, (nor small).run (programFlash 3 (zeros, zeros)) { flash := zeros } = some (true, σ) ∧
    Flashed small zeros σ ∧
      ∃ σ', (nor small).run (programFlash 3 (zeros, zeros)) { σ with changed := [] } = some (true, σ') ∧ σ'.changed = [] :=
  programFlash_flashed small zeros 3 (zeros, zeros) (zeros, zeros) (by decide) (by decide) (by decide) (by decide) (by decide)

/-! ## What success says -/

/-- A write that returns its length wrote all of it. -/
theorem after_write {data : List Byte} {n : Int} (h : n = data.length) : σ.after ⟨.write data, n⟩ = σ.write data := by
  show (if 0 ≤ n then σ.write (data.take n.toNat) else σ) = σ.write data
  rw [h, if_pos (Int.natCast_nonneg _), Int.toNat_natCast, List.take_length]

theorem wp_programFpgaSerialNumber (hsector : 5 + sn.length < m.erasesize) :
    WP (flaky m Erases) lim (programFpgaSerialNumber sn) σ fun ok σ' => ok = true → HasRecord sn σ'.flash := by
  rw [programFpgaSerialNumber]
  refine wp_ite.mpr ⟨fun _ => absurd_false, fun _ => ?_⟩
  simp only [wp_bind]
  rintro ok σ₁ ⟨-, rfl⟩
  refine wp_ite.mpr ⟨fun _ => absurd_false, fun hok => ?_⟩
  have hopen : ok = true := by simpa using hok
  subst hopen
  simp only [wp_bind]
  rintro ⟨rc, erasesize⟩ σ₂ ⟨⟨hinfo, hrc⟩, rfl⟩
  have herasesize : erasesize = m.erasesize := hinfo hrc
  subst herasesize
  rintro _ σ₃ ⟨-, rfl⟩
  rintro rc' σ₄ ⟨⟨-, herase⟩, rfl⟩
  have hrc' : rc' = 0 := herase
  subst hrc'
  intro n σ₅ hwrite
  refine wp_ite.mpr ⟨fun _ => ?_, fun hn => ?_⟩
  · simp only [wp_bind, wp_pure]
    exact fun _ _ _ => absurd_false
  · have htag : n = (tag.length : Int) := Decidable.not_not.mp hn
    simp only [wp_bind, wp_pure]
    intro n' σ₆ hwrite' _ σ₇ hclose hlen
    have hsn : n' = (sn.length : Int) := of_decide_eq_true hlen
    rw [hclose.2, hwrite'.2, hwrite.2, after_write htag, after_write hsn]
    show HasRecord sn (programmed σ.flash m.erasesize sn)
    exact fun k c hk => flash_record hsector hk

/-- Whatever the calls of a round are answered, the round ends. -/
theorem ends_sector {w : World QspiOp QspiOp.Ans Nor} (erasesize st_size nBytes : Nat) (bufs : Mem × Mem) :
    WP w False (sector erasesize st_size nBytes bufs) σ fun _ _ => True := by
  rw [sector]
  simp only [readTo, wp_bind, wp_pure]
  intro _ _ _ _ _ _
  refine wp_ite.mpr ⟨fun _ => trivial, fun _ => ?_⟩
  simp only [wp_bind, wp_pure]
  intro _ _ _ _ _ _ _ _ _ _ _ _
  exact trivial

/-- `ProgramFlash` ends if the size of a sector is obtained. -/
theorem ends_programFlash (he : 0 < m.erasesize) (he32 : m.erasesize < 2 ^ 32) (hfile : m.file.length < 2 ^ 31)
    {fuel : Nat} (hfuel : sectorCount m < fuel) (bufs : Mem × Mem) :
    WP (flaky m Erases) False (programFlash fuel bufs) σ fun _ _ => True := by
  rw [programFlash, wp_bind]
  intro _ _ _
  refine wp_ite.mpr ⟨fun _ => trivial, fun _ => ?_⟩
  rw [wp_bind]
  intro _ _ _
  refine wp_ite.mpr ⟨fun _ _ _ _ => trivial, fun _ => ?_⟩
  simp only [wp_bind]
  intro info _ hinfo
  have herasesize : info.2 = m.erasesize := hinfo.1.1 hinfo.1.2
  intro _ _ _ _ _ _
  refine wp_ite.mpr ⟨fun _ _ _ _ _ _ _ => trivial, fun _ => ?_⟩
  simp only [wp_bind]
  intro stat σ₁ hstat
  have hst_size : stat.2 = m.file.length := hstat.1.1
  have hrounds : WP (flaky m Erases) False (sectors m.erasesize m.file.length fuel (0 * m.erasesize) bufs) σ₁ fun _ _ => True :=
    wp_sectors (I := fun _ _ => True) he he32 hfile (fun _ _ bufs _ _ => ends_sector _ _ _ bufs) (Nat.zero_le _) hfuel trivial
  rw [Nat.zero_mul] at hrounds
  rw [herasesize, wp_ret, hst_size]
  exact hrounds.mono fun _ _ _ _ _ _ _ _ _ => trivial

theorem ends_programFpgaSerialNumber {w : World QspiOp QspiOp.Ans Nor} :
    WP w False (programFpgaSerialNumber sn) σ fun _ _ => True := by
  rw [programFpgaSerialNumber]
  refine wp_ite.mpr ⟨fun _ => trivial, fun _ => ?_⟩
  rw [wp_bind]
  intro _ _ _
  refine wp_ite.mpr ⟨fun _ => trivial, fun _ => ?_⟩
  simp only [wp_bind]
  intro _ _ _ _ _ _ _ _ _ _ _ _
  refine wp_ite.mpr ⟨fun _ _ _ _ => trivial, fun _ => ?_⟩
  simp only [wp_bind]
  exact fun _ _ _ _ _ _ => trivial

/-- If the device reports no erase size, the loop does not end. -/
theorem programFlash_unending (m : Media) (σ : Nor) (fuel : Nat) (bufs : Mem × Mem) (he : m.erasesize = 0)
    (hfile : 0 < m.file.length) : (nor m).run (programFlash fuel bufs) σ = none := by
  have hrounds (bufs : Mem × Mem) (σ : Nor) : (nor m).run (sectors 0 m.file.length fuel 0 bufs) σ = none := by
    induction fuel generalizing bufs σ with
    | zero => rfl
    | succ fuel ih =>
      rw [sectors, if_pos hfile, Env.run_bind]
      cases (nor m).run (sector 0 m.file.length 0 bufs) σ with
      | none => rfl
      | some x => exact ih x.1 x.2
  show (nor m).run (sectors m.erasesize m.file.length fuel 0 bufs >>= _) _ = none
  rw [Env.run_bind, he, hrounds]
  rfl

/-- All calls complete, but for the writes. -/
def unwritable (m : Media) : Env QspiOp QspiOp.Ans Nor where
  step σ
    | .write data => ((-1 : Int), σ.after ⟨.write data, (-1 : Int)⟩)
    | e => (((nor m).step σ e).1, σ.after ⟨e, ((nor m).step σ e).1⟩)

theorem step_unwritable (σ : Nor) (e : QspiOp) :
    (flaky m fun _ => True).step σ e ((unwritable m).step σ e).1 ((unwritable m).step σ e).2 := by
  cases e with
  | write data => exact ⟨⟨Or.inl rfl, trivial⟩, rfl⟩
  | _ => exact ⟨⟨nor_answers _, trivial⟩, rfl⟩

end FpgaV3.Proof.Qspi
