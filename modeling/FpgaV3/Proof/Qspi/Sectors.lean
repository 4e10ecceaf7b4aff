import Mathlib.Algebra.Group.Int.Defs
import FpgaV3.Proof.Qspi.Calls

/-!
# The sectors of the file

Before sector `k` both offsets are at its start, unless the file ends before it;
the flash holds the file up to there and is as it was beyond, and what was
erased or written lies in earlier sectors that did not match (`Reached`). One
round keeps this (`wp_sector`), by one of two steps: the sector is left
(`Reached.left`), or it is programmed (`Reached.programmed`). The loop therefore
ends with the last sector (`wp_sectors`).
-/

namespace FpgaV3.Proof.Qspi

open FpgaV3.Spec FpgaV3.Impl FpgaV3.Impl.Qspi

variable {full lim : Prop} {m : Media} {w : World QspiOp QspiOp.Ans Nor} {flash : Mem} {σ : Nor} {i k n : Nat} {c : Byte}

/-- The partition before sector `k`, which held `flash` at first. -/
structure Reached (m : Media) (flash : Mem) (k : Nat) (σ : Nor) : Prop where
  offsets : k * m.erasesize < m.file.length → σ.pos = k * m.erasesize ∧ σ.filePos = k * m.erasesize
  file : ∀ i c, i < k * m.erasesize → m.file[i]? = some c → σ.flash i = c
  rest : ∀ i, k * m.erasesize ≤ i → σ.flash i = flash i
  tail : ∀ i, m.file.length ≤ i → i < k * m.erasesize → σ.flash i = flash i ∨ σ.flash i = 0xff
  changed : ∀ r ∈ σ.changed, ∃ j, ¬ Matches m flash j ∧ j * m.erasesize < m.file.length ∧
    j * m.erasesize ≤ r.1 ∧ r.1 + r.2 ≤ (j + 1) * m.erasesize

/-- `nb`, the number of bytes of the file in sector `k`. -/
def inSector (m : Media) (k : Nat) : Nat :=
  if m.file.length - k * m.erasesize < m.erasesize then m.file.length - k * m.erasesize else m.erasesize

/-- The bytes of the file in sector `k`. -/
def part (m : Media) (k : Nat) : List Byte := (m.file.drop (k * m.erasesize)).take (inSector m k)

theorem inSector_le (m : Media) (k : Nat) : inSector m k ≤ m.erasesize := by
  rw [inSector]
  split <;> omega

theorem inSector_file (hk : k * m.erasesize < m.file.length) : k * m.erasesize + inSector m k ≤ m.file.length := by
  rw [inSector]
  split <;> omega

/-- A byte of the file in sector `k` or before it. -/
theorem lt_inSector (hi : i < m.file.length) (hnext : i < (k + 1) * m.erasesize) : i < k * m.erasesize + inSector m k := by
  rw [Nat.succ_mul] at hnext
  rw [inSector]
  split <;> omega

/-- The offsets after a sector that is not the last. -/
theorem inSector_next (h : (k + 1) * m.erasesize < m.file.length) :
    k * m.erasesize + inSector m k = (k + 1) * m.erasesize := by
  rw [Nat.succ_mul] at h
  rw [inSector, if_neg (by omega), Nat.succ_mul]

theorem length_part (hk : k * m.erasesize < m.file.length) : (part m k).length = inSector m k := by
  have hle := inSector_file hk
  rw [part, List.length_take, List.length_drop]
  omega

theorem getElem?_part (h : i < inSector m k) : (part m k)[i]? = m.file[k * m.erasesize + i]? := by
  rw [part, List.getElem?_take_of_lt h, List.getElem?_drop]

/-- A sector that matches is read as the part of the file. -/
theorem chunk_part (hk : k * m.erasesize < m.file.length) (h : Matches m flash k) :
    chunk flash (k * m.erasesize) (inSector m k) = part m k := by
  have hle := inSector_le m k
  rw [← length_part hk]
  refine chunk_of fun j x hj => ?_
  have hlt := (List.getElem?_eq_some_iff.mp hj).1
  rw [length_part hk] at hlt
  rw [getElem?_part hlt] at hj
  exact h _ x (Nat.le_add_right _ j) (by rw [Nat.succ_mul]; omega) hj

/-- The byte of a sector that is read as the part of the file. -/
theorem part_byte (heq : chunk flash (k * m.erasesize) (inSector m k) = part m k) (hi : i < inSector m k)
    (hc : m.file[k * m.erasesize + i]? = some c) : flash (k * m.erasesize + i) = c := by
  have hget := congrArg (·[i]?) heq
  simp only [getElem?_chunk hi, getElem?_part hi, hc] at hget
  exact Option.some.inj hget

/-- The partition after sector `k` was erased and written. -/
def rewritten (m : Media) (k : Nat) (σ : Nor) : Nor :=
  Nor.write (Nor.erased { σ with pos := k * m.erasesize, filePos := k * m.erasesize + inSector m k }
    (k * m.erasesize) m.erasesize) (part m k)

theorem flash_rewritten : (rewritten m k σ).flash =
    program (erase σ.flash (k * m.erasesize) m.erasesize) (k * m.erasesize) (part m k) := rfl

theorem changed_rewritten : (rewritten m k σ).changed =
    σ.changed ++ [(k * m.erasesize, m.erasesize)] ++ [(k * m.erasesize, (part m k).length)] := rfl

namespace Reached

/-- The sector matches: only the offsets have changed. -/
theorem left (h : Reached m flash k σ) (hk : k * m.erasesize < m.file.length)
    (heq : chunk σ.flash (k * m.erasesize) (inSector m k) = part m k) :
    Reached m flash (k + 1)
      { σ with pos := k * m.erasesize + inSector m k, filePos := k * m.erasesize + inSector m k } where
  offsets hnext := ⟨inSector_next hnext, inSector_next hnext⟩
  file i c hi hc := by
    rcases Nat.lt_or_ge i (k * m.erasesize) with hlt | hge
    · exact h.file i c hlt hc
    · have hin := lt_inSector (List.getElem?_eq_some_iff.mp hc).1 hi
      obtain ⟨j, rfl⟩ := Nat.exists_eq_add_of_le hge
      exact part_byte heq (by omega) hc
  rest i hi := h.rest i (by rw [Nat.succ_mul] at hi; omega)
  tail i hn _ := Or.inl (h.rest i (by omega))
  changed := h.changed

/-- The sector does not match: it is programmed with the part of the file. -/
theorem programmed (h : Reached m flash k σ) (hk : k * m.erasesize < m.file.length) (hdiff : ¬ Matches m flash k) :
    Reached m flash (k + 1) (rewritten m k σ) where
  offsets hnext := by
    refine ⟨?_, inSector_next hnext⟩
    show k * m.erasesize + (part m k).length = (k + 1) * m.erasesize
    rw [length_part hk, inSector_next hnext]
  file i c hi hc := by
    rw [flash_rewritten]
    rcases Nat.lt_or_ge i (k * m.erasesize) with hlt | hge
    · rw [program_out (Or.inl hlt), erase_out (Or.inl hlt)]
      exact h.file i c hlt hc
    · have hin := lt_inSector (List.getElem?_eq_some_iff.mp hc).1 hi
      obtain ⟨j, rfl⟩ := Nat.exists_eq_add_of_le hge
      rw [Nat.succ_mul] at hi
      exact program_in (by rw [getElem?_part (by omega), hc]) (erase_in (by omega))
  rest i hi := by
    have hle := inSector_le m k
    rw [Nat.succ_mul] at hi
    rw [flash_rewritten, program_out (Or.inr (by rw [length_part hk]; omega)), erase_out (Or.inr hi)]
    exact h.rest i (by omega)
  tail i hn hi := by
    have hle := inSector_file hk
    rw [Nat.succ_mul] at hi
    rw [flash_rewritten, program_out (Or.inr (by rw [length_part hk]; omega))]
    exact Or.inr (erase_in (by omega))
  changed r hr := by
    have hle := inSector_le m k
    rw [changed_rewritten, List.mem_append, List.mem_append, List.mem_singleton, List.mem_singleton] at hr
    rcases hr with (hr | rfl) | rfl
    · exact h.changed r hr
    · exact ⟨k, hdiff, hk, Nat.le_refl _, Nat.le_of_eq (Nat.succ_mul k _).symm⟩
    · refine ⟨k, hdiff, hk, Nat.le_refl _, ?_⟩
      show k * m.erasesize + (part m k).length ≤ (k + 1) * m.erasesize
      rw [length_part hk, Nat.succ_mul]
      omega

end Reached

/-! ## The loop -/

/-- A sector that is read as the part of the file matches. -/
theorem matches_of (h : Reached m flash k σ) (hn : k * m.erasesize < m.file.length) :
    Matches m flash k ↔ chunk σ.flash (k * m.erasesize) (inSector m k) = part m k := by
  have hsame : chunk σ.flash (k * m.erasesize) (inSector m k) = chunk flash (k * m.erasesize) (inSector m k) :=
    chunk_congr fun i hi _ => h.rest i hi
  rw [hsame]
  refine ⟨chunk_part hn, fun heq i c hge hlt hc => ?_⟩
  have hin := lt_inSector (List.getElem?_eq_some_iff.mp hc).1 hlt
  obtain ⟨j, rfl⟩ := Nat.exists_eq_add_of_le hge
  exact part_byte heq (by omega) hc

theorem negOffset_eq (h : n < 2 ^ 31) : negOffset n = -n := by
  have hmod (x : Int) (h₁ : -2 ^ 31 ≤ x) (h₂ : x < 2 ^ 31) : x.bmod (2 ^ 32) = x :=
    Int.bmod_eq_of_le (by omega) (by omega)
  rw [negOffset, BitVec.toInt_neg, BitVec.toInt_ofNat', hmod n (by omega) (by omega), hmod (-n) (by omega) (by omega)]

/-- One round. -/
theorem wp_sector (hw : Complete full m w) (hk : k * m.erasesize < m.file.length) (hfile : m.file.length < 2 ^ 31)
    (hsize : full → (k + 1) * m.erasesize ≤ m.size) {bufs : Mem × Mem} (h : Reached m flash k σ) :
    WP w lim (sector m.erasesize m.file.length (k * m.erasesize) bufs) σ fun _ => Reached m flash (k + 1) := by
  have hle := inSector_le m k
  have hlefile := inSector_file hk
  obtain ⟨hpos, hfilePos⟩ := h.offsets hk
  rw [Nat.succ_mul] at hsize
  have hfileBuf : chunk (overlay bufs.1 0 (part m k)) 0 (inSector m k) = part m k := by
    rw [← length_part hk]
    exact chunk_overlay bufs.1 0 (part m k)
  have hdevBuf (bs : List Byte) (hbs : bs.length = inSector m k) : chunk (overlay bufs.2 0 bs) 0 (inSector m k) = bs := by
    rw [← hbs]
    exact chunk_overlay bufs.2 0 bs
  rw [sector]
  simp only [readTo, wp_bind, wp_pure]
  refine wp_readFile hw (fun _ => ?_) ?_
  · show σ.filePos + inSector m k ≤ m.file.length
    rw [hfilePos]
    exact hlefile
  refine wp_readFlash hw (fun hfull => ?_) ?_
  · show σ.pos + inSector m k ≤ m.size
    have hend := hsize hfull
    omega
  rw [hpos, hfilePos]
  refine wp_ite.mpr ⟨fun hsame => ?_, fun hdiff => ?_⟩
  · have heq : chunk (overlay bufs.1 0 (part m k)) 0 (inSector m k) =
        chunk (overlay bufs.2 0 (chunk σ.flash (k * m.erasesize) (inSector m k))) 0 (inSector m k) := hsame
    rw [hfileBuf, hdevBuf _ (length_chunk _ _ _)] at heq
    exact h.left hk heq.symm
  · have hne : ¬ chunk (overlay bufs.1 0 (part m k)) 0 (inSector m k) =
        chunk (overlay bufs.2 0 (chunk σ.flash (k * m.erasesize) (inSector m k))) 0 (inSector m k) := hdiff
    rw [hfileBuf, hdevBuf _ (length_chunk _ _ _)] at hne
    have hend := h.programmed hk fun hmatch => hne ((matches_of h hk).mp hmatch).symm
    simp only [wp_bind, wp_pure]
    refine wp_lseek hw (p := k * m.erasesize) ?_ ?_
    · show ((k * m.erasesize + inSector m k : Nat) : Int) + negOffset (inSector m k) = (k * m.erasesize : Nat)
      rw [negOffset_eq (by omega)]
      omega
    apply wp_memUnlock hw
    intro _
    apply wp_memErase hw
    refine wp_write hw (fun hfull => ?_) ?_
    · rw [length_chunk]
      show k * m.erasesize + inSector m k ≤ m.size
      have hend := hsize hfull
      omega
    rw [rewritten, ← hfileBuf] at hend
    exact hend

theorem lt_sectorCount (he : 0 < m.erasesize) : k < sectorCount m ↔ k * m.erasesize < m.file.length := by
  rw [sectorCount, Nat.lt_iff_add_one_le, Nat.le_div_iff_mul_le he, Nat.succ_mul]
  omega

/-- `nBytes` does not overflow. -/
theorem nBytes_next (he : m.erasesize < 2 ^ 32) (hfile : m.file.length < 2 ^ 31) (hk : k * m.erasesize < m.file.length) :
    (k * m.erasesize + m.erasesize) % 2 ^ 32 = (k + 1) * m.erasesize := by
  rw [Nat.succ_mul]
  apply Nat.mod_eq_of_lt
  rcases Nat.eq_zero_or_pos k with rfl | hpos
  · omega
  · have hle : m.erasesize ≤ k * m.erasesize := Nat.le_mul_of_pos_left _ hpos
    omega

/-- What every round takes to the next sector, the loop takes from sector `k` to the
end of the file; it ends there. -/
theorem wp_sectors {I : Nat → Nor → Prop} (he : 0 < m.erasesize) (he32 : m.erasesize < 2 ^ 32)
    (hfile : m.file.length < 2 ^ 31)
    (hstep : ∀ k σ bufs, k * m.erasesize < m.file.length → I k σ →
      WP w lim (sector m.erasesize m.file.length (k * m.erasesize) bufs) σ fun _ => I (k + 1))
    {fuel : Nat} {bufs : Mem × Mem} (hk : k ≤ sectorCount m) (hfuel : sectorCount m < fuel + k) (h : I k σ) :
    WP w lim (sectors m.erasesize m.file.length fuel (k * m.erasesize) bufs) σ fun _ => I (sectorCount m) := by
  induction fuel generalizing k σ bufs with
  | zero => exact absurd hfuel (by omega)
  | succ fuel ih =>
    rw [sectors]
    split
    · rename_i hn
      rw [wp_bind, nBytes_next he32 hfile hn]
      exact (hstep k σ bufs hn h).mono fun bufs σ' h' => ih ((lt_sectorCount he).mpr hn) (by omega) h'
    · rename_i hn
      have hlast : k = sectorCount m := Nat.le_antisymm hk (Nat.not_lt.mp fun hlt => hn ((lt_sectorCount he).mp hlt))
      rw [← hlast]
      exact h

theorem reached_zero (flash : Mem) (h : σ.changed = []) (hflash : σ.flash = flash) (hpos : σ.pos = 0) (hfilePos : σ.filePos = 0) :
    Reached m flash 0 σ where
  offsets _ := by
    rw [Nat.zero_mul]
    exact ⟨hpos, hfilePos⟩
  file i c hi _ := absurd hi (by omega)
  rest i _ := by rw [hflash]
  tail i _ hi := absurd hi (by omega)
  changed r hr := absurd (h ▸ hr) List.not_mem_nil

theorem wp_programFlash (hw : Complete full m w) (he : 0 < m.erasesize) (he32 : m.erasesize < 2 ^ 32)
    (hfile : m.file.length < 2 ^ 31) (hsize : full → sectorCount m * m.erasesize ≤ m.size) {fuel : Nat}
    (hfuel : sectorCount m < fuel) {bufs : Mem × Mem} (hchanged : σ.changed = []) :
    WP w lim (programFlash fuel bufs) σ fun ok σ' =>
      (full → ok = true) ∧ (ok = true → Reached m σ.flash (sectorCount m) σ') := by
  have hfails (σ' : Nor) (hnot : ¬ full) :
      (full → false = true) ∧ (false = true → Reached m σ.flash (sectorCount m) σ') :=
    ⟨fun hfull => absurd hfull hnot, absurd_false⟩
  have hzero := reached_zero (m := m) (σ := { σ with pos := 0, filePos := 0 }) σ.flash hchanged rfl rfl rfl
  rw [programFlash, wp_bind]
  refine wp_openFile hw ?_ (hfails _)
  rw [Bool.not_true, if_neg Bool.false_ne_true, wp_bind]
  refine wp_openFlash hw ?_ fun hnot => ?_
  · rw [Bool.not_true, if_neg Bool.false_ne_true]
    simp only [wp_bind]
    apply wp_memGetInfo hw
    -- both buffers are allocated before either is looked at
    refine wp_malloc hw fun fileBuf hfileBuf => wp_malloc hw fun devBuf hdevBuf => ?_
    refine wp_ite.mpr ⟨fun hnone => ?_, fun _ => ?_⟩
    · have hnot : ¬ full := by
        intro hfull
        rw [hfileBuf hfull, hdevBuf hfull] at hnone
        exact Bool.false_ne_true hnone
      simp only [wp_bind]
      apply wp_closeFd hw
      exact wp_closeFd hw .flash (hfails _ hnot)
    · simp only [wp_bind]
      apply wp_fstat hw
      intro _
      have hround (k : Nat) (σ' : Nor) (bufs : Mem × Mem) (hk : k * m.erasesize < m.file.length)
          (h : Reached m σ.flash k σ') : WP w lim (sector m.erasesize m.file.length (k * m.erasesize) bufs) σ' fun _ =>
            Reached m σ.flash (k + 1) :=
        wp_sector hw hk hfile (fun hfull => Nat.le_trans (Nat.mul_le_mul_right _ ((lt_sectorCount he).mpr hk)) (hsize hfull)) h
      have hrounds : WP w lim (sectors m.erasesize m.file.length fuel (0 * m.erasesize) bufs) _ _ :=
        wp_sectors he he32 hfile hround (Nat.zero_le _) hfuel hzero
      rw [Nat.zero_mul] at hrounds
      refine hrounds.mono fun _ σ' h => ?_
      apply wp_closeFd hw
      exact wp_closeFd hw .flash ⟨fun _ => rfl, fun _ => h⟩
  · rw [Bool.not_false, if_pos rfl, wp_bind]
    exact wp_closeFd hw .file (hfails _ hnot)

end FpgaV3.Proof.Qspi
