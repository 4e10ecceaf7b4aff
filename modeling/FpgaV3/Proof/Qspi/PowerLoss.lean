import FpgaV3.Proof.Qspi.Program
import FpgaV3.Spec.PowerLoss

/-!
# Loss of power while the flash is programmed

Wherever power is lost, at most one sector is left in between, and a second
`ProgramFlash` completes the first, leaving alone the sectors that it had done and
those that matched (`programFlash_interrupted`). `ProgramFpgaSerialNumber` may be
killed between its calls: then there is no serial number, or the old one or the new one
(`serial_interrupted`).
-/

namespace FpgaV3.Proof.Qspi

open FpgaV3.Spec FpgaV3.Impl FpgaV3.Impl.Qspi

variable {full lim : Prop} {m : Media} {w : World QspiOp QspiOp.Ans Nor} {flash flash' : Mem} {σ σ' : Nor} {i k n : Nat}

/-- Somewhere between the sectors. -/
abbrev Between (m : Media) (flash : Mem) (σ : Nor) : Prop := ∃ k, Interrupted m flash σ.flash k

/-- The sectors before `k` are done, and no other is begun. -/
theorem Reached.between (h : Reached m flash k σ) (hflash : σ'.flash = σ.flash) : Between m flash σ' := by
  refine ⟨k, ⟨fun i c hi hc => ?_, fun i hi => ?_, Or.inl fun i hi => ?_⟩⟩
  · rw [hflash]
    exact h.file i c hi hc
  · rw [Nat.succ_mul] at hi
    rw [hflash]
    exact h.rest i (by omega)
  · rw [hflash]
    exact h.rest i hi

/-- Sector `k` is begun. -/
theorem Reached.begun (h : Reached m flash k σ) (hdiff : ¬ Matches m flash k) (hk : k * m.erasesize < m.file.length)
    (hout : ∀ i, i < k * m.erasesize ∨ (k + 1) * m.erasesize ≤ i → σ'.flash i = σ.flash i) : Between m flash σ' := by
  refine ⟨k, ⟨fun i c hi hc => ?_, fun i hi => ?_, Or.inr ⟨hdiff, hk⟩⟩⟩
  · rw [hout i (Or.inl hi)]
    exact h.file i c hi hc
  · rw [hout i (Or.inr hi)]
    rw [Nat.succ_mul] at hi
    exact h.rest i (by omega)

/-- A round is interrupted between the sectors, or within the one that it is about. -/
theorem always_sector (hw : Complete full m w) (hk : k * m.erasesize < m.file.length) (hfile : m.file.length < 2 ^ 31)
    (hsize : full → (k + 1) * m.erasesize ≤ m.size) {bufs : Mem × Mem} (h : Reached m flash k σ) :
    Always w Nor.torn (Between m flash) (sector m.erasesize m.file.length (k * m.erasesize) bufs) σ := by
  have hle := inSector_le m k
  have hlefile := inSector_file hk
  obtain ⟨hpos, hfilePos⟩ := h.offsets hk
  rw [Nat.succ_mul] at hsize
  have hfileBuf : chunk (overlay bufs.1 0 (part m k)) 0 (inSector m k) = part m k := by
    rw [← length_part hk]
    exact chunk_overlay bufs.1 0 (part m k)
  have hdevBuf (bs : List Byte) (hbs : bs.length = inSector m k) : chunk (overlay bufs.2 0 bs) 0 (inSector m k) = bs := by
    rw [← hbs]
    exact chunk_overlay bufs.2 0 bs
  rw [sector]
  simp only [readTo, Prog.bind_assoc]
  refine always_step (h.between rfl) (fun _ ht => ht.elim) (wp_readFile hw (fun _ => ?_) ?_)
  · show σ.filePos + inSector m k ≤ m.file.length
    rw [hfilePos]
    exact hlefile
  refine always_step (h.between rfl) (fun _ ht => ht.elim) (wp_readFlash hw (fun hfull => ?_) ?_)
  · show σ.pos + inSector m k ≤ m.size
    have hend := hsize hfull
    omega
  rw [hpos, hfilePos]
  refine always_ite (fun _ => always_pure.mpr (h.between rfl)) fun hdiff => ?_
  have hne : ¬ chunk (overlay bufs.1 0 (part m k)) 0 (inSector m k) =
      chunk (overlay bufs.2 0 (chunk σ.flash (k * m.erasesize) (inSector m k))) 0 (inSector m k) := hdiff
  rw [hfileBuf, hdevBuf _ (length_chunk _ _ _)] at hne
  have hdiffers : ¬ Matches m flash k := fun hmatch => hne ((matches_of h hk).mp hmatch).symm
  refine always_step (h.between rfl) (fun _ ht => ht.elim) (wp_lseek hw (p := k * m.erasesize) ?_ ?_)
  · show ((k * m.erasesize + inSector m k : Nat) : Int) + negOffset (inSector m k) = (k * m.erasesize : Nat)
    rw [negOffset_eq (by omega)]
    omega
  refine always_step (h.between rfl) (fun _ ht => ht.elim) (wp_memUnlock hw fun _ => ?_)
  refine always_step (h.between rfl) (fun σ' ht => h.begun hdiffers hk fun i hi => ?_) (wp_memErase hw ?_)
  · rw [Nat.succ_mul] at hi
    exact ht i hi
  have herased (i : Nat) (hi : i < k * m.erasesize ∨ (k + 1) * m.erasesize ≤ i) :
      erase σ.flash (k * m.erasesize) m.erasesize i = σ.flash i := by
    rw [Nat.succ_mul] at hi
    exact erase_out hi
  refine always_step (h.begun hdiffers hk herased) (fun σ' ht => ?_) (wp_write hw (fun hfull => ?_) ?_)
  · refine h.begun hdiffers hk fun i hi => ?_
    rw [← herased i hi]
    refine ht i ?_
    show i < k * m.erasesize ∨ k * m.erasesize + (chunk _ 0 (inSector m k)).length ≤ i
    rw [length_chunk]
    rw [Nat.succ_mul] at hi
    omega
  · rw [length_chunk]
    show k * m.erasesize + inSector m k ≤ m.size
    have hend := hsize hfull
    omega
  · refine always_pure.mpr (h.begun hdiffers hk fun i hi => ?_)
    rw [← herased i hi]
    refine program_out ?_
    show i < k * m.erasesize ∨ k * m.erasesize + (chunk _ 0 (inSector m k)).length ≤ i
    rw [length_chunk]
    rw [Nat.succ_mul] at hi
    omega

theorem always_sectors (hw : Complete full m w) (he : 0 < m.erasesize) (he32 : m.erasesize < 2 ^ 32)
    (hfile : m.file.length < 2 ^ 31) (hsize : full → sectorCount m * m.erasesize ≤ m.size) {fuel : Nat}
    {bufs : Mem × Mem} (h : Reached m flash k σ) :
    Always w Nor.torn (Between m flash) (sectors m.erasesize m.file.length fuel (k * m.erasesize) bufs) σ := by
  induction fuel generalizing k σ bufs with
  | zero => exact fun _ hc => h.between (congrArg Nor.flash hc)
  | succ fuel ih =>
    rw [sectors]
    refine always_ite (fun hn => ?_) fun _ => always_pure.mpr (h.between rfl)
    have hnext (hfull : full) : (k + 1) * m.erasesize ≤ m.size :=
      Nat.le_trans (Nat.mul_le_mul_right _ ((lt_sectorCount he).mpr hn)) (hsize hfull)
    rw [nBytes_next he32 hfile hn]
    refine always_bind (always_sector hw hn hfile hnext h) ?_
    exact (wp_sector hw hn hfile hnext h).mono fun bufs σ' h' => ih h'

theorem always_programFlash (hw : Complete full m w) (he : 0 < m.erasesize) (he32 : m.erasesize < 2 ^ 32)
    (hfile : m.file.length < 2 ^ 31) (hsize : full → sectorCount m * m.erasesize ≤ m.size) {fuel : Nat}
    (hfuel : sectorCount m < fuel) {bufs : Mem × Mem} (hchanged : σ.changed = []) :
    Always w Nor.torn (Between m σ.flash) (programFlash fuel bufs) σ := by
  have hzero := reached_zero (m := m) (σ := { σ with pos := 0, filePos := 0 }) σ.flash hchanged rfl rfl rfl
  have hclose (σ' : Nor) (h : Between m σ.flash σ') (b : Bool) : Always w Nor.torn (Between m σ.flash)
      (.perform (QspiOp.closeFd .file) >>= fun _ => .perform (QspiOp.closeFd .flash) >>= fun _ => pure b) σ' :=
    always_step h (fun _ ht => ht.elim) (wp_closeFd hw .file
      (always_step h (fun _ ht => ht.elim) (wp_closeFd hw .flash (always_pure.mpr h))))
  rw [programFlash]
  refine always_step (hzero.between rfl) (fun _ ht => ht.elim) (wp_openFile hw ?_ fun _ => ?_)
  · rw [Bool.not_true, if_neg Bool.false_ne_true]
    refine always_step (hzero.between rfl) (fun _ ht => ht.elim) (wp_openFlash hw ?_ fun _ => ?_)
    · rw [Bool.not_true, if_neg Bool.false_ne_true]
      refine always_step (hzero.between rfl) (fun _ ht => ht.elim) (wp_memGetInfo hw ?_)
      refine always_step (hzero.between rfl) (fun _ ht => ht.elim) (wp_malloc hw fun fileBuf _ => ?_)
      refine always_step (hzero.between rfl) (fun _ ht => ht.elim) (wp_malloc hw fun devBuf _ => ?_)
      refine always_ite (fun _ => hclose _ (hzero.between rfl) false) fun _ => ?_
      refine always_step (hzero.between rfl) (fun _ ht => ht.elim) (wp_fstat hw fun _ => ?_)
      have hnext (k : Nat) (hk : k * m.erasesize < m.file.length) (hfull : full) : (k + 1) * m.erasesize ≤ m.size :=
        Nat.le_trans (Nat.mul_le_mul_right _ ((lt_sectorCount he).mpr hk)) (hsize hfull)
      have hrounds : Always w Nor.torn (Between m σ.flash)
          (sectors m.erasesize m.file.length fuel (0 * m.erasesize) bufs) { σ with pos := 0, filePos := 0 } :=
        always_sectors hw he he32 hfile hsize hzero
      have hends : WP w True (sectors m.erasesize m.file.length fuel (0 * m.erasesize) bufs)
          { σ with pos := 0, filePos := 0 } fun _ => Reached m σ.flash (sectorCount m) :=
        wp_sectors he he32 hfile (fun k _ _ hk => wp_sector hw hk hfile (hnext k hk)) (Nat.zero_le _) hfuel hzero
      rw [Nat.zero_mul] at hrounds hends
      exact always_bind hrounds (hends.mono fun _ σ' h => hclose σ' (h.between rfl) true)
    · rw [Bool.not_false, if_pos rfl]
      exact always_step (hzero.between rfl) (fun _ ht => ht.elim)
        (wp_closeFd hw .file (always_pure.mpr (hzero.between rfl)))
  · rw [Bool.not_false, if_pos rfl]
    exact always_pure.mpr (hzero.between rfl)

/-- Wherever power is lost, the sectors before some `k` have the file and those after it are as they were; `ProgramFlash`
then completes, and leaves alone the sectors before `k` and those after it that matched at first. -/
theorem programFlash_interrupted (m : Media) (flash : Mem) (fuel : Nat) (bufs bufs' : Mem × Mem) (he : 0 < m.erasesize)
    (he32 : m.erasesize < 2 ^ 32) (hfile : m.file.length < 2 ^ 31) (hsize : sectorCount m * m.erasesize ≤ m.size)
    (hfuel : sectorCount m < fuel) (hcut : Cut (nor m).world Nor.torn (programFlash fuel bufs) { flash := flash } σ) :
    ∃ k, Interrupted m flash σ.flash k ∧
      ∃ σ', (nor m).run (programFlash fuel bufs') { flash := σ.flash } = some (true, σ') ∧ HasFile m σ'.flash ∧
        ∀ j, j < k ∨ k < j ∧ Matches m flash j → Untouched m σ'.changed j := by
  have hends : WP (nor m).world False (programFlash fuel bufs') { flash := σ.flash } _ :=
    wp_programFlash (complete_nor m) he he32 hfile (fun _ => hsize) hfuel rfl
  obtain ⟨ok, σ', hrun, hok, h⟩ := Env.run_of_wp hends
  have hflashed := (h (hok trivial)).flashed he
  rw [hok trivial] at hrun
  obtain ⟨k, hk⟩ := always_programFlash (complete_nor m) he he32 hfile (fun _ => hsize) hfuel rfl σ hcut
  refine ⟨k, hk, σ', hrun, hflashed.file, fun j hj => hflashed.kept j (Or.inl fun i c hge hlt hc => ?_)⟩
  rcases hj with hj | ⟨hj, hmatch⟩
  · exact hk.done i c (Nat.lt_of_lt_of_le hlt (Nat.mul_le_mul_right _ hj)) hc
  · rw [hk.rest i (Nat.le_trans (Nat.mul_le_mul_right _ hj) hge)]
    exact hmatch i c hge hlt hc

/-- Power is lost when the first of two sectors is erased. -/
theorem programFlash_interrupted_small : ∃ σ : Nor, σ.flash 0 = 0xff ∧ σ.flash 16 = 0 ∧ ∃ k, Interrupted small zeros σ.flash k ∧
    ∃ σ', (nor small).run (programFlash 3 (zeros, zeros)) { flash := σ.flash } = some (true, σ') ∧
      HasFile small σ'.flash ∧ ∀ j, j < k ∨ k < j ∧ Matches small zeros j → Untouched small σ'.changed j :=
  ⟨(nor small).after 11 (programFlash 3 (zeros, zeros)) { flash := zeros }, by decide, by decide,
    programFlash_interrupted small zeros 3 (zeros, zeros) (zeros, zeros) (by decide) (by decide) (by decide) (by decide)
      (by decide) (Env.cut_after _ _ _ _ _)⟩

/-! ## The serial number -/

/-- The flash at the calls of `ProgramFpgaSerialNumber`. -/
def Stage (flash : Mem) (erasesize : Nat) (sn : List Byte) (σ : Nor) : Prop :=
  σ.flash = flash ∨ σ.flash = erase flash 0 erasesize ∨ σ.flash = program (erase flash 0 erasesize) 0 tag ∨
    σ.flash = programmed flash erasesize sn

/-- A process that is killed is killed between two calls. -/
def killed (_ : Nor) (_ : QspiOp) (_ : Nor) : Prop := False

theorem always_programFpgaSerialNumber {sn : List Byte} (hlen : sn.length < FPGA_SN_SIZE) (hsize : 16 ≤ m.size) :
    Always (nor m).world killed (Stage σ.flash m.erasesize sn) (programFpgaSerialNumber sn) σ := by
  have hsn : sn.length < 9 := hlen
  have htag : tag.length = 5 := rfl
  have hold (pos : Nat) : Stage σ.flash m.erasesize sn { σ with pos := pos } := Or.inl rfl
  rw [programFpgaSerialNumber, if_neg (Nat.not_le.mpr hlen)]
  refine always_step (hold σ.pos) (fun _ ht => ht.elim) (wp_openFlash (complete_nor m) ?_ (absurd trivial))
  rw [Bool.not_true, if_neg Bool.false_ne_true]
  refine always_step (hold 0) (fun _ ht => ht.elim) (wp_memGetInfo (complete_nor m) ?_)
  refine always_step (hold 0) (fun _ ht => ht.elim) (wp_memUnlock (complete_nor m) fun _ => ?_)
  refine always_step (hold 0) (fun _ ht => ht.elim) (wp_memErase (complete_nor m) ?_)
  refine always_step (Or.inr (Or.inl rfl)) (fun _ ht => ht.elim) (wp_write (complete_nor m) (fun _ => ?_) ?_)
  · show 0 + tag.length ≤ m.size
    omega
  rw [if_neg (by rw [htag]; decide)]
  refine always_step (Or.inr (Or.inr (Or.inl rfl))) (fun _ ht => ht.elim) (wp_write (complete_nor m) (fun _ => ?_) ?_)
  · show 0 + tag.length + sn.length ≤ m.size
    omega
  have hnew (pos : Nat) (changed : List (Nat × Nat)) :
      Stage σ.flash m.erasesize sn ⟨programmed σ.flash m.erasesize sn, pos, σ.filePos, changed⟩ :=
    Or.inr (Or.inr (Or.inr rfl))
  exact always_step (hnew _ _) (fun _ ht => ht.elim) (wp_closeFd (complete_nor m) .flash (always_pure.mpr (hnew _ _)))

variable {sn : List Byte} {mem : Mem} {fuel : Nat}

/-- `GetFpgaSerialNumber` returns a serial number that the flash has. -/
theorem get_record (h : Accepted sn) (hflash : HasRecord sn σ.flash) (hsize : 16 ≤ m.size) (hfuel : 9 ≤ fuel)
    (hlast : sn.length < 8 ∨ mem 8 = 0 ∨ mem 8 = 0xff) :
    ∃ r σ', (nor m).run (getFpgaSerialNumber fuel mem) σ = some (r, σ') ∧ Got sn mem r := by
  obtain ⟨r, hr, hgot⟩ := (got_iff h hflash hfuel).mpr hlast
  have hsome : terminate fuel (received σ.flash mem) 8 = none → False := by
    intro hnone
    rw [hr] at hnone
    exact absurd hnone (Option.some_ne_none r)
  obtain ⟨r', σ', hget, hr'⟩ := Env.run_of_wp (wp_get hsize (chunk_tag hflash) hsome)
  obtain rfl : r = r' := Option.some.inj (hr.symm.trans hr')
  exact ⟨r, σ', hget, hgot⟩

/-- It returns none if the flash does not begin with the tag. -/
theorem get_none (fuel : Nat) (mem : Mem) (htag : chunk σ.flash 0 5 ≠ tag) (hsize : 16 ≤ m.size) :
    ∃ r σ', (nor m).run (getFpgaSerialNumber fuel mem) σ = some (r, σ') ∧ Got [] mem r := by
  refine Env.run_of_wp (Q := fun r _ => Got [] mem r) ?_
  rw [getFpgaSerialNumber]
  simp only [wp_bind]
  refine wp_openFlash (complete_nor m) ?_ (absurd trivial)
  rw [Bool.not_true, if_neg Bool.false_ne_true]
  simp only [wp_bind]
  refine wp_readFlash (complete_nor m) (fun _ => by show 0 + 5 ≤ m.size; omega) ?_
  rw [if_neg fun heq => htag (Option.some.inj heq)]
  simp only [wp_bind, wp_pure]
  refine wp_closeFd (complete_nor m) .flash ⟨⟨List.not_mem_nil, fun k c hk => ?_⟩, Nat.zero_le _, fun i hi => ?_⟩
  · show overlay mem 0 [0] (0 + k) = c
    exact overlay_get hk
  · have hlen : (9 : Nat) ≤ i := hi
    show overlay mem 0 [0] i = mem i
    exact overlay_after (by show 0 + 1 ≤ i; omega)

/-- Wherever `ProgramFpgaSerialNumber` is killed, `GetFpgaSerialNumber` then finds what was there, no serial number, or the
new one; it never finds a part of one, or a mixture. -/
theorem serial_interrupted (m : Media) (flash : Mem) (sn : List Byte) (fuel : Nat) (h : Accepted sn)
    (hsector : 5 + sn.length < m.erasesize) (hsize : 16 ≤ m.size) (hfuel : 9 ≤ fuel)
    (hcut : Cut (nor m).world killed (programFpgaSerialNumber sn) { flash := flash } σ) :
    σ.flash = flash ∨ ∀ mem, sn.length < 8 ∨ mem 8 = 0 ∨ mem 8 = 0xff →
      ∃ r σ', (nor m).run (getFpgaSerialNumber fuel mem) σ = some (r, σ') ∧
        (Got [] mem r ∨ Got sn mem r) := by
  have hempty : Accepted [] := ⟨by decide, fun _ hc => absurd hc List.not_mem_nil⟩
  obtain hstage | hstage | hstage | hstage := always_programFpgaSerialNumber h.length hsize σ hcut
  · exact Or.inl hstage
  · refine Or.inr fun mem _ => ?_
    have htag : chunk σ.flash 0 5 ≠ tag := by
      intro htag
      have hbyte := congrArg (·[0]?) htag
      simp only [getElem?_chunk (show 0 < 5 by decide), hstage] at hbyte
      rw [erase_in (by omega)] at hbyte
      exact absurd hbyte (by decide)
    obtain ⟨r, σ', hrun, hgot⟩ := get_none fuel mem htag hsize
    exact ⟨r, σ', hrun, Or.inl hgot⟩
  · refine Or.inr fun mem _ => ?_
    have hrecord : HasRecord [] σ.flash := by
      intro k c hk
      have hbare : program (program (erase flash 0 m.erasesize) 0 tag) 5 [] k = program (erase flash 0 m.erasesize) 0 tag k :=
        program_out (by show k < 5 ∨ 5 + 0 ≤ k; omega)
      rw [hstage, ← hbare]
      exact flash_record (show 5 + 0 < m.erasesize by omega) hk
    have hshort : ([] : List Byte).length < 8 ∨ mem 8 = 0 ∨ mem 8 = 0xff := Or.inl (by decide)
    obtain ⟨r, σ', hrun, hgot⟩ := get_record hempty hrecord hsize hfuel hshort
    exact ⟨r, σ', hrun, Or.inl hgot⟩
  · refine Or.inr fun mem hlast => ?_
    have hrecord : HasRecord sn σ.flash := by
      intro k c hk
      rw [hstage]
      exact flash_record hsector hk
    obtain ⟨r, σ', hrun, hgot⟩ := get_record h hrecord hsize hfuel hlast
    exact ⟨r, σ', hrun, Or.inr hgot⟩

/-- It is killed when the tag is written. -/
theorem serial_interrupted_tag : ∃ σ : Nor, σ.flash 0 = 0x46 ∧ σ.flash 5 = 0xff ∧
    ∃ r σ', (nor partition).run (getFpgaSerialNumber 16 letters) σ = some (r, σ') ∧ (Got [] letters r ∨ Got short letters r) := by
  refine ⟨(nor partition).after 5 (programFpgaSerialNumber short) blank, by decide, by decide, ?_⟩
  have h := serial_interrupted partition (fun _ => 0) short 16 ⟨by decide, by decide⟩ (by decide) (by decide) (by decide)
    (Env.cut_after (nor partition) killed 5 (programFpgaSerialNumber short) blank)
  refine h.resolve_left (fun heq => ?_) letters (Or.inl (by decide))
  exact absurd (congrFun heq 0) (by decide)

end FpgaV3.Proof.Qspi
