import FpgaV3.Proof.Qspi.Program
import FpgaV3.Spec.Descriptors

/-!
# The files and buffers of the flash functions

Whatever fails, they use a file only while it is open, close it, and stay within their
buffers (`flash_resources`).
-/

namespace FpgaV3.Proof.Qspi

open FpgaV3.Spec FpgaV3.Impl FpgaV3.Impl.Qspi

variable {α : Type} {fds : List Fd}

/-- A call on the flash, while that is open. -/
theorem holding_flash {e : QspiOp} {f : e.Ans → QspiProg α} (ha : qspiFiles.acquires e = none)
    (hr : qspiFiles.releases e = none) (hu : qspiFiles.uses e = [.flash]) (hfd : Fd.flash ∈ fds)
    (hf : ∀ r, qspiFiles.Holding fds (f r)) : qspiFiles.Holding fds (.perform e >>= f) := by
  refine Handles.holding_use ⟨ha, hr, fun n hn => ?_⟩ hf
  rw [hu] at hn
  rwa [List.mem_singleton.mp hn]

theorem holding_open {fd : Fd} {f : Bool → QspiProg α} (hfd : fd ∉ fds) (hok : qspiFiles.Holding (fd :: fds) (f true))
    (hfail : qspiFiles.Holding fds (f false)) : qspiFiles.Holding fds (.perform (QspiOp.openFd fd) >>= f) := by
  refine Handles.holding_acquire rfl rfl rfl hfd fun ok => ⟨fun h => ?_, fun h => ?_⟩
  · obtain rfl : ok = true := h
    exact hok
  · obtain rfl : ok = false := h
    exact hfail

/-- The only open file is closed. -/
theorem holding_close {fd : Fd} {a : α} : qspiFiles.Holding [fd] (do .perform (QspiOp.closeFd fd); return a) := by
  refine Handles.holding_release [] rfl rfl rfl List.mem_cons_self (fun m => ?_) fun _ => Handles.balanced_pure
  simp

theorem balanced_programSerial (sn : List Byte) : qspiFiles.Balanced (programFpgaSerialNumber sn) := by
  unfold programFpgaSerialNumber
  refine Handles.holding_ite (fun _ => Handles.balanced_pure) fun _ => holding_open List.not_mem_nil ?_ Handles.balanced_pure
  refine holding_flash rfl rfl rfl (by decide) fun info => holding_flash rfl rfl rfl (by decide) fun _ => ?_
  refine holding_flash rfl rfl rfl (by decide) fun _ => holding_flash rfl rfl rfl (by decide) fun n => ?_
  refine Handles.holding_ite (fun _ => holding_close) fun _ => ?_
  exact holding_flash rfl rfl rfl (by decide) fun n => holding_close

theorem balanced_getSerial (fuel : Nat) (sn : Mem) : qspiFiles.Balanced (getFpgaSerialNumber fuel sn) := by
  unfold getFpgaSerialNumber
  refine holding_open List.not_mem_nil ?_ Handles.balanced_pure
  refine holding_flash rfl rfl rfl (by decide) fun data => Handles.holding_ite (fun _ => ?_) fun _ => holding_close
  refine holding_flash rfl rfl rfl (by decide) fun bytes => ?_
  dsimp only
  split
  · trivial
  · exact holding_close

/-! ## ProgramFlash -/

/-- The calls of the loop over the sectors: they leave the files open, and read and write at most
`size` bytes. -/
def InLoop (size : Nat) : QspiOp → Prop
  | .read _ n => n ≤ size
  | .write data => data.length ≤ size
  | .lseek _ | .memUnlock _ _ | .memErase _ _ => True
  | _ => False

theorem inLoop_sector {erasesize st_size nBytes : Nat} {bufs : Mem × Mem} :
    (sector erasesize st_size nBytes bufs).All (InLoop erasesize) := by
  have hnb : (if st_size - nBytes < erasesize then st_size - nBytes else erasesize) ≤ erasesize := by
    split <;> omega
  unfold sector
  have hread {nb : Nat} (h : nb ≤ erasesize) (fd : Fd) (buf : Mem) : (readTo fd nb buf).All (InLoop erasesize) :=
    Prog.all_bind (Prog.all_perform.mpr h) fun _ => trivial
  refine Prog.all_bind (hread hnb _ _) fun fileBuf => Prog.all_bind (hread hnb _ _) fun devBuf => ?_
  refine Prog.all_ite (fun _ => trivial) fun _ => Prog.all_bind (Prog.all_perform.mpr trivial) fun _ => ?_
  refine Prog.all_bind (Prog.all_perform.mpr trivial) fun _ => Prog.all_bind (Prog.all_perform.mpr trivial) fun _ => ?_
  exact Prog.all_bind (Prog.all_perform.mpr (Nat.le_trans (Nat.le_of_eq (length_chunk ..)) hnb)) fun _ => trivial

theorem inLoop_sectors {erasesize st_size : Nat} :
    ∀ (fuel nBytes : Nat) (bufs : Mem × Mem), (sectors erasesize st_size fuel nBytes bufs).All (InLoop erasesize)
  | 0, _, _ => trivial
  | fuel + 1, nBytes, bufs => by
    unfold sectors
    split
    · exact Prog.all_bind inLoop_sector fun bufs => inLoop_sectors fuel _ bufs
    · trivial

/-- They use the two files. -/
theorem stays_inLoop {size : Nat} (e : QspiOp) (he : InLoop size e) : qspiFiles.Stays [.flash, .file] e := by
  have hall (n : Fd) : n ∈ [Fd.flash, .file] := by cases n <;> decide
  cases e with
  | read fd n => exact ⟨rfl, rfl, fun n _ => hall n⟩
  | write data => exact ⟨rfl, rfl, fun n _ => hall n⟩
  | lseek off => exact ⟨rfl, rfl, fun n _ => hall n⟩
  | memUnlock start length => exact ⟨rfl, rfl, fun n _ => hall n⟩
  | memErase start length => exact ⟨rfl, rfl, fun n _ => hall n⟩
  | _ => exact he.elim

theorem balanced_programFlash (fuel : Nat) (bufs : Mem × Mem) : qspiFiles.Balanced (programFlash fuel bufs) := by
  have hclose (b : Bool) : qspiFiles.Holding [.flash, .file] (do
      .perform (QspiOp.closeFd .file)
      .perform (QspiOp.closeFd .flash)
      return b) := by
    refine Handles.holding_release [.flash] rfl rfl rfl (by decide) (fun m => ?_) fun _ => holding_close
    cases m <;> decide
  unfold programFlash
  refine holding_open List.not_mem_nil (holding_open (by decide) ?_ holding_close) Handles.balanced_pure
  refine holding_flash rfl rfl rfl (by decide) fun info => ?_
  have hmalloc {size : Nat} {f : Bool → QspiProg Bool} (hf : ∀ ok, qspiFiles.Holding [.flash, .file] (f ok)) :
      qspiFiles.Holding [.flash, .file] (.perform (QspiOp.malloc size) >>= f) :=
    Handles.holding_use ⟨rfl, rfl, fun n hn => absurd hn List.not_mem_nil⟩ hf
  refine hmalloc fun _ => hmalloc fun _ => Handles.holding_ite (fun _ => hclose false) fun _ => ?_
  refine Handles.holding_use ⟨rfl, rfl, fun n hn => ?_⟩ fun st => ?_
  · rw [List.mem_singleton.mp hn]
    decide
  · exact Handles.holding_part ((inLoop_sectors fuel 0 bufs).mono stays_inLoop) fun _ => hclose true

theorem buffered_step {e : QspiOp} {f : e.Ans → QspiProg α} {Q : α → List Nat → Prop} {sizes : List Nat}
    (hok : InBuffers sizes e) (h : ∀ r, Guard buffers InBuffers (f r) (allocate sizes ⟨e, r⟩) Q) :
    Guard buffers InBuffers (.perform e >>= f) sizes Q :=
  guard_bind.mpr ⟨hok, fun r _ hs => hs.2 ▸ h r⟩

theorem buffered_programFlash (fuel : Nat) (bufs : Mem × Mem) :
    Guard buffers InBuffers (programFlash fuel bufs) [] fun _ _ => True := by
  have hclose (b : Bool) (sizes : List Nat) (x y : Fd) : Guard buffers InBuffers (do
      .perform (QspiOp.closeFd x)
      .perform (QspiOp.closeFd y)
      return b) sizes fun _ _ => True := buffered_step trivial fun _ => buffered_step trivial fun _ => trivial
  have hloop (size st_size : Nat) : Guard buffers InBuffers (sectors size st_size fuel 0 bufs) [size, size]
      fun _ sizes => sizes = [size, size] := by
    refine guard_invariant (I := fun sizes => sizes = [size, size]) (fun sizes e he h => ?_) (fun sizes e r sizes' he hs h => ?_)
      (inLoop_sectors fuel 0 bufs) rfl
    · subst h
      have hfits {n : Nat} (hn : n ≤ size) : [size, size].length = 2 ∧ ∀ size' ∈ [size, size], n ≤ size' := by
        simpa using hn
      cases e with
      | read fd n => exact hfits he
      | write data => exact hfits he
      | _ => trivial
    · rw [hs.2, h]
      cases e <;> first | rfl | exact he.elim
  unfold programFlash
  refine buffered_step trivial fun ok => guard_ite (fun _ => trivial) fun _ => buffered_step trivial fun ok => ?_
  refine guard_ite (fun _ => buffered_step trivial fun _ => trivial) fun _ => buffered_step trivial fun info => ?_
  refine buffered_step trivial fun fileBuf => buffered_step trivial fun devBuf => guard_ite (fun _ => hclose ..) fun hok => ?_
  have hboth : fileBuf = true ∧ devBuf = true := by simpa using hok
  obtain ⟨rfl, rfl⟩ := hboth
  refine buffered_step trivial fun st => guard_bind.mpr ?_
  exact (hloop info.2 st.2).mono fun _ sizes _ => hclose true sizes .file .flash

/-- Whatever calls fail, the three functions use the flash and the file only while these are open,
and have closed what they opened when they return; and `ProgramFlash` reads and writes no more
than fits into the buffers that it has allocated. -/
theorem flash_resources (fuel : Nat) : (∀ sn, qspiFiles.Balanced (programFpgaSerialNumber sn)) ∧
    (∀ sn, qspiFiles.Balanced (getFpgaSerialNumber fuel sn)) ∧ (∀ bufs, qspiFiles.Balanced (programFlash fuel bufs)) ∧
      ∀ bufs, Guard buffers InBuffers (programFlash fuel bufs) [] fun _ _ => True :=
  ⟨balanced_programSerial, balanced_getSerial fuel, balanced_programFlash fuel, buffered_programFlash fuel⟩

end FpgaV3.Proof.Qspi
