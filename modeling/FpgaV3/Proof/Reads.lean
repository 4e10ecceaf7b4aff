import FpgaV3.Proof.Board.Reads
import FpgaV3.Proof.Board.Samples
import FpgaV3.Proof.Init.Reads
import FpgaV3.Spec.Disk

/-!
# Failed reads

The results of the reads of registers are dropped. The three programs that do so do
the same whatever their variables held if and only if the reads that decide what they
do are successful (`reads_same_iff`).
-/

namespace FpgaV3.Proof

open FpgaV3.Spec FpgaV3.Impl

theorem reads_same_iff {S T : Type} (v : Env InitOp InitOp.Ans S) (ok : Bool) (s : S) (u : Env BoardOp BoardOp.Ans T)
    (version git_version : String) (fuel : Nat) (t : T) (hw status : Option (BitVec 32))
    (switch : Nat → Option (BitVec 32)) :
    ((∀ reg_hw reg_hw' reg_status reg_status',
        Same (Init.withReads v ok hw status) (Init.main reg_hw reg_status) (Init.main reg_hw' reg_status') s) ↔
      (ok = true → Init.Readable hw status)) ∧
    ((∀ hw_version hw_version' board_status board_status', Same (Board.withReads u hw status)
        (Board.fpgaV3_Init_QSPI version git_version fuel hw_version board_status)
        (Board.fpgaV3_Init_QSPI version git_version fuel hw_version' board_status') t) ↔
      Board.Readable hw status) ∧
    ((∀ status_reg status_reg' fuel,
        Same (source switch) (Board.testBoardID fuel status_reg) (Board.testBoardID fuel status_reg') 0) ↔
      Board.Settled switch) :=
  ⟨Init.main_same_iff v ok hw status s, Board.init_same_iff u hw status version git_version fuel t,
    Board.testBoardID_same_iff switch⟩

/-- No register can be read: the board is set up as a QLA, or the program ends. -/
theorem unread_registers : ¬ Same (Init.withReads filing true none none) (Init.main 0x42434647 0x00400000)
    (Init.main 0 0x00400000) { files := fun _ => none } := by
  intro h
  have hfirst : ((Init.withReads filing true none none).run (Init.main 0x42434647 0x00400000)
      { files := fun _ => none }).map Prod.fst = some 0 := by decide
  have hsecond : ((Init.withReads filing true none none).run (Init.main 0 0x00400000)
      { files := fun _ => none }).map Prod.fst = some (-1) := by decide
  rw [h.run, hsecond] at hfirst
  exact absurd hfirst (by decide)

end FpgaV3.Proof
