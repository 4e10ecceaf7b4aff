import FpgaV3.Proof.Init.Firmware
import FpgaV3.Spec.Descriptors

/-!
# The files of fpgav3init

Whatever fails, `main` opens no file that it has open, uses a file only while it is open,
and closes it (`main_files`).
-/

namespace FpgaV3.Proof.Init

open FpgaV3.Spec FpgaV3.Impl FpgaV3.Impl.Init

variable {α : Type} {paths : List Text} {path F : Text}

/-- What follows a call that may have opened a file. -/
theorem holding_tried {p q : InitProg α} {ok : Bool} (hp : initFiles.Holding paths p)
    (hq : initFiles.Holding (path :: paths) q) :
    (ok = true → initFiles.Holding (path :: paths) (if !ok then p else q)) ∧
      (ok = false → initFiles.Holding paths (if !ok then p else q)) := by
  refine ⟨fun h => ?_, fun h => ?_⟩
  · rwa [h, Bool.not_true, if_neg Bool.false_ne_true]
  · rwa [h, Bool.not_false, if_pos rfl]

/-- A call on an open file. -/
theorem stays_file {e : InitOp} (ha : initFiles.acquires e = none) (hr : initFiles.releases e = none)
    (hu : initFiles.uses e = [path]) (hp : path ∈ paths) : initFiles.Stays paths e := by
  refine ⟨ha, hr, fun n hn => ?_⟩
  rw [hu] at hn
  rwa [List.mem_singleton.mp hn]

/-- A call on no file. -/
theorem stays_other {e : InitOp} (ha : initFiles.acquires e = none) (hr : initFiles.releases e = none)
    (hu : initFiles.uses e = []) : initFiles.Stays paths e := by
  refine ⟨ha, hr, fun n hn => ?_⟩
  rw [hu] at hn
  exact absurd hn List.not_mem_nil

theorem stays_sprintf {size : Nat} {s : Text} : (sprintf size s).All (initFiles.Stays paths) :=
  Prog.all_ite (fun _ => trivial) fun _ => trivial

theorem holding_closed {path : Text} {a : α} : initFiles.Holding [path] (do .perform (InitOp.close path); return a) := by
  refine Handles.holding_release [] rfl rfl rfl List.mem_cons_self (fun m => ?_) fun _ => Handles.balanced_pure
  simp

/-! ## The firmware -/

theorem balanced_copyFile {filename srcDir destDir src dest : Text} (hsrc : srcDir ++ text "/" ++ filename = src)
    (hdest : destDir ++ text "/" ++ filename = dest) (hne : src ≠ dest) :
    initFiles.Balanced (copyFile filename srcDir destDir) := by
  subst hsrc hdest
  have hsrc : srcDir ++ text "/" ++ filename ∈ [destDir ++ text "/" ++ filename, srcDir ++ text "/" ++ filename] :=
    List.mem_cons_of_mem _ List.mem_cons_self
  unfold copyFile
  refine Handles.holding_acquire rfl rfl rfl List.not_mem_nil fun ok => holding_tried Handles.balanced_pure ?_
  refine Handles.holding_acquire rfl rfl rfl ?_ fun ok => holding_tried holding_closed ?_
  · exact fun h => hne (List.mem_singleton.mp h).symm
  · refine Handles.holding_use (stays_file rfl rfl rfl hsrc) fun st => ?_
    refine Handles.holding_use ⟨rfl, rfl, fun n hn => hn⟩ fun n => ?_
    refine Handles.holding_release [destDir ++ text "/" ++ filename] rfl rfl rfl hsrc (fun m => ?_) fun _ => holding_closed
    simp only [List.mem_cons, List.not_mem_nil, or_false]
    exact ⟨fun h => ⟨Or.inl h, fun h' => hne (h'.symm.trans h)⟩, fun h => h.1.resolve_right h.2⟩

theorem balanced_convertBitstream (fileDir : Text) : initFiles.Balanced (convertBitstream F fileDir) := by
  unfold convertBitstream
  refine Handles.holding_acquire rfl rfl rfl List.not_mem_nil fun ok => holding_tried Handles.balanced_pure ?_
  refine Handles.holding_use (stays_file rfl rfl rfl List.mem_cons_self) fun _ => ?_
  refine Handles.holding_release [] rfl rfl rfl List.mem_cons_self (fun m => by simp) fun _ => ?_
  refine Handles.holding_part stays_sprintf fun cmd => Handles.holding_use (stays_other rfl rfl rfl) fun ret => ?_
  exact Handles.balanced_pure

theorem balanced_writeSysfs (data : Text) : initFiles.Balanced (writeSysfs path data) := by
  unfold writeSysfs
  refine Handles.holding_acquire rfl rfl rfl List.not_mem_nil fun ok => holding_tried Handles.balanced_pure ?_
  exact Handles.holding_use (stays_file rfl rfl rfl List.mem_cons_self) fun n => holding_closed

theorem stays_firmwareDir : firmwareDir.All (initFiles.Stays paths) := by
  refine Prog.all_bind (Prog.all_perform.mpr (stays_other rfl rfl rfl)) fun dir => Prog.all_ite (fun _ => trivial) fun _ => ?_
  exact Prog.all_bind (Prog.all_perform.mpr (stays_other rfl rfl rfl)) fun ret => trivial

theorem balanced_programFpga (F : Text) : initFiles.Balanced (programFpga F) := by
  unfold programFpga fpgaLoad
  refine Handles.balanced_bind (balanced_copyFile (mediaBit_eq F) (tmpBit_eq F) (mediaBit_ne_tmpBit F)) fun ok => ?_
  refine Handles.holding_ite (fun _ => Handles.balanced_pure) fun _ => ?_
  refine Handles.balanced_bind (balanced_convertBitstream _) fun ok => ?_
  refine Handles.holding_ite (fun _ => Handles.balanced_pure) fun _ => Handles.holding_part stays_firmwareDir fun ok => ?_
  refine Handles.holding_ite (fun _ => Handles.balanced_pure) fun _ => ?_
  refine Handles.balanced_bind (balanced_copyFile (tmpBin_eq F) (libBin_eq F) (tmpBin_ne_libBin F)) fun ok => ?_
  refine Handles.balanced_bind (balanced_writeSysfs _) fun ok => ?_
  exact Handles.holding_ite (fun _ => Handles.balanced_pure) fun _ => balanced_writeSysfs _

/-! ## The environment variables -/

theorem stays_writeLine {name value : Text} (hp : profileFile ∈ paths) :
    (writeLine name value).All (initFiles.Stays paths) := by
  refine Prog.all_bind stays_sprintf fun buf => Prog.all_bind (Prog.all_perform.mpr ?_) fun _ => trivial
  exact stays_file rfl rfl rfl hp

theorem balanced_exportFpgaInfo (fpga_ver fpga_sn board_type : Text) (board_id : Nat) :
    initFiles.Balanced (exportFpgaInfo fpga_ver fpga_sn board_type board_id) := by
  have hline {name value : Text} : (writeLine name value).All (initFiles.Stays [profileFile]) :=
    stays_writeLine List.mem_cons_self
  unfold exportFpgaInfo
  -- the digits are not computed
  generalize fmtDec board_id = digits
  refine Handles.holding_acquire rfl rfl rfl List.not_mem_nil fun ok => holding_tried Handles.balanced_pure ?_
  refine Handles.holding_part hline fun _ => Handles.holding_part (Prog.all_onlyIf hline) fun _ => ?_
  refine Handles.holding_part hline fun _ => Handles.holding_part (Prog.all_onlyIf hline) fun _ => ?_
  exact holding_closed

/-! ## main -/

theorem stays_command {cmd : Text} : (command cmd).All (initFiles.Stays paths) := by
  unfold command
  exact Prog.all_bind stays_sprintf fun _ => Prog.all_bind (Prog.all_perform.mpr (stays_other rfl rfl rfl)) fun _ => trivial

theorem stays_setMACandIP (ethName : Text) (board_id : Nat) :
    (setMACandIP ethName board_id).All (initFiles.Stays paths) := by
  unfold setMACandIP
  -- the digits are not computed
  generalize fmtDec board_id = digits
  generalize fmtDec2 board_id = mac
  refine Prog.all_bind stays_command fun _ => Prog.all_bind stays_command fun _ => Prog.all_bind stays_command fun _ => ?_
  exact Prog.all_bind stays_command fun _ => Prog.all_bind stays_command fun _ => trivial

theorem stays_cout {items : List Item} : (cout items).All (initFiles.Stays paths) :=
  Prog.all_perform.mpr (stays_other rfl rfl rfl)

theorem balanced_onlyIf {c : Prop} [Decidable c] {p : InitProg Unit} (hp : initFiles.Balanced p) :
    initFiles.Balanced (.onlyIf c p) := Handles.holding_ite (fun _ => hp) fun _ => Handles.balanced_pure

theorem balanced_configure (fpga_sn : Text) (reg_hw reg_status : BitVec 32) :
    initFiles.Balanced (configure fpga_sn reg_hw reg_status) := by
  have hother {e : InitOp} {f : e.Ans → InitProg Int} (ha : initFiles.acquires e = none) (hr : initFiles.releases e = none)
      (hu : initFiles.uses e = []) (hf : ∀ r, initFiles.Balanced (f r)) : initFiles.Balanced (.perform e >>= f) :=
    Handles.holding_use (stays_other ha hr hu) hf
  unfold configure
  refine Handles.holding_ite (fun _ => Handles.holding_part stays_cout fun _ => Handles.balanced_pure) fun _ => ?_
  refine Handles.holding_part stays_cout fun _ => Handles.holding_part stays_cout fun _ => ?_
  refine Handles.holding_part (Prog.all_onlyIf stays_cout) fun _ => Handles.holding_part stays_cout fun _ => ?_
  refine Handles.holding_part stays_cout fun _ => Handles.balanced_bind (balanced_exportFpgaInfo ..) fun _ => ?_
  refine Handles.balanced_bind (balanced_onlyIf ?_) fun _ => ?_
  · exact Handles.balanced_bind (balanced_programFpga _) fun _ => Handles.balanced_pure
  · refine hother rfl rfl rfl fun _ => hother rfl rfl rfl fun _ => Handles.holding_part (stays_setMACandIP ..) fun _ => ?_
    exact hother rfl rfl rfl fun _ => Handles.balanced_pure

/-- Whatever calls fail, and whatever the variables hold, every file that `main` opens was not open
before, is used only while it is open, and is closed before `main` returns. -/
theorem main_files (reg_hw reg_status : BitVec 32) : initFiles.Balanced (main reg_hw reg_status) := by
  have hread {addr : BitVec 16} {var : BitVec 32} : (readTo addr var).All (initFiles.Stays []) :=
    Prog.all_bind (Prog.all_perform.mpr (stays_other rfl rfl rfl)) fun _ => trivial
  unfold main
  refine Handles.holding_use (stays_other rfl rfl rfl) fun fpga_sn => ?_
  refine Handles.holding_part (Prog.all_onlyIf stays_cout) fun _ => Handles.holding_use (stays_other rfl rfl rfl) fun ok => ?_
  refine Handles.holding_ite (fun _ => Handles.balanced_pure) fun _ => Handles.holding_part hread fun hw => ?_
  exact Handles.holding_part hread fun status => balanced_configure fpga_sn hw status

end FpgaV3.Proof.Init
