import FpgaV3.Spec.Disk

/-!
# The environment variables

`ExportFpgaInfo` writes every line with the NUL that ends its string
(`wp_exportFpgaInfo`), so the file is never made of the lines alone
(`export_never`).
-/

namespace FpgaV3.Proof.Init

open FpgaV3.Spec FpgaV3.Spec.Disk FpgaV3.Impl FpgaV3.Impl.Init

variable {name value fpga_ver fpga_sn board_type : Text} {board_id : Nat} {d : Disk} {vars : List (Text × Text)}

/-- The lines as they are written. -/
def written (vars : List (Text × Text)) : Text := (vars.map fun v => exportLine v.1 v.2 ++ [0]).flatten

theorem written_append (vars vars' : List (Text × Text)) : written (vars ++ vars') = written vars ++ written vars' := by
  rw [written, List.map_append, List.flatten_append]
  rfl

/-- Every line is one byte longer. -/
theorem length_written (vars : List (Text × Text)) :
    (written vars).length = (vars.map fun v => exportLine v.1 v.2).flatten.length + vars.length := by
  induction vars with
  | nil => rfl
  | cons v vars ih =>
    rw [← List.singleton_append, written_append, List.length_append, ih, List.map_append, List.flatten_append]
    simp only [written, List.map_singleton, List.flatten_singleton, List.length_append, List.length_singleton]
    omega

/-- The file holds the lines for `vars`. -/
def Holds (d : Disk) (vars : List (Text × Text)) : Prop := d.files profileFile = some (written vars)

theorem wp_writeLine (h : Holds d vars) :
    WP filing.world True (writeLine name value) d fun _ d' => Holds d' (vars ++ [(name, value)]) := by
  rw [writeLine, wp_bind, sprintf]
  refine wp_ite.mpr ⟨fun _ => ?_, fun _ => trivial⟩
  simp only [wp_bind, wp_perform, wp_pure]
  intro n d' hwrite
  have hd' : d.append profileFile (exportLine name value ++ [0]) = d' := (Prod.mk.inj hwrite).2
  have hline : written [(name, value)] = exportLine name value ++ [0] := List.flatten_singleton
  rw [← hd', Holds, written_append, hline, Disk.append, contents_of h, files_put]

theorem wp_onlyIf_writeLine {c : Prop} [Decidable c] (h : Holds d vars) :
    WP filing.world True (.onlyIf c (writeLine name value)) d fun _ d' =>
      Holds d' (vars ++ if c then [(name, value)] else []) := by
  refine wp_onlyIf.mpr ⟨fun hc => ?_, fun hc => ?_⟩
  · rw [if_pos hc]
    exact wp_writeLine h
  · rw [if_neg hc, List.append_nil]
    exact h

theorem wp_exportFpgaInfo : WP filing.world True (exportFpgaInfo fpga_ver fpga_sn board_type board_id) d fun _ d' =>
    Holds d' (exports fpga_ver fpga_sn board_type board_id) := by
  have hlines : exports fpga_ver fpga_sn board_type board_id = [] ++ [(text "FPGAV3_VER", fpga_ver)] ++
      (if fpga_sn ≠ [] then [(text "FPGAV3_SN", fpga_sn)] else []) ++ [(text "FPGAV3_HW", board_type)] ++
      if board_id < 16 then [(text "FPGAV3_ID", fmtDec board_id)] else [] := by
    rw [exports, ite_not]
    rfl
  rw [hlines, exportFpgaInfo, wp_bind, wp_perform]
  intro opened d₁ hopen
  obtain ⟨hopened, hd₁⟩ := Prod.mk.inj hopen
  subst hopened
  have hempty : Holds d₁ [] := by
    rw [← hd₁]
    exact files_put d profileFile []
  rw [Bool.not_true, if_neg Bool.false_ne_true, wp_bind]
  refine WP.mono (wp_writeLine hempty) fun _ d₂ hver => ?_
  rw [wp_bind]
  refine WP.mono (wp_onlyIf_writeLine hver) fun _ d₃ hsn => ?_
  rw [wp_bind]
  refine WP.mono (wp_writeLine hsn) fun _ d₄ hhw => ?_
  rw [wp_bind]
  refine WP.mono (wp_onlyIf_writeLine hhw) fun _ d₅ hid => ?_
  simp only [wp_bind, wp_perform, wp_pure]
  intro _ d₆ hclose
  rw [← (Prod.mk.inj hclose).2]
  exact hid

/-- Whatever is exported, the file holds more than the lines. -/
theorem export_never (fpga_ver fpga_sn board_type : Text) (board_id : Nat) (d : Disk) :
    ¬ ∃ r d' file, filing.run (exportFpgaInfo fpga_ver fpga_sn board_type board_id) d = some (r, d') ∧
      d'.files profileFile = some file ∧ WellFormed (exports fpga_ver fpga_sn board_type board_id) file := by
  intro h
  obtain ⟨r, d', file, hrun, hfile, hwell⟩ := h
  have hruns := Env.runs_of_run hrun
  have hholds : Holds d' (exports fpga_ver fpga_sn board_type board_id) := wp_exportFpgaInfo.sound hruns.1 hruns.2
  have heq : file = written (exports fpga_ver fpga_sn board_type board_id) := Option.some.inj (hfile.symm.trans hholds)
  have hlen := length_written (exports fpga_ver fpga_sn board_type board_id)
  rw [← heq, ← hwell.lines] at hlen
  have hnil := List.length_eq_zero_iff.mp (show (exports fpga_ver fpga_sn board_type board_id).length = 0 by omega)
  exact absurd hnil (List.cons_ne_nil _ _)

/-- The serial number `1234-56`, on a QLA with board number 3. -/
theorem exported_nul : ¬ ∃ r d' file,
    filing.run (exportFpgaInfo (text "3.1") (text "1234-56") (text "QLA") 3) { files := fun _ => none } = some (r, d') ∧
      d'.files profileFile = some file ∧ WellFormed (exports (text "3.1") (text "1234-56") (text "QLA") 3) file := by
  intro h
  obtain ⟨r, d', file, hrun, hfile, hwell⟩ := h
  have hbytes : (filing.run (exportFpgaInfo (text "3.1") (text "1234-56") (text "QLA") 3) { files := fun _ => none }).map
      (fun x => (x.2.files profileFile).map List.length) = some (some 91) := by decide
  rw [hrun, Option.map_some, hfile, hwell.lines] at hbytes
  exact absurd hbytes (by decide)

end FpgaV3.Proof.Init
