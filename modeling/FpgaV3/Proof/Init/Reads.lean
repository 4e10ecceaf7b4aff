import FpgaV3.Spec.Reads

/-!
# Failed reads in fpgav3init

`main` drops the results of its reads. What it does after them (`configure`) depends on
the first register, and if that is `BCFG` on the second; so it does not depend on what
the variables held if and only if these could be read (`main_same_iff`).
-/

namespace FpgaV3.Proof.Init

open FpgaV3.Spec FpgaV3.Spec.Init FpgaV3.Impl FpgaV3.Impl.Init

variable {S : Type} {v : Env InitOp InitOp.Ans S} {s : S} {ok : Bool} {hw status : Option (BitVec 32)} {fpga_sn : Text}
  {w x y reg_hw reg_hw' reg_status reg_status' : BitVec 32}

/-- The same read first. -/
theorem same_readTo {α : Type} {addr : BitVec 16} {f g : BitVec 32 → InitProg α} :
    Same v (readTo addr x >>= f) (readTo addr y >>= g) s ↔
      Same v (f ((v.step s (.readQuadlet addr)).1.getD x)) (g ((v.step s (.readQuadlet addr)).1.getD y))
        (v.step s (.readQuadlet addr)).2 := same_call

/-- What is done before the registers are read does not depend on the variables. -/
theorem same_main (v : Env InitOp InitOp.Ans S) (ok : Bool) (hw status : Option (BitVec 32)) (s : S) :
    ∃ fpga_sn s', ∀ reg_hw reg_hw' reg_status reg_status',
      Same (withReads v ok hw status) (main reg_hw reg_status) (main reg_hw' reg_status') s ↔
        (ok = true → Same (withReads v ok hw status) (configure fpga_sn (hw.getD reg_hw) (status.getD reg_status))
          (configure fpga_sn (hw.getD reg_hw') (status.getD reg_status')) s') := by
  have hok (s : S) : ((withReads v ok hw status).step s .isOK).1 = ok := rfl
  have hhw (s : S) : ((withReads v ok hw status).step s (.readQuadlet 4)).1 = hw := rfl
  have hstatus (s : S) : ((withReads v ok hw status).step s (.readQuadlet 0)).1 = status := rfl
  generalize withReads v ok hw status = u at hok hhw hstatus ⊢
  have hgreet (fpga_sn : Text) (s₁ : S) : ∃ s₂, u.run
      (Prog.onlyIf (fpga_sn ≠ []) (cout [.text (text "FPGA S/N: "), .text fpga_sn])) s₁ = some ((), s₂) := by
    unfold Prog.onlyIf
    split
    · exact ⟨_, rfl⟩
    · exact ⟨_, rfl⟩
  obtain ⟨s₂, hgreet⟩ := hgreet (u.step s .getFpgaSerialNumber).1 (u.step s .getFpgaSerialNumber).2
  refine ⟨(u.step s .getFpgaSerialNumber).1, (u.step (u.step (u.step s₂ .isOK).2 (.readQuadlet 4)).2 (.readQuadlet 0)).2, ?_⟩
  intro reg_hw reg_hw' reg_status reg_status'
  rw [main, main, same_perform]
  refine (same_bind_of_run hgreet).trans ?_
  rw [same_perform, hok]
  cases ok with
  | false =>
    rw [Bool.not_false, if_pos rfl, if_pos rfl]
    exact ⟨fun _ => absurd_false, fun _ => Same.refl _ _ _⟩
  | true =>
    rw [Bool.not_true, if_neg Bool.false_ne_true, if_neg Bool.false_ne_true, same_readTo, same_readTo, hhw, hstatus]
    exact ⟨fun h _ => h, fun h => h rfl⟩

theorem configure_other (h : hwStr w ≠ text "BCFG") : Same v (configure fpga_sn w x) (configure fpga_sn w y) s := by
  rw [configure, if_pos h, configure, if_pos h]
  exact Same.refl _ _ _

/-- The status is printed. -/
theorem configure_status (h : hwStr w = text "BCFG") : ¬ Same v (configure fpga_sn w 0) (configure fpga_sn w 1) s := by
  intro hsame
  rw [configure, if_neg (not_not_intro h), configure, if_neg (not_not_intro h)] at hsame
  have hevent := List.head_eq_of_cons_eq (List.tail_eq_of_cons_eq hsame.trace)
  exact absurd (Sigma.mk.inj hevent).1 (by decide)

/-- It is decided whether there is the firmware. -/
theorem configure_hw : ¬ Same v (configure fpga_sn 0x42434647 x) (configure fpga_sn 0 y) s := by
  intro hsame
  rw [configure, if_neg (by decide), configure, if_pos (by decide)] at hsame
  have hevent := List.head_eq_of_cons_eq hsame.trace
  exact absurd (Sigma.mk.inj hevent).1 (by decide)

theorem main_same_iff (v : Env InitOp InitOp.Ans S) (ok : Bool) (hw status : Option (BitVec 32)) (s : S) :
    (∀ reg_hw reg_hw' reg_status reg_status',
      Same (withReads v ok hw status) (main reg_hw reg_status) (main reg_hw' reg_status') s) ↔
        (ok = true → Readable hw status) := by
  obtain ⟨fpga_sn, s', hmain⟩ := same_main v ok hw status s
  simp only [hmain]
  constructor
  · intro h hok
    cases hw with
    | none => exact absurd (h 0x42434647 0 0 0 hok) configure_hw
    | some w =>
      refine ⟨rfl, fun hbcfg => ?_⟩
      cases status with
      | none => exact absurd (h 0 0 0 1 hok) (configure_status (Option.some.inj hbcfg))
      | some x => rfl
  · intro h reg_hw reg_hw' reg_status reg_status' hok
    obtain ⟨hhw, hstatus⟩ := h hok
    obtain ⟨w, rfl⟩ := Option.isSome_iff_exists.mp hhw
    by_cases hbcfg : hwStr w = text "BCFG"
    · obtain ⟨x, rfl⟩ := Option.isSome_iff_exists.mp (hstatus (congrArg some hbcfg))
      exact Same.refl _ _ _
    · exact configure_other hbcfg

end FpgaV3.Proof.Init
