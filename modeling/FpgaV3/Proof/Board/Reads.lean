import FpgaV3.Spec.Reads

/-!
# Failed reads in the boot loader

`FpgaV3_Init_QSPI` drops the results of its reads. It does the same whatever its
variables held if and only if the first register could be read, and the second where it
is printed (`init_same_iff`).
-/

namespace FpgaV3.Proof.Board

open FpgaV3.Spec FpgaV3.Spec.Board FpgaV3.Impl FpgaV3.Impl.Board

variable {S : Type} {v : Env BoardOp BoardOp.Ans S} {s : S} {hw status : Option (BitVec 32)} {version git_version : String}
  {fuel : Nat} {w x y hw_version hw_version' board_status board_status' : BitVec 32}

/-- The same read first. -/
theorem same_readTo {α : Type} {addr : BitVec 16} {f g : BitVec 32 → BoardProg α} :
    Same v (readTo addr x >>= f) (readTo addr y >>= g) s ↔
      Same v (f ((v.step s (.readQuadlet addr)).1.getD x)) (g ((v.step s (.readQuadlet addr)).1.getD y))
        (v.step s (.readQuadlet addr)).2 := same_call

/-- What follows the first read. -/
def information (fuel : Nat) (hw_version board_status : BitVec 32) : BoardProg Bool := do
  boardInfo hw_version board_status
  serialNumber fuel
  return true

/-- What is done before the register is read does not depend on the variables. -/
theorem same_init (v : Env BoardOp BoardOp.Ans S) (hw status : Option (BitVec 32)) (version git_version : String)
    (fuel : Nat) (s : S) :
    ∃ s', ∀ hw_version hw_version' board_status board_status',
      Same (withReads v hw status) (fpgaV3_Init_QSPI version git_version fuel hw_version board_status)
          (fpgaV3_Init_QSPI version git_version fuel hw_version' board_status') s ↔
        Same (withReads v hw status) (information fuel (hw.getD hw_version) board_status)
          (information fuel (hw.getD hw_version') board_status') s' := by
  have hgit (s₁ : S) : ∃ s₂, (withReads v hw status).run
      (Prog.onlyIf (git_version ≠ version) (printf " (git %s)" [.text git_version])) s₁ = some ((), s₂) := by
    unfold Prog.onlyIf
    split
    · exact ⟨_, rfl⟩
    · exact ⟨_, rfl⟩
  obtain ⟨s₂, hgit⟩ := hgit (v.step (v.step s (.printf "\r\n*** FPGA V3 ***\r\n\n" [])).2
    (.printf "Software Version %s" [.text version])).2
  refine ⟨(v.step (v.step (v.step s₂ (.printf "\r\n\n" [])).2 .emioInit).2 (.readQuadlet 4)).2, ?_⟩
  intro hw_version hw_version' board_status board_status'
  refine same_perform.trans (same_perform.trans ((same_bind_of_run hgit).trans ?_))
  exact same_perform.trans (same_perform.trans same_readTo)

theorem information_other (h : w ≠ 0x42434647) : Same v (information fuel w x) (information fuel w y) s := by
  rw [information, information, boardInfo, if_neg h, boardInfo, if_neg h]
  exact Same.refl _ _ _

/-- It is decided whether the status register is read. -/
theorem information_hw : ¬ Same v (information fuel 0x42434647 x) (information fuel 0 y) s := by
  intro hsame
  rw [information, boardInfo, if_pos rfl, information, boardInfo, if_neg (by decide)] at hsame
  have hevent := congrArg Sigma.fst (List.head_eq_of_cons_eq hsame.trace)
  exact BoardOp.noConfusion hevent

/-- The status is printed, if it could be read. -/
theorem information_status (hbcfg : w = 0x42434647) :
    (∀ board_status board_status', Same (withReads v (some w) status) (information fuel w board_status)
      (information fuel w board_status') s) ↔ status.isSome := by
  simp only [information, boardInfo, if_pos hbcfg]
  constructor
  · intro h
    cases status with
    | none =>
      have htrace := (h 0 1).trace
      have hevent := congrArg Sigma.fst (List.head_eq_of_cons_eq (List.tail_eq_of_cons_eq (List.tail_eq_of_cons_eq htrace)))
      have hargs : Arg.word 0 = Arg.word 1 := List.head_eq_of_cons_eq (BoardOp.printf.inj hevent).2
      exact absurd (Arg.word.inj hargs) (by decide)
    | some x => rfl
  · intro h board_status board_status'
    obtain ⟨x, rfl⟩ := Option.isSome_iff_exists.mp h
    exact same_call.mpr (Same.refl _ _ _)

theorem init_same_iff (v : Env BoardOp BoardOp.Ans S) (hw status : Option (BitVec 32)) (version git_version : String)
    (fuel : Nat) (s : S) :
    (∀ hw_version hw_version' board_status board_status',
      Same (withReads v hw status) (fpgaV3_Init_QSPI version git_version fuel hw_version board_status)
        (fpgaV3_Init_QSPI version git_version fuel hw_version' board_status') s) ↔ Readable hw status := by
  obtain ⟨s', hinit⟩ := same_init v hw status version git_version fuel s
  simp only [hinit]
  cases hw with
  | none => exact ⟨fun h => absurd (h 0x42434647 0 0 0) information_hw, fun h => absurd h.1 (by decide)⟩
  | some w =>
    rw [Readable]
    by_cases hbcfg : w = 0x42434647
    · have hstatus : (∀ board_status board_status', Same (withReads v (some w) status) (information fuel w board_status)
          (information fuel w board_status') s') ↔ status.isSome := information_status hbcfg
      exact ⟨fun h => ⟨rfl, fun _ => hstatus.mp fun x y => h 0 0 x y⟩,
        fun h _ _ x y => hstatus.mpr (h.2 (congrArg some hbcfg)) x y⟩
    · exact ⟨fun _ => ⟨rfl, fun h => absurd (Option.some.inj h) hbcfg⟩, fun _ _ _ _ _ => information_other hbcfg⟩

end FpgaV3.Proof.Board
