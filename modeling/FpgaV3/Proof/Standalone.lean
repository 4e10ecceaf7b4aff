import FpgaV3.Impl.Standalone
import FpgaV3.Proof.Blocks

/-!
# The lines in the standalone library

A block transfer that finds `req_bus` low makes one access for each quadlet,
in its frame (`block_frames`).
-/

namespace FpgaV3.Proof.Standalone

open FpgaV3.Spec FpgaV3.Impl FpgaV3.Impl.Standalone

section
variable {P : RegOp → Prop}

theorem all_firstLoop (hu : P (.regRead .inputUpper)) : ∀ (n : Nat) (upper : BitVec 32), (firstLoop n upper).All P
  | 0, _ => trivial
  | n + 1, upper => by
    unfold firstLoop
    split
    · exact Prog.all_bind (Prog.all_perform.mpr hu) fun upper => all_firstLoop hu n upper
    · trivial

theorem all_secondLoop (hu : P (.regRead .inputUpper)) : ∀ (fuel : Nat) (upper : BitVec 32),
    (secondLoop fuel upper).All P
  | 0, _ => trivial
  | fuel + 1, upper => by
    unfold secondLoop
    split
    · exact Prog.all_bind (Prog.all_perform.mpr hu) fun upper => all_secondLoop hu fuel upper
    · trivial

theorem all_wait (fuel num : Nat) (hu : P (.regRead .inputUpper)) : (waitOpDone fuel num).All P :=
  Prog.all_bind (all_firstLoop hu num 0) fun x =>
    Prog.all_bind (Prog.all_onlyIf (all_secondLoop hu fuel x.2)) fun _ => trivial

end

theorem wait_true {S : Type} {w : World RegOp RegOp.Ans S} {σ : S} {fuel num : Nat} :
    WP w True (waitOpDone fuel num) σ fun ok _ => ok = true := by
  simp only [waitOpDone, wp_bind, wp_pure]
  exact wp_trivial fun _ _ => wp_trivial fun _ _ => trivial

variable {b : Bus}

theorem interior_wait (fuel num : Nat) : (waitOpDone fuel num).All Interior :=
  all_wait fuel num (by simp [Interior])

theorem all_setDataInput {P : RegOp → Prop} (hd : ∀ v, P (.regWrite .dirLower v)) (hu : P (.regRead .inputUpper)) :
    setDataInput.All P :=
  Prog.all_bind (Prog.all_perform.mpr (hd _)) fun _ => Prog.all_bind (Prog.all_perform.mpr hu) fun _ => trivial

theorem all_setDataOutput {P : RegOp → Prop} (hd : ∀ v, P (.regWrite .dirLower v))
    (he : ∀ v, P (.regWrite .outEnLower v)) (hu : P (.regRead .inputUpper)) : setDataOutput.All P :=
  Prog.all_bind (Prog.all_perform.mpr (hd _)) fun _ => Prog.all_bind (Prog.all_perform.mpr (he _)) fun _ =>
    Prog.all_bind (Prog.all_perform.mpr hu) fun _ => trivial

theorem all_getVersion {P : RegOp → Prop} (hu : P (.regRead .inputUpper)) : getVersion.All P :=
  Prog.all_bind (Prog.all_perform.mpr hu) fun _ => trivial

theorem block_frames {req : Request} {fuel : Nat} (hr : req.isBlock = true) (h : b.lines.reqBus = false) :
    WP buses True (exec fuel req) b fun ok b' => ok = true →
      ∃ acc, b'.accesses = b.accesses ++ acc ∧ acc.map Emio.frame = frames req.quads := by
  have hver : getVersion.All Steady := all_getVersion (by simp [Steady])
  have hin : setDataInput.All Steady := all_setDataInput (by simp [Steady]) (by simp [Steady])
  have hout : setDataOutput.All Steady := all_setDataOutput (by simp [Steady]) (by simp [Steady]) (by simp [Steady])
  cases req with
  | readQuadlet addr => cases hr
  | writeQuadlet addr data => cases hr
  | readBlock addr nBytes =>
    simp only [exec, readBlock, wp_bind, wp_ite, wp_pure]
    refine WP.mono (steady_keeps hver) fun _ b₁ hpost => ⟨fun _ => absurd_false, fun _ => ?_⟩
    obtain ⟨hu, ha⟩ := hpost
    refine WP.mono (steady_keeps hin) fun _ b₂ hpost => ⟨fun _ => ?_, fun _ => absurd_false⟩
    obtain ⟨hu', ha'⟩ := hpost
    have hlow : b₂.lines.upper.getLsbD 16 = false := by rw [hu', hu]; exact h
    refine WP.mono (blockLoop_bus (fun _ => ?_) (interior_wait fuel 5) (fun q => ?_) (fun _ => wait_true) _ _ _ _
      (Nat.zero_add _) (fun _ => opening addr) (Or.inl hlow) ⟨rfl, rfl, rfl, rfl⟩)
      fun ok _ hpost => ?_
    · trivial
    · exact Prog.all_bind (Prog.all_perform.mpr (by simp [Interior])) fun _ =>
        Prog.all_perform.mpr (by simp [Interior])
    obtain ⟨-, u', acc, h₂, hf, -⟩ := hpost
    refine WP.mono (lower_bus h₂) fun _ _ h₃ _ => ⟨acc, by rw [h₃.accesses, ha', ha], ?_⟩
    rw [hf, framesFrom_zero]; rfl
  | writeBlock addr nBytes =>
    simp only [exec, writeBlock, wp_bind, wp_ite, wp_pure]
    refine WP.mono (steady_keeps hver) fun _ b₁ hpost => ⟨fun _ => absurd_false, fun _ => ?_⟩
    obtain ⟨hu, ha⟩ := hpost
    refine WP.mono (steady_keeps hout) fun _ b₂ hpost => ⟨fun _ => ?_, fun _ => absurd_false⟩
    obtain ⟨hu', ha'⟩ := hpost
    have hlow : b₂.lines.upper.getLsbD 16 = false := by rw [hu', hu]; exact h
    refine WP.mono (blockLoop_bus (fun q => ?_) (interior_wait fuel 5) (fun _ => ?_) (fun _ => wait_true) _ _ _ _
      (Nat.zero_add _) (fun _ => opening addr) (Or.inl hlow) ⟨rfl, rfl, rfl, rfl⟩)
      fun ok _ hpost => ?_
    · exact Prog.all_bind (Prog.all_perform.mpr (by simp [Interior])) fun _ =>
        Prog.all_perform.mpr (by simp [Interior])
    · trivial
    obtain ⟨-, u', acc, h₂, hf, -⟩ := hpost
    refine WP.mono (lower_bus h₂) fun _ _ h₃ _ => ⟨acc, by rw [h₃.accesses, ha', ha], ?_⟩
    rw [hf, framesFrom_zero]; rfl

/-- A block transfer touches the data of its quadlets only. -/
theorem all_block {req : Request} {fuel : Nat} (hr : req.isBlock = true) :
    (exec fuel req).All (Within req.quads) := by
  have hwait := all_wait fuel 5 (P := Within req.quads) (within_none rfl)
  cases req with
  | readQuadlet addr => cases hr
  | writeQuadlet addr data => cases hr
  | readBlock addr nBytes =>
    refine Prog.all_bind (all_getVersion (within_none rfl)) fun ver => ?_
    split
    · trivial
    refine Prog.all_bind (all_setDataInput (fun _ => within_none rfl) (within_none rfl)) fun ok => ?_
    split
    · refine Prog.all_bind ?_ fun _ => Prog.all_bind (Prog.all_perform.mpr (within_none rfl)) fun _ => trivial
      refine all_blockLoop (fun _ _ => ?_) hwait (fun q hq => ?_) (fun _ => within_none rfl) _ _ _ _ (Nat.zero_add _)
      · trivial
      · exact Prog.all_bind (Prog.all_perform.mpr (within_none rfl)) fun _ => Prog.all_perform.mpr (within_one rfl hq)
    · trivial
  | writeBlock addr nBytes =>
    refine Prog.all_bind (all_getVersion (within_none rfl)) fun ver => ?_
    split
    · trivial
    refine Prog.all_bind (all_setDataOutput (fun _ => within_none rfl) (fun _ => within_none rfl) (within_none rfl)) fun ok => ?_
    split
    · refine Prog.all_bind ?_ fun _ => Prog.all_bind (Prog.all_perform.mpr (within_none rfl)) fun _ => trivial
      refine all_blockLoop (fun q hq => ?_) hwait (fun _ _ => ?_) (fun _ => within_none rfl) _ _ _ _ (Nat.zero_add _)
      · exact Prog.all_bind (Prog.all_perform.mpr (within_one rfl hq)) fun _ => Prog.all_perform.mpr (within_none rfl)
      · trivial
    · trivial

end FpgaV3.Proof.Standalone
