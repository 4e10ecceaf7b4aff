import FpgaV3.Proof.Registers
import FpgaV3.Spec.Handshake

/-!
# The calls of the mmap driver

What the parts of the four requests do, in any world. `WaitOpDone` returns
true where it should return whether it saw `op_done` (`wait_true`). Waiting
for `op_done` to be cleared is taking one sample, whatever it is
(`wp_wait_clear`): the XOR with `!state` complements bit 0 of the word and
not the `op_done` bit.
-/

namespace FpgaV3.Proof.Mmap

open FpgaV3.Spec FpgaV3.Impl FpgaV3.Impl.Mmap

variable {S : Type} {w : World RegOp RegOp.Ans S} {lim : Prop} {σ : S}

theorem wp_getCurTime {Q : Timespec → S → Prop} :
    WP w lim getCurTime σ Q ↔ ∀ t σ', w.step σ .getCurTime t σ' → Q t σ' := Iff.rfl

theorem opdone_true (v : BitVec 32) : opdone v true = opDone v := by
  simp [opdone, opDone]

/-- Bit 0 of the XOR is set: it is not zero. -/
theorem opdone_false (v : BitVec 32) : opdone v false = true := by
  have h : ((v &&& Bits.opDone) ^^^ 1).getLsbD 0 = true := by
    simp [Bits.opDone]
  simp only [opdone, Bool.false_eq_true, if_false, bne_iff_ne, ne_eq]
  intro e
  rw [e] at h
  cases h

/-- Waiting for `op_done` to be cleared is taking one sample. -/
theorem wp_wait_clear {fuel : Nat} {s : Interface} {Q : Bool → S → Prop} :
    WP w lim (waitOpDone fuel s false) σ Q ↔
      ∀ v σ', w.step σ (.regRead .inputUpper) v σ' → Q true σ' := by
  simp only [waitOpDone, wp_bind, wp_registerRead, opdone_false, Bool.not_true, Bool.false_eq_true,
    if_false, wp_pure]

theorem wp_timestamp {s : Interface} {n : Nat} {Q : Unit → S → Prop} :
    WP w lim (timestamp s n) σ Q ↔
      if s.doTiming > n then ∀ t σ', w.step σ .getCurTime t σ' → Q () σ' else Q () σ := by
  unfold timestamp
  split
  · simp only [wp_bind, wp_getCurTime, wp_pure]
  · rfl

theorem wp_setInput {s : Interface} {Q : Interface → S → Prop} :
    WP w lim (setInput s) σ Q ↔
      if s.isInput then Q s σ
      else ∀ u σ', w.step σ (.regWrite .dirLower 0) u σ' → Q { s with isInput := true } σ' := by
  unfold setInput
  split <;> rfl

theorem wp_setOutput {s : Interface} {Q : Interface → S → Prop} :
    WP w lim (setOutput s) σ Q ↔
      if s.isInput then ∀ u σ₁, w.step σ (.regWrite .dirLower 0xffffffff) u σ₁ →
        ∀ u σ₂, w.step σ₁ (.regWrite .outEnLower 0xffffffff) u σ₂ → Q { s with isInput := false } σ₂
      else Q s σ := by
  unfold setOutput
  cases s.isInput <;> simp only [Bool.not_true, Bool.not_false, Bool.false_eq_true, if_true, if_false]
  · rfl
  · rfl

/-- Setting the direction changes no field but `isInput`. -/
theorem setInput_fields {s : Interface} :
    WP w True (setInput s) σ fun s' _ => ∃ b, s' = { s with isInput := b } := by
  rw [wp_setInput]
  split
  · exact ⟨s.isInput, rfl⟩
  · exact fun _ _ _ => ⟨true, rfl⟩

theorem setOutput_fields {s : Interface} :
    WP w True (setOutput s) σ fun s' _ => ∃ b, s' = { s with isInput := b } := by
  rw [wp_setOutput]
  split
  · exact fun _ _ _ _ _ _ => ⟨false, rfl⟩
  · exact ⟨s.isInput, rfl⟩

/-! ## What the parts call -/

variable {P : RegOp → Prop}

theorem all_timestamp (s : Interface) (n : Nat) (ht : P .getCurTime) : (timestamp s n).All P := by
  unfold timestamp
  split
  · exact Prog.all_bind (Prog.all_perform.mpr ht) fun _ => trivial
  · trivial

theorem all_setInput (s : Interface) (hd : P (.regWrite .dirLower 0)) : (setInput s).All P := by
  unfold setInput
  split
  · trivial
  · exact Prog.all_bind (Prog.all_perform.mpr hd) fun _ => trivial

theorem all_setOutput (s : Interface) (hd : P (.regWrite .dirLower 0xffffffff))
    (he : P (.regWrite .outEnLower 0xffffffff)) : (setOutput s).All P := by
  unfold setOutput
  split
  · trivial
  · refine Prog.all_bind (Prog.all_perform.mpr hd) fun _ => ?_
    exact Prog.all_bind (Prog.all_perform.mpr he) fun _ => trivial

theorem all_poll {timeout : Int} {state : Bool} {t : Timespec} (hu : P (.regRead .inputUpper))
    (ht : P .getCurTime) : ∀ (fuel : Nat) (dt : Int), (pollLoop timeout state t fuel dt).All P
  | 0, _ => trivial
  | fuel + 1, dt => by
    unfold pollLoop
    split
    · refine Prog.all_bind (Prog.all_perform.mpr hu) fun u => ?_
      split
      · trivial
      · exact Prog.all_bind (Prog.all_perform.mpr ht) fun t => all_poll hu ht fuel _
    · trivial

theorem all_wait (fuel : Nat) (s : Interface) (state : Bool) (hu : P (.regRead .inputUpper))
    (ht : P .getCurTime) : (waitOpDone fuel s state).All P := by
  refine Prog.all_bind (Prog.all_perform.mpr hu) fun u => ?_
  split
  · refine Prog.all_bind (Prog.all_perform.mpr ht) fun t => ?_
    exact Prog.all_bind (all_poll hu ht fuel _) fun _ => trivial
  · trivial

/-! ## Results -/

/-- Every wait returns true. -/
theorem wait_true {fuel : Nat} {s : Interface}
    {state : Bool} : WP w True (waitOpDone fuel s state) σ fun ok _ => ok = true := by
  simp only [waitOpDone, wp_bind, wp_registerRead]
  intro v σ₁ _
  split
  · simp only [wp_bind, wp_getCurTime, wp_pure]
    exact fun _ _ _ => wp_trivial fun _ _ => trivial
  · rfl

end FpgaV3.Proof.Mmap
