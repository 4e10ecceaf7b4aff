import FpgaV3.Proof.Registers

/-!
# The block loop on the lines

`blockLoop` triggers one access for each quadlet, in its frame, with the data
lines in the direction they were left in (`blockLoop_bus`). The LSB line
follows the address, so it changes with every quadlet.
-/

namespace FpgaV3.Proof

open FpgaV3.Spec FpgaV3.Impl

/-! ## The loop -/

/-- A call that changes no line but the data. -/
def Interior (e : RegOp) : Prop :=
  ∀ r v, e = .regWrite r v → r ≠ .outputUpper ∧ r ≠ .dirLower ∧ r ≠ .outEnLower

/-- A call that does not write `Reg_OutputUpper`. -/
def Steady (e : RegOp) : Prop := ∀ v, e ≠ .regWrite .outputUpper v

/-- The upper lines are `u`, the data lines have the directions `d` and are
enabled as in `e`, and the accesses so far are `as`. -/
structure Around (u d e : BitVec 32) (as : List Emio) (b : Bus) : Prop where
  upper : b.lines.upper = u
  dir : b.lines.dir = d
  en : b.lines.en = e
  accesses : b.accesses = as

variable {α : Type} {u d e : BitVec 32} {as : List Emio} {b : Bus}

theorem upper_write {r : Reg} {v : BitVec 32} (hr : r ≠ .outputUpper) (l : Emio) : (l.write r v).upper = l.upper := by
  cases r <;> first | rfl | exact absurd rfl hr

/-- A write to another register than `Reg_OutputUpper` triggers no access. -/
theorem drive_other {r : Reg} {v : BitVec 32} (hr : r ≠ .outputUpper) (b : Bus) :
    b.drive ⟨.regWrite r v, ()⟩ = ⟨b.lines.write r v, b.accesses⟩ := by
  refine Bus.put_of_not ?_
  simp only [Emio.triggers, Emio.reqBus, Emio.addrLsb, upper_write hr]
  cases b.lines.upper.getLsbD 16 <;> simp

theorem steady_keeps {p : RegProg α} (hp : p.All Steady) :
    WP buses True p b fun _ (b' : Bus) => b'.lines.upper = b.lines.upper ∧ b'.accesses = b.accesses := by
  refine wp_invariant (I := fun (b' : Bus) => b'.lines.upper = b.lines.upper ∧ b'.accesses = b.accesses)
    (fun b₁ e r b₂ he hs h => ?_) hp ⟨rfl, rfl⟩
  obtain ⟨-, rfl⟩ := hs
  cases e with
  | regWrite reg v =>
    have hr : reg ≠ .outputUpper := fun hr => he v (by rw [hr])
    rw [drive_other hr]
    exact ⟨(upper_write hr b₁.lines).trans h.1, h.2⟩
  | _ => exact h

theorem interior_keeps {p : RegProg α} (hp : p.All Interior) (h : Around u d e as b) :
    WP buses True p b fun _ => Around u d e as := by
  refine wp_invariant (fun b e' r b' he hs h => ?_) hp h
  obtain ⟨-, rfl⟩ := hs
  cases e' with
  | regWrite reg v =>
    obtain ⟨hu, hd, he⟩ := he reg v rfl
    rw [drive_other hu]
    cases reg with
    | outputUpper => exact absurd rfl hu
    | dirLower => exact absurd rfl hd
    | outEnLower => exact absurd rfl he
    | _ => exact ⟨h.upper, h.dir, h.en, h.accesses⟩
  | _ => exact h

theorem Around.idle (h : Around 0 d e as b) : b.lines.Idle := by
  constructor <;> simp [Emio.reqBus, Emio.regWen, Emio.blkStart, Emio.blkEnd, h.upper]

/-- An access: the LSB line changes, or `req_bus` rises. -/
theorem write_access {v : BitVec 32} (h : Around u d e as b) (hv : v.getLsbD 16 = true)
    (hu : u.getLsbD 16 = false ∨ u.getLsbD 23 ≠ v.getLsbD 23) :
    ∃ l, l.upper = v ∧ l.dir = d ∧ l.en = e ∧
      Around v d e (as ++ [l]) (b.drive ⟨.regWrite .outputUpper v, ()⟩) := by
  have ht : b.lines.triggers (b.lines.write .outputUpper v) = true := by
    simp only [Emio.triggers, Emio.write, Emio.reqBus, Emio.addrLsb, h.upper, hv, Bool.true_and]
    rcases hu with hu | hu
    · rw [hu, Bool.not_false, Bool.true_or]
    · rw [bne_iff_ne.mpr hu, Bool.or_true]
  refine ⟨b.lines.write .outputUpper v, rfl, h.dir, h.en, ?_⟩
  simp only [Bus.drive, Bus.put_of_triggers ht]
  exact ⟨rfl, h.dir, h.en, by rw [h.accesses]⟩

theorem dirLower_bus {v : BitVec 32} (h : Around u d e as b) :
    WP buses True (registerWrite .dirLower v) b fun _ => Around u v e as := by
  rw [wp_registerWrite]
  rintro x _ ⟨-, rfl⟩
  rw [drive_other (by decide)]
  exact ⟨h.upper, rfl, h.en, h.accesses⟩

/-- Lowering all lines. -/
theorem lower_bus (h : Around u d e as b) :
    WP buses True (registerWrite .outputUpper 0) b fun _ => Around 0 d e as := by
  rw [wp_registerWrite]
  rintro x b' ⟨-, rfl⟩
  have hn : b.lines.triggers (b.lines.write .outputUpper 0) = false := by
    simp [Emio.triggers, Emio.write, Emio.reqBus]
  simp only [Bus.drive, Bus.put_of_not hn]
  exact ⟨rfl, h.dir, h.en, h.accesses⟩

/-- The frames of the quadlets from `q` on. -/
def framesFrom (N q n : Nat) : List (Bool × Bool) :=
  (List.range' q n).map fun q => (decide (q < N - 1), decide (q = N - 1))

theorem framesFrom_zero (n : Nat) : framesFrom n 0 n = frames n := by
  rw [framesFrom, frames, List.range_eq_range']

theorem blockLoop_bus {ready done : Nat → RegProg Unit} {wait : RegProg Bool} {N : Nat}
    (hr : ∀ q, (ready q).All Interior) (hw : wait.All Interior) (hd : ∀ q, (done q).All Interior)
    (hok : ∀ b, WP buses True wait b fun ok _ => ok = true) :
    ∀ (n q : Nat) (addr : BitVec 16) (outreg : BitVec 32) {u : BitVec 32} {as : List Emio} {b : Bus},
      q + n = N → (n ≠ 0 → Opening outreg) → u.getLsbD 16 = false ∨ u.getLsbD 23 ≠ addr.getLsbD 0 →
      Around u d e as b →
      WP buses True (blockLoop ready wait done N n q addr outreg) b fun ok b' => ok = true ∧
        ∃ u' acc, Around u' d e (as ++ acc) b' ∧ acc.map Emio.frame = framesFrom N q n ∧
          ∀ l ∈ acc, l.dir = d ∧ l.en = e
  | 0, q, _, _, u, as, b, _, _, _, h => ⟨rfl, u, [], by rwa [List.append_nil], rfl, fun _ h => absurd h List.not_mem_nil⟩
  | n + 1, q, addr, outreg, u, as, b, hN, ho, hu, h => by
    have ho := ho (by omega)
    simp only [blockLoop, wp_bind, wp_registerWrite]
    refine WP.mono (interior_keeps (hr q) h) fun _ b₁ h₁ x b₂ h₂ => ?_
    obtain ⟨-, rfl⟩ := h₂
    have hv : (updateLsb addr (markLast N q outreg)).getLsbD 16 = true := by
      simp only [getLsbD_updateLsb, getLsbD_markLast, Nat.reduceEqDiff, if_false, ho.req, ite_self]
    have hlsb : (updateLsb addr (markLast N q outreg)).getLsbD 23 = addr.getLsbD 0 := by
      rw [getLsbD_updateLsb, if_pos rfl]
    obtain ⟨l, hl, hld, hle, h₂⟩ := write_access h₁ hv (by rwa [hlsb])
    refine WP.mono (WP.and (hok _) (interior_keeps hw h₂)) fun ok b₃ hpost => ?_
    obtain ⟨hok', h₃⟩ := hpost
    simp only [hok', if_true, wp_bind]
    refine WP.mono (interior_keeps (hd q) h₃) fun _ b₄ h₄ => ?_
    have hnext : n ≠ 0 → Opening (updateLsb addr (markLast N q outreg)) := fun hn => ho.next (by omega) addr
    have hrest := blockLoop_bus (N := N) hr hw hd hok n (q + 1) (addr + 1) _ (by omega) hnext
      (Or.inr (by rw [hlsb, getLsbD_succ]; simp)) h₄
    refine WP.mono hrest fun ok' b₅ hpost => ?_
    obtain ⟨hok'', u', acc, ha, hf, hdir⟩ := hpost
    refine ⟨hok'', u', l :: acc, ?_, ?_, List.forall_mem_cons.mpr ⟨⟨hld, hle⟩, hdir⟩⟩
    · rwa [List.append_assoc] at ha
    · have hlt : decide (q ≠ N - 1) = decide (q < N - 1) := decide_eq_decide.mpr (by omega)
      rw [List.map_cons, hf, (ho.lines hl).2.2, hlt]
      rfl

end FpgaV3.Proof
