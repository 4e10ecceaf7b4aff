import FpgaV3.Proof.Mmap.Calls

/-!
# Waiting for `op_done` on arbitrary inputs

`WaitOpDone`, waiting for `op_done` to be set, sees it set before the timeout
exactly when the inputs say so (`Inputs.AckAt`): `wait_set`.
-/

namespace FpgaV3.Proof.Mmap

open FpgaV3.Spec FpgaV3.Impl FpgaV3.Impl.Mmap

/-- The inputs, and the handshakes so far. -/
abbrev acks (inp : Inputs) (timeout : Int) : World RegOp RegOp.Ans (Cursor × Option (Wait × Nat)) :=
  inp.env.world.observe (ack timeout)

/-- The next sample is `u`, the next reading of the clock `c`, and the
handshakes stand as in `a`. -/
structure At (u c : Nat) (a : Option (Wait × Nat)) (σ : Cursor × Option (Wait × Nat)) : Prop where
  upper : σ.1.upper = u
  clock : σ.1.clock = c
  ack : σ.2 = a

variable {inp : Inputs} {timeout : Int} {u c m : Nat} {a : Option (Wait × Nat)}
  {σ : Cursor × Option (Wait × Nat)}

theorem ack_upper_asked {v : BitVec 32} : ack timeout (some (.asked, m)) ⟨.regRead .inputUpper, v⟩ =
    if opDone v then some (.acked, m + 1) else some (.polled, m) := rfl

theorem ack_upper_since {t : Timespec} {v : BitVec 32} :
    ack timeout (some (.since t, m)) ⟨.regRead .inputUpper, v⟩ =
      if opDone v then some (.acked, m + 1) else some (.since t, m) := rfl

theorem step_upper {v : BitVec 32} {σ' : Cursor × Option (Wait × Nat)} (h : At u c a σ)
    (hs : (acks inp timeout).step σ (.regRead .inputUpper) v σ') :
    v = inp.upper u ∧ At (u + 1) c (ack timeout a ⟨.regRead .inputUpper, v⟩) σ' := by
  obtain ⟨hc, ha⟩ := hs
  obtain ⟨rfl, hσ⟩ := Prod.mk.inj hc
  exact ⟨by rw [h.upper], by rw [← hσ, h.upper], by rw [← hσ]; exact h.clock, by rw [ha, h.ack]⟩

theorem step_clock {t : Timespec} {σ' : Cursor × Option (Wait × Nat)} (h : At u c a σ)
    (hs : (acks inp timeout).step σ .getCurTime t σ') :
    t = inp.clock c ∧ At u (c + 1) (ack timeout a ⟨.getCurTime, t⟩) σ' := by
  obtain ⟨hc, ha⟩ := hs
  obtain ⟨rfl, hσ⟩ := Prod.mk.inj hc
  exact ⟨by rw [h.clock], by rw [← hσ]; exact h.upper, by rw [← hσ, h.clock], by rw [ha, h.ack]⟩

theorem step_write {r : Reg} {v : BitVec 32} {x : Unit} {σ' : Cursor × Option (Wait × Nat)}
    (h : At u c a σ) (hs : (acks inp timeout).step σ (.regWrite r v) x σ') :
    At u c (ack timeout a ⟨.regWrite r v, x⟩) σ' := by
  obtain ⟨hc, ha⟩ := hs
  obtain ⟨rfl, hσ⟩ := Prod.mk.inj hc
  exact ⟨by rw [← hσ]; exact h.upper, by rw [← hσ]; exact h.clock, by rw [ha, h.ack]⟩

theorem timeDiff_self (t : Timespec) : timeDiff t t = 0 := by simp [timeDiff]

/-- What a wait for `op_done` that starts at `u` and `c` leads to: the quadlet
is acknowledged, or the wait timed out. -/
def Waited (inp : Inputs) (timeout : Int) (u c m : Nat) (σ : Cursor × Option (Wait × Nat)) : Prop :=
  (∃ k, inp.AckAt timeout u c k ∧ At (u + k + 1) (c + k) (some (.acked, m + 1)) σ) ∨
    ((¬ ∃ k, inp.AckAt timeout u c k) ∧ σ.2 = none)

/-- The polling loop, after `i + 1` clear samples and as many clock readings,
the last `dt` after the first. -/
theorem pollLoop_set : ∀ (fuel i : Nat) (dt : Int) {σ : Cursor × Option (Wait × Nat)},
    dt = timeDiff (inp.clock c) (inp.clock (c + i)) →
    (∀ j ≤ i, opDone (inp.upper (u + j)) = false) →
    (∀ j < i, timeDiff (inp.clock c) (inp.clock (c + j)) < timeout) →
    At (u + i + 1) (c + i + 1) (if dt < timeout then some (.since (inp.clock c), m) else none) σ →
    WP (acks inp timeout) True (pollLoop timeout true (inp.clock c) fuel dt) σ fun _ =>
      Waited inp timeout u c m
  | 0, _, _, _, _, _, _, _ => trivial
  | fuel + 1, i, dt, σ, hdt, hs, ht, h => by
    have hle : ∀ j < i + 1, timeDiff (inp.clock c) (inp.clock (c + j)) < timeout ∨ ¬ dt < timeout :=
      fun j hj => by
        rcases Nat.lt_or_ge j i with hji | hji
        · exact Or.inl (ht j hji)
        · rw [show j = i by omega, ← hdt]; exact Decidable.em _
    unfold pollLoop
    split
    · rename_i hlt
      rw [if_pos hlt] at h
      simp only [wp_bind, wp_registerRead]
      intro v σ₁ h₁
      obtain ⟨rfl, h₁⟩ := step_upper h h₁
      rw [opdone_true]
      split
      · rename_i hv
        refine Or.inl ⟨i + 1, ⟨hv, fun j hj => ⟨hs j (by omega), ?_⟩⟩, ?_⟩
        · exact (hle j hj).resolve_right (not_not_intro hlt)
        · simp only [ack_upper_since, hv, if_true] at h₁
          exact h₁
      · rename_i hv
        simp only [Bool.not_eq_true] at hv
        simp only [wp_bind, wp_getCurTime]
        intro t σ₂ h₂
        obtain ⟨rfl, h₂⟩ := step_clock h₁ h₂
        simp only [hv, Bool.false_eq_true, if_false, Spec.ack] at h₂
        refine pollLoop_set fuel (i + 1) _ rfl (fun j hj => ?_) (fun j hj => ?_) h₂
        · rcases Nat.lt_or_ge i j with h | h
          · rw [show j = i + 1 by omega]; exact hv
          · exact hs j h
        · exact (hle j hj).resolve_right (not_not_intro hlt)
    · rename_i hge
      rw [if_neg hge] at h
      refine Or.inr ⟨?_, h.ack⟩
      rintro ⟨k, hk, hk'⟩
      rcases Nat.lt_or_ge i k with h | h
      · exact hge (hdt ▸ (hk' i h).2)
      · rw [hs k h] at hk; cases hk

theorem wait_set {s : Interface} {fuel : Nat} (h : At u c (some (.asked, m)) σ) :
    WP (acks inp s.timeout) True (waitOpDone fuel s true) σ fun _ => Waited inp s.timeout u c m := by
  simp only [waitOpDone, wp_bind, wp_registerRead]
  intro v σ₁ h₁
  obtain ⟨rfl, h₁⟩ := step_upper h h₁
  simp only [opdone_true]
  by_cases hv : opDone (inp.upper u) = true
  · simp only [hv, Bool.not_true, Bool.false_eq_true, if_false, wp_pure]
    refine Or.inl ⟨0, ⟨hv, fun _ h => absurd h (Nat.not_lt_zero _)⟩, ?_⟩
    simp only [ack_upper_asked, hv, if_true] at h₁
    exact h₁
  · simp only [Bool.not_eq_true] at hv
    simp only [hv, Bool.not_false, if_true, wp_bind, wp_getCurTime, wp_pure]
    intro t σ₂ h₂
    obtain ⟨rfl, h₂⟩ := step_clock h₁ h₂
    simp only [hv, Bool.false_eq_true, if_false, Spec.ack] at h₂
    refine pollLoop_set fuel 0 0 (timeDiff_self _).symm (fun j hj => ?_)
      (fun _ h => absurd h (Nat.not_lt_zero _)) h₂
    rw [show j = 0 by omega]; exact hv

end FpgaV3.Proof.Mmap
