import FpgaV3.Proof.Mmap.Requests
import FpgaV3.Proof.Mmap.Wait

/-!
# Acknowledged transfers of the mmap driver

On arbitrary inputs, the quadlets of a request are acknowledged, and
`req_bus` is low after it, exactly when each of its waits sees `op_done` set
before it times out (`exec_acks`). As every request returns true, so is a
true result.

* `Quiet`, `Settled`: the calls that do not write `Reg_OutputUpper` leave the
  handshakes as they are while no quadlet is waited for.
* `blockLoop_acks`: the loop of the block transfers.
-/

namespace FpgaV3.Proof.Mmap

open FpgaV3.Spec FpgaV3.Impl FpgaV3.Impl.Mmap

/-! ## Calls that leave the handshakes as they are -/

/-- Any call but a write to `Reg_OutputUpper`. -/
def Quiet (e : RegOp) : Prop := ∀ v, e ≠ .regWrite .outputUpper v

/-- No quadlet is waited for, or one was left unacknowledged. -/
def Settled (a : Option (Wait × Nat)) : Prop := ∀ x ∈ a, x.1.settled = true

theorem ack_settled {timeout : Int} {a : Option (Wait × Nat)} (ha : Settled a) {e : RegOp} (he : Quiet e)
    (r : e.Ans) : ack timeout a ⟨e, r⟩ = a := by
  rcases a with _ | ⟨w, m⟩
  · rfl
  · have hw : w.settled = true := ha _ rfl
    cases e with
    | regWrite reg v =>
      cases reg with
      | outputUpper => exact absurd rfl (he v)
      | _ => rfl
    | regRead reg => cases reg <;> simp [Spec.ack, hw]
    | getCurTime =>
      cases w with
      | idle => rfl
      | acked => rfl
      | _ => cases hw
    | _ => rfl

theorem quiet_timestamp (s : Interface) (n : Nat) : (timestamp s n).All Quiet :=
  all_timestamp s n fun v => by simp

theorem quiet_wait (fuel : Nat) (s : Interface) (state : Bool) : (waitOpDone fuel s state).All Quiet :=
  all_wait fuel s state (fun v => by simp) fun v => by simp

theorem quiet_keeps {α : Type} {inp : Inputs} {timeout : Int} {p : RegProg α} (hp : p.All Quiet)
    {σ : Cursor × Option (Wait × Nat)} (hσ : Settled σ.2) :
    WP (acks inp timeout) True p σ fun _ σ' => σ'.2 = σ.2 :=
  wp_invariant (fun _ _ r _ he hs h => by rw [hs.2, h, ack_settled hσ he r]) hp rfl

/-- A call that neither writes `Reg_OutputUpper`, samples `Reg_InputUpper` nor
reads the clock. -/
def Plain (e : RegOp) : Prop := Quiet e ∧ e ≠ .regRead .inputUpper ∧ e ≠ .getCurTime

variable {inp : Inputs} {timeout : Int} {u c m : Nat} {w : Wait} {a : Option (Wait × Nat)}
  {σ : Cursor × Option (Wait × Nat)}

theorem step_plain (inp : Inputs) {e : RegOp} (he : Plain e) (cur : Cursor) :
    (inp.env.step cur e).2.upper = cur.upper ∧ (inp.env.step cur e).2.clock = cur.clock := by
  obtain ⟨-, hu, ht⟩ := he
  cases e with
  | regRead reg =>
    cases reg with
    | inputUpper => exact absurd rfl hu
    | _ => exact ⟨rfl, rfl⟩
  | getCurTime => exact absurd rfl ht
  | _ => exact ⟨rfl, rfl⟩

theorem plain_keeps {α : Type} {p : RegProg α} (hp : p.All Plain) (ha : Settled a) (h : At u c a σ) :
    WP (acks inp timeout) True p σ fun _ => At u c a := by
  refine wp_invariant (fun σ e r σ' he hs h => ?_) hp h
  obtain ⟨hc, hσ⟩ := hs
  obtain ⟨hu, ht⟩ := step_plain inp he σ.1
  rw [Env.step_world] at hc
  rw [hc] at hu ht
  exact ⟨hu.trans h.upper, ht.trans h.clock, by rw [hσ, h.ack, ack_settled ha he.1]⟩

/-! ## The transfers -/

theorem ackAt_unique {k k' : Nat} (h : inp.AckAt timeout u c k) (h' : inp.AckAt timeout u c k') :
    k = k' := by
  rcases Nat.lt_trichotomy k k' with hk | hk | hk
  · have := (h'.2 k hk).1
    rw [h.1] at this; cases this
  · exact hk
  · have := (h.2 k' hk).1
    rw [h'.1] at this; cases this

/-- What the transfer of `n` quadlets leads to, the first wait starting at `u`
and `c` with `m` quadlets acknowledged before: all of them are, or one is not. -/
def Transferred (inp : Inputs) (timeout : Int) (n u c m : Nat) (a : Option (Wait × Nat)) : Prop :=
  (inp.AllAcked timeout n u c ∧ ∃ w, w.settled = true ∧ a = some (w, m + n)) ∨
    (¬ inp.AllAcked timeout n u c ∧ a = none)

theorem Transferred.settled {n : Nat} {a : Option (Wait × Nat)} (h : Transferred inp timeout n u c m a) :
    Settled a := by
  rcases h with ⟨-, w, hw, rfl⟩ | ⟨-, rfl⟩
  · rintro x ⟨⟩; exact hw
  · rintro x ⟨⟩

theorem transferred_one (h : Waited inp timeout u c m σ) : Transferred inp timeout 1 u c m σ.2 := by
  rcases h with ⟨k, hk, hσ⟩ | ⟨hk, hσ⟩
  · exact Or.inl ⟨⟨k, hk, trivial⟩, .acked, rfl, hσ.ack⟩
  · exact Or.inr ⟨fun h => hk (h.imp fun _ h => h.1), hσ⟩

/-- The handshake of the next quadlet of a block starts. -/
theorem step_request {v : BitVec 32} {x : Unit} {σ' : Cursor × Option (Wait × Nat)}
    (hv : reqBus v = true) (hw : w.settled = true) (h : At u c (some (w, m)) σ)
    (hs : (acks inp timeout).step σ (.regWrite .outputUpper v) x σ') : At u c (some (.asked, m)) σ' := by
  have h' := step_write h hs
  simp only [Spec.ack, hw, hv, if_true] at h'
  exact h'

theorem blockLoop_acks {s : Interface} {fuel N : Nat} {ready done : Nat → RegProg Unit}
    (hr : ∀ q, (ready q).All Plain) (hd : ∀ q, (done q).All Plain) :
    ∀ (n q : Nat) (addr : BitVec 16) (outreg : BitVec 32) {u c m : Nat} {w : Wait}
      {σ : Cursor × Option (Wait × Nat)}, reqBus outreg = true → w.settled = true →
      At u c (some (w, m)) σ →
      WP (acks inp s.timeout) True (blockLoop ready (waitOpDone fuel s true) done N n q addr outreg) σ
        fun _ σ' => Transferred inp s.timeout n u c m σ'.2
  | 0, _, _, _, _, _, _, w, _, _, hw, h => Or.inl ⟨trivial, w, hw, h.ack⟩
  | n + 1, q, addr, outreg, u, c, m, w, σ, ho, hw, h => by
    simp only [blockLoop, wp_bind, wp_registerWrite]
    refine WP.mono (plain_keeps (hr q) (by rintro x ⟨⟩; exact hw) h) fun _ σ₁ h₁ x σ₂ h₂ => ?_
    have h₂ := step_request (reqBus_next ho) hw h₁ h₂
    refine WP.mono (WP.and wait_true (wait_set h₂)) fun ok σ₃ hpost => ?_
    obtain ⟨hok, h₃⟩ := hpost
    simp only [hok, if_true, wp_bind]
    rcases h₃ with ⟨k, hk, h₃⟩ | ⟨hk, h₃⟩
    · refine WP.mono (plain_keeps (hd q) (by rintro x ⟨⟩; rfl) h₃) fun _ σ₄ h₄ => ?_
      refine WP.mono (blockLoop_acks hr hd n _ _ _ (reqBus_next ho) rfl h₄) fun _ σ₅ h₅ => ?_
      rcases h₅ with ⟨hn, w', hw', e⟩ | ⟨hn, e⟩
      · exact Or.inl ⟨⟨k, hk, hn⟩, w', hw', by rw [e, Nat.add_right_comm, Nat.add_assoc]⟩
      · refine Or.inr ⟨?_, e⟩
        rintro ⟨k', hk', hn'⟩
        rw [ackAt_unique hk' hk] at hn'
        exact hn hn'
    · have hnone : ∀ σ e r σ', True → (acks inp s.timeout).step σ e r σ' → σ.2 = none → σ'.2 = none :=
        fun _ _ _ _ _ hs h => by rw [hs.2, h]; rfl
      rw [← wp_bind]
      refine WP.mono (wp_invariant hnone (Prog.all_of_forall (fun _ => trivial) _) h₃)
        fun _ σ₄ h₄ => Or.inr ⟨fun h => hk (h.imp fun _ h => h.1), h₄⟩

/-! ## The requests -/

/-- The clock readings that precede the first wait of a request. -/
def startReads (s : Interface) : Nat := (if s.doTiming > 0 then 1 else 0) + if s.doTiming > 1 then 1 else 0

theorem timestamp_at {s : Interface} {n : Nat} (ha : ∀ t, ack timeout a ⟨.getCurTime, t⟩ = a)
    (h : At u c a σ) :
    WP (acks inp timeout) True (timestamp s n) σ fun _ => At u (c + if s.doTiming > n then 1 else 0) a := by
  rw [wp_timestamp]
  split
  · intro t σ' hs
    have h' := (step_clock h hs).2
    rw [ha] at h'
    exact h'
  · exact h

theorem setInput_at {s : Interface} (ha : Settled a) (h : At u c a σ) :
    WP (acks inp timeout) True (setInput s) σ fun s' σ' => (∃ b, s' = { s with isInput := b }) ∧ At u c a σ' :=
  WP.and setInput_fields (plain_keeps (all_setInput s (by simp [Plain, Quiet])) ha h)

theorem setOutput_at {s : Interface} (ha : Settled a) (h : At u c a σ) :
    WP (acks inp timeout) True (setOutput s) σ fun s' σ' => (∃ b, s' = { s with isInput := b }) ∧ At u c a σ' :=
  WP.and setOutput_fields
    (plain_keeps (all_setOutput s (by simp [Plain, Quiet]) (by simp [Plain, Quiet])) ha h)

/-- What a request leads to: all quadlets are acknowledged and `req_bus` is
low, or one quadlet is not acknowledged. -/
def Finished (inp : Inputs) (timeout : Int) (n u c : Nat) (a : Option (Wait × Nat)) : Prop :=
  (inp.AllAcked timeout n u c ∧ a = some (.idle, n)) ∨ (¬ inp.AllAcked timeout n u c ∧ a = none)

theorem Finished.settled {n : Nat} (h : Finished inp timeout n u c a) : Settled a := by
  rcases h with ⟨-, rfl⟩ | ⟨-, rfl⟩
  · rintro x ⟨⟩; rfl
  · rintro x ⟨⟩

theorem transferred_quiet {α : Type} {p : RegProg α} (hp : p.All Quiet) {n : Nat}
    (h : Transferred inp timeout n u c m σ.2) :
    WP (acks inp timeout) True p σ fun _ σ' => Transferred inp timeout n u c m σ'.2 :=
  WP.mono (quiet_keeps hp h.settled) fun _ _ e => by rw [e]; exact h

theorem finished_quiet {α : Type} {p : RegProg α} (hp : p.All Quiet) {n : Nat}
    (h : Finished inp timeout n u c σ.2) :
    WP (acks inp timeout) True p σ fun _ σ' => Finished inp timeout n u c σ'.2 :=
  WP.mono (quiet_keeps hp h.settled) fun _ _ e => by rw [e]; exact h

/-- Lowering `req_bus` finishes the transfer. -/
theorem finish {n : Nat} (h : Transferred inp timeout n u c 0 σ.2) :
    WP (acks inp timeout) True (registerWrite .outputUpper 0) σ fun _ σ' =>
      Finished inp timeout n u c σ'.2 := by
  rw [wp_registerWrite]
  rintro x σ' ⟨-, hσ⟩
  rw [hσ]
  rcases h with ⟨hn, w, hw, e⟩ | ⟨hn, e⟩
  · refine Or.inl ⟨hn, ?_⟩
    simp only [e, Spec.ack, hw, if_true, reqBus_zero, Bool.false_eq_true, if_false, Nat.zero_add]
  · exact Or.inr ⟨hn, by rw [e]; rfl⟩

/-- A quadlet transfer: the request, raised by a word `v`, and the wait. -/
theorem request_acks {s : Interface} {fuel : Nat} {v : BitVec 32} (hv : reqBus v = true)
    (h : At u c (some (.idle, 0)) σ) :
    WP (acks inp s.timeout) True (registerWrite .outputUpper v) σ fun _ σ₁ =>
      WP (acks inp s.timeout) True (timestamp s 1) σ₁ fun _ σ₂ =>
        WP (acks inp s.timeout) True (waitOpDone fuel s true) σ₂ fun ok σ₃ => ok = true ∧
          Transferred inp s.timeout 1 u (c + if s.doTiming > 1 then 1 else 0) 0 σ₃.2 := by
  rw [wp_registerWrite]
  intro x σ₁ h₁
  refine WP.mono (timestamp_at (fun _ => rfl) (step_request hv rfl h h₁)) fun _ σ₂ h₂ => ?_
  exact WP.mono (WP.and wait_true (wait_set h₂)) fun _ _ h => ⟨h.1, transferred_one h.2⟩

/-- On arbitrary inputs, a request has all its quadlets acknowledged if every
wait for `op_done` sees it set before the timeout, and only then. -/
theorem exec_acks {s : Interface} {req : Request} {fuel : Nat} (hv : Supported s req) (cur : Cursor) :
    WP (acks inp s.timeout) True (exec fuel req s) (cur, some (.idle, 0)) fun _ σ' =>
      Finished inp s.timeout req.quads cur.upper (cur.clock + startReads s) σ'.2 := by
  have h₀ : At cur.upper cur.clock (some (.idle, 0)) (cur, some (Wait.idle, 0)) := ⟨rfl, rfl, rfl⟩
  have hi : Settled (some (Wait.idle, 0)) := by rintro x ⟨⟩; rfl
  cases req with
  | readQuadlet addr =>
    simp only [exec, readQuadlet, wp_bind, wp_pure]
    refine WP.mono (timestamp_at (fun _ => rfl) h₀) fun _ σ₁ h₁ => ?_
    refine WP.mono (setInput_at hi h₁) fun s' σ₂ hpost => ?_
    obtain ⟨⟨b, hs⟩, h₂⟩ := hpost
    subst hs
    refine WP.mono (request_acks (reqBus_request _) h₂) fun _ _ h => WP.mono h fun _ _ h =>
      WP.mono h fun ok σ₃ hpost => ?_
    obtain ⟨hok, h₃⟩ := hpost
    simp only [hok, if_true, wp_bind, wp_pure]
    rw [Nat.add_assoc] at h₃
    refine WP.mono (transferred_quiet (quiet_timestamp _ _) h₃) fun _ _ h => ?_
    refine WP.mono (transferred_quiet (Prog.all_perform.mpr fun v => by simp) h) fun _ _ h => ?_
    refine WP.mono (finish h) fun _ _ h => WP.mono (finished_quiet (quiet_wait ..) h) fun _ _ h => ?_
    exact WP.mono (finished_quiet (quiet_timestamp _ _) h) fun _ _ h => h
  | writeQuadlet addr data =>
    simp only [exec, writeQuadlet, wp_bind]
    refine WP.mono (timestamp_at (fun _ => rfl) h₀) fun _ σ₁ h₁ => ?_
    refine WP.mono (setOutput_at hi h₁) fun s' σ₂ hpost => ?_
    obtain ⟨⟨b, hs⟩, h₂⟩ := hpost
    subst hs
    refine WP.mono (plain_keeps (Prog.all_perform.mpr (by simp [Plain, Quiet])) hi h₂) fun _ _ h₂ => ?_
    refine WP.mono (request_acks (reqBus_request _) h₂) fun _ _ h => WP.mono h fun _ _ h =>
      WP.mono h fun ok σ₃ hpost => ?_
    obtain ⟨hok, h₃⟩ := hpost
    simp only [hok, if_true, wp_bind, wp_pure]
    rw [Nat.add_assoc] at h₃
    refine WP.mono (transferred_quiet (quiet_timestamp _ _) h₃) fun _ _ h => ?_
    refine WP.mono (finish h) fun _ _ h => WP.mono (finished_quiet (quiet_wait ..) h) fun _ _ h => ?_
    exact WP.mono (finished_quiet (quiet_timestamp _ _) h) fun _ _ h => h
  | readBlock addr nBytes =>
    simp only [exec, readBlock, if_neg (hv rfl), wp_bind]
    refine WP.mono (timestamp_at (fun _ => rfl) h₀) fun _ σ₁ h₁ => ?_
    refine WP.mono (setInput_at hi h₁) fun s' σ₂ hpost => ?_
    obtain ⟨⟨b, hs⟩, h₂⟩ := hpost
    subst hs
    refine WP.mono (timestamp_at (fun _ => rfl) h₂) fun _ σ₃ h₃ => ?_
    rw [Nat.add_assoc] at h₃
    refine WP.mono (WP.and (blockLoop_true ..) (blockLoop_acks (fun _ => ?_) (fun q => ?_) _ _ _ _
      (reqBus_request _) rfl h₃)) fun ok σ₄ hpost => ?_
    · trivial
    · exact Prog.all_bind (Prog.all_perform.mpr (by simp [Plain, Quiet])) fun _ =>
        Prog.all_perform.mpr (by simp [Plain, Quiet])
    obtain ⟨hok, h₄⟩ := hpost
    simp only [hok, if_true, wp_bind, wp_pure]
    refine WP.mono (transferred_quiet (quiet_timestamp _ _) h₄) fun _ _ h => ?_
    refine WP.mono (finish h) fun _ _ h => WP.mono (finished_quiet (quiet_wait ..) h) fun _ _ h => ?_
    exact WP.mono (finished_quiet (quiet_timestamp _ _) h) fun _ _ h => h
  | writeBlock addr nBytes =>
    simp only [exec, writeBlock, if_neg (hv rfl), wp_bind]
    refine WP.mono (timestamp_at (fun _ => rfl) h₀) fun _ σ₁ h₁ => ?_
    refine WP.mono (setOutput_at hi h₁) fun s' σ₂ hpost => ?_
    obtain ⟨⟨b, hs⟩, h₂⟩ := hpost
    subst hs
    refine WP.mono (timestamp_at (fun _ => rfl) h₂) fun _ σ₃ h₃ => ?_
    rw [Nat.add_assoc] at h₃
    refine WP.mono (WP.and (blockLoop_true ..) (blockLoop_acks (fun q => ?_) (fun _ => ?_) _ _ _ _
      (reqBus_request _) rfl h₃)) fun ok σ₄ hpost => ?_
    · exact Prog.all_bind (Prog.all_perform.mpr (by simp [Plain, Quiet])) fun _ =>
        Prog.all_perform.mpr (by simp [Plain, Quiet])
    · trivial
    obtain ⟨hok, h₄⟩ := hpost
    simp only [hok, if_true, wp_bind, wp_pure]
    refine WP.mono (transferred_quiet (quiet_timestamp _ _) h₄) fun _ _ h => ?_
    refine WP.mono (transferred_quiet (quiet_wait ..) h) fun _ _ h => WP.mono (finish h) fun _ _ h => ?_
    exact WP.mono (finished_quiet (quiet_timestamp _ _) h) fun _ _ h => h

/-- A request that returns true had its quadlets acknowledged in time, exactly
when every wait for `op_done` sees it set before it times out. -/
theorem exec_acknowledged_iff {s s' : Interface} {req : Request} {fuel : Nat} {cur cur' : Cursor}
    {t : Trace RegOp RegOp.Ans} {ok : Bool} (hv : Supported s req)
    (hr : (exec fuel req s).Runs t (ok, s')) (hp : inp.env.world.Path cur t cur') :
    (ok = true → Acknowledged s.timeout req.quads t) ↔
      inp.AllAcked s.timeout req.quads cur.upper (cur.clock + startReads s) := by
  have hok : ok = true := (exec_true hv cur).sound hr hp
  have hf := (exec_acks hv cur).sound hr (hp.observe _ _)
  simp only [hok, forall_const, Acknowledged]
  rcases hf with ⟨hn, e⟩ | ⟨hn, e⟩
  · exact iff_of_true e hn
  · exact iff_of_false (fun h => Option.some_ne_none _ (h.symm.trans e)) hn

/-- The firmware never answers, and the clock advances by 300 us a reading. -/
def unanswered : Inputs := ⟨fun _ => 0, fun _ => 0xdeadbeef, fun k => ⟨0, 300000 * k⟩, fun _ => 0⟩

/-- The firmware has answered at every sample. -/
def answered : Inputs := ⟨fun _ => Bits.opDone, fun _ => 0xdeadbeef, fun k => ⟨0, 300000 * k⟩, fun _ => 0⟩

def readRequest (fuel : Nat) : RegProg (Bool × Interface) :=
  exec fuel (.readQuadlet 0x10) { version := 1 }

theorem exec_acknowledged_iff_answered :
    (true = true → Acknowledged 250000 1 (answered.env.trace (readRequest 2) {})) ↔
      answered.AllAcked 250000 1 0 (0 + startReads { version := 1 }) :=
  have h := Env.runs_of_run (show answered.env.run (readRequest 2) {} = some (_, _) from rfl)
  exec_acknowledged_iff (fun hb => by cases hb) h.1 h.2

/-- `ReadQuadlet` returns true, having read data that the firmware never
presented. -/
theorem unanswered_read : ∃ t s' cur', (readRequest 2).Runs t (true, s') ∧
    unanswered.env.world.Path {} t cur' ∧ ¬ Acknowledged 250000 1 t :=
  have h := Env.runs_of_run (show unanswered.env.run (readRequest 2) {} = some (_, _) from rfl)
  ⟨_, _, _, h.1, h.2, by decide⟩

end FpgaV3.Proof.Mmap
