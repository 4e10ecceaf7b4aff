import FpgaV3.Framework.Session
import FpgaV3.Proof.Mmap.Device
import FpgaV3.Spec.Healthy

/-!
# Block transfers as quadlet transfers

Against a firmware that acknowledges each access within the timeout, a quadlet
request reads or writes one register, and a block request the registers from
its address on (`readBlock_device`, `writeBlock_device`). So after any history
a block request does what the quadlet requests of its words would do
(`block_refines_quadlets`).
-/

namespace FpgaV3.Proof.Mmap

open FpgaV3.Spec FpgaV3.Impl FpgaV3.Impl.Mmap

variable {T : Int} {L fuel : Nat} {σ : Device} {v : View} {s : Interface} {d e : BitVec 32}
  {R : BitVec 16 → BitVec 32} {M : Nat → BitVec 32}

/-! ## The requests -/

theorem setWidth_word (a : BitVec 16) {x : BitVec 32} (hx : x.setWidth 16 = 0) :
    (a.setWidth 32 ||| x).setWidth 16 = a := by
  rw [BitVec.setWidth_or, hx, BitVec.setWidth_setWidth_of_le _ (by omega), BitVec.setWidth_eq]
  exact BitVec.or_zero

theorem resting_input (hi : s.isInput = true) (hd : (view σ).lines.dir = 0) (hu : (view σ).lines.upper = 0)
    (hw : (view σ).wait = .idle) : Device.Resting s σ where
  kept := ⟨Around.idle ⟨hu, hd, rfl, rfl⟩, by rw [Synced, if_pos hi]; exact hd⟩
  wait := hw

theorem resting_output (hi : s.isInput = false)
    (hd : (view σ).lines.dir = BitVec.allOnes 32 ∧ (view σ).lines.en = BitVec.allOnes 32)
    (hu : (view σ).lines.upper = 0) (hw : (view σ).wait = .idle) : Device.Resting s σ where
  kept := ⟨Around.idle ⟨hu, hd.1, hd.2, rfl⟩, by rw [Synced, if_neg (by simp [hi])]; exact hd⟩
  wait := hw

/-- The end of a block: `req_bus` is lowered. -/
theorem ended_lower (h : Ended d e R M (view σ)) :
    WP (devices T L) False (registerWrite .outputUpper 0) σ fun _ σ' => view σ' =
      { view σ with lines := (view σ).lines.write .outputUpper 0, wait := .idle } :=
  lower_view (h.wait.elim (fun h => Or.inl h.2) Or.inr) rfl fun _ h => h

theorem Ended.settled (h : Ended d e R M v) : v.wait.settled = true := by
  rcases h.wait with ⟨hw, -⟩ | hw <;> rw [hw] <;> rfl

theorem asked_ne : Wait.asked ≠ .polled := by decide
theorem acked_ne : Wait.acked ≠ .polled := by decide
theorem idle_ne : Wait.idle ≠ .polled := by decide

theorem Ended.ne_polled (h : Ended d e R M v) : v.wait ≠ .polled := by
  rcases h.wait with ⟨hw, -⟩ | hw <;> rw [hw]
  · exact acked_ne
  · exact idle_ne

/-- `ReadQuadlet` returns the register. -/
theorem readQuadlet_device {a : BitVec 16} (hf : L < fuel) (h : Device.Resting s σ) :
    WP (devices s.timeout L) False (readQuadlet fuel s a) σ fun x σ' =>
      x.1 = some (σ.regs a) ∧ Device.Resting x.2 σ' ∧ σ'.regs = σ.regs ∧ σ'.mem = σ.mem := by
  have hidle : (view σ).wait ≠ .polled := by rw [show (view σ).wait = .idle from h.wait]; exact idle_ne
  simp only [readQuadlet, wp_bind]
  refine timestamp_view hidle rfl (setInput_view h.kept.input rfl fun σ₁ h₁ => ?_)
  have hlow : σ.bus.lines.reqBus = false := h.kept.idle.reqBus
  have hnext : Next { view σ with lines := { (view σ).lines with dir := 0 } } (a.setWidth 32 ||| Bits.requestBus) a :=
    Or.inl ⟨hlow, setWidth_word a (by decide)⟩
  refine request_view (reqBus_request _) hnext h₁ fun σ₂ hl h₂ => ?_
  refine timestamp_view asked_ne h₂ (wait_view rfl hf hl rfl h₂ fun σ₃ h₃ => ?_)
  simp only [if_true, wp_bind]
  have hhigh : (view σ₃).lines.reqBus = true := by rw [h₃]; exact reqBus_request _
  rw [h₃] at hhigh
  refine timestamp_view acked_ne h₃ (read_view rfl rfl h₃ ?_)
  refine lower_view (Or.inl hhigh) h₃ fun σ₄ h₄ => ?_
  refine clear_view rfl h₄ (timestamp_view idle_ne h₄ ?_)
  refine ⟨rfl, resting_input rfl ?_ ?_ ?_, congrArg View.regs h₄, congrArg View.mem h₄⟩ <;> rw [h₄] <;> rfl

/-- `WriteQuadlet` writes the register. -/
theorem writeQuadlet_device {a : BitVec 16} {x : BitVec 32} (hf : L < fuel) (h : Device.Resting s σ) :
    WP (devices s.timeout L) False (writeQuadlet fuel s a x) σ fun y σ' =>
      y.1 = true ∧ y.2.timeout = s.timeout ∧ Device.Resting y.2 σ' ∧ σ'.regs = put σ.regs a x ∧ σ'.mem = σ.mem := by
  have hidle : (view σ).wait ≠ .polled := by rw [show (view σ).wait = .idle from h.wait]; exact idle_ne
  simp only [writeQuadlet, wp_bind]
  refine timestamp_view hidle rfl (setOutput_view h.kept.output rfl fun σ₁ h₁ => ?_)
  refine other_view (by decide) h₁ fun σ₂ h₂ => ?_
  have hlow : (view σ₂).lines.reqBus = false := by rw [h₂]; exact h.kept.idle.reqBus
  have hnext : Next (view σ₂) (a.setWidth 32 ||| Bits.regWen ||| Bits.requestBus) a := by
    refine Or.inl ⟨hlow, ?_⟩
    rw [BitVec.or_assoc]
    exact setWidth_word a (by decide)
  rw [h₂] at hnext
  refine request_view (reqBus_request _) hnext h₂ fun σ₃ hl h₃ => ?_
  refine timestamp_view asked_ne h₃ (wait_view rfl hf hl rfl h₃ fun σ₄ h₄ => ?_)
  simp only [if_true, wp_bind]
  have hhigh : (view σ₄).lines.reqBus = true := by rw [h₄]; exact reqBus_request _
  rw [h₄] at hhigh
  refine timestamp_view acked_ne h₄ (lower_view (Or.inl hhigh) h₄ fun σ₅ h₅ => ?_)
  refine clear_view rfl h₅ (timestamp_view idle_ne h₅ ?_)
  refine ⟨rfl, rfl, resting_output rfl ?_ ?_ ?_, congrArg View.regs h₅, congrArg View.mem h₅⟩ <;> rw [h₅]
  · exact ⟨rfl, rfl⟩
  · rfl

theorem upcoming_first {a : BitVec 16} (h : v.lines.reqBus = false) :
    Upcoming v (a.setWidth 32 ||| Bits.blkStart ||| Bits.requestBus) a := by
  refine Or.inl ⟨h, ?_⟩
  rw [BitVec.or_assoc]
  exact setWidth_word a (by decide)

/-- `ReadBlock` stores the registers, and changes none. -/
theorem readBlock_device {a : BitVec 16} {nBytes : BitVec 32} (hf : L < fuel) (hv : ¬ s.version < 1)
    (h : Device.Resting s σ) :
    WP (devices s.timeout L) False (readBlock fuel s a nBytes) σ fun x σ' =>
      x = (true, { s with isInput := true }) ∧ Device.Resting x.2 σ' ∧ σ'.regs = σ.regs ∧
        σ'.mem = stored σ.regs σ.mem a 0 (nQuads nBytes) := by
  have hidle : (view σ).wait = .idle := h.wait
  have hne : (view σ).wait ≠ .polled := by rw [hidle]; exact idle_ne
  simp only [readBlock, if_neg hv, wp_bind]
  refine timestamp_view hne rfl (setInput_view h.kept.input rfl fun σ₁ h₁ => ?_)
  have hlow : (view σ₁).lines.reqBus = false := by rw [h₁]; exact h.kept.idle.reqBus
  have hstart : Ended 0 σ.bus.lines.en σ.regs σ.mem (view σ₁) := by
    rw [h₁]
    exact ⟨rfl, rfl, rfl, rfl, Or.inr hidle⟩
  refine timestamp_view (by rw [h₁]; exact hne) rfl ?_
  refine WP.mono (readLoop_device rfl hf (Nat.zero_add _) (fun _ => opening a) (upcoming_first hlow) hstart)
    fun ok σ₂ hpost => ?_
  obtain ⟨hok, hend⟩ := hpost
  simp only [hok, if_true, wp_bind]
  refine timestamp_view hend.ne_polled rfl (WP.mono (ended_lower hend) fun _ σ₃ h₃ => ?_)
  refine clear_view rfl h₃ (timestamp_view idle_ne h₃ ?_)
  refine ⟨rfl, resting_input rfl ?_ ?_ ?_, ?_, ?_⟩
  · rw [h₃]; exact hend.dir
  · rw [h₃]; rfl
  · rw [h₃]
  · exact (congrArg View.regs h₃).trans hend.regs
  · exact (congrArg View.mem h₃).trans hend.mem

/-- `WriteBlock` writes the registers from its address on. -/
theorem writeBlock_device {a : BitVec 16} {nBytes : BitVec 32} (hf : L < fuel) (hv : ¬ s.version < 1)
    (h : Device.Resting s σ) :
    WP (devices s.timeout L) False (writeBlock fuel s a nBytes) σ fun x σ' =>
      x = (true, { s with isInput := false }) ∧ Device.Resting x.2 σ' ∧
        σ'.regs = fill σ.regs a (fun i => bswap32 (σ.mem i)) (nQuads nBytes) ∧ σ'.mem = σ.mem := by
  have hidle : (view σ).wait = .idle := h.wait
  have hne : (view σ).wait ≠ .polled := by rw [hidle]; exact idle_ne
  simp only [writeBlock, if_neg hv, wp_bind]
  refine timestamp_view hne rfl (setOutput_view h.kept.output rfl fun σ₁ h₁ => ?_)
  have hlow : (view σ₁).lines.reqBus = false := by rw [h₁]; exact h.kept.idle.reqBus
  have hstart : Ended (BitVec.allOnes 32) (BitVec.allOnes 32) σ.regs σ.mem (view σ₁) := by
    rw [h₁]
    exact ⟨rfl, rfl, rfl, rfl, Or.inr hidle⟩
  refine timestamp_view (by rw [h₁]; exact hne) rfl ?_
  refine WP.mono (writeLoop_device rfl hf (by decide) (Nat.zero_add _) (fun _ => opening a) (upcoming_first hlow) hstart)
    fun ok σ₂ hpost => ?_
  obtain ⟨hok, hend⟩ := hpost
  simp only [hok, if_true, wp_bind]
  refine timestamp_view hend.ne_polled rfl (clear_view hend.settled rfl ?_)
  refine WP.mono (ended_lower hend) fun _ σ₃ h₃ => timestamp_view idle_ne h₃ ?_
  refine ⟨rfl, resting_output rfl ?_ ?_ ?_, ?_, ?_⟩
  · rw [h₃]; exact ⟨hend.dir, hend.en⟩
  · rw [h₃]; rfl
  · rw [h₃]
  · rw [show σ₃.regs = σ₂.regs from congrArg View.regs h₃, show σ₂.regs = _ from hend.regs]
    simp only [Nat.zero_add]
  · exact (congrArg View.mem h₃).trans hend.mem

/-- The quadlets written one by one. -/
theorem writeQuadlets_device {a : BitVec 16} {data : Nat → BitVec 32} (hf : L < fuel) {n q : Nat}
    (h : Device.Resting s σ) :
    WP (devices s.timeout L) False (writeQuadlets fuel a data n q s) σ fun y σ' =>
      y.1 = true ∧ σ'.regs = fill σ.regs (a + BitVec.ofNat 16 q) (fun i => data (q + i)) n := by
  induction n generalizing q s σ with
  | zero => exact ⟨rfl, rfl⟩
  | succ n ih =>
    simp only [writeQuadlets, wp_bind]
    refine WP.mono (writeQuadlet_device hf h) fun x σ₁ hpost => ?_
    obtain ⟨ok, s'⟩ := x
    obtain ⟨hok, ht, hrest, hregs, _⟩ := hpost
    have ih := ih (q := q + 1) hrest
    rw [show s'.timeout = s.timeout from ht] at ih
    refine WP.mono ih fun x σ₂ h => ?_
    obtain ⟨oks, s''⟩ := x
    obtain ⟨hoks, hfill⟩ := h
    refine ⟨?_, ?_⟩
    · rw [show ok = true from hok, show oks = true from hoks]; rfl
    · have hshift : (fun i => data (q + 1 + i)) = fun i => data (q + (i + 1)) := by
        funext i
        rw [Nat.add_assoc, Nat.add_comm 1 i]
      rw [hfill, hregs, hshift, fill_front, add_succ, BitVec.add_assoc a, BitVec.add_comm 1, ← BitVec.add_assoc]
      rfl

/-! ## Histories -/

/-- The lines of a path of the firmware. -/
theorem devices_bus {σ' : Device} {t : Trace RegOp RegOp.Ans} (h : (devices T L).Path σ t σ') :
    buses.Path σ.bus t σ'.bus := by
  induction t generalizing σ with
  | nil => exact congrArg Device.bus h
  | cons x t ih =>
    obtain ⟨e, r⟩ := x
    obtain ⟨σ₁, hs, hp⟩ := h
    have hbus : σ₁.bus = σ.bus.drive ⟨e, r⟩ := by
      cases e with
      | regWrite reg v =>
        obtain ⟨k, -, rfl⟩ := hs
        unfold Device.drive
        dsimp only
        split <;> rfl
      | regRead reg =>
        cases reg with
        | inputUpper =>
          obtain ⟨-, rfl⟩ := hs
          unfold Device.sample
          split
          · rfl
          · split <;> rfl
        | inputLower => rw [hs.2]; rfl
        | _ => rw [hs]; rfl
      | getCurTime =>
        obtain ⟨-, rfl⟩ := hs
        unfold Device.clock
        split <;> rfl
      | load q => rw [hs.2]; rfl
      | store q v => rw [hs]; rfl
      | _ => rw [hs]; rfl
    exact ⟨_, ⟨trivial, rfl⟩, hbus ▸ ih hp⟩

/-- No handshake is open while `req_bus` is low. -/
def Dormant (σ : Device) : Prop := σ.bus.lines.reqBus = false → σ.wait = .idle

theorem dormant_step {σ' : Device} {e : RegOp} {r : e.Ans} (hs : (devices T L).step σ e r σ') (h : Dormant σ) :
    Dormant σ' := by
  cases e with
  | regWrite reg v =>
    obtain ⟨k, -, rfl⟩ := hs
    unfold Device.drive
    dsimp only
    split
    · rename_i ht
      intro hlow
      rw [Emio.triggers, show (σ.bus.lines.write reg v).reqBus = false from hlow] at ht
      cases ht
    · intro hlow
      have hlow : (σ.bus.lines.write reg v).reqBus = false := hlow
      cases hr : σ.bus.lines.reqBus
      · simp only [Bool.false_and, Bool.false_eq_true, if_false]; exact h hr
      · simp only [hlow, Bool.not_false, Bool.and_self, if_true]
  | regRead reg =>
    cases reg with
    | inputUpper =>
      obtain ⟨-, rfl⟩ := hs
      unfold Device.sample
      split
      · exact h
      · rename_i hset
        have hhigh : σ.bus.lines.reqBus ≠ false := fun hlow => hset (by rw [h hlow]; rfl)
        split <;> exact fun hlow => absurd hlow hhigh
    | inputLower => rw [hs.2]; exact h
    | _ => rw [hs]; exact h
  | getCurTime =>
    obtain ⟨-, rfl⟩ := hs
    unfold Device.clock
    split
    · rename_i hp
      exact fun hlow => absurd (h hlow) (by rw [hp]; decide)
    · exact h
  | load q => rw [hs.2]; exact h
  | store q v => rw [hs]; exact h
  | _ => rw [hs]; exact h

theorem dormant_path {σ' : Device} {t : Trace RegOp RegOp.Ans} (hp : (devices T L).Path σ t σ') (h : Dormant σ) :
    Dormant σ' := by
  induction t generalizing σ with
  | nil => exact hp ▸ h
  | cons x t ih =>
    obtain ⟨σ₁, hs, hp⟩ := hp
    exact ih hp (dormant_step hs h)

/-- After a successful `Init` and any requests, no request is in progress. -/
theorem history_resting {t : Trace RegOp RegOp.Ans} {x : Interface} {σ₀ σ₁ : Device}
    {cs : List (Call RegOp RegOp.Ans Device Request Interface Bool)} (hi : (Mmap.init {}).Runs t (true, x))
    (hp : (devices T L).Path σ₀ t σ₁) (hw : σ₀.wait = .idle) (hs : Session (devices T L) (exec fuel) x σ₁ cs s σ) :
    Device.Resting s σ := by
  have hkept : Kept x σ₁.bus := ((init_kept.sound hi (devices_bus hp)) rfl).1
  have hdormant : Dormant σ₁ := dormant_path hp fun _ => hw
  have hinv := hs.invariant (I := fun x σ => Kept x σ.bus ∧ Dormant σ) (C := fun _ => True) (P := fun _ => True)
    (fun {s σ o t ok s₁ σ₁} hk hr hpath _ => by
      refine ⟨⟨?_, dormant_path hpath hk.2⟩, trivial⟩
      by_cases hv : Supported s o
      · obtain ⟨acc, hserved, -⟩ := (exec_lines hv hk.1).sound hr (devices_bus hpath)
        exact hserved.kept
      · exact ((refused_lines hv hk.1).sound hr (devices_bus hpath)).2.kept) ⟨hkept, hdormant⟩ fun _ _ => trivial
  exact ⟨hinv.1.1, hinv.1.2 hinv.1.1.idle.reqBus⟩

/-- After any history, against a firmware that acknowledges each access in time,
a block transfer of up to 2¹⁶ quadlets is the quadlet transfers of its words,
byte-swapped; and what was written is read back, to any memory. -/
theorem block_refines_quadlets {t : Trace RegOp RegOp.Ans} {x₀ : Interface} {σ₀ σ₁ : Device}
    {cs : List (Call RegOp RegOp.Ans Device Request Interface Bool)} (hi : (Mmap.init {}).Runs t (true, x₀))
    (hp : (devices s.timeout L).Path σ₀ t σ₁) (hw : σ₀.wait = .idle)
    (hs : Session (devices s.timeout L) (exec fuel) x₀ σ₁ cs s σ) {a : BitVec 16} {nBytes : BitVec 32}
    (hf : L < fuel) (hv : s.version = 1) (hn : 1 ≤ quads nBytes ∧ quads nBytes ≤ 2 ^ 16) :
    (WP (devices s.timeout L) False (writeBlock fuel s a nBytes) σ fun x σ' => x.1 = true ∧
      WP (devices s.timeout L) False (writeQuadlets fuel a (fun q => bswap32 (σ.mem q)) (quads nBytes) 0 s) σ
        fun y σ'' => y.1 = true ∧ σ'.regs = σ''.regs) ∧
    (WP (devices s.timeout L) False (readBlock fuel s a nBytes) σ fun x σ' => x.1 = true ∧ σ'.regs = σ.regs ∧
      ∀ q < quads nBytes, WP (devices s.timeout L) False (readQuadlet fuel s (a + BitVec.ofNat 16 q)) σ
        fun y _ => ∃ w, y.1 = some w ∧ σ'.mem q = bswap32 w) ∧
    WP (devices s.timeout L) False (writeBlock fuel s a nBytes) σ fun x σ₁ => ∀ m,
      WP (devices s.timeout L) False (readBlock fuel x.2 a nBytes) { σ₁ with mem := m }
        fun y σ₂ => y.1 = true ∧ ∀ q < quads nBytes, σ₂.mem q = σ.mem q := by
  have h := history_resting hi hp hw hs
  have hver : ¬ s.version < 1 := by rw [hv]; decide
  have hlen : quads nBytes = (nBytes.toNat + 3) / 4 := rfl
  have hquads : nQuads nBytes = quads nBytes := nQuads_eq (by omega)
  have hread {M : Nat → BitVec 32} {R : BitVec 16 → BitVec 32} {q : Nat} (hq : q < quads nBytes) :
      stored R M a 0 (quads nBytes) q = bswap32 (R (a + BitVec.ofNat 16 q)) := by
    unfold stored
    rw [if_pos (by omega), Nat.sub_zero]
  have hwrite : WP (devices s.timeout L) False (writeBlock fuel s a nBytes) σ fun x σ' =>
      x = (true, { s with isInput := false }) ∧ Device.Resting x.2 σ' ∧
        σ'.regs = fill σ.regs a (fun i => bswap32 (σ.mem i)) (quads nBytes) ∧ σ'.mem = σ.mem := by
    rw [← hquads]
    exact writeBlock_device hf hver h
  refine ⟨WP.mono hwrite fun x σ' hx => ?_, ?_, ?_⟩
  · obtain ⟨hx, -, hregs, -⟩ := hx
    refine ⟨by rw [hx], WP.mono (writeQuadlets_device hf h) fun y σ'' hy => ⟨hy.1, ?_⟩⟩
    have hregs' := hy.2
    rw [hregs, hregs', BitVec.add_zero]
    simp only [Nat.zero_add]
  · refine WP.mono (readBlock_device hf hver h) fun x σ' hx => ?_
    obtain ⟨hx, -, hregs, hmem⟩ := hx
    refine ⟨by rw [hx], hregs, fun q hq => WP.mono (readQuadlet_device hf h) fun y _ hy => ⟨_, hy.1, ?_⟩⟩
    rw [hmem, hquads, hread hq]
  · refine WP.mono hwrite fun x σ₁ hpost m => ?_
    obtain ⟨hx, hrest, hregs, _⟩ := hpost
    subst hx
    have hrest : Device.Resting { s with isInput := false } { σ₁ with mem := m } := ⟨hrest.kept, hrest.wait⟩
    refine WP.mono (readBlock_device (s := { s with isInput := false }) hf hver hrest) fun y σ₂ hy => ?_
    obtain ⟨hy, -, -, hmem⟩ := hy
    refine ⟨by rw [hy], fun q hq => ?_⟩
    rw [hmem, hquads, hread hq, show ({ σ₁ with mem := m } : Device).regs = σ₁.regs from rfl, hregs,
      fill_apply_of_le hq hn.2, bswap32_bswap32]

theorem prompt_step {L : Nat} (σ : Device) (e : RegOp) :
    (devices 250000 L).step σ e (prompt.step σ e).1 (prompt.step σ e).2 := by
  cases e with
  | regRead r =>
    cases r with
    | inputUpper =>
      refine ⟨fun _ => ?_, rfl⟩
      show opDone (if σ.left = 0 then 0x10020000 else 0x10000000) = decide (σ.left = 0)
      split <;> simp_all <;> rfl
    | inputLower => exact ⟨fun _ _ => rfl, rfl⟩
    | outputLower | outputUpper | dirLower | outEnLower | dirUpper | outEnUpper | aperClkCtrl => rfl
  | regWrite r v => exact ⟨0, Nat.zero_le L, rfl⟩
  | getCurTime =>
    refine ⟨?_, rfl⟩
    unfold Device.InTime
    split <;> simp_all [prompt, timeDiff]
  | load q => exact ⟨rfl, rfl⟩
  | openMem | mmapInit _ _ | munmap _ | store _ _ => rfl

/-- Registers before `Init`, and two words of data. -/
def unused : Device := { regs := fun _ => 0, mem := fun q => BitVec.ofNat 32 (0x12345678 + q), bus := low }

/-- A block of two quadlets after `Init`. -/
theorem block_refines_quadlets_two :
    WP (devices 250000 0) False (writeBlock 1 { version := 1 } 0xffff 8) unused fun x σ₁ => ∀ m,
      WP (devices 250000 0) False (readBlock 1 x.2 0xffff 8) { σ₁ with mem := m }
        fun y σ₂ => y.1 = true ∧ ∀ q < quads 8, σ₂.mem q = unused.mem q := by
  have hrun : prompt.run (Mmap.init {}) unused = some ((true, { version := 1 }), unused) := rfl
  exact (block_refines_quadlets (s := { version := 1 }) (Env.runs_of_run hrun).1
    (Env.path_of_run (f := id) prompt_step hrun) rfl .nil (by decide) rfl (by decide)).2.2

end FpgaV3.Proof.Mmap
