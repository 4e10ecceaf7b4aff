import FpgaV3.Proof.Mmap.Client

/-!
# Clients of the standalone library

The library has no timeout, and checks the bus before each request. Against a firmware
that acknowledges each access and shows the bus, a client sees a bank of registers there
too (`standalone_client`), but the words of its blocks are not byte-swapped.
-/

namespace FpgaV3.Proof.Standalone

open FpgaV3.Spec FpgaV3.Impl FpgaV3.Impl.Standalone FpgaV3.Proof.Mmap

variable {T : Int} {L fuel : Nat} {σ : Device} {v : View} {R : BitVec 16 → BitVec 32} {M : Nat → BitVec 32}
  {f : RegisterFile} {d e : BitVec 32}

/-! ## Waiting -/

theorem opDone_iff {u : BitVec 32} : u &&& Bits.opDone = 0 ↔ opDone u = false := by
  rw [opDone, bne_eq_false_iff_eq]

theorem opDone_ne {u : BitVec 32} (h : opDone u = true) : ¬ u &&& Bits.opDone = 0 := fun h0 => by
  rw [opDone_iff.mp h0] at h
  cases h

/-- An access is not yet acknowledged. -/
structure Pending (v : View) (σ : Device) : Prop where
  wait : σ.wait.settled = false
  view : { view σ with wait := .acked } = v

/-- A sample of `op_done`. -/
theorem sample_view {Q : BitVec 32 → Device → Prop} (h : Pending v σ)
    (hset : ∀ u σ', opDone u = true → view σ' = v → Q u σ')
    (hclear : ∀ u σ', opDone u = false → Pending v σ' → σ'.left + 1 = σ.left → Q u σ') :
    WP (devices T L) False (registerRead .inputUpper) σ Q := by
  rw [wp_registerRead]
  rintro u σ' ⟨hu, rfl⟩
  have hu := hu h.wait
  cases hk : σ.left with
  | zero =>
    rw [sample_acked h.wait hk]
    exact hset u _ (by rw [hu, hk]; rfl) h.view
  | succ j =>
    rw [sample_clear h.wait hk]
    refine hclear u _ (by rw [hu, hk]; rfl) ⟨?_, h.view⟩ hk.symm
    have hw := h.wait
    dsimp only
    split
    · rfl
    · exact hw

/-- A further loop samples `op_done` until it is set. -/
theorem secondLoop_view (hf : σ.left + 1 < fuel) {u : BitVec 32} (hu : opDone u = false) (h : Pending v σ) :
    WP (devices T L) False (secondLoop fuel u) σ fun _ σ' => view σ' = v := by
  induction fuel generalizing σ u with
  | zero => omega
  | succ fuel ih =>
    rw [secondLoop, if_pos (opDone_iff.mpr hu), wp_bind]
    refine sample_view h (fun u' σ' hu' h' => ?_) fun u' σ' hu' h' hl => ih (by omega) hu' h'
    obtain ⟨m, rfl⟩ : ∃ m, fuel = m + 1 := ⟨fuel - 1, by omega⟩
    rwa [secondLoop, if_neg (opDone_ne hu'), wp_pure]

theorem firstLoop_view {n : Nat} {u : BitVec 32} (hu : opDone u = false) (h : Pending v σ) :
    WP (devices T L) False (firstLoop n u) σ fun x σ' => (opDone x.2 = true ∧ view σ' = v) ∨
      (x.1 = true ∧ opDone x.2 = false ∧ Pending v σ' ∧ σ'.left ≤ σ.left) := by
  induction n generalizing σ u with
  | zero => exact Or.inr ⟨rfl, hu, h, Nat.le_refl _⟩
  | succ n ih =>
    rw [firstLoop, if_pos (opDone_iff.mpr hu), wp_bind]
    refine sample_view h (fun u' σ' hu' h' => ?_) fun u' σ' hu' h' hl => ?_
    · cases n with
      | zero => exact Or.inl ⟨hu', h'⟩
      | succ n =>
        rw [firstLoop, if_neg (opDone_ne hu')]
        exact Or.inl ⟨hu', h'⟩
    · refine WP.mono (ih hu' h') fun x σ'' hx => hx.imp_right fun hx => ⟨hx.1, hx.2.1, hx.2.2.1, by omega⟩

theorem wait_done {num : Nat} (hf : σ.left + 1 < fuel) (hw : (view σ).wait = .asked) :
    WP (devices T L) False (waitOpDone fuel num) σ fun ok σ' => ok = true ∧ view σ' = { view σ with wait := .acked } := by
  have h : Pending { view σ with wait := .acked } σ := ⟨by rw [show σ.wait = .asked from hw]; rfl, rfl⟩
  simp only [waitOpDone, wp_bind, wp_onlyIf, wp_pure]
  refine WP.mono (firstLoop_view (by decide) h) fun x σ₁ hx => ?_
  rcases hx with ⟨hu, hx⟩ | ⟨hout, hu, hx, hl⟩
  · refine ⟨fun _ => ?_, fun _ => ⟨trivial, hx⟩⟩
    obtain ⟨m, rfl⟩ : ∃ m, fuel = m + 1 := ⟨fuel - 1, by omega⟩
    rw [secondLoop, if_neg (opDone_ne hu), wp_pure]
    exact ⟨trivial, hx⟩
  · refine ⟨fun _ => WP.mono (secondLoop_view (by omega) hu hx) fun _ σ₂ h₂ => ⟨trivial, h₂⟩, fun hn => absurd hout hn⟩

/-! ## The requests -/

/-- No request is on the bus. -/
structure Calm (σ : Device) : Prop where
  reqBus : σ.bus.lines.reqBus = false
  wait : σ.wait = .idle

theorem shownDevices_devices (σ : Device) (e : RegOp) (r : e.Ans) (σ' : Device) (h : (shownDevices T L).step σ e r σ') :
    (devices T L).step σ e r σ' := h.1

/-- A sample of the bus between requests. -/
theorem shown_view {Q : BitVec 32 → Device → Prop} (hw : v.wait = .idle) (h : view σ = v)
    (hQ : ∀ u, Shown v.lines u → Q u σ) : WP (shownDevices T L) False (registerRead .inputUpper) σ Q := by
  subst h
  rw [wp_registerRead]
  rintro u σ' ⟨⟨-, rfl⟩, hu⟩
  have hsame : σ.sample = σ := if_pos (by rw [show σ.wait = .idle from hw]; rfl)
  rw [hsame]
  exact hQ u hu

theorem getVersion_view (h : Calm σ) : WP (shownDevices T L) False getVersion σ fun ver σ' => ver = 1 ∧ σ' = σ := by
  simp only [getVersion, wp_bind, wp_pure]
  exact shown_view h.wait rfl fun u hu => ⟨hu.version, rfl⟩

theorem setDataInput_view (h : Calm σ) : WP (shownDevices T L) False setDataInput σ fun ok σ' =>
    ok = true ∧ view σ' = { view σ with lines := { (view σ).lines with dir := 0 } } := by
  simp only [setDataInput, wp_bind, wp_pure]
  refine WP.restrict shownDevices_devices (other_view (by decide) rfl fun σ₁ h₁ => ?_)
  refine shown_view (v := view σ₁) ?_ rfl fun u hu => ⟨decide_eq_true ?_, h₁⟩
  · rw [h₁]
    exact h.wait
  · have hlow : (view σ₁).lines.reqBus = false := by rw [h₁]; exact h.reqBus
    have hdir : (view σ₁).lines.dir = 0 := by rw [h₁]; rfl
    rw [hu.bus, hlow, hdir]
    rfl

theorem setDataOutput_view (h : Calm σ) : WP (shownDevices T L) False setDataOutput σ fun ok σ' => ok = true ∧ view σ' =
    { view σ with lines := { (view σ).lines with dir := BitVec.allOnes 32, en := BitVec.allOnes 32 } } := by
  simp only [setDataOutput, wp_bind, wp_pure]
  refine WP.restrict shownDevices_devices (other_view (by decide) rfl fun σ₁ h₁ => ?_)
  refine WP.restrict shownDevices_devices (other_view (by decide) h₁ fun σ₂ h₂ => ?_)
  refine shown_view (v := view σ₂) ?_ rfl fun u hu => ⟨decide_eq_true ?_, h₂⟩
  · rw [h₂]
    exact h.wait
  · have hlow : (view σ₂).lines.reqBus = false := by rw [h₂]; exact h.reqBus
    have hdir : (view σ₂).lines.dir = 0xffffffff := by rw [h₂]; rfl
    rw [hu.bus, hlow, hdir]
    rfl

theorem calm_lower {v : View} (h : view σ = { v with lines := v.lines.write .outputUpper 0, wait := .idle }) : Calm σ where
  reqBus := (congrArg (fun v => v.lines.reqBus) h).trans (by simp [Emio.reqBus, Emio.write])
  wait := congrArg View.wait h

theorem readQuadlet_board {a : BitVec 16} (hf : L + 1 < fuel) (h : Calm σ) :
    WP (shownDevices T L) False (readQuadlet fuel a) σ fun x σ' =>
      x = some (σ.regs a) ∧ Calm σ' ∧ σ'.regs = σ.regs ∧ σ'.mem = σ.mem := by
  rw [readQuadlet, wp_bind]
  refine WP.mono (setDataInput_view h) fun ok σ₁ h₁ => ?_
  obtain ⟨rfl, h₁⟩ := h₁
  refine WP.restrict shownDevices_devices ?_
  simp only [if_true, wp_bind, wp_pure]
  have hnext : Next { view σ with lines := { (view σ).lines with dir := 0 } } (a.setWidth 32 ||| Bits.requestBus) a :=
    Or.inl ⟨h.reqBus, setWidth_word a (by decide)⟩
  refine request_view (reqBus_request _) hnext h₁ fun σ₂ hl h₂ => ?_
  refine WP.mono (wait_done (by omega) (by rw [h₂])) fun _ σ₃ h₃ => ?_
  obtain ⟨-, h₃⟩ := h₃
  rw [h₂] at h₃
  have hhigh : (view σ₃).lines.reqBus = true := by rw [h₃]; exact reqBus_request _
  rw [h₃] at hhigh
  refine read_view rfl rfl h₃ (lower_view (Or.inl hhigh) h₃ fun σ₄ h₄ => ?_)
  exact ⟨rfl, calm_lower h₄, congrArg View.regs h₄, congrArg View.mem h₄⟩

theorem writeQuadlet_board {a : BitVec 16} {x : BitVec 32} (hf : L + 1 < fuel) (h : Calm σ) :
    WP (shownDevices T L) False (writeQuadlet fuel a x) σ fun ok σ' =>
      ok = true ∧ Calm σ' ∧ σ'.regs = put σ.regs a x ∧ σ'.mem = σ.mem := by
  rw [writeQuadlet, wp_bind]
  refine WP.mono (setDataOutput_view h) fun ok σ₁ h₁ => ?_
  obtain ⟨rfl, h₁⟩ := h₁
  refine WP.restrict shownDevices_devices ?_
  simp only [if_true, wp_bind, wp_pure]
  refine other_view (by decide) h₁ fun σ₂ h₂ => ?_
  have hlow : (view σ₂).lines.reqBus = false := by rw [h₂]; exact h.reqBus
  have hnext : Next (view σ₂) (a.setWidth 32 ||| Bits.regWen ||| Bits.requestBus) a := by
    refine Or.inl ⟨hlow, ?_⟩
    rw [BitVec.or_assoc]
    exact setWidth_word a (by decide)
  rw [h₂] at hnext
  refine request_view (reqBus_request _) hnext h₂ fun σ₃ hl h₃ => ?_
  refine WP.mono (wait_done (by omega) (by rw [h₃])) fun _ σ₄ h₄ => ?_
  obtain ⟨-, h₄⟩ := h₄
  rw [h₃] at h₄
  have hhigh : (view σ₄).lines.reqBus = true := by rw [h₄]; exact reqBus_request _
  rw [h₄] at hhigh
  refine lower_view (Or.inl hhigh) h₄ fun σ₅ h₅ => ?_
  exact ⟨trivial, calm_lower h₅, congrArg View.regs h₅, congrArg View.mem h₅⟩

/-- The words of the registers as they are. -/
def raw (R : BitVec 16 → BitVec 32) : BitVec 16 → BitVec 32 := fun a => bswap32 (R a)

theorem readLoop_board (hf : L + 1 < fuel) {N n q : Nat} {a : BitVec 16} {outreg : BitVec 32}
    (hN : q + n = N) (ho : n ≠ 0 → Opening outreg) (hu : Upcoming (view σ) outreg a) (h : Ended 0 e R M (view σ)) :
    WP (devices T L) False (blockLoop (fun _ => return ()) (waitOpDone fuel 5)
        (fun q => do
          let val ← registerRead .inputLower
          store q val) N n q a outreg) σ fun ok σ' =>
        ok = true ∧ Ended 0 e R (stored (raw R) M a q n) (view σ') := by
  induction n generalizing q a outreg M σ with
  | zero => exact ⟨rfl, by rwa [stored_zero]⟩
  | succ n ih =>
    have ho := ho (by omega)
    obtain ⟨hreq, hlsb⟩ := Opening.word ho a N q (view σ).lines
    simp only [blockLoop, wp_bind, wp_pure]
    refine request_view hreq (hu.next N q) rfl fun σ₁ hl h₁ => ?_
    refine WP.mono (wait_done (by omega) (by rw [h₁])) fun ok σ₂ h₂ => ?_
    obtain ⟨rfl, h₂⟩ := h₂
    rw [h₁] at h₂
    simp only [if_true, wp_bind]
    refine read_view (by rw [h₂]) (by rw [h₂]; exact h.dir) rfl (store_view h₂ fun σ₃ h₃ => ?_)
    have hdata : (view σ₂).data = bswap32 (raw R a) := by
      rw [h₂, raw, bswap32_bswap32]
      exact (if_pos h.dir).trans (congrFun h.regs a)
    rw [hdata] at h₃
    have hinv : Ended 0 e R (fun i => if i = q then bswap32 (raw R a) else M i) (view σ₃) := by
      rw [h₃]
      refine ⟨h.dir, h.en, (if_pos h.dir).trans h.regs, ?_, Or.inl ⟨rfl, hreq⟩⟩
      rw [← h.mem]
      rfl
    rw [← stored_succ]
    have hnext : n ≠ 0 → Opening (updateLsb a (markLast N q outreg)) := fun hn => ho.next (by omega) a
    have hup : Upcoming (view σ₃) (updateLsb a (markLast N q outreg)) (a + 1) :=
      upcoming_succ (l := (view σ).lines.write .outputUpper (updateLsb a (markLast N q outreg))) hreq hlsb
        (by rw [h₃]; rfl) (by rw [h₃]; rfl)
    exact ih (by omega) hnext hup hinv

theorem writeLoop_board (hf : L + 1 < fuel) (hd : d ≠ 0) {N n q : Nat} {a : BitVec 16}
    {outreg : BitVec 32} (hN : q + n = N) (ho : n ≠ 0 → Opening outreg) (hu : Upcoming (view σ) outreg a)
    (h : Ended d e R M (view σ)) :
    WP (devices T L) False (blockLoop
        (fun q => do
          let val ← load q
          registerWrite .outputLower val)
        (waitOpDone fuel 5) (fun _ => return ()) N n q a outreg) σ fun ok σ' =>
        ok = true ∧ Ended d e (fill R a (fun i => M (q + i)) n) M (view σ') := by
  induction n generalizing q a outreg R σ with
  | zero => exact ⟨rfl, h⟩
  | succ n ih =>
    have ho := ho (by omega)
    simp only [blockLoop, wp_bind]
    refine load_view rfl (other_view (by decide) rfl fun σ₁ h₁ => ?_)
    have hu₁ : Upcoming (view σ₁) outreg a := by rw [h₁]; exact hu
    obtain ⟨hreq, hlsb⟩ := Opening.word ho a N q (view σ₁).lines
    refine request_view hreq (hu₁.next N q) rfl fun σ₂ hl h₂ => ?_
    refine WP.mono (wait_done (by omega) (by rw [h₂])) fun ok σ₃ h₃ => ?_
    obtain ⟨rfl, h₃⟩ := h₃
    rw [h₂] at h₃
    simp only [if_true, wp_bind, wp_pure]
    have hinv : Ended d e (put R a (M q)) M (view σ₃) := by
      have hdir : (view σ).lines.dir ≠ 0 := by rw [h.dir]; exact hd
      rw [h₃, h₁]
      refine ⟨h.dir, h.en, (if_neg hdir).trans ?_, h.mem, Or.inl ⟨rfl, hreq⟩⟩
      rw [← h.regs, ← h.mem]
      rfl
    have hshift : (fun i => M (q + (i + 1))) = fun i => M (q + 1 + i) := by
      funext i
      rw [Nat.add_assoc, Nat.add_comm 1 i]
    rw [fill_front, Nat.add_zero, hshift]
    have hnext : n ≠ 0 → Opening (updateLsb a (markLast N q outreg)) := fun hn => ho.next (by omega) a
    have hup : Upcoming (view σ₃) (updateLsb a (markLast N q outreg)) (a + 1) :=
      upcoming_succ (l := (view σ₁).lines.write .outputUpper (updateLsb a (markLast N q outreg))) hreq hlsb
        (by rw [h₃]; rfl) (by rw [h₃]; rfl)
    exact ih (by omega) hnext hup hinv

/-- The end of a block. -/
theorem ended_calm (h : Ended d e R M (view σ)) :
    WP (devices T L) False (registerWrite .outputUpper 0) σ fun _ σ' => Calm σ' ∧ σ'.regs = R ∧ σ'.mem = M :=
  WP.mono (ended_lower h) fun _ _ h' =>
    ⟨calm_lower h', (congrArg View.regs h').trans h.regs, (congrArg View.mem h').trans h.mem⟩

theorem readBlock_board {a : BitVec 16} {nBytes : BitVec 32} (hf : L + 1 < fuel) (h : Calm σ) :
    WP (shownDevices T L) False (readBlock fuel a nBytes) σ fun ok σ' =>
      ok = true ∧ Calm σ' ∧ σ'.regs = σ.regs ∧ σ'.mem = stored (raw σ.regs) σ.mem a 0 (nQuads nBytes) := by
  rw [readBlock, wp_bind]
  refine WP.mono (getVersion_view h) fun ver σ₀ h₀ => ?_
  obtain ⟨rfl, rfl⟩ := h₀
  rw [if_neg fun h : (1 : BitVec 32) ≠ 1 => h rfl, wp_bind]
  refine WP.mono (setDataInput_view h) fun ok σ₁ h₁ => ?_
  obtain ⟨rfl, h₁⟩ := h₁
  refine WP.restrict shownDevices_devices ?_
  simp only [if_true, wp_bind, wp_pure]
  have hlow : (view σ₁).lines.reqBus = false := by rw [h₁]; exact h.reqBus
  have hstart : Ended 0 σ₀.bus.lines.en σ₀.regs σ₀.mem (view σ₁) := by
    rw [h₁]
    exact ⟨rfl, rfl, rfl, rfl, Or.inr h.wait⟩
  refine WP.mono (readLoop_board hf (Nat.zero_add _) (fun _ => opening a) (upcoming_first hlow) hstart) fun ok σ₂ h₂ => ?_
  exact WP.mono (ended_calm h₂.2) fun _ σ₃ h₃ => ⟨trivial, h₃⟩

theorem writeBlock_board {a : BitVec 16} {nBytes : BitVec 32} (hf : L + 1 < fuel) (h : Calm σ) :
    WP (shownDevices T L) False (writeBlock fuel a nBytes) σ fun ok σ' =>
      ok = true ∧ Calm σ' ∧ σ'.regs = fill σ.regs a σ.mem (nQuads nBytes) ∧ σ'.mem = σ.mem := by
  rw [writeBlock, wp_bind]
  refine WP.mono (getVersion_view h) fun ver σ₀ h₀ => ?_
  obtain ⟨rfl, rfl⟩ := h₀
  rw [if_neg fun h : (1 : BitVec 32) ≠ 1 => h rfl, wp_bind]
  refine WP.mono (setDataOutput_view h) fun ok σ₁ h₁ => ?_
  obtain ⟨rfl, h₁⟩ := h₁
  refine WP.restrict shownDevices_devices ?_
  simp only [if_true, wp_bind, wp_pure]
  have hlow : (view σ₁).lines.reqBus = false := by rw [h₁]; exact h.reqBus
  have hstart : Ended (BitVec.allOnes 32) (BitVec.allOnes 32) σ₀.regs σ₀.mem (view σ₁) := by
    rw [h₁]
    exact ⟨rfl, rfl, rfl, rfl, Or.inr h.wait⟩
  refine WP.mono (writeLoop_board hf (by decide) (Nat.zero_add _) (fun _ => opening a) (upcoming_first hlow) hstart)
    fun ok σ₂ h₂ => ?_
  have h₂ := h₂.2
  simp only [Nat.zero_add] at h₂
  exact WP.mono (ended_calm h₂) fun _ σ₃ h₃ => ⟨trivial, h₃⟩

/-! ## Clients -/

structure Matches (σ : Device) (f : RegisterFile) : Prop where
  calm : Calm σ
  regs : σ.regs = f.regs
  mem : σ.mem = f.mem

theorem standalone_serves (hf : L + 1 < fuel) :
    Serves (shownDevices T L) (standaloneOps fuel) (registerFile id) (fun _ => Matches) fun _ => True := by
  intro o s σ f _ h
  obtain ⟨hcalm, hregs, hmem⟩ := h
  cases o with
  | readQuadlet addr =>
    simp only [standaloneOps, wp_bind, wp_pure]
    refine WP.mono (readQuadlet_board hf hcalm) fun x σ' hx => ?_
    exact ⟨by rw [hx.1, hregs]; rfl, hx.2.1, hx.2.2.1.trans hregs, hx.2.2.2.trans hmem⟩
  | writeQuadlet addr data =>
    simp only [standaloneOps, wp_bind, wp_pure]
    refine WP.mono (writeQuadlet_board hf hcalm) fun x σ' hx => ?_
    exact ⟨hx.1, hx.2.1, by rw [hx.2.2.1, hregs]; rfl, hx.2.2.2.trans hmem⟩
  | readBlock addr nBytes =>
    simp only [standaloneOps, wp_bind, wp_pure]
    refine WP.mono (readBlock_board hf hcalm) fun x σ' hx => ?_
    refine ⟨hx.1, hx.2.1, hx.2.2.1.trans hregs, ?_⟩
    rw [hx.2.2.2, hregs, hmem]
    funext i
    simp only [stored, raw, bswap32_bswap32, registerFile, RegisterFile.readBlock, id, Nat.zero_le, true_and, Nat.zero_add,
      Nat.sub_zero]
  | writeBlock addr nBytes =>
    simp only [standaloneOps, wp_bind, wp_pure]
    refine WP.mono (writeBlock_board hf hcalm) fun x σ' hx => ?_
    exact ⟨hx.1, hx.2.1, by rw [hx.2.2.1, hregs, hmem]; rfl, hx.2.2.2.trans hmem⟩
  | load q =>
    simp only [standaloneOps, wp_bind, wp_load]
    rintro v σ' ⟨⟨rfl, rfl⟩, -⟩
    exact ⟨congrFun hmem q, hcalm, hregs, hmem⟩
  | store q v =>
    simp only [standaloneOps, wp_bind, wp_store]
    rintro u σ' ⟨rfl, -⟩
    exact ⟨trivial, ⟨hcalm.reqBus, hcalm.wait⟩, hregs, by rw [hmem]; rfl⟩

theorem init_board (hw : σ.wait = .idle) : WP (shownDevices T L) False Standalone.init σ fun _ σ' =>
    Calm σ' ∧ σ'.regs = σ.regs ∧ σ'.mem = σ.mem := by
  refine WP.restrict shownDevices_devices ?_
  simp only [Standalone.init, wp_bind]
  refine other_view (by decide) rfl fun σ₁ h₁ => other_view (by decide) h₁ fun σ₂ h₂ => ?_
  refine lower_view (Or.inr hw) h₂ fun σ₃ h₃ => other_view (by decide) h₃ fun σ₄ h₄ => ?_
  exact ⟨calm_lower h₄, congrArg View.regs h₄, congrArg View.mem h₄⟩

/-- A word that shows version 1, `op_done`, a request and outputs. -/
def shownWord (done req out : Bool) : BitVec 32 :=
  0x10000000 ||| (if done then Bits.opDone else 0) ||| ((if req then Bits.requestBus else 0) ||| if out then Bits.write else 0)

theorem shownWord_bits : ∀ done req out, opDone (shownWord done req out) = done ∧
    (shownWord done req out &&& Bits.version) >>> 28 = 1 ∧ shownWord done req out &&& (Bits.requestBus ||| Bits.write) =
      (if req then Bits.requestBus else 0) ||| if out then Bits.write else 0 := by decide

/-- A firmware that shows the bus and acknowledges every access at the first sample. -/
def showing : Env RegOp RegOp.Ans Device where
  step σ
    | .regRead .inputUpper => (shownWord (σ.left = 0) σ.bus.lines.reqBus (σ.bus.lines.dir ≠ 0), σ.sample)
    | e => prompt.step σ e

theorem showing_step {L : Nat} (σ : Device) (e : RegOp) :
    (shownDevices 250000 L).step σ e (showing.step σ e).1 (showing.step σ e).2 := by
  cases e with
  | regRead r =>
    cases r with
    | inputUpper =>
      obtain ⟨hdone, hver, hbus⟩ := shownWord_bits (σ.left = 0) σ.bus.lines.reqBus (σ.bus.lines.dir ≠ 0)
      refine ⟨⟨fun _ => hdone, rfl⟩, hver, hbus.trans ?_⟩
      simp only [ne_eq, decide_not, Bool.not_eq_true', decide_eq_false_iff_not, ite_not]
    | inputLower | outputLower | outputUpper | dirLower | outEnLower | dirUpper | outEnUpper | aperClkCtrl =>
      exact ⟨prompt_step σ _, trivial⟩
  | _ => exact ⟨prompt_step σ _, trivial⟩

end FpgaV3.Proof.Standalone
