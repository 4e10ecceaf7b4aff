import FpgaV3.Proof.Gpiod.Present
import FpgaV3.Proof.Gpiod.Quadlet
import FpgaV3.Proof.Mmap.Client

/-!
# Clients of the gpiod driver

A library that never fails, polled, and a firmware that acknowledges each access within
the timeout: a client of quadlets, and of blocks that it reads from even addresses on,
sees a bank of registers (`gpiod_client`), as with the other drivers.
-/

namespace FpgaV3.Proof.Gpiod

open FpgaV3.Spec FpgaV3.Impl FpgaV3.Impl.Gpiod
open FpgaV3.Proof.Mmap (View view sample_acked sample_clear stored stored_zero stored_succ asked_ne acked_ne idle_ne
  stored_readBlock)

variable {T : Int} {L fuel : Nat} {σ : Device} {v : View} {s : Interface} {R : BitVec 16 → BitVec 32}
  {M : Nat → BitVec 32}

/-! ## The lines -/

theorem drive_same {l : Emio} {k : Nat} (hr : l.reqBus = σ.bus.lines.reqBus)
    (hl : l.reqBus = true → l.addrLsb = σ.bus.lines.addrLsb) : view (σ.drive l k) = { view σ with lines := l } := by
  have hno : σ.bus.lines.triggers l = false := by
    rw [Emio.triggers, ← hr]
    cases h : l.reqBus
    · rfl
    · rw [hl h]
      simp
  have hkeep : (σ.bus.lines.reqBus && !l.reqBus) = false := by
    rw [← hr]
    exact Bool.and_not_self _
  simp only [view, Device.drive, hno, hkeep, Bool.false_eq_true, if_false, Bus.lines_put]

theorem drive_lower {l : Emio} {k : Nat} (hr : l.reqBus = false) (hw : σ.bus.lines.reqBus = true ∨ σ.wait = .idle) :
    view (σ.drive l k) = { view σ with lines := l, wait := .idle } := by
  have hno : σ.bus.lines.triggers l = false := by rw [Emio.triggers, hr]; rfl
  simp only [view, Device.drive, hno, hr, Bool.false_eq_true, if_false, Bus.lines_put, Bool.not_false, Bool.and_true]
  rcases hw with hw | hw
  · rw [hw, if_pos rfl]
  · rw [hw, ite_self]

/-- `req_bus` rises, or the LSB line changes while it is high. -/
theorem drive_request {l : Emio} {k : Nat} {a : BitVec 16} (hr : l.reqBus = true)
    (hn : (σ.bus.lines.reqBus = false ∧ l.regAddr = a) ∨
      (σ.bus.lines.reqBus = true ∧ σ.bus.lines.addrLsb ≠ l.addrLsb ∧ σ.addr + 1 = a)) :
    view (σ.drive l k) = { (view σ).access l a with wait := .asked } ∧ (σ.drive l k).left = k := by
  have ht : σ.bus.lines.triggers l = true := by
    rw [Emio.triggers, hr, Bool.true_and]
    rcases hn with ⟨hlow, -⟩ | ⟨-, hlsb, -⟩
    · rw [hlow]; rfl
    · rw [Bool.or_eq_true]
      exact Or.inr (bne_iff_ne.mpr hlsb)
  have ha : (if σ.bus.lines.reqBus then σ.addr + 1 else l.regAddr) = a := by
    rcases hn with ⟨hlow, ha⟩ | ⟨hhigh, -, ha⟩
    · rwa [hlow, if_neg Bool.false_ne_true]
    · rwa [hhigh, if_pos rfl]
  have hdrive : σ.drive l k = ({ σ with bus := σ.bus.put l } : Device).access a l k := by
    simp only [Device.drive, ht, ha, if_true]
  rw [hdrive]
  exact ⟨rfl, rfl⟩

/-- Lines that request nothing. -/
theorem set_view {g : Lines} {values : List Int} {Q : Int → Device → Prop} (hg : g ≠ .reqBus)
    (hl : g ≠ .addrLsb ∨ v.lines.reqBus = false) (h : view σ = v)
    (hQ : ∀ σ' l, l = v.lines.setLines g values → view σ' = { v with lines := l } → Q 0 σ') :
    WP (gpioDevices T L) False (setValue g values) σ Q := by
  subst h
  rw [wp_setValue]
  rintro rc σ' ⟨hrc, k, -, rfl⟩
  obtain rfl : rc = 0 := hrc
  have hreq : (σ.bus.lines.setLines g values).reqBus = σ.bus.lines.reqBus := reqBus_setLines hg
  refine hQ _ _ rfl (drive_same (l := σ.bus.lines.setLines g values) hreq fun hhigh => ?_)
  rcases hl with hl | hl
  · exact addrLsb_setLines hl
  · rw [hreq, show σ.bus.lines.reqBus = false from hl] at hhigh
    cases hhigh

theorem raise_view {a : BitVec 16} {Q : Int → Device → Prop} (hlow : v.lines.reqBus = false)
    (ha : v.lines.regAddr = a) (h : view σ = v)
    (hQ : ∀ σ' l, σ'.left ≤ L → l = v.lines.setLines .reqBus [1] →
      view σ' = { v.access l a with wait := .asked } → Q 0 σ') :
    WP (gpioDevices T L) False (setValue .reqBus [1]) σ Q := by
  subst h ha
  rw [wp_setValue]
  rintro rc σ' ⟨hrc, k, hk, rfl⟩
  obtain rfl : rc = 0 := hrc
  have hset : (σ.bus.lines.setLines .reqBus [1]).reqBus = true := reqBus_set 1
  obtain ⟨hview, hleft⟩ := drive_request (σ := σ) (k := k) (a := σ.bus.lines.regAddr) hset
    (Or.inl ⟨hlow, regAddr_setLines (by decide)⟩)
  exact hQ _ _ (Nat.le_trans (Nat.le_of_eq hleft) hk) rfl hview

/-- The LSB line changes while `req_bus` is high. -/
theorem toggle_view {x : Int} {Q : Int → Device → Prop} (hhigh : v.lines.reqBus = true) (hx : v.lines.addrLsb ≠ (x != 0))
    (h : view σ = v) (hQ : ∀ σ' l, σ'.left ≤ L → l = v.lines.setLines .addrLsb [x] →
      view σ' = { v.access l (v.addr + 1) with wait := .asked } → Q 0 σ') :
    WP (gpioDevices T L) False (setValue .addrLsb [x]) σ Q := by
  subst h
  rw [wp_setValue]
  rintro rc σ' ⟨hrc, k, hk, rfl⟩
  obtain rfl : rc = 0 := hrc
  have hset : (σ.bus.lines.setLines .addrLsb [x]).reqBus = true := (reqBus_setLines (by decide)).trans hhigh
  obtain ⟨hview, hleft⟩ := drive_request (σ := σ) (k := k) (a := σ.addr + 1) hset
    (Or.inr ⟨hhigh, by rwa [addrLsb_set], rfl⟩)
  exact hQ _ _ (Nat.le_trans (Nat.le_of_eq hleft) hk) rfl hview

theorem release_view {Q : Int → Device → Prop} (hw : v.lines.reqBus = true ∨ v.wait = .idle) (h : view σ = v)
    (hQ : ∀ σ' l, l = v.lines.setLines .reqBus [0] → view σ' = { v with lines := l, wait := .idle } → Q 0 σ') :
    WP (gpioDevices T L) False (setValue .reqBus [0]) σ Q := by
  subst h
  rw [wp_setValue]
  rintro rc σ' ⟨hrc, k, -, rfl⟩
  obtain rfl : rc = 0 := hrc
  exact hQ _ _ rfl (drive_lower (l := σ.bus.lines.setLines .reqBus [0]) (reqBus_set 0) hw)

theorem timestamp_view {n : Nat} {Q : Unit → Device → Prop} (hw : v.wait ≠ .polled) (h : view σ = v)
    (hQ : Q () σ) : WP (gpioDevices T L) False (timestamp s n) σ Q := by
  have hsame (t : Timespec) : σ.clock t = σ := if_neg (by rw [← h] at hw; exact hw)
  unfold timestamp
  split
  · rw [wp_bind]
    rintro t σ' ⟨-, rfl⟩
    rwa [hsame]
  · exact hQ

/-! ## Waiting -/

/-- A sample of an access that is not acknowledged yet. -/
theorem getValue_view {Q : Int → Device → Prop} (hw : σ.wait.settled = false)
    (hset : σ.left = 0 → Q 1 { σ with wait := .acked })
    (hclear : ∀ j, σ.left = j + 1 → Q 0 { σ with wait := if σ.wait = .asked then .polled else σ.wait, left := j }) :
    WP (gpioDevices T L) False (.perform (GpioOp.getValue .opDone)) σ Q := by
  rw [wp_perform]
  rintro x σ' ⟨hx, rfl⟩
  have hx := hx hw
  cases hk : σ.left with
  | zero =>
    rw [hk, if_pos rfl] at hx
    rw [sample_acked hw hk, hx]
    exact hset hk
  | succ j =>
    rw [hk, if_neg (Nat.succ_ne_zero j)] at hx
    rw [sample_clear hw hk, hx]
    exact hclear j hk

theorem pollLoop_view {t₀ : Timespec} {dt : Int} (hw : σ.wait = .since t₀) (hl : σ.left + 1 < fuel) (hdt : dt < T) :
    WP (gpioDevices T L) False (pollLoop T t₀ fuel 0 dt) σ fun x σ' =>
      x = 1 ∧ view σ' = { view σ with wait := .acked } := by
  induction fuel generalizing σ dt with
  | zero => omega
  | succ fuel ih =>
    have hset : σ.wait.settled = false := by rw [hw]; rfl
    unfold pollLoop
    rw [if_pos ⟨Int.le_refl 0, hdt⟩, wp_bind]
    refine getValue_view hset (fun hk => ?_) fun j hk => ?_
    · rw [wp_bind]
      rintro t σ' ⟨-, rfl⟩
      have hclock : ({ σ with wait := .acked } : Device).clock t = { σ with wait := .acked } :=
        if_neg fun e => Wait.noConfusion e
      obtain ⟨m, rfl⟩ : ∃ m, fuel = m + 1 := ⟨fuel - 1, by omega⟩
      rw [hclock, wp_ret, pollLoop, if_neg fun h => absurd h.1 (by decide)]
      exact ⟨rfl, rfl⟩
    · rw [wp_bind]
      rintro t σ' ⟨ht, rfl⟩
      simp only [hw, reduceCtorEq, if_false] at ht ⊢
      have hclock : ({ σ with wait := .since t₀, left := j } : Device).clock t = { σ with wait := .since t₀, left := j } :=
        if_neg fun e => Wait.noConfusion e
      rw [hclock]
      exact ih rfl (show j + 1 < fuel by omega) ht

theorem wait_view (he : s.useEvents = false) (hs : s.timeout = T) (hf : L + 1 < fuel) (hl : σ.left ≤ L)
    (hw : v.wait = .asked) (h : view σ = v) :
    WP (gpioDevices T L) False (waitOpDone fuel s) σ fun ok σ' => ok = true ∧ view σ' = { v with wait := .acked } := by
  subst h
  have hw : σ.wait = .asked := hw
  have hset : σ.wait.settled = false := by rw [hw]; rfl
  unfold waitOpDone
  rw [he, if_neg Bool.false_ne_true, wp_bind]
  refine getValue_view hset (fun hk => ?_) fun j hk => ?_
  · rw [if_neg (by decide)]
    exact ⟨rfl, rfl⟩
  · rw [if_pos (Int.le_refl 0), wp_bind]
    rintro t σ' ⟨ht, rfl⟩
    simp only [hw, if_true] at ht ⊢
    have hclock : ({ σ with wait := .polled, left := j } : Device).clock t = { σ with wait := .since t, left := j } :=
      if_pos rfl
    rw [hclock, wp_ret, wp_bind, hs]
    refine WP.mono (pollLoop_view rfl (show j + 1 < fuel by omega) ht) fun x σ' hx => ?_
    rw [hx.1, wp_pure, hx.2]
    exact ⟨rfl, rfl⟩

/-! ## The directions and the data -/

/-- No request is in progress, and the driver knows the direction of the data lines. -/
structure Rest (s : Interface) (σ : Device) : Prop where
  reqBus : σ.bus.lines.reqBus = false
  wait : σ.wait = .idle
  synced : Synced s σ.bus.lines

theorem setInput_view {Q : Bool × Interface → Device → Prop} (hk : s.isInput = true → v.lines.dir = 0) (h : view σ = v)
    (hQ : ∀ σ', view σ' = { v with lines := { v.lines with dir := 0 } } → Q (true, { s with isInput := true }) σ') :
    WP (gpioDevices T L) False (setInput s) σ Q := by
  unfold setInput
  cases hin : s.isInput
  · rw [if_neg Bool.false_ne_true, wp_bind]
    subst h
    rintro rc σ' ⟨hrc, k, -, rfl⟩
    obtain rfl : rc = 0 := hrc
    exact hQ _ (drive_same (l := { σ.bus.lines with dir := 0 }) rfl fun _ => rfl)
  · have hlines : { v.lines with dir := 0 } = v.lines := by rw [← hk hin]
    have hs : s = { s with isInput := true } := by cases s; cases hin; rfl
    have hQ := hQ σ (by rw [hlines]; exact h)
    rw [← hs] at hQ
    exact hQ

/-- The word is on the data lines, which become outputs if they are not. -/
theorem setOutput_view {x : BitVec 32} (hk : s.isInput = false → v.lines.DataOut) (hlow : v.lines.reqBus = false)
    (h : view σ = v) :
    WP (gpioDevices T L) False (Prog.onlyIf (!s.isInput) do let _ ← setValue .regData (dataValues x)) σ fun _ σ₁ =>
      WP (gpioDevices T L) False (setOutput s (dataValues x)) σ₁ fun y σ' => y = (true, { s with isInput := false }) ∧
        ∃ l, l.reqBus = false ∧ l.lower = x ∧ l.DataOut ∧ view σ' = { v with lines := l } := by
  have hword := lower_set v.lines x
  have hreq : (v.lines.setLines .regData (dataValues x)).reqBus = false := (reqBus_setLines (by decide)).trans hlow
  unfold setOutput
  cases hin : s.isInput
  · have hs : s = { s with isInput := false } := by cases s; cases hin; rfl
    simp only [Prog.onlyIf, Bool.not_false, if_true, wp_bind, wp_pure, Bool.false_eq_true, if_false]
    refine set_view (by decide) (Or.inl (by decide)) h fun σ₁ l hl h₁ => ?_
    rw [← hl] at hword hreq
    refine ⟨by rw [← hs], l, hreq, hword, ?_, h₁⟩
    rw [hl, Emio.DataOut, dir_setLines, en_setLines]
    exact hk hin
  · simp only [Prog.onlyIf, Bool.not_true, Bool.false_eq_true, if_false, wp_ret, if_true, wp_bind]
    subst h
    rintro rc σ' ⟨hrc, k, -, rfl⟩
    obtain rfl : rc = 0 := hrc
    have hcall := call_setDirectionOutput σ.bus.lines (dataValues x)
    change (σ.bus.lines.setLines .regData (dataValues x)).lower = x at hword
    change (σ.bus.lines.setLines .regData (dataValues x)).reqBus = false at hreq
    obtain ⟨l, hl⟩ : ∃ l, l = σ.bus.lines.setLines .regData (dataValues x) := ⟨_, rfl⟩
    rw [← hl] at hcall hword hreq
    refine ⟨rfl, { l with dir := BitVec.allOnes 32, en := BitVec.allOnes 32 }, hreq, hword, ⟨rfl, rfl⟩, ?_⟩
    rw [hcall]
    refine drive_same (hreq.trans hlow.symm) fun hhigh => ?_
    exact absurd hhigh (by show ¬ l.reqBus = true; rw [hreq]; decide)

/-- The data of an acknowledged read. -/
theorem read_view {Q : Int × List Int → Device → Prop} (hw : v.wait = .acked) (hd : v.lines.dir = 0) (h : view σ = v)
    (hQ : Q (0, levels v.data) σ) : WP (gpioDevices T L) False (getValueBulk .regData) σ Q := by
  subst h
  rw [wp_getValueBulk]
  rintro x σ' ⟨hx, rfl⟩
  rw [hx hw hd]
  exact hQ

/-! ## The quadlets -/

/-- The lines differ neither in the direction of the data nor in the data. -/
structure SameData (l l' : Emio) : Prop where
  lower : l'.lower = l.lower
  dir : l'.dir = l.dir
  en : l'.en = l.en

theorem SameData.trans {l l' l'' : Emio} (h : SameData l l') (h' : SameData l' l'') : SameData l l'' :=
  ⟨h'.lower.trans h.lower, h'.dir.trans h.dir, h'.en.trans h.en⟩

theorem sameData_setLines {l : Emio} {g : Lines} {values : List Int} (hg : g ≠ .regData) :
    SameData l (l.setLines g values) := ⟨lower_setLines hg, dir_setLines, en_setLines⟩

/-- The address and the control lines, and the rise of `req_bus`. -/
theorem present_view {values : List Int} {a : BitVec 16} {Q : Int → Device → Prop} (hlow : v.lines.reqBus = false)
    (h : view σ = v) (hQ : ∀ σ' l, σ'.left ≤ L → l.reqBus = true → SameData v.lines l →
      view σ' = { v.access l a with wait := .asked } → Q 0 σ') :
    WP (gpioDevices T L) False (setValue .regAddr (addrValues a)) σ fun _ σ₁ =>
      WP (gpioDevices T L) False (setValue .ctrl values) σ₁ fun _ σ₂ =>
        WP (gpioDevices T L) False (setValue .reqBus [1]) σ₂ Q := by
  refine set_view (by decide) (Or.inl (by decide)) h fun σ₁ l₁ hl₁ h₁ => ?_
  refine set_view (by decide) (Or.inl (by decide)) h₁ fun σ₂ l₂ hl₂ h₂ => ?_
  have hl₂ : l₂ = l₁.setLines .ctrl values := hl₂
  have hlow₁ : l₁.reqBus = false := by rw [hl₁, reqBus_setLines (by decide), hlow]
  have hlow₂ : l₂.reqBus = false := by rw [hl₂, reqBus_setLines (by decide), hlow₁]
  have haddr : l₂.regAddr = a := by rw [hl₂, regAddr_setLines (by decide), hl₁, regAddr_set]
  have hdata₁ : SameData v.lines l₁ := by
    rw [hl₁]
    exact sameData_setLines (by decide)
  have hdata₂ : SameData l₁ l₂ := by
    rw [hl₂]
    exact sameData_setLines (by decide)
  refine raise_view (v := { v with lines := l₂ }) hlow₂ haddr h₂ fun σ₃ l₃ hleft hl₃ h₃ => ?_
  have hl₃ : l₃ = l₂.setLines .reqBus [1] := hl₃
  have hdata₃ : SameData l₂ l₃ := by
    rw [hl₃]
    exact sameData_setLines (by decide)
  refine hQ σ₃ l₃ hleft ?_ (hdata₁.trans (hdata₂.trans hdata₃)) h₃
  rw [hl₃, reqBus_set]
  rfl

theorem Rest.input (h : Rest s σ) (hin : s.isInput = true) : σ.bus.lines.dir = 0 := by
  have hs := h.synced
  rwa [Synced, if_pos hin] at hs

theorem Rest.output (h : Rest s σ) (hin : s.isInput = false) : σ.bus.lines.DataOut := by
  have hs := h.synced
  rwa [Synced, if_neg (by simp [hin])] at hs

theorem readQuadlet_gpio {a : BitVec 16} (hf : L + 1 < fuel) (he : s.useEvents = false) (h : Rest s σ) :
    WP (gpioDevices s.timeout L) False (readQuadlet fuel s a) σ fun x σ' =>
      x = (some (σ.regs a), { s with isInput := true }) ∧ Rest x.2 σ' ∧ σ'.regs = σ.regs ∧ σ'.mem = σ.mem := by
  have hidle : (view σ).wait ≠ .polled := by rw [show (view σ).wait = .idle from h.wait]; exact idle_ne
  simp only [readQuadlet, wp_bind]
  refine timestamp_view hidle rfl (setInput_view h.input rfl fun σ₁ h₁ => ?_)
  simp only [if_true, wp_bind]
  refine present_view (v := { view σ with lines := { (view σ).lines with dir := 0 } }) h.reqBus h₁
    fun σ₂ l hleft hhigh hdata h₂ => ?_
  have hdir : l.dir = 0 := hdata.dir
  refine timestamp_view asked_ne h₂ (WP.mono (wait_view he rfl hf hleft rfl h₂) fun ok σ₃ hpost => ?_)
  obtain ⟨rfl, h₃⟩ := hpost
  simp only [if_true, wp_bind]
  refine timestamp_view acked_ne h₃ (read_view rfl hdir h₃ ?_)
  refine release_view (v := view σ₃) (Or.inl (by rw [h₃]; exact hhigh)) rfl fun σ₄ l' hl' h₄ => ?_
  rw [h₃] at hl' h₄
  have hl' : l' = l.setLines .reqBus [0] := hl'
  simp only [if_true, wp_bind]
  refine timestamp_view idle_ne h₄ ?_
  have hrequest : l'.reqBus = false := by rw [hl', reqBus_set]; rfl
  have hdir' : l'.dir = 0 := by rw [hl', dir_setLines, hdir]
  refine ⟨?_, ⟨?_, congrArg View.wait h₄, ?_⟩, ?_, congrArg View.mem h₄⟩
  · rw [ofValues_levels]
    exact congrArg (fun w => (some w, _)) (if_pos hdir)
  · rw [show σ₄.bus.lines = l' from congrArg View.lines h₄, hrequest]
  · rw [show σ₄.bus.lines = l' from congrArg View.lines h₄]
    exact (if_pos rfl).mpr hdir'
  · exact (congrArg View.regs h₄).trans (if_pos hdir)

/-- `req_bus` and the control lines are lowered. -/
theorem lower_view {Q : Unit → Device → Prop} (hw : v.lines.reqBus = true ∨ v.wait = .idle) (h : view σ = v)
    (hQ : ∀ σ' l, l.reqBus = false → SameData v.lines l → view σ' = { v with lines := l, wait := .idle } → Q () σ') :
    WP (gpioDevices T L) False lower σ Q := by
  simp only [lower, wp_bind]
  refine release_view hw h fun σ₁ l₁ hl₁ h₁ => ?_
  refine set_view (by decide) (Or.inl (by decide)) h₁ fun σ₂ l₂ hl₂ h₂ => ?_
  have hl₂ : l₂ = l₁.setLines .ctrl ctrl_zero := hl₂
  have hdata₁ : SameData v.lines l₁ := by
    rw [hl₁]
    exact sameData_setLines (by decide)
  have hdata₂ : SameData l₁ l₂ := by
    rw [hl₂]
    exact sameData_setLines (by decide)
  refine hQ σ₂ l₂ ?_ (hdata₁.trans hdata₂) h₂
  rw [hl₂, reqBus_setLines (by decide), hl₁, reqBus_set]
  rfl

theorem writeQuadlet_gpio {a : BitVec 16} {x : BitVec 32} (hf : L + 1 < fuel) (he : s.useEvents = false)
    (h : Rest s σ) :
    WP (gpioDevices s.timeout L) False (writeQuadlet fuel s a x) σ fun y σ' =>
      y = (true, { s with isInput := false }) ∧ Rest y.2 σ' ∧ σ'.regs = put σ.regs a x ∧ σ'.mem = σ.mem := by
  have hidle : (view σ).wait ≠ .polled := by rw [show (view σ).wait = .idle from h.wait]; exact idle_ne
  simp only [writeQuadlet, wp_bind]
  refine timestamp_view hidle rfl ?_
  refine WP.mono (setOutput_view (v := view σ) h.output h.reqBus rfl) fun _ σ₀ h => WP.mono h fun y σ₁ hpost => ?_
  obtain ⟨rfl, l₁, hlow, hword, hout, h₁⟩ := hpost
  simp only [if_true, wp_bind]
  refine present_view (v := { view σ with lines := l₁ }) hlow h₁ fun σ₂ l hleft hhigh hdata h₂ => ?_
  have hlower : l.lower = x := hdata.lower.trans hword
  have hdir : ¬ l.dir = 0 := by
    rw [show l.dir = l₁.dir from hdata.dir, hout.1]
    decide
  have hout : l.DataOut := ⟨hdata.dir.trans hout.1, hdata.en.trans hout.2⟩
  refine timestamp_view asked_ne h₂ (WP.mono (wait_view he rfl hf hleft rfl h₂) fun ok σ₃ hpost => ?_)
  obtain ⟨rfl, h₃⟩ := hpost
  simp only [Prog.onlyIf, if_true]
  refine timestamp_view acked_ne h₃ ?_
  refine lower_view (v := view σ₃) (Or.inl (by rw [h₃]; exact hhigh)) rfl fun σ₄ l' hrequest hdata' h₄ => ?_
  rw [h₃] at hdata' h₄
  have hout' : l'.DataOut := ⟨hdata'.dir.trans hout.1, hdata'.en.trans hout.2⟩
  refine timestamp_view idle_ne h₄ ⟨rfl, ⟨?_, congrArg View.wait h₄, ?_⟩, ?_, congrArg View.mem h₄⟩
  · rw [show σ₄.bus.lines = l' from congrArg View.lines h₄, hrequest]
  · rw [show σ₄.bus.lines = l' from congrArg View.lines h₄]
    exact hout'
  · rw [show σ₄.regs = _ from congrArg View.regs h₄, ← hlower]
    exact if_neg hdir

/-! ## The blocks -/

/-- The handshake of the access of `a` is at `w`, the registers being read. -/
structure Word (w : Wait) (R : BitVec 16 → BitVec 32) (M : Nat → BitVec 32) (a : BitVec 16) (lsb : Int) (v : View) :
    Prop where
  reqBus : v.lines.reqBus = true
  lsb : v.lines.addrLsb = (lsb != 0)
  dir : v.lines.dir = 0
  wait : v.wait = w
  addr : v.addr = a
  data : v.data = R a
  regs : v.regs = R
  mem : v.mem = M

/-- The next quadlet of a block is that of `a`: the first is requested with `req_bus`. -/
def Coming (L : Nat) (R : BitVec 16 → BitVec 32) (M : Nat → BitVec 32) (a : BitVec 16) (lsb : Int) (q : Nat)
    (σ : Device) : Prop :=
  if q = 0 then Word .asked R M a lsb (view σ) ∧ σ.left ≤ L else ∃ b, b + 1 = a ∧ Word .acked R M b lsb (view σ)

variable {a : BitVec 16} {lsb : Int} {N n q : Nat}

/-- The LSB line requests the next quadlet, if it alternates. -/
theorem toggle_word (ho : Alternating false lsb) (h : Word .acked R M a lsb v) (hv : view σ = v) :
    WP (gpioDevices T L) False (setValue .addrLsb [~~~lsb]) σ fun rc σ' =>
      rc = 0 ∧ Word .asked R M (a + 1) (~~~lsb) (view σ') ∧ σ'.left ≤ L := by
  have hchange : (lsb != 0) ≠ (~~~lsb != 0) := bne_iff_ne.mp ho.changes
  refine toggle_view h.reqBus (by rwa [h.lsb]) hv fun σ' l hleft hl hview => ⟨rfl, ?_, hleft⟩
  have hdir : l.dir = 0 := by rw [hl, dir_setLines, h.dir]
  rw [hview, h.addr]
  refine ⟨?_, ?_, hdir, rfl, rfl, ?_, ?_, h.mem⟩
  · exact (congrArg Emio.reqBus hl).trans ((reqBus_setLines (by decide)).trans h.reqBus)
  · exact (congrArg Emio.addrLsb hl).trans (addrLsb_set _)
  · exact (if_pos hdir).trans (congrFun h.regs _)
  · exact (if_pos hdir).trans h.regs

theorem readNext_word (ho : Alternating false lsb) (h : Coming L R M a lsb q σ) :
    WP (gpioDevices T L) False (readNext N q (if q > 0 then ~~~lsb else lsb)) σ fun ok σ' =>
      ok = true ∧ Word .asked R M a (if q > 0 then ~~~lsb else lsb) (view σ') ∧ σ'.left ≤ L := by
  unfold readNext
  unfold Coming at h
  split at h
  · rename_i hq
    rw [hq, if_neg (Nat.lt_irrefl 0), if_neg (Nat.lt_irrefl 0)]
    exact ⟨rfl, h⟩
  · rename_i hq
    obtain ⟨b, rfl, h⟩ := h
    rw [if_pos (Nat.pos_of_ne_zero hq), if_pos (Nat.pos_of_ne_zero hq)]
    split
    · simp only [wp_bind, wp_ite, wp_pure]
      refine set_view (by decide) (Or.inl (by decide)) rfl fun σ₁ l hl h₁ => ⟨fun hne => absurd rfl hne, fun _ => ?_⟩
      have hmarked : Word .acked R M b lsb { view σ with lines := l } := by
        refine ⟨?_, ?_, ?_, h.wait, h.addr, h.data, h.regs, h.mem⟩
        · exact (congrArg Emio.reqBus hl).trans ((reqBus_setLines (by decide)).trans h.reqBus)
        · exact (congrArg Emio.addrLsb hl).trans ((addrLsb_setLines (by decide)).trans h.lsb)
        · exact (congrArg Emio.dir hl).trans (dir_setLines.trans h.dir)
      refine WP.mono (toggle_word ho hmarked h₁) fun rc σ₂ hpost => ?_
      obtain ⟨rfl, hpost⟩ := hpost
      exact ⟨rfl, hpost⟩
    · simp only [wp_bind, wp_pure]
      refine WP.mono (toggle_word ho h rfl) fun rc σ₂ hpost => ?_
      obtain ⟨rfl, hpost⟩ := hpost
      exact ⟨rfl, hpost⟩

theorem readLoop_gpio (he : s.useEvents = false) (hs : s.timeout = T) (hf : L + 1 < fuel) (ho : Alternating false lsb)
    (h : Coming L R M a lsb q σ) :
    WP (gpioDevices T L) False (readLoop fuel s N n q lsb) σ fun ok σ' =>
      ok = true ∧ ∃ w b lsb', w ≠ .polled ∧ Word w R (stored R M a q n) b lsb' (view σ') := by
  induction n generalizing q lsb a M σ with
  | zero =>
    refine ⟨rfl, ?_⟩
    rw [stored_zero]
    unfold Coming at h
    split at h
    · exact ⟨_, _, _, asked_ne, h.1⟩
    · obtain ⟨b, -, h⟩ := h
      exact ⟨_, _, _, acked_ne, h⟩
  | succ n ih =>
    simp only [readLoop, wp_bind]
    refine WP.mono (readNext_word ho h) fun ok σ₁ hpost => ?_
    obtain ⟨rfl, h₁, hleft⟩ := hpost
    simp only [if_true, wp_bind]
    refine WP.mono (wait_view he hs hf hleft h₁.wait rfl) fun ok σ₂ hpost => ?_
    obtain ⟨rfl, h₂⟩ := hpost
    simp only [if_true, wp_bind]
    refine read_view (v := { view σ₁ with wait := .acked }) rfl h₁.dir h₂ ?_
    simp only [if_true, wp_bind]
    rw [ofValues_levels, h₁.data]
    rintro u σ₃ rfl
    have hnext : Coming L R (fun i => if i = q then bswap32 (R a) else M i) (a + 1) (if q > 0 then ~~~lsb else lsb) (q + 1)
        { σ₂ with mem := fun i => if i = q then bswap32 (R a) else σ₂.mem i } := by
      refine (if_neg (Nat.succ_ne_zero q)).mpr ⟨a, rfl, ?_⟩
      have hmem : σ₂.mem = M := (congrArg View.mem h₂).trans h₁.mem
      rw [hmem, show view _ = { view σ₂ with mem := fun i => if i = q then bswap32 (R a) else M i } from rfl, h₂]
      exact ⟨h₁.reqBus, h₁.lsb, h₁.dir, rfl, h₁.addr, h₁.data, h₁.regs, rfl⟩
    rw [← stored_succ]
    refine ih ?_ hnext
    split
    · exact ho.next
    · exact ho

/-- The first quadlet is requested. -/
theorem start_view (hlow : v.lines.reqBus = false) (hdir : v.lines.dir = 0) (h : view σ = v) :
    WP (gpioDevices T L) False (setValue .ctrl ctrl_blkStart) σ fun rc σ₁ => rc = 0 ∧
      WP (gpioDevices T L) False (setValue .regAddr (addrValues a)) σ₁ fun rc σ₂ => rc = 0 ∧
        WP (gpioDevices T L) False (setValue .addrLsb [lsbValue a]) σ₂ fun _ σ₃ =>
          WP (gpioDevices T L) False (setValue .reqBus [1]) σ₃ fun rc σ' =>
            rc = 0 ∧ Coming L v.regs v.mem a (lsbValue a) 0 σ' := by
  refine set_view (by decide) (Or.inl (by decide)) h fun σ₁ l₁ hl₁ h₁ => ⟨rfl, ?_⟩
  refine set_view (by decide) (Or.inl (by decide)) h₁ fun σ₂ l₂ hl₂ h₂ => ⟨rfl, ?_⟩
  have hl₂ : l₂ = l₁.setLines .regAddr (addrValues a) := hl₂
  have hlow₂ : l₂.reqBus = false := by
    rw [hl₂, reqBus_setLines (by decide), hl₁, reqBus_setLines (by decide), hlow]
  refine set_view (v := { v with lines := l₂ }) (by decide) (Or.inr hlow₂) h₂ fun σ₃ l₃ hl₃ h₃ => ?_
  have hl₃ : l₃ = l₂.setLines .addrLsb [lsbValue a] := hl₃
  have hlow₃ : l₃.reqBus = false := by rw [hl₃, reqBus_setLines (by decide), hlow₂]
  have haddr : l₃.regAddr = a := by rw [hl₃, regAddr_setLines (by decide), hl₂, regAddr_set]
  refine raise_view (v := { v with lines := l₃ }) hlow₃ haddr h₃ fun σ₄ l₄ hleft hl₄ h₄ => ⟨rfl, ?_⟩
  have hl₄ : l₄ = l₃.setLines .reqBus [1] := hl₄
  have hin : l₄.dir = 0 := by
    rw [hl₄, dir_setLines, hl₃, dir_setLines, hl₂, dir_setLines, hl₁, dir_setLines, hdir]
  refine (if_pos rfl).mpr ⟨?_, hleft⟩
  rw [h₄]
  refine ⟨?_, ?_, hin, rfl, rfl, if_pos hin, if_pos hin, rfl⟩
  · show l₄.reqBus = true
    rw [hl₄, reqBus_set]
    rfl
  · show l₄.addrLsb = _
    rw [hl₄, addrLsb_setLines (by decide), hl₃, addrLsb_set]

/-- `ReadBlock`, from an even address on. -/
theorem readBlock_gpio {nBytes : BitVec 32} (hf : L + 1 < fuel) (he : s.useEvents = false) (hv : ¬ s.version < 1)
    (ha : a.getLsbD 0 = false) (h : Rest s σ) :
    WP (gpioDevices s.timeout L) False (readBlock fuel s a nBytes) σ fun x σ' =>
      x = (true, { s with isInput := true }) ∧ Rest x.2 σ' ∧ σ'.regs = σ.regs ∧
        σ'.mem = stored σ.regs σ.mem a 0 (nQuads nBytes) := by
  have hidle : (view σ).wait ≠ .polled := by rw [show (view σ).wait = .idle from h.wait]; exact idle_ne
  have ho : Alternating false (lsbValue a) := by
    rw [← ha]
    exact alternating_lsbValue a
  simp only [readBlock, if_neg hv, wp_bind]
  refine timestamp_view hidle rfl (setInput_view h.input rfl fun σ₁ h₁ => ?_)
  simp only [if_true, wp_bind]
  have hlow : (view σ₁).lines.reqBus = false := by rw [h₁]; exact h.reqBus
  have hdir : (view σ₁).lines.dir = 0 := by rw [h₁]
  refine WP.mono (start_view (a := a) hlow hdir rfl) fun rc σ₂ hpost => ?_
  obtain ⟨rfl, hpost⟩ := hpost
  simp only [if_true, wp_bind]
  refine WP.mono hpost fun rc σ₃ hpost => ?_
  obtain ⟨rfl, hpost⟩ := hpost
  simp only [if_true, wp_bind]
  refine WP.mono hpost fun _ σ₄ hpost => WP.mono hpost fun rc σ₅ hpost => ?_
  obtain ⟨rfl, hfirst⟩ := hpost
  have hne : (view σ₅).wait ≠ .polled := by
    rw [((if_pos rfl).mp hfirst).1.wait]
    exact asked_ne
  simp only [if_true, wp_bind]
  refine timestamp_view hne rfl ?_
  refine WP.mono (readLoop_gpio (s := { s with isInput := true }) he rfl hf ho hfirst) fun ok σ₆ hpost => ?_
  obtain ⟨rfl, w, b, lsb', hw, hend⟩ := hpost
  simp only [if_true, wp_bind]
  refine timestamp_view (by rw [hend.wait]; exact hw) rfl ?_
  refine lower_view (v := view σ₆) (Or.inl hend.reqBus) rfl fun σ₇ l hrequest hdata h₇ => ?_
  refine timestamp_view idle_ne h₇ ⟨rfl, ⟨?_, congrArg View.wait h₇, ?_⟩, ?_, ?_⟩
  · rw [show σ₇.bus.lines = l from congrArg View.lines h₇, hrequest]
  · rw [show σ₇.bus.lines = l from congrArg View.lines h₇]
    exact (if_pos rfl).mpr (hdata.dir.trans hend.dir)
  · rw [show σ₇.regs = _ from congrArg View.regs h₇, hend.regs, h₁]
    rfl
  · rw [show σ₇.mem = _ from congrArg View.mem h₇, hend.mem, h₁]
    rfl

/-! ## Histories -/

/-- A call drives the lines, or leaves them, and a handshake that is not open. -/
theorem gpioDevices_step {σ' : Device} {e : GpioOp} {r : e.Ans} (hs : (gpioDevices T L).step σ e r σ') :
    cleans σ.bus ⟨e, r⟩ ∧ ((∃ k, σ' = σ.drive (σ.bus.lines.call ⟨e, r⟩) k) ∨
      σ.bus.lines.call ⟨e, r⟩ = σ.bus.lines ∧ σ'.bus = σ.bus ∧ (σ.wait = .idle → σ'.wait = .idle)) := by
  cases e with
  | setValue g values =>
    obtain ⟨hrc, k, -, rfl⟩ := hs
    exact ⟨fun _ => Or.inl hrc, Or.inl ⟨k, rfl⟩⟩
  | getValue g =>
    cases g with
    | opDone =>
      obtain ⟨-, rfl⟩ := hs
      refine ⟨trivial, Or.inr ⟨rfl, ?_, fun h => ?_⟩⟩
      · unfold Device.sample
        split
        · rfl
        · split <;> rfl
      · rw [show σ.sample = σ from if_pos (by rw [h]; rfl), h]
    | _ =>
      obtain ⟨-, k, -, rfl⟩ := hs
      exact ⟨trivial, Or.inl ⟨k, rfl⟩⟩
  | getValueBulk g =>
    cases g with
    | regData =>
      obtain ⟨-, rfl⟩ := hs
      exact ⟨trivial, Or.inr ⟨rfl, rfl, fun h => h⟩⟩
    | _ =>
      obtain ⟨-, k, -, rfl⟩ := hs
      exact ⟨trivial, Or.inl ⟨k, rfl⟩⟩
  | getCurTime =>
    obtain ⟨-, rfl⟩ := hs
    refine ⟨trivial, Or.inr ⟨rfl, ?_, fun h => ?_⟩⟩
    · unfold Device.clock
      split <;> rfl
    · rw [show σ.clock r = σ from if_neg (by rw [h]; exact idle_ne), h]
  | load q =>
    obtain ⟨-, rfl⟩ := hs
    exact ⟨trivial, Or.inr ⟨rfl, rfl, fun h => h⟩⟩
  | store q v =>
    rw [show σ' = _ from hs]
    exact ⟨trivial, Or.inr ⟨rfl, rfl, fun h => h⟩⟩
  | _ =>
    obtain ⟨-, k, -, rfl⟩ := hs
    exact ⟨trivial, Or.inl ⟨k, rfl⟩⟩

/-- The lines of a path of the firmware. -/
theorem gpioDevices_bus {σ' : Device} {t : Trace GpioOp GpioOp.Ans} (h : (gpioDevices T L).Path σ t σ') :
    gpio.Path σ.bus t σ'.bus := by
  induction t generalizing σ with
  | nil => exact congrArg Device.bus h
  | cons x t ih =>
    obtain ⟨σ₁, hs, hp⟩ := h
    obtain ⟨hclean, hstep⟩ := gpioDevices_step hs
    have hbus : σ₁.bus = σ.bus.driveGpio x := by
      rcases hstep with ⟨k, rfl⟩ | ⟨hcall, hbus, -⟩
      · unfold Device.drive
        dsimp only
        split <;> rfl
      · have hno : σ.bus.lines.triggers σ.bus.lines = false := by
          unfold Emio.triggers
          cases σ.bus.lines.reqBus <;> simp
        rw [hbus, Bus.driveGpio, hcall, Bus.put_of_not hno]
    exact ⟨_, ⟨hclean, rfl⟩, hbus ▸ ih hp⟩

theorem dormant_drive {l : Emio} {k : Nat} (h : Mmap.Dormant σ) : Mmap.Dormant (σ.drive l k) := by
  unfold Device.drive
  dsimp only
  split
  · rename_i ht
    intro hlow
    rw [Emio.triggers, show l.reqBus = false from hlow] at ht
    cases ht
  · intro hlow
    have hlow : l.reqBus = false := hlow
    cases hr : σ.bus.lines.reqBus
    · simp only [Bool.false_and, Bool.false_eq_true, if_false]
      exact h hr
    · simp only [hlow, Bool.not_false, Bool.and_self, if_true]

/-- No handshake is open while `req_bus` is low. -/
theorem gpioDevices_dormant {σ' : Device} {t : Trace GpioOp GpioOp.Ans} (hp : (gpioDevices T L).Path σ t σ')
    (h : Mmap.Dormant σ) : Mmap.Dormant σ' := by
  induction t generalizing σ with
  | nil => exact hp ▸ h
  | cons x t ih =>
    obtain ⟨σ₁, hs, hp⟩ := hp
    obtain ⟨-, ⟨k, rfl⟩ | ⟨-, hbus, hwait⟩⟩ := gpioDevices_step hs
    · exact ih hp (dormant_drive h)
    · exact ih hp fun hlow => hwait (h (hbus ▸ hlow))

/-- `Init` leaves the driver polling. -/
theorem init_polls {b : Bus} : WP gpio True (Gpiod.init {}) b fun x _ => x.2.useEvents = false := by
  unfold Gpiod.init
  simp only [wp_bind, wp_ite, wp_pure]
  refine wp_trivial fun _ _ => ⟨fun _ => trivial, fun _ => ?_⟩
  refine wp_trivial fun _ _ => wp_orClose (fun _ => rfl) fun _ => ?_
  simp only [wp_bind]
  refine wp_trivial fun _ _ => wp_orClose (fun _ => rfl) fun _ => ?_
  simp only [wp_bind]
  refine wp_trivial fun _ _ => wp_trivial fun _ _ => wp_orClose (fun _ => rfl) fun _ => ?_
  simp only [wp_bind]
  refine wp_trivial fun _ _ => wp_orClose (fun _ => rfl) fun _ => ?_
  simp only [wp_bind]
  refine wp_trivial fun _ _ => wp_orClose (fun _ => rfl) fun _ => ?_
  simp only [wp_bind]
  refine wp_trivial fun _ _ => wp_orClose (fun _ => rfl) fun _ => ?_
  simp only [wp_bind]
  refine wp_trivial fun _ _ => wp_orClose (fun _ => rfl) fun _ => ?_
  simp only [wp_bind]
  refine wp_trivial fun _ _ => wp_trivial fun _ _ => wp_orClose (fun _ => rfl) fun _ => ?_
  simp only [wp_bind]
  refine wp_trivial fun _ _ => wp_orClose (fun _ => rfl) fun _ => ?_
  simp only [wp_bind]
  refine wp_trivial fun _ _ => wp_trivial fun _ _ => wp_trivial fun _ _ => wp_orClose (fun _ => rfl) fun _ => ?_
  simp only [wp_bind]
  refine wp_trivial fun _ _ => wp_orClose (fun _ => rfl) fun _ => ?_
  simp only [wp_bind]
  refine wp_trivial fun _ _ => wp_orClose (fun _ => rfl) fun _ => ?_
  simp only [wp_bind]
  refine wp_trivial fun _ _ => wp_orClose (fun _ => rfl) fun _ => ?_
  simp only [setEventMode, wp_bind, wp_pure, Bool.false_eq_true, if_false]
  exact wp_trivial fun _ _ => wp_trivial fun _ _ => trivial

theorem init_rest {t : Trace GpioOp GpioOp.Ans} {σ₀ : Device} (hi : (Gpiod.init {}).Runs t (true, s))
    (hp : (gpioDevices T L).Path σ₀ t σ) (hw : σ₀.wait = .idle) : Rest s σ ∧ s.useEvents = false := by
  have hkept : Kept s σ.bus := init_kept.sound hi (gpioDevices_bus hp) rfl
  have hdormant := gpioDevices_dormant hp fun _ => hw
  have hlow : σ.bus.lines.reqBus = false := hkept.idle.reqBus
  exact ⟨⟨hlow, hdormant hlow, hkept.synced⟩, init_polls.sound hi (gpioDevices_bus hp)⟩

/-! ## The client -/

/-- The driver is at rest, and the firmware has what the client is meant to see. -/
structure Agrees (T : Int) (s : Interface) (σ : Device) (f : RegisterFile) : Prop where
  rest : Rest s σ
  polls : s.useEvents = false
  version : s.version = 1
  timeout : s.timeout = T
  regs : σ.regs = f.regs
  mem : σ.mem = f.mem

/-- The operations that the driver can perform do what the client is meant to see. -/
theorem gpiod_serves (hf : L + 1 < fuel) :
    Serves (gpioDevices T L) (gpiodOps fuel) (registerFile bswap32) (Agrees T) ClientOp.Plain := by
  intro o s σ f hplain h
  obtain ⟨hrest, he, hv, rfl, hregs, hmem⟩ := h
  have hver : ¬ s.version < 1 := by rw [hv]; decide
  cases o with
  | readQuadlet addr =>
    refine WP.mono (readQuadlet_gpio hf he hrest) fun x σ' hx => ?_
    obtain ⟨rfl, hrest', hregs', hmem'⟩ := hx
    exact ⟨congrArg (fun r : BitVec 16 → BitVec 32 => some (r addr)) hregs, hrest', he, hv, rfl, hregs'.trans hregs,
      hmem'.trans hmem⟩
  | writeQuadlet addr data =>
    refine WP.mono (writeQuadlet_gpio hf he hrest) fun x σ' hx => ?_
    obtain ⟨rfl, hrest', hregs', hmem'⟩ := hx
    exact ⟨rfl, hrest', he, hv, rfl, by rw [hregs', hregs]; rfl, hmem'.trans hmem⟩
  | readBlock addr nBytes =>
    refine WP.mono (readBlock_gpio hf he hver hplain hrest) fun x σ' hx => ?_
    obtain ⟨rfl, hrest', hregs', hmem'⟩ := hx
    refine ⟨rfl, hrest', he, hv, rfl, hregs'.trans hregs, ?_⟩
    rw [hmem', hregs, hmem]
    exact stored_readBlock addr (nQuads nBytes)
  | writeBlock addr nBytes => exact absurd hplain id
  | load q =>
    simp only [gpiodOps, wp_bind, wp_load, wp_pure]
    rintro v σ' ⟨rfl, rfl⟩
    exact ⟨congrFun hmem q, hrest, he, hv, rfl, hregs, hmem⟩
  | store q v =>
    simp only [gpiodOps, wp_bind, wp_pure]
    rintro u σ' rfl
    exact ⟨trivial, ⟨hrest.reqBus, hrest.wait, hrest.synced⟩, he, hv, rfl, hregs, by rw [hmem]; rfl⟩

/-- A firmware that acknowledges every access at the first sample, behind such a library. -/
def promptly : Env GpioOp GpioOp.Ans Device where
  step σ e := match e with
    | .getValue .opDone => (if σ.left = 0 then 1 else 0, σ.sample)
    | .getValueBulk .regData => ((0, levels σ.data), σ)
    | .getCurTime => let t := match σ.wait with | .since t => t | _ => ⟨0, 0⟩; (t, σ.clock t)
    | .load q => (σ.mem q, σ)
    | .store q v => ((), { σ with mem := fun i => if i = q then v else σ.mem i })
    | e => ((versioned.step () e).1, σ.drive (σ.bus.lines.call ⟨e, (versioned.step () e).1⟩) 0)

/-- A word of the block data that the last quadlet of a block is read to. -/
def readLast : Client (BitVec 32) := do
  let _ ← .perform (ClientOp.writeQuadlet 0x11 0x12345678)
  let _ ← .perform (ClientOp.readBlock 0x10 8)
  .perform (ClientOp.load 1)

theorem promptly_step (σ : Device) (e : GpioOp) :
    (gpioDevices 250000 L).step σ e (promptly.step σ e).1 (promptly.step σ e).2 := by
  have hdriven := (versioned_succeeds e).1
  cases e with
  | getValue g =>
    cases g with
    | opDone => exact ⟨fun _ => rfl, rfl⟩
    | _ => exact ⟨hdriven, 0, Nat.zero_le L, rfl⟩
  | getValueBulk g =>
    cases g with
    | regData => exact ⟨fun _ _ => rfl, rfl⟩
    | _ => exact ⟨hdriven, 0, Nat.zero_le L, rfl⟩
  | getCurTime =>
    refine ⟨?_, rfl⟩
    unfold Device.InTime
    split <;> simp_all [promptly, timeDiff]
  | load q => exact ⟨rfl, rfl⟩
  | store q v => rfl
  | _ => exact ⟨hdriven, 0, Nat.zero_le L, rfl⟩

end FpgaV3.Proof.Gpiod
