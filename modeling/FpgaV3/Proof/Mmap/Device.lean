import FpgaV3.Proof.Mmap.Lines
import FpgaV3.Spec.Device

/-!
# The registers behind the mmap driver

The calls of the driver against a firmware that acknowledges each access
within the timeout, and the loops of the block transfers, which read or write
the registers from an address on (`readLoop_device`, `writeLoop_device`). A
bound of more iterations than the firmware takes clear samples is not used up.

`View` is what the driver sees of the firmware: everything but the accesses so
far and the number of clear samples left.
-/

namespace FpgaV3.Proof.Mmap

open FpgaV3.Spec FpgaV3.Impl FpgaV3.Impl.Mmap

structure View where
  lines : Emio
  regs : BitVec 16 → BitVec 32
  mem : Nat → BitVec 32
  wait : Wait
  addr : BitVec 16
  data : BitVec 32

def view (σ : Device) : View := ⟨σ.bus.lines, σ.regs, σ.mem, σ.wait, σ.addr, σ.data⟩

/-- An access of `a` with the lines `l`, once it is acknowledged. -/
def View.access (v : View) (l : Emio) (a : BitVec 16) : View where
  lines := l
  regs := if l.dir = 0 then v.regs else put v.regs a l.lower
  mem := v.mem
  wait := .acked
  addr := a
  data := if l.dir = 0 then v.regs a else v.data

variable {T : Int} {L fuel : Nat} {σ : Device} {v : View} {s : Interface}

/-! ## The calls -/

theorem other_view {r : Reg} {x : BitVec 32} {Q : Unit → Device → Prop} (hr : r ≠ .outputUpper) (h : view σ = v)
    (hQ : ∀ σ', view σ' = { v with lines := v.lines.write r x } → Q () σ') :
    WP (devices T L) False (registerWrite r x) σ Q := by
  rw [wp_registerWrite]
  rintro u σ' ⟨k, -, rfl⟩
  refine hQ _ ?_
  have hno : σ.bus.lines.triggers (σ.bus.lines.write r x) = false := by
    simp only [Emio.triggers, Emio.reqBus, Emio.addrLsb, upper_write hr]
    cases σ.bus.lines.upper.getLsbD 16 <;> simp
  have hsame : (σ.bus.lines.reqBus && !(σ.bus.lines.write r x).reqBus) = false := by
    simp only [Emio.reqBus, upper_write hr]
    cases σ.bus.lines.upper.getLsbD 16 <;> rfl
  rw [← h]
  simp only [view, Device.drive, hno, hsame, Bool.false_eq_true, if_false, Bus.lines_put]

/-- The address of the access that a word requests: that of the word when
`req_bus` rises, the next one when the LSB line changes. -/
def Next (v : View) (u : BitVec 32) (a : BitVec 16) : Prop :=
  (v.lines.reqBus = false ∧ u.setWidth 16 = a) ∨
    (v.lines.reqBus = true ∧ v.lines.addrLsb ≠ u.getLsbD 23 ∧ v.addr + 1 = a)

theorem request_view {u : BitVec 32} {a : BitVec 16} {Q : Unit → Device → Prop} (hu : u.getLsbD 16 = true)
    (hn : Next v u a) (h : view σ = v)
    (hQ : ∀ σ', σ'.left ≤ L → view σ' = { v.access (v.lines.write .outputUpper u) a with wait := .asked } → Q () σ') :
    WP (devices T L) False (registerWrite .outputUpper u) σ Q := by
  subst h
  rw [wp_registerWrite]
  rintro x σ' ⟨k, hk, rfl⟩
  have hreq : (σ.bus.lines.write .outputUpper u).reqBus = true := hu
  have ht : σ.bus.lines.triggers (σ.bus.lines.write .outputUpper u) = true := by
    rw [Emio.triggers, hreq, Bool.true_and]
    rcases hn with ⟨hlow, -⟩ | ⟨-, hlsb, -⟩
    · rw [show σ.bus.lines.reqBus = false from hlow]; rfl
    · rw [Bool.or_eq_true]
      exact Or.inr (bne_iff_ne.mpr hlsb)
  have ha : (if σ.bus.lines.reqBus then σ.addr + 1 else (σ.bus.lines.write .outputUpper u).regAddr) = a := by
    rcases hn with ⟨hlow, ha⟩ | ⟨hhigh, -, ha⟩
    · rw [show σ.bus.lines.reqBus = false from hlow, if_neg Bool.false_ne_true]; exact ha
    · rw [show σ.bus.lines.reqBus = true from hhigh, if_pos rfl]; exact ha
  have hdrive : σ.drive (σ.bus.lines.write .outputUpper u) k =
      ({ σ with bus := σ.bus.put (σ.bus.lines.write .outputUpper u) } : Device).access a
        (σ.bus.lines.write .outputUpper u) k := by
    simp only [Device.drive, ht, ha, if_true]
  rw [hdrive]
  exact hQ _ hk rfl

theorem lower_view {Q : Unit → Device → Prop} (hw : v.lines.reqBus = true ∨ v.wait = .idle) (h : view σ = v)
    (hQ : ∀ σ', view σ' = { v with lines := v.lines.write .outputUpper 0, wait := .idle } → Q () σ') :
    WP (devices T L) False (registerWrite .outputUpper 0) σ Q := by
  rw [wp_registerWrite]
  rintro x σ' ⟨k, -, rfl⟩
  refine hQ _ ?_
  have hno : σ.bus.lines.triggers (σ.bus.lines.write .outputUpper 0) = false := by
    simp [Emio.triggers, Emio.reqBus, Emio.write]
  have hlow : (σ.bus.lines.write .outputUpper 0).reqBus = false := by simp [Emio.reqBus, Emio.write]
  rw [← h] at hw ⊢
  simp only [view, Device.drive, hno, hlow, Bool.false_eq_true, if_false, Bus.lines_put, Bool.not_false, Bool.and_true]
  rcases hw with hw | hw
  · rw [show σ.bus.lines.reqBus = true from hw, if_pos rfl]
  · rw [show σ.wait = .idle from hw, ite_self]

theorem timestamp_view {n : Nat} {Q : Unit → Device → Prop} (hw : v.wait ≠ .polled) (h : view σ = v)
    (hQ : Q () σ) : WP (devices T L) False (timestamp s n) σ Q := by
  have hsame (t : Timespec) : σ.clock t = σ := if_neg (by rw [← h] at hw; exact hw)
  rw [wp_timestamp]
  split
  · rintro t σ' ⟨-, rfl⟩
    rwa [hsame]
  · exact hQ

/-! ## Waiting -/

theorem sample_acked {σ : Device} (hw : σ.wait.settled = false) (hl : σ.left = 0) :
    σ.sample = { σ with wait := .acked } := by
  simp only [Device.sample, hw, hl, Bool.false_eq_true, if_false, if_true]

theorem sample_clear {σ : Device} (hw : σ.wait.settled = false) {j : Nat} (hl : σ.left = j + 1) :
    σ.sample = { σ with wait := if σ.wait = .asked then .polled else σ.wait, left := j } := by
  simp only [Device.sample, hw, hl, Bool.false_eq_true, if_false, Nat.succ_ne_zero, Nat.add_sub_cancel]

/-- The polling loop, with a bound above the number of clear samples left. -/
theorem pollLoop_view {t₀ : Timespec} : ∀ (fuel : Nat) (dt : Int) {σ : Device}, σ.wait = .since t₀ → σ.left < fuel →
    dt < T → WP (devices T L) False (pollLoop T true t₀ fuel dt) σ fun _ σ' =>
      view σ' = { view σ with wait := .acked }
  | 0, _, _, _, hl, _ => absurd hl (Nat.not_lt_zero _)
  | fuel + 1, dt, σ, hw, hl, hdt => by
    have hset : σ.wait.settled = false := by rw [hw]; rfl
    unfold pollLoop
    simp only [if_pos hdt, wp_bind, wp_registerRead]
    rintro x σ₁ ⟨hx, rfl⟩
    have hx := hx hset
    rw [opdone_true, hx]
    cases hk : σ.left with
    | zero =>
      rw [sample_acked hset hk]
      rfl
    | succ j =>
      have hne : ¬ (decide (j + 1 = 0) = true) := by simp
      rw [sample_clear hset hk, if_neg hne, wp_bind, wp_getCurTime]
      rintro t σ₂ ⟨ht, rfl⟩
      simp only [hw, reduceCtorEq, if_false] at ht ⊢
      have hclock : ({ σ with wait := .since t₀, left := j } : Device).clock t = { σ with wait := .since t₀, left := j } :=
        if_neg fun e => Wait.noConfusion e
      rw [hclock]
      exact pollLoop_view fuel _ rfl (by rw [hk] at hl; exact Nat.lt_of_succ_lt_succ hl) ht

theorem wait_view {Q : Bool → Device → Prop} (hs : s.timeout = T) (hf : L < fuel) (hl : σ.left ≤ L)
    (hw : v.wait = .asked) (h : view σ = v) (hQ : ∀ σ', view σ' = { v with wait := .acked } → Q true σ') :
    WP (devices T L) False (waitOpDone fuel s true) σ Q := by
  subst h
  have hw : σ.wait = .asked := hw
  have hset : σ.wait.settled = false := by rw [hw]; rfl
  simp only [waitOpDone, wp_bind, wp_registerRead]
  rintro x σ₁ ⟨hx, rfl⟩
  have hx := hx hset
  rw [opdone_true, hx]
  cases hk : σ.left with
  | zero =>
    rw [sample_acked hset hk]
    exact hQ _ rfl
  | succ j =>
    have hne : (!decide (j + 1 = 0)) = true := by simp
    rw [sample_clear hset hk, if_pos hne, wp_bind, wp_getCurTime]
    rintro t σ₂ ⟨ht, rfl⟩
    simp only [hw, if_true] at ht ⊢
    have hclock : ({ σ with wait := .polled, left := j } : Device).clock t = { σ with wait := .since t, left := j } :=
      if_pos rfl
    rw [hclock, wp_bind, hs]
    refine WP.mono (pollLoop_view fuel 0 rfl (show j < fuel by omega) ht) fun _ σ' h => hQ σ' ?_
    rw [h]
    rfl

/-- Waiting for `op_done` to be cleared takes a sample. -/
theorem clear_view {Q : Bool → Device → Prop} (hw : v.wait.settled = true) (h : view σ = v) (hQ : Q true σ) :
    WP (devices T L) False (waitOpDone fuel s false) σ Q := by
  subst h
  rw [wp_wait_clear]
  rintro x σ' ⟨-, rfl⟩
  have hsame : σ.sample = σ := if_pos hw
  rwa [hsame]

/-! ## The directions and the data -/

theorem lines_eq {l : Emio} {d e : BitVec 32} (hd : l.dir = d) (he : l.en = e) : { l with dir := d, en := e } = l := by
  rw [← hd, ← he]

theorem setInput_view {Q : Interface → Device → Prop} (hk : s.isInput = true → v.lines.dir = 0) (h : view σ = v)
    (hQ : ∀ σ', view σ' = { v with lines := { v.lines with dir := 0 } } → Q { s with isInput := true } σ') :
    WP (devices T L) False (setInput s) σ Q := by
  unfold setInput
  cases hin : s.isInput
  · rw [if_neg Bool.false_ne_true, wp_bind]
    exact other_view (by decide) h hQ
  · have hlines := lines_eq (hk hin) rfl
    have hs : s = { s with isInput := true } := by cases s; cases hin; rfl
    have hQ := hQ σ (by rw [hlines]; exact h)
    rw [← hs] at hQ
    exact hQ

theorem setOutput_view {Q : Interface → Device → Prop}
    (hk : s.isInput = false → v.lines.dir = BitVec.allOnes 32 ∧ v.lines.en = BitVec.allOnes 32) (h : view σ = v)
    (hQ : ∀ σ', view σ' = { v with lines := { v.lines with dir := BitVec.allOnes 32, en := BitVec.allOnes 32 } } →
      Q { s with isInput := false } σ') : WP (devices T L) False (setOutput s) σ Q := by
  unfold setOutput
  cases hin : s.isInput
  · have hlines := lines_eq (hk hin).1 (hk hin).2
    have hs : s = { s with isInput := false } := by cases s; cases hin; rfl
    have hQ := hQ σ (by rw [hlines]; exact h)
    rw [← hs] at hQ
    exact hQ
  · simp only [Bool.not_true, Bool.false_eq_true, if_false, wp_bind]
    exact other_view (by decide) h fun σ₁ h₁ => other_view (by decide) h₁ hQ

/-- The data of an acknowledged read. -/
theorem read_view {Q : BitVec 32 → Device → Prop} (hw : v.wait = .acked) (hd : v.lines.dir = 0) (h : view σ = v)
    (hQ : Q v.data σ) : WP (devices T L) False (registerRead .inputLower) σ Q := by
  subst h
  rw [wp_registerRead]
  rintro x σ' ⟨hx, rfl⟩
  rw [hx hw hd]
  exact hQ

theorem load_view {q : Nat} {Q : BitVec 32 → Device → Prop} (h : view σ = v) (hQ : Q (v.mem q) σ) :
    WP (devices T L) False (load q) σ Q := by
  subst h
  rw [wp_load]
  rintro x σ' ⟨rfl, rfl⟩
  exact hQ

theorem store_view {q : Nat} {x : BitVec 32} {Q : Unit → Device → Prop} (h : view σ = v)
    (hQ : ∀ σ', view σ' = { v with mem := fun i => if i = q then x else v.mem i } → Q () σ') :
    WP (devices T L) False (store q x) σ Q := by
  subst h
  rw [wp_store]
  rintro u σ' rfl
  exact hQ _ rfl

/-! ## The loops -/

/-- The next access of a block is that of `a`. -/
def Upcoming (v : View) (outreg : BitVec 32) (a : BitVec 16) : Prop :=
  (v.lines.reqBus = false ∧ outreg.setWidth 16 = a) ∨
    (v.lines.reqBus = true ∧ v.lines.addrLsb ≠ a.getLsbD 0 ∧ v.addr + 1 = a)

theorem setWidth_next (a : BitVec 16) (N q : Nat) (outreg : BitVec 32) :
    (updateLsb a (markLast N q outreg)).setWidth 16 = outreg.setWidth 16 := by
  apply BitVec.eq_of_getLsbD_eq
  intro i hi
  rw [BitVec.getLsbD_setWidth, BitVec.getLsbD_setWidth, getLsbD_updateLsb, if_neg (by omega), getLsbD_markLast,
    if_neg (show i ≠ 20 by omega), if_neg (show i ≠ 19 by omega), ite_self]

theorem Upcoming.next {outreg : BitVec 32} {a : BitVec 16} (h : Upcoming v outreg a) (N q : Nat) :
    Next v (updateLsb a (markLast N q outreg)) a := by
  rcases h with ⟨hlow, ha⟩ | ⟨hhigh, hlsb, ha⟩
  · exact Or.inl ⟨hlow, (setWidth_next a N q outreg).trans ha⟩
  · refine Or.inr ⟨hhigh, ?_, ha⟩
    rw [getLsbD_updateLsb, if_pos rfl]
    exact hlsb

/-- After an access of `a`, the next one is that of `a + 1`. -/
theorem upcoming_succ {l : Emio} {a : BitVec 16} {outreg : BitVec 32} (hr : l.reqBus = true)
    (hl : l.addrLsb = a.getLsbD 0) (hv : v.lines = l) (ha : v.addr = a) : Upcoming v outreg (a + 1) := by
  refine Or.inr ⟨by rw [hv, hr], ?_, by rw [ha]⟩
  rw [hv, hl, getLsbD_succ]
  cases a.getLsbD 0 <;> decide

/-- A block at its end: the handshake of the last access is closed by lowering
`req_bus`, if there was one. -/
structure Ended (d e : BitVec 32) (R : BitVec 16 → BitVec 32) (M : Nat → BitVec 32) (v : View) : Prop where
  dir : v.lines.dir = d
  en : v.lines.en = e
  regs : v.regs = R
  mem : v.mem = M
  wait : v.wait = .acked ∧ v.lines.reqBus = true ∨ v.wait = .idle

variable {d e : BitVec 32} {R : BitVec 16 → BitVec 32} {M : Nat → BitVec 32}

/-- The memory with the registers from `a` on at the quadlets from `q` on. -/
def stored (R : BitVec 16 → BitVec 32) (M : Nat → BitVec 32) (a : BitVec 16) (q n : Nat) : Nat → BitVec 32 :=
  fun i => if q ≤ i ∧ i < q + n then bswap32 (R (a + BitVec.ofNat 16 (i - q))) else M i

theorem stored_zero (a : BitVec 16) (q : Nat) : stored R M a q 0 = M := by
  funext i
  exact if_neg (by omega)

theorem stored_succ (a : BitVec 16) (q n : Nat) :
    stored R (fun i => if i = q then bswap32 (R a) else M i) (a + 1) (q + 1) n = stored R M a q (n + 1) := by
  funext i
  unfold stored
  by_cases hi : q + 1 ≤ i ∧ i < q + 1 + n
  · rw [if_pos hi, if_pos (by omega), ← add_succ, show i - (q + 1) + 1 = i - q by omega]
  · rw [if_neg hi]
    dsimp only
    by_cases hq : i = q
    · rw [if_pos hq, if_pos (by omega), hq, Nat.sub_self, BitVec.add_zero]
    · rw [if_neg hq, if_neg (by omega)]

/-- The word requested of quadlet `q` raises `req_bus`, and its LSB line is that
of the address. -/
theorem Opening.word {outreg : BitVec 32} (h : Opening outreg) (a : BitVec 16) (N q : Nat) (l : Emio) :
    (updateLsb a (markLast N q outreg)).getLsbD 16 = true ∧
      (l.write .outputUpper (updateLsb a (markLast N q outreg))).addrLsb = a.getLsbD 0 :=
  ⟨(h.lines (l := l.write .outputUpper _) rfl).1, (h.lines (l := l.write .outputUpper _) rfl).2.1⟩

theorem readLoop_device (hs : s.timeout = T) (hf : L < fuel) {N n q : Nat} {a : BitVec 16} {outreg : BitVec 32}
    (hN : q + n = N) (ho : n ≠ 0 → Opening outreg) (hu : Upcoming (view σ) outreg a) (h : Ended 0 e R M (view σ)) :
    WP (devices T L) False (blockLoop (fun _ => return ()) (waitOpDone fuel s true)
        (fun q => do
          let val ← registerRead .inputLower
          store q (bswap32 val)) N n q a outreg) σ fun ok σ' =>
        ok = true ∧ Ended 0 e R (stored R M a q n) (view σ') := by
  induction n generalizing q a outreg M σ with
  | zero => exact ⟨rfl, by rwa [stored_zero]⟩
  | succ n ih =>
    have ho := ho (by omega)
    obtain ⟨hreq, hlsb⟩ := Opening.word ho a N q (view σ).lines
    simp only [blockLoop, wp_bind, wp_pure]
    refine request_view hreq (hu.next N q) rfl fun σ₁ hl h₁ => ?_
    refine wait_view hs hf hl (by rw [h₁]) rfl fun σ₂ h₂ => ?_
    rw [h₁] at h₂
    simp only [if_true, wp_bind]
    refine read_view (by rw [h₂]) (by rw [h₂]; exact h.dir) rfl (store_view h₂ fun σ₃ h₃ => ?_)
    have hdata : (view σ₂).data = R a := by
      rw [h₂]
      exact (if_pos h.dir).trans (congrFun h.regs a)
    rw [hdata] at h₃
    have hinv : Ended 0 e R (fun i => if i = q then bswap32 (R a) else M i) (view σ₃) := by
      rw [h₃]
      refine ⟨h.dir, h.en, (if_pos h.dir).trans h.regs, ?_, Or.inl ⟨rfl, hreq⟩⟩
      rw [← h.mem]
      rfl
    rw [← stored_succ]
    have hnext : n ≠ 0 → Opening (updateLsb a (markLast N q outreg)) := fun hn => ho.next (by omega) a
    have hup : Upcoming (view σ₃) (updateLsb a (markLast N q outreg)) (a + 1) :=
      upcoming_succ (l := (view σ).lines.write .outputUpper (updateLsb a (markLast N q outreg))) hreq hlsb
        (by rw [h₃]; rfl) (by rw [h₃]; rfl)
    exact ih (by omega) hnext hup hinv

theorem writeLoop_device (hs : s.timeout = T) (hf : L < fuel) (hd : d ≠ 0) {N n q : Nat} {a : BitVec 16}
    {outreg : BitVec 32} (hN : q + n = N) (ho : n ≠ 0 → Opening outreg) (hu : Upcoming (view σ) outreg a)
    (h : Ended d e R M (view σ)) :
    WP (devices T L) False (blockLoop
        (fun q => do
          let val ← load q
          registerWrite .outputLower (bswap32 val))
        (waitOpDone fuel s true) (fun _ => return ()) N n q a outreg) σ fun ok σ' =>
        ok = true ∧ Ended d e (fill R a (fun i => bswap32 (M (q + i))) n) M (view σ') := by
  induction n generalizing q a outreg R σ with
  | zero => exact ⟨rfl, h⟩
  | succ n ih =>
    have ho := ho (by omega)
    simp only [blockLoop, wp_bind]
    refine load_view rfl (other_view (by decide) rfl fun σ₁ h₁ => ?_)
    have hu₁ : Upcoming (view σ₁) outreg a := by rw [h₁]; exact hu
    obtain ⟨hreq, hlsb⟩ := Opening.word ho a N q (view σ₁).lines
    refine request_view hreq (hu₁.next N q) rfl fun σ₂ hl h₂ => ?_
    refine wait_view hs hf hl (by rw [h₂]) rfl fun σ₃ h₃ => ?_
    rw [h₂] at h₃
    simp only [if_true, wp_bind, wp_pure]
    have hinv : Ended d e (put R a (bswap32 (M q))) M (view σ₃) := by
      have hdir : (view σ).lines.dir ≠ 0 := by rw [h.dir]; exact hd
      rw [h₃, h₁]
      refine ⟨h.dir, h.en, (if_neg hdir).trans ?_, h.mem, Or.inl ⟨rfl, hreq⟩⟩
      rw [← h.regs, ← h.mem]
      rfl
    have hshift : (fun i => bswap32 (M (q + (i + 1)))) = fun i => bswap32 (M (q + 1 + i)) := by
      funext i
      rw [Nat.add_assoc, Nat.add_comm 1 i]
    rw [fill_front, Nat.add_zero, hshift]
    have hnext : n ≠ 0 → Opening (updateLsb a (markLast N q outreg)) := fun hn => ho.next (by omega) a
    have hup : Upcoming (view σ₃) (updateLsb a (markLast N q outreg)) (a + 1) :=
      upcoming_succ (l := (view σ₁).lines.write .outputUpper (updateLsb a (markLast N q outreg))) hreq hlsb
        (by rw [h₃]; rfl) (by rw [h₃]; rfl)
    exact ih (by omega) hnext hup hinv

end FpgaV3.Proof.Mmap
