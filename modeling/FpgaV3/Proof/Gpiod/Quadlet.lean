import FpgaV3.Proof.Gpiod.Bits
import FpgaV3.Proof.Gpiod.Idle
import FpgaV3.Spec.Quadlet

/-!
# The quadlet requests of the gpiod driver

The lines are set one bulk after the other, and `req_bus` last (`raise_lines`);
nothing after that raises it again (`low_keeps`). The LSB line keeps the level
that earlier operations left (`readQuadlet_rises`, `writeQuadlet_rises`).
-/

namespace FpgaV3.Proof.Gpiod

open FpgaV3.Spec FpgaV3.Impl FpgaV3.Impl.Gpiod

/-! ## The word read -/

/-- A word shifted by one less has one more bit. -/
theorem shift_bit (w : BitVec 32) (k : Nat) :
    ((w >>> (k + 1)) <<< 1) ||| (if w.getLsbD k then 1#32 else 0#32) = w >>> k := by
  refine BitVec.eq_of_getLsbD_eq fun i hi => ?_
  rw [BitVec.getLsbD_or, BitVec.getLsbD_shiftLeft, BitVec.getLsbD_ushiftRight, BitVec.getLsbD_ushiftRight]
  by_cases hzero : i = 0
  · rw [hzero, Nat.add_zero]
    have hlow (b : Bool) : (if b then 1#32 else 0#32).getLsbD 0 = b := by cases b <;> rfl
    rw [hlow]
    rfl
  · have hbit : (if w.getLsbD k then 1#32 else 0#32).getLsbD i = false := by
      cases w.getLsbD k
      · exact BitVec.getLsbD_zero
      · rw [if_pos rfl, BitVec.getLsbD_one, decide_eq_false hzero, Bool.and_false]
    rw [hbit, Bool.or_false, decide_eq_true hi, decide_eq_false (by omega), show k + 1 + (i - 1) = k + i by omega]
    rfl

/-- The word read is the one on the lines, most significant bit first. -/
theorem ofValues_levels (w : BitVec 32) : ofValues (levels w) = w := by
  have hbits : levels w = (List.range 32).map fun i => if w.getLsbD (31 - i) then 1 else 0 := by
    rw [levels, Lines.offsets, List.map_map]
    refine List.map_congr_left fun i hi => ?_
    rw [List.mem_range] at hi
    show (if w.getLsbD (INDEX_EMIO_START + 31 - i - INDEX_EMIO_START) then (1 : Int) else 0) = _
    rw [show INDEX_EMIO_START + 31 - i - INDEX_EMIO_START = 31 - i by rw [INDEX_EMIO_START]; omega]
  have hprefix : ∀ n ≤ 32, ofValues ((List.range n).map fun i => if w.getLsbD (31 - i) then 1 else 0) = w >>> (32 - n) := by
    intro n hn
    induction n with
    | zero => exact (BitVec.ushiftRight_eq_zero (Nat.le_refl 32)).symm
    | succ n ih =>
      have hval : BitVec.ofInt 32 (if w.getLsbD (31 - n) then 1 else 0) = if w.getLsbD (31 - n) then 1#32 else 0#32 := by
        cases w.getLsbD (31 - n) <;> rfl
      have hstep := shift_bit w (31 - n)
      rw [show 31 - n + 1 = 32 - n by omega, ← hval, ← ih (by omega)] at hstep
      rw [List.range_succ, List.map_append, show 32 - (n + 1) = 31 - n by omega, ← hstep, ofValues, List.foldl_append]
      rfl
  rw [hbits, hprefix 32 (Nat.le_refl 32)]
  exact BitVec.ushiftRight_zero w

/-! ## Before the rise -/

variable {w : BitVec 32} {r : Rises} {lsb : Bool} {α : Type}

/-- `req_bus` has not risen yet, and the LSB line is at the level `lsb`. -/
structure Before (lsb : Bool) (r : Rises) : Prop where
  reqBus : r.lines.reqBus = false
  addrLsb : r.lines.addrLsb = lsb
  rises : r.rises = []

/-- The lines change without a rise. -/
theorem Before.put (h : Before lsb r) {l : Emio} (hr : l.reqBus = false) (hl : l.addrLsb = lsb) :
    Before lsb (r.put l) := by
  refine ⟨hr, hl, ?_⟩
  show r.rises ++ _ = _
  rw [h.rises, hr, Bool.and_false]
  rfl

/-- A call that does not raise `req_bus`. -/
def Low (e : GpioOp) : Prop := ∀ (l : Emio) (rc : e.Ans), (l.call ⟨e, rc⟩).reqBus = true → l.reqBus = true

theorem low_keeps {p : GpioProg α} (hp : p.All Low) {ls : List Emio} (h : r.rises = ls) :
    WP (gpioRises w) True p r fun _ r' => r'.rises = ls := by
  refine wp_invariant (I := fun r : Rises => r.rises = ls) (fun r e rc r' he hs h => ?_) hp h
  obtain ⟨-, rfl⟩ := hs
  have hnone : (!r.lines.reqBus && (r.lines.call ⟨e, rc⟩).reqBus) = false := by
    cases hr : (r.lines.call ⟨e, rc⟩).reqBus
    · exact Bool.and_false _
    · rw [he r.lines rc hr]
      rfl
  show r.rises ++ _ = _
  rw [hnone, h]
  exact List.append_nil _

/-- A call that sets lines. -/
theorem wp_setLines {g : Lines} {values : List Int} {Q : Int → Rises → Prop} (h : Q 0 (r.put (r.lines.setLines g values))) :
    WP (gpioRises w) True (setValue g values) r Q := by
  rw [wp_setValue]
  rintro rc r' ⟨⟨hrc, -⟩, rfl⟩
  obtain rfl : rc = 0 := hrc
  exact h

/-- The lines at the rise: the address, the control lines and `req_bus` are set,
one after the other. -/
def raised (l : Emio) (addr : BitVec 16) (x y z : Int) : Emio :=
  ((l.setLines .regAddr (addrValues addr)).setLines .ctrl [x, y, z]).setLines .reqBus [1]

theorem Before.set (h : Before lsb r) {g : Lines} (values : List Int) (hg : g ≠ .reqBus ∧ g ≠ .addrLsb) :
    Before lsb (r.put (r.lines.setLines g values)) := by
  apply h.put
  · rw [reqBus_setLines hg.1]
    exact h.reqBus
  · rw [addrLsb_setLines hg.2]
    exact h.addrLsb

theorem Before.raise (h : Before lsb r) :
    (r.put (r.lines.setLines .reqBus [1])).rises = [r.lines.setLines .reqBus [1]] := by
  show r.rises ++ _ = _
  rw [h.rises, h.reqBus, reqBus_set]
  rfl

theorem raise_lines (h : Before lsb r) (addr : BitVec 16) (x y z : Int) :
    WP (gpioRises w) True (setValue .regAddr (addrValues addr)) r fun _ r₁ =>
      WP (gpioRises w) True (setValue .ctrl [x, y, z]) r₁ fun _ r₂ =>
        WP (gpioRises w) True (setValue .reqBus [1]) r₂ fun _ r₃ => r₃.rises = [raised r.lines addr x y z] := by
  have haddr := h.set (g := .regAddr) (addrValues addr) (by decide)
  have hctrl := haddr.set (g := .ctrl) [x, y, z] (by decide)
  apply wp_setLines
  apply wp_setLines
  apply wp_setLines
  exact hctrl.raise

theorem regAddr_setLines {l : Emio} {g : Lines} {values : List Int} (h : g ≠ .regAddr) :
    (l.setLines g values).regAddr = l.regAddr := by
  refine BitVec.eq_of_getLsbD_eq fun k hk => ?_
  rw [Emio.regAddr, Emio.regAddr, BitVec.getLsbD_setWidth, BitVec.getLsbD_setWidth]
  rw [getLsbD_setLines fun j hj => ?_]
  have hrange : ∀ j ∈ g.offsets, INDEX_EMIO_START ≤ j ∧ j < INDEX_EMIO_START + 64 ∧
      (j < INDEX_EMIO_START + 32 ∨ INDEX_EMIO_START + 48 ≤ j) := by
    cases g <;> first | exact absurd rfl h | decide
  have hj' := hrange j hj
  omega

/-- What a quadlet request presents. -/
theorem raised_asks (l : Emio) (addr : BitVec 16) (x z : Int) : Asks addr (x != 0) (raised l addr x 0 z) := by
  refine ⟨?_, ?_, ?_⟩
  · rw [raised, regAddr_setLines (by decide), regAddr_setLines (by decide), regAddr_set]
  · rw [raised, regWen_setLines (by decide), (ctrl_set x 0 z).1]
  · rw [raised, blkStart_setLines (by decide), (ctrl_set x 0 z).2.1]
    rfl

theorem raised_blkEnd (l : Emio) (addr : BitVec 16) (x y z : Int) : (raised l addr x y z).blkEnd = (z != 0) := by
  rw [raised, blkEnd_setLines (by decide), (ctrl_set x y z).2.2]

theorem raised_addrLsb (l : Emio) (addr : BitVec 16) (x y z : Int) : (raised l addr x y z).addrLsb = l.addrLsb := by
  rw [raised, addrLsb_setLines (by decide), addrLsb_setLines (by decide), addrLsb_setLines (by decide)]

theorem raised_data (l : Emio) (addr : BitVec 16) (x y z : Int) : (raised l addr x y z).lower = l.lower ∧
    (raised l addr x y z).dir = l.dir ∧ (raised l addr x y z).en = l.en := by
  refine ⟨?_, ?_, ?_⟩
  · rw [raised, lower_setLines (by decide), lower_setLines (by decide), lower_setLines (by decide)]
  · rw [raised, dir_setLines, dir_setLines, dir_setLines]
  · rw [raised, en_setLines, en_setLines, en_setLines]

/-! ## The direction -/

/-- The data lines become inputs. -/
theorem before_setInput {s : Interface} (hd : s.isInput = true → r.lines.dir = 0) (h : Before lsb r) :
    WP (gpioRises w) True (setInput s) r fun x r' => x.1 = true ∧ Before lsb r' ∧ r'.lines.dir = 0 := by
  unfold setInput
  cases hin : s.isInput
  · rw [if_neg Bool.false_ne_true, wp_bind]
    rintro rc r' ⟨⟨hrc, -⟩, rfl⟩
    obtain rfl : rc = 0 := hrc
    exact ⟨rfl, h.put h.reqBus h.addrLsb, rfl⟩
  · rw [if_pos rfl]
    exact ⟨rfl, h, hd hin⟩

/-- A call that makes the data lines outputs. -/
theorem wp_direct {values : List Int} {Q : Int → Rises → Prop}
    (h : ∀ l, l = r.lines.setLines .regData values →
      Q 0 (r.put { l with dir := BitVec.allOnes 32, en := BitVec.allOnes 32 })) :
    WP (gpioRises w) True (.perform (GpioOp.setDirectionOutput .regData values)) r Q := by
  rintro rc r' ⟨⟨hrc, -⟩, rfl⟩
  obtain rfl : rc = 0 := hrc
  exact h _ rfl

/-- The word is on the data lines, which become outputs if they are not. -/
theorem before_setOutput {s : Interface} {x : BitVec 32} (hd : s.isInput = false → r.lines.DataOut)
    (h : Before lsb r) :
    WP (gpioRises w) True (Prog.onlyIf (!s.isInput) do let _ ← setValue .regData (dataValues x)) r fun _ r₁ =>
      WP (gpioRises w) True (setOutput s (dataValues x)) r₁ fun y r' => y.1 = true ∧ Before lsb r' ∧
        r'.lines.DataOut ∧ r'.lines.lower = x := by
  have hset := h.set (g := .regData) (dataValues x) (by decide)
  have hword := lower_set r.lines x
  cases hin : s.isInput
  · have hdir : (r.lines.setLines .regData (dataValues x)).dir = r.lines.dir := dir_setLines
    have hen : (r.lines.setLines .regData (dataValues x)).en = r.lines.en := en_setLines
    rw [Prog.onlyIf, Bool.not_false, if_pos rfl, wp_bind]
    apply wp_setLines
    rw [wp_pure, setOutput, hin, if_neg Bool.false_ne_true]
    refine ⟨rfl, hset, ⟨?_, ?_⟩, hword⟩
    · exact hdir.trans (hd hin).1
    · exact hen.trans (hd hin).2
  · rw [Prog.onlyIf, Bool.not_true, if_neg Bool.false_ne_true]
    show WP (gpioRises w) True (setOutput s (dataValues x)) r _
    rw [setOutput, hin, if_pos rfl, wp_bind]
    apply wp_direct
    intro l hl
    rw [← hl] at hset hword
    exact ⟨rfl, h.put hset.reqBus hset.addrLsb, ⟨rfl, rfl⟩, hword⟩

/-! ## After the rise -/

theorem low_reqBus : Low (.setValue .reqBus [0]) := by
  intro l rc h
  have hlow : (l.setLines .reqBus [0]).reqBus = false := reqBus_set 0
  by_cases hrc : rc = 0
  · rw [show l.call ⟨.setValue .reqBus [0], rc⟩ = l.setLines .reqBus [0] from if_pos hrc, hlow] at h
    exact absurd_false h
  · rwa [show l.call ⟨.setValue .reqBus [0], rc⟩ = l from if_neg hrc] at h

theorem low_ctrl (values : List Int) : Low (.setValue .ctrl values) := by
  intro l rc h
  by_cases hrc : rc = 0
  · rwa [show l.call ⟨.setValue .ctrl values, rc⟩ = l.setLines .ctrl values from if_pos hrc,
      reqBus_setLines (by decide)] at h
  · rwa [show l.call ⟨.setValue .ctrl values, rc⟩ = l from if_neg hrc] at h

theorem low_timestamp (s : Interface) (n : Nat) : (timestamp s n).All Low := all_timestamp s n fun _ _ h => h

theorem low_wait (fuel : Nat) (s : Interface) : (waitOpDone fuel s).All Low :=
  all_wait fuel s (fun _ _ h => h) (fun _ _ h => h) (fun _ _ h => h) fun _ _ h => h

theorem timestamp_keeps (s : Interface) (n : Nat) : WP (gpioRises w) True (timestamp s n) r fun _ r' => r' = r := by
  have hput (r : Rises) : r.put r.lines = r := by
    rw [Rises.put, Bool.not_and_self, if_neg Bool.false_ne_true, List.append_nil]
  unfold timestamp
  split
  · rw [wp_bind]
    rintro t r' ⟨-, rfl⟩
    exact hput r
  · rfl

/-- The data lines are read. -/
theorem levels_read {ls : List Emio} (h : r.rises = ls) :
    WP (gpioRises w) True (getValueBulk .regData) r fun x r' => x.2 = levels w ∧ r'.rises = ls := by
  have hlowering : (getValueBulk .regData).All Low := Prog.all_perform.mpr fun _ _ h => h
  have hkeep := low_keeps (w := w) hlowering h
  rw [wp_getValueBulk] at hkeep ⊢
  intro x r' hs
  exact ⟨hs.1.2, hkeep x r' hs⟩

/-! ## The requests -/

variable {b : Bus} {s : Interface} {fuel : Nat} {addr : BitVec 16}

theorem before_start (h : Kept s b) : Before b.lines.addrLsb ⟨b.lines, []⟩ := ⟨h.idle.reqBus, rfl, rfl⟩

theorem readQuadlet_rises (h : Kept s b) :
    WP (gpioRises w) True (readQuadlet fuel s addr) ⟨b.lines, []⟩ fun x r => (∀ v, x.1 = some v → v = w) ∧
      ∃ l, r.rises = [l] ∧ Asks addr false l ∧ l.DataIn ∧ l.blkEnd = false ∧ l.addrLsb = b.lines.addrLsb := by
  simp only [readQuadlet, wp_bind]
  refine WP.mono (timestamp_keeps s 0) fun _ r₁ hr => ?_
  rw [hr]
  refine WP.mono (before_setInput h.input (before_start h)) fun x r₂ hpost => ?_
  obtain ⟨hok, hbefore, hdir⟩ := hpost
  obtain ⟨ok, s'⟩ := x
  obtain rfl : ok = true := hok
  simp only [if_true, wp_bind]
  refine WP.mono (raise_lines hbefore addr 0 0 0) fun _ r₃ h => WP.mono h fun _ r₄ h => WP.mono h fun _ r₅ hl => ?_
  refine WP.mono (low_keeps (low_timestamp s' 1) hl) fun _ r₆ hl => ?_
  refine WP.mono (low_keeps (low_wait fuel s') hl) fun ok r₇ hl => ?_
  have hasks : Asks addr false (raised r₂.lines addr 0 0 0) := raised_asks r₂.lines addr 0 0
  have hdata : (raised r₂.lines addr 0 0 0).DataIn := by
    rw [Emio.DataIn, (raised_data r₂.lines addr 0 0 0).2.1]
    exact hdir
  have hlsb : (raised r₂.lines addr 0 0 0).addrLsb = b.lines.addrLsb := by
    rw [raised_addrLsb]
    exact hbefore.addrLsb
  have hend : (raised r₂.lines addr 0 0 0).blkEnd = false := raised_blkEnd r₂.lines addr 0 0 0
  generalize raised r₂.lines addr 0 0 0 = l at hl hasks hdata hlsb hend
  have hdone : ∃ l', [l] = [l'] ∧ Asks addr false l' ∧ l'.DataIn ∧ l'.blkEnd = false ∧ l'.addrLsb = b.lines.addrLsb :=
    ⟨l, rfl, hasks, hdata, hend, hlsb⟩
  cases ok with
  | false =>
    rw [if_neg Bool.false_ne_true, wp_bind]
    refine WP.mono (low_keeps (all_set low_reqBus) hl) fun _ r₈ hl => ?_
    rw [wp_pure, hl]
    exact ⟨fun v h => absurd_none h, hdone⟩
  | true =>
    simp only [if_true, wp_bind]
    refine WP.mono (low_keeps (low_timestamp s' 1) hl) fun _ r₈ hl => ?_
    refine WP.mono (levels_read hl) fun x r₉ hpost => ?_
    obtain ⟨hword, hl⟩ := hpost
    refine WP.mono (low_keeps (all_set low_reqBus) hl) fun _ r₁₀ hl => ?_
    rw [wp_ite]
    constructor
    · intro hret
      rw [wp_bind]
      refine WP.mono (low_keeps (low_timestamp s' 0) hl) fun _ r₁₁ hl => ?_
      rw [wp_pure, hl, hword, ofValues_levels]
      exact ⟨fun v h => (Option.some.inj h).symm, hdone⟩
    · intro hret
      rw [wp_pure, hl]
      exact ⟨fun v h => absurd_none h, hdone⟩

theorem writeQuadlet_rises {data : BitVec 32} (h : Kept s b) :
    WP (gpioRises w) True (writeQuadlet fuel s addr data) ⟨b.lines, []⟩ fun _ r =>
      ∃ l, r.rises = [l] ∧ Asks addr true l ∧ l.DataOut ∧ l.lower = data ∧ l.blkEnd = true ∧
        l.addrLsb = b.lines.addrLsb := by
  simp only [writeQuadlet, wp_bind]
  refine WP.mono (timestamp_keeps s 0) fun _ r₁ hr => ?_
  rw [hr]
  refine WP.mono (before_setOutput h.output (before_start h)) fun _ r₂ h => WP.mono h fun x r₃ hpost => ?_
  obtain ⟨hok, hbefore, hout, hword⟩ := hpost
  obtain ⟨ok, s'⟩ := x
  obtain rfl : ok = true := hok
  simp only [if_true, wp_bind]
  refine WP.mono (raise_lines hbefore addr 1 0 1) fun _ r₄ h => WP.mono h fun _ r₅ h => WP.mono h fun _ r₆ hl => ?_
  refine WP.mono (low_keeps (low_timestamp s' 1) hl) fun _ r₇ hl => ?_
  refine WP.mono (low_keeps (low_wait fuel s') hl) fun ok r₈ hl => ?_
  refine WP.mono (low_keeps (Prog.all_onlyIf (low_timestamp s' 1)) hl) fun _ r₉ hl => ?_
  refine WP.mono (low_keeps (all_lower low_reqBus (low_ctrl ctrl_zero)) hl) fun _ r₁₀ hl => ?_
  refine WP.mono (low_keeps (Prog.all_onlyIf (low_timestamp s' 0)) hl) fun _ r₁₁ hl => ?_
  obtain ⟨hlower, hdir, hen⟩ := raised_data r₃.lines addr 1 0 1
  refine ⟨_, hl, raised_asks r₃.lines addr 1 1, ⟨hdir.trans hout.1, hen.trans hout.2⟩, hlower.trans hword, ?_, ?_⟩
  · exact raised_blkEnd r₃.lines addr 1 0 1
  · rw [raised_addrLsb]
    exact hbefore.addrLsb

end FpgaV3.Proof.Gpiod
