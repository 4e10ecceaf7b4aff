import FpgaV3.Proof.Mmap.Lines
import FpgaV3.Spec.Quadlet

/-!
# The quadlet requests of the mmap driver

All address and control lines are written at once, with `req_bus` high: the LSB
line and `blk_end` are low (`readQuadlet_rises`, `writeQuadlet_rises`).
-/

namespace FpgaV3.Proof.Mmap

open FpgaV3.Spec FpgaV3.Impl FpgaV3.Impl.Mmap

variable {w : BitVec 32} {r : Rises} {α : Type}

/-- A call that does not raise `req_bus`. -/
def Low (e : RegOp) : Prop := ∀ (l : Emio) (a : e.Ans), (l.access ⟨e, a⟩).reqBus = true → l.reqBus = true

theorem low_keeps {p : RegProg α} (hp : p.All Low) {ls : List Emio} (h : r.rises = ls) :
    WP (regRises w) True p r fun _ r' => r'.rises = ls := by
  refine wp_invariant (I := fun r : Rises => r.rises = ls) (fun r e a r' he hs h => ?_) hp h
  obtain ⟨-, rfl⟩ := hs
  have hnone : (!r.lines.reqBus && (r.lines.access ⟨e, a⟩).reqBus) = false := by
    cases hr : (r.lines.access ⟨e, a⟩).reqBus
    · exact Bool.and_false _
    · rw [he r.lines a hr]
      rfl
  show r.rises ++ _ = _
  rw [hnone, h]
  exact List.append_nil _

theorem low_timestamp (s : Interface) (n : Nat) : (timestamp s n).All Low := all_timestamp s n fun _ _ h => h

theorem low_wait (fuel : Nat) (s : Interface) (state : Bool) : (waitOpDone fuel s state).All Low :=
  all_wait fuel s state (fun _ _ h => h) fun _ _ h => h

/-- A write that leaves `req_bus` low. -/
theorem low_upper {v : BitVec 32} (hv : v.getLsbD 16 = false) : (registerWrite .outputUpper v).All Low := by
  refine Prog.all_perform.mpr fun l a h => ?_
  have hlow : (l.access ⟨.regWrite .outputUpper v, a⟩).reqBus = false := hv
  rw [hlow] at h
  exact absurd_false h

/-- `req_bus` is low, and has not risen. -/
structure Before (r : Rises) : Prop where
  reqBus : r.lines.reqBus = false
  rises : r.rises = []

theorem Before.put (h : Before r) {l : Emio} (hr : l.reqBus = false) : Before (r.put l) := by
  refine ⟨hr, ?_⟩
  show r.rises ++ _ = _
  rw [h.rises, hr, Bool.and_false]
  rfl

theorem Before.raise (h : Before r) {v : BitVec 32} (hv : v.getLsbD 16 = true) :
    WP (regRises w) True (registerWrite .outputUpper v) r fun _ r' => r'.rises = [{ r.lines with upper := v }] := by
  rw [wp_registerWrite]
  rintro u r' ⟨-, rfl⟩
  have hraised : (r.lines.access ⟨.regWrite .outputUpper v, u⟩).reqBus = true := hv
  show r.rises ++ _ = _
  rw [h.rises, h.reqBus, hraised]
  rfl

theorem timestamp_keeps (s : Interface) (n : Nat) : WP (regRises w) True (timestamp s n) r fun _ r' => r' = r := by
  have hput (r : Rises) : r.put r.lines = r := by
    rw [Rises.put, Bool.not_and_self, if_neg Bool.false_ne_true, List.append_nil]
  rw [wp_timestamp]
  split
  · rintro t r' ⟨-, rfl⟩
    exact hput r
  · rfl

theorem before_setInput {s : Interface} (hd : s.isInput = true → r.lines.DataIn) (h : Before r) :
    WP (regRises w) True (setInput s) r fun _ r' => Before r' ∧ r'.lines.DataIn := by
  rw [wp_setInput]
  cases hin : s.isInput
  · rintro u r' ⟨-, rfl⟩
    exact ⟨h.put h.reqBus, rfl⟩
  · exact ⟨h, hd hin⟩

theorem before_setOutput {s : Interface} (hd : s.isInput = false → r.lines.DataOut) (h : Before r) :
    WP (regRises w) True (setOutput s) r fun _ r' => Before r' ∧ r'.lines.DataOut := by
  rw [wp_setOutput]
  cases hin : s.isInput
  · exact ⟨h, hd hin⟩
  · rintro u r₁ ⟨-, rfl⟩ u' r₂ ⟨-, rfl⟩
    have hdir : Before (r.put { r.lines with dir := 0xffffffff }) := h.put h.reqBus
    have hen : Before ((r.put { r.lines with dir := 0xffffffff }).put { r.lines with dir := 0xffffffff, en := 0xffffffff }) :=
      hdir.put h.reqBus
    exact ⟨hen, rfl, rfl⟩

/-- The data lines are read. -/
theorem sampled_read {ls : List Emio} (h : r.rises = ls) :
    WP (regRises w) True (registerRead .inputLower) r fun v r' => v = w ∧ r'.rises = ls := by
  have hlowering : (registerRead .inputLower).All Low := Prog.all_perform.mpr fun _ _ h => h
  have hkeep := low_keeps (w := w) hlowering h
  rw [wp_registerRead] at hkeep ⊢
  intro v r' hs
  exact ⟨hs.1, hkeep v r' hs⟩

/-! ## The requests -/

variable {b : Bus} {s : Interface} {fuel : Nat} {addr : BitVec 16}

/-- The levels of the address and control lines in the word written. -/
theorem asks_word (l : Emio) (addr : BitVec 16) {u v : BitVec 32} (hu : u = addr.setWidth 32 ||| v)
    (hv : v = Bits.requestBus ∨ v = Bits.regWen ||| Bits.requestBus) :
    Asks addr (v.getLsbD 18) { l with upper := u } ∧ u.getLsbD 20 = false ∧ u.getLsbD 23 = false := by
  have hhigh (k : Nat) (hk : 16 ≤ k) : u.getLsbD k = v.getLsbD k := by
    rw [hu, BitVec.getLsbD_or, BitVec.getLsbD_setWidth, BitVec.getLsbD_of_ge addr k hk, Bool.and_false, Bool.false_or]
  have haddr : u.setWidth 16 = addr := by
    have hv16 : v.setWidth 16 = 0 := by rcases hv with rfl | rfl <;> decide
    rw [hu, BitVec.setWidth_or, hv16, BitVec.setWidth_setWidth_of_le addr (by decide), BitVec.setWidth_eq]
    exact BitVec.or_zero
  refine ⟨⟨haddr, hhigh 18 (by decide), ?_⟩, ?_, ?_⟩
  · rw [Emio.blkStart, hhigh 19 (by decide)]
    rcases hv with rfl | rfl <;> decide
  · rw [hhigh 20 (by decide)]
    rcases hv with rfl | rfl <;> decide
  · rw [hhigh 23 (by decide)]
    rcases hv with rfl | rfl <;> decide

theorem readQuadlet_rises (h : Kept s b) :
    WP (regRises w) True (readQuadlet fuel s addr) ⟨b.lines, []⟩ fun x r => (∀ v, x.1 = some v → v = w) ∧
      ∃ l, r.rises = [l] ∧ Asks addr false l ∧ l.DataIn ∧ l.blkEnd = false ∧ l.addrLsb = false := by
  simp only [readQuadlet, wp_bind]
  refine WP.mono (timestamp_keeps s 0) fun _ r₁ hr => ?_
  rw [hr]
  refine WP.mono (before_setInput h.input ⟨h.idle.reqBus, rfl⟩) fun s' r₂ hpost => ?_
  obtain ⟨hbefore, hin⟩ := hpost
  refine WP.mono (hbefore.raise (reqBus_request _)) fun _ r₃ hl => ?_
  refine WP.mono (low_keeps (low_timestamp s' 1) hl) fun _ r₄ hl => ?_
  refine WP.mono (low_keeps (low_wait fuel s' true) hl) fun ok r₅ hl => ?_
  obtain ⟨hasks, hend, hlsb⟩ := asks_word r₂.lines addr rfl (Or.inl rfl)
  have hdone {r : Rises} (hr : r.rises = [{ r₂.lines with upper := addr.setWidth 32 ||| Bits.requestBus }]) :
      ∃ l, r.rises = [l] ∧ Asks addr false l ∧ l.DataIn ∧ l.blkEnd = false ∧ l.addrLsb = false :=
    ⟨_, hr, hasks, hin, hend, hlsb⟩
  rw [wp_ite]
  constructor
  · intro hok
    simp only [wp_bind]
    refine WP.mono (low_keeps (low_timestamp s' 1) hl) fun _ r₆ hl => ?_
    refine WP.mono (sampled_read hl) fun data r₇ hpost => ?_
    obtain ⟨hword, hl⟩ := hpost
    refine WP.mono (low_keeps (low_upper (by decide)) hl) fun _ r₈ hl => ?_
    refine WP.mono (low_keeps (low_wait fuel s' false) hl) fun _ r₉ hl => ?_
    refine WP.mono (low_keeps (low_timestamp s' 0) hl) fun _ r₁₀ hl => ?_
    rw [wp_pure, hword]
    exact ⟨fun v h => (Option.some.inj h).symm, hdone hl⟩
  · intro hok
    have hlow : (addr.setWidth 32 &&& ~~~Bits.requestBus).getLsbD 16 = false := by
      rw [BitVec.getLsbD_and, BitVec.getLsbD_setWidth, BitVec.getLsbD_of_ge addr 16 (Nat.le_refl 16), Bool.and_false,
        Bool.false_and]
    rw [wp_bind]
    refine WP.mono (low_keeps (low_upper hlow) hl) fun _ r₆ hl => ?_
    exact ⟨fun v h => absurd_none h, hdone hl⟩

theorem writeQuadlet_rises {data : BitVec 32} (h : Kept s b) :
    WP (regRises w) True (writeQuadlet fuel s addr data) ⟨b.lines, []⟩ fun _ r =>
      ∃ l, r.rises = [l] ∧ Asks addr true l ∧ l.DataOut ∧ l.lower = data ∧ l.blkEnd = false ∧ l.addrLsb = false := by
  simp only [writeQuadlet, wp_bind]
  refine WP.mono (timestamp_keeps s 0) fun _ r₁ hr => ?_
  rw [hr]
  refine WP.mono (before_setOutput h.output ⟨h.idle.reqBus, rfl⟩) fun s' r₂ hpost => ?_
  obtain ⟨hbefore, hout⟩ := hpost
  rw [wp_registerWrite]
  rintro u r₃ ⟨-, rfl⟩
  have hlower : Before (r₂.put { r₂.lines with lower := data }) := hbefore.put hbefore.reqBus
  refine WP.mono (hlower.raise (reqBus_request _)) fun _ r₄ hl => ?_
  refine WP.mono (low_keeps (low_timestamp s' 1) hl) fun _ r₅ hl => ?_
  refine WP.mono (low_keeps (low_wait fuel s' true) hl) fun ret r₆ hl => ?_
  obtain ⟨hasks, hend, hlsb⟩ := asks_word (u := addr.setWidth 32 ||| Bits.regWen ||| Bits.requestBus)
    { r₂.lines with lower := data } addr (BitVec.or_assoc _ _ _) (Or.inr rfl)
  have hdone {r : Rises} (hr : r.rises = [{ r₂.lines with
        lower := data, upper := addr.setWidth 32 ||| Bits.regWen ||| Bits.requestBus }]) :
      ∃ l, r.rises = [l] ∧ Asks addr true l ∧ l.DataOut ∧ l.lower = data ∧ l.blkEnd = false ∧ l.addrLsb = false :=
    ⟨_, hr, hasks, hout, rfl, hend, hlsb⟩
  refine WP.mono (low_keeps ?_ hl) fun _ r₇ hl => hdone hl
  have hlast (p : RegProg (Bool × Interface)) (hp : p.All Low) : (registerWrite .outputUpper 0 >>= fun _ =>
      waitOpDone fuel s' false >>= fun _ => p).All Low :=
    Prog.all_bind (low_upper (by decide)) fun _ => Prog.all_bind (low_wait fuel s' false) fun _ => hp
  cases ret
  · exact hlast _ trivial
  · exact Prog.all_bind (low_timestamp s' 1) fun _ =>
      hlast _ (Prog.all_bind (low_timestamp s' 0) fun _ => trivial)

end FpgaV3.Proof.Mmap
