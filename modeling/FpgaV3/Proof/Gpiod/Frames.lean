import FpgaV3.Proof.Blocks
import FpgaV3.Proof.Gpiod.Calls

/-!
# The frames of a block in the gpiod driver

With a library that never fails, a block transfer makes the accesses of
`blockFrames`: the first when `req_bus` rises, before the loop looks whether it
is also the last; then one for each further quadlet, if the address is even. If
it is odd the LSB line stays high: the loop complements the value 1 to -2.
-/

namespace FpgaV3.Proof.Gpiod

open FpgaV3.Spec FpgaV3.Impl FpgaV3.Impl.Gpiod

/-- The lines follow a library that never fails. -/
abbrev answering : World GpioOp GpioOp.Ans Bus := gpioBuses fun _ => succeeds

/-- What is shown to the firmware: the request line, the LSB line and the frame;
`fs` are the frames of the accesses since `as`. -/
structure Shown (as : List Emio) (req lsb : Bool) (frame : Bool × Bool) (fs : List (Bool × Bool)) (b : Bus) :
    Prop where
  reqBus : b.lines.reqBus = req
  addrLsb : b.lines.addrLsb = lsb
  frame : b.lines.frame = frame
  accesses : ∃ acc, b.accesses = as ++ acc ∧ acc.map Emio.frame = fs

variable {as : List Emio} {r l : Bool} {f : Bool × Bool} {fs : List (Bool × Bool)} {b : Bus} {α : Type}

theorem Shown.put (h : Shown as r l f fs b) {e : Emio} {r' l' : Bool} {f' : Bool × Bool} (hr : e.reqBus = r')
    (hl : e.addrLsb = l') (hf : e.frame = f') :
    Shown as r' l' f' (fs ++ if r' && (!r || l != l') then [f'] else []) (b.put e) := by
  obtain ⟨acc, ha, hfs⟩ := h.accesses
  have ht : b.lines.triggers e = (r' && (!r || l != l')) := by
    rw [Emio.triggers, h.reqBus, h.addrLsb, hr, hl]
  refine ⟨hr, hl, hf, acc ++ (if r' && (!r || l != l') then [e] else []), ?_, ?_⟩
  · simp only [Bus.put, ha, ht, List.append_assoc]
  · rw [List.map_append, hfs]
    split
    · rw [List.map_singleton, hf]
    · rfl

/-- Lines that change without a request or a change of the LSB line. -/
theorem Shown.still (h : Shown as r l f fs b) {e : Emio} {f' : Bool × Bool} (hr : e.reqBus = r)
    (hl : e.addrLsb = l) (hf : e.frame = f') : Shown as r l f' fs (b.put e) := by
  have hput := h.put hr hl hf
  have hno : (r && (!r || l != l)) = false := by cases r <;> simp
  rwa [hno, if_neg Bool.false_ne_true, List.append_nil] at hput

/-! ## The calls -/

/-- A call that sets none of the lines shown. -/
def Hidden : GpioOp → Prop
  | .setValue g _ | .requestOutput g _ => g ≠ .reqBus ∧ g ≠ .addrLsb ∧ g ≠ .ctrl
  | _ => True

/-- What the firmware sees of the lines. -/
def seen (e : Emio) : Bool × Bool × Bool × Bool := (e.reqBus, e.addrLsb, e.frame)

theorem seen_setLines {e : Emio} {g : Lines} {values : List Int} (hg : g ≠ .reqBus ∧ g ≠ .addrLsb ∧ g ≠ .ctrl) :
    seen (e.setLines g values) = seen e := by
  rw [seen, reqBus_setLines hg.1, addrLsb_setLines hg.2.1, Emio.frame, blkStart_setLines hg.2.2,
    blkEnd_setLines hg.2.2]
  rfl

theorem seen_call {e : GpioOp} {rc : e.Ans} (he : Hidden e) (e' : Emio) : seen (e'.call ⟨e, rc⟩) = seen e' := by
  refine call_keeps (fun g values hg => seen_setLines ?_) fun _ _ _ => rfl
  cases e with
  | setValue g' values' => obtain rfl := hg; exact he
  | requestOutput g' values' => obtain rfl := hg; exact he
  | setDirectionOutput g' values' => obtain rfl := hg; decide
  | _ => exact hg.elim

theorem shown_hidden {p : GpioProg α} (hp : p.All Hidden) (h : Shown as r l f fs b) :
    WP answering True p b fun _ => Shown as r l f fs := by
  refine wp_invariant (fun b e rc b' he hs h => ?_) hp h
  obtain ⟨-, rfl⟩ := hs
  have hsame : seen (b.lines.call ⟨e, rc⟩) = seen b.lines := seen_call he b.lines
  simp only [seen, Prod.mk.injEq] at hsame
  exact h.still (hsame.1.trans h.reqBus) (hsame.2.1.trans h.addrLsb) (hsame.2.2.trans h.frame)

/-- A call that succeeds sets its lines. -/
theorem wp_set {g : Lines} {values : List Int} {Q : Int → Bus → Prop}
    (h : Q 0 (b.put (b.lines.setLines g values))) : WP answering True (setValue g values) b Q := by
  rw [wp_setValue]
  rintro rc b' ⟨hrc, rfl⟩
  obtain rfl : rc = 0 := hrc
  exact h

theorem shown_ctrl (x y z : Int) (h : Shown as r l f fs b) :
    WP answering True (setValue .ctrl [x, y, z]) b fun rc b' => rc = 0 ∧ Shown as r l (y != 0, z != 0) fs b' := by
  refine wp_set ⟨rfl, h.still ?_ ?_ ?_⟩
  · rw [reqBus_setLines (by decide), h.reqBus]
  · rw [addrLsb_setLines (by decide), h.addrLsb]
  · rw [Emio.frame, (ctrl_set x y z).2.1, (ctrl_set x y z).2.2]

theorem frame_setLines {g : Lines} {values : List Int} (hg : g ≠ .ctrl) (h : Shown as r l f fs b) :
    (b.lines.setLines g values).frame = f := by
  rw [Emio.frame, blkStart_setLines hg, blkEnd_setLines hg]
  exact h.frame

theorem shown_lsb (v : Int) (h : Shown as r l f fs b) :
    WP answering True (setValue .addrLsb [v]) b fun rc b' =>
      rc = 0 ∧ Shown as r (v != 0) f (fs ++ if r && (!r || l != (v != 0)) then [f] else []) b' := by
  refine wp_set ⟨rfl, h.put ?_ (addrLsb_set v) (frame_setLines (by decide) h)⟩
  rw [reqBus_setLines (by decide), h.reqBus]

theorem shown_raise (h : Shown as false l f fs b) :
    WP answering True (setValue .reqBus [1]) b fun rc b' => rc = 0 ∧ Shown as true l f (fs ++ [f]) b' := by
  refine wp_set ⟨rfl, h.put (reqBus_set 1) ?_ (frame_setLines (by decide) h)⟩
  rw [addrLsb_setLines (by decide), h.addrLsb]

/-- Lowering the request and control lines. -/
theorem shown_lower (h : Shown as r l f fs b) :
    WP answering True lower b fun _ b' => Shown as false l (false, false) fs b' := by
  simp only [lower, wp_bind, wp_pure]
  have hreq : WP answering True (setValue .reqBus [0]) b fun _ b' => Shown as false l f fs b' := by
    have hframe : (b.lines.setLines .reqBus [0]).frame = f := frame_setLines (by decide) h
    have hput := h.put (reqBus_set 0) (addrLsb_setLines (by decide)) hframe
    simp only [bne_self_eq_false, Bool.false_and, if_neg Bool.false_ne_true, List.append_nil, h.addrLsb] at hput
    exact wp_set hput
  exact WP.mono hreq fun _ _ h => WP.mono (shown_ctrl 0 0 0 h) fun _ _ h => h.2

/-! ## The loops -/

/-- The values that `lsb` takes, complemented for every quadlet, from an odd or
an even address on. -/
def Alternating (odd : Bool) (lsb : Int) : Prop := if odd then lsb = 1 ∨ lsb = -2 else lsb = 0 ∨ lsb = -1

instance {odd : Bool} {lsb : Int} : Decidable (Alternating odd lsb) :=
  inferInstanceAs (Decidable (if odd then lsb = 1 ∨ lsb = -2 else lsb = 0 ∨ lsb = -1))

theorem alternating_lsbValue (addr : BitVec 16) : Alternating (addr.getLsbD 0) (lsbValue addr) := by
  unfold lsbValue
  cases h : addr.getLsbD 0
  · rw [if_neg (by rw [and_one_ne_zero, h]; decide)]; decide
  · rw [if_pos ((and_one_ne_zero addr).mpr h)]; decide

variable {odd : Bool} {lsb : Int}

theorem Alternating.next (h : Alternating odd lsb) : Alternating odd (~~~lsb) := by
  cases odd <;> rcases h with rfl | rfl <;> decide

/-- The LSB line changes if the address was even. -/
theorem Alternating.changes (h : Alternating odd lsb) : ((lsb != 0) != (~~~lsb != 0)) = !odd := by
  cases odd <;> rcases h with rfl | rfl <;> decide

/-- The frame of quadlet `q` of a block of `n`. -/
def frameAt (n q : Nat) : Bool × Bool := (decide (q < n - 1), decide (q = n - 1))

theorem frameAt_inner {n q : Nat} (h : q < n - 1) : frameAt n q = (true, false) := by
  rw [frameAt, decide_eq_true h, decide_eq_false (by omega)]

theorem frameAt_last {n q : Nat} (h : q = n - 1) : frameAt n q = (false, true) := by
  rw [frameAt, decide_eq_false (by omega), decide_eq_true h]

/-- The accesses of the quadlets from `q` on. -/
def further (odd : Bool) (N q n : Nat) : List (Bool × Bool) := if odd then [] else framesFrom N q n

theorem further_succ (N q n : Nat) : further odd N q (n + 1) = (if odd then [] else [frameAt N q]) ++ further odd N (q + 1) n := by
  cases odd <;> rfl

theorem shown_next (ho : Alternating odd lsb) (h : Shown as true (lsb != 0) f fs b) :
    WP answering True (setValue .addrLsb [~~~lsb]) b fun rc b' =>
      rc = 0 ∧ Shown as true (~~~lsb != 0) f (fs ++ if odd then [] else [f]) b' := by
  refine WP.mono (shown_lsb (~~~lsb) h) fun rc b' hpost => ⟨hpost.1, ?_⟩
  have h := hpost.2
  rw [ho.changes] at h
  cases odd
  · exact h
  · exact h

theorem hidden_wait (fuel : Nat) (s : Interface) : (waitOpDone fuel s).All Hidden :=
  all_wait fuel s trivial trivial trivial trivial

theorem hidden_timestamp (s : Interface) (n : Nat) : (timestamp s n).All Hidden := all_timestamp s n trivial

theorem readNext_shown {N q : Nat} (hq : 0 < q) (hN : q < N) (ho : Alternating odd lsb)
    (h : Shown as true (lsb != 0) (true, false) fs b) :
    WP answering True (readNext N q (~~~lsb)) b fun _ b' =>
      Shown as true (~~~lsb != 0) (frameAt N q) (fs ++ if odd then [] else [frameAt N q]) b' := by
  unfold readNext
  rw [if_pos hq]
  by_cases hlast : q = N - 1
  · rw [frameAt_last hlast]
    simp only [if_pos hlast, wp_bind, wp_ite, wp_pure]
    refine WP.mono (shown_ctrl 0 0 1 h) fun rc _ h => ⟨fun hne => absurd h.1 hne, fun _ => ?_⟩
    exact WP.mono (shown_next ho h.2) fun _ _ h => h.2
  · rw [frameAt_inner (by omega)]
    simp only [if_neg hlast, wp_bind, wp_pure]
    exact WP.mono (shown_next ho h) fun _ _ h => h.2

/-- `WriteBlock` marks the last quadlet. -/
theorem mark_shown {N q : Nat} (hq : q < N) (h : Shown as true l (true, false) fs b) :
    WP answering True (.onlyIf (q = N - 1) do let _ ← setValue .ctrl ctrl_blkEnd) b fun _ b' =>
      Shown as true l (frameAt N q) fs b' := by
  rw [wp_onlyIf]
  refine ⟨fun hlast => ?_, fun hlast => ?_⟩
  · rw [frameAt_last hlast, wp_bind]
    exact WP.mono (shown_ctrl 0 0 1 h) fun _ _ h => h.2
  · rw [frameAt_inner (by omega)]
    exact h

/-- After the first quadlet, each is an access if the address is even. -/
theorem readLoop_shown {s : Interface} {fuel N : Nat} :
    ∀ (n q : Nat) {lsb : Int} {f : Bool × Bool} {fs : List (Bool × Bool)} {b : Bus}, 0 < q → q + n = N →
      Alternating odd lsb → (n ≠ 0 → f = (true, false)) → Shown as true (lsb != 0) f fs b →
      WP answering True (readLoop fuel s N n q lsb) b fun ok b' =>
        ok = true → ∃ l f, Shown as true l f (fs ++ further odd N q n) b'
  | 0, q, lsb, f, fs, b, _, _, _, _, h => by
    have hnil : further odd N q 0 = [] := by cases odd <;> rfl
    exact fun _ => ⟨_, _, by rwa [hnil, List.append_nil]⟩
  | n + 1, q, lsb, f, fs, b, hq, hN, ho, hf, h => by
    obtain rfl := hf (by omega)
    simp only [readLoop, wp_bind, if_pos hq]
    refine WP.mono (readNext_shown hq (by omega) ho h) fun ok _ h => ?_
    simp only [wp_ite, wp_bind, wp_pure]
    refine ⟨fun _ => ?_, fun _ => wp_trivial fun _ _ => absurd_false⟩
    refine WP.mono (shown_hidden (hidden_wait fuel s) h) fun ok _ h => ⟨fun _ => ?_, fun _ => wp_trivial fun _ _ => absurd_false⟩
    refine WP.mono (shown_hidden (Prog.all_perform.mpr trivial) h) fun r _ h =>
      ⟨fun _ => ?_, fun _ => wp_trivial fun _ _ => absurd_false⟩
    refine WP.mono (shown_hidden (Prog.all_perform.mpr trivial) h) fun _ _ h => ?_
    rw [further_succ, ← List.append_assoc]
    exact readLoop_shown n (q + 1) (Nat.succ_pos q) (by omega) ho.next (fun hn => frameAt_inner (by omega)) h

/-- The first quadlet was requested with `req_bus`. -/
theorem readLoop_first {s : Interface} {fuel N : Nat} (ho : Alternating odd lsb)
    (h : Shown as true (lsb != 0) (true, false) fs b) :
    WP answering True (readLoop fuel s N N 0 lsb) b fun ok b' =>
      ok = true → ∃ l f, Shown as true l f (fs ++ further odd N 1 (N - 1)) b' := by
  cases N with
  | zero =>
    have hnil : further odd 0 1 (0 - 1) = [] := by cases odd <;> rfl
    exact fun _ => ⟨_, _, by rwa [hnil, List.append_nil]⟩
  | succ n =>
    have hfirst : ¬ 0 > 0 := Nat.lt_irrefl 0
    simp only [readLoop, wp_bind, readNext, if_neg hfirst, wp_pure, if_true]
    refine WP.mono (shown_hidden (hidden_wait fuel s) h) fun ok _ h => ?_
    simp only [wp_ite, wp_bind, wp_pure]
    refine ⟨fun _ => ?_, fun _ => wp_trivial fun _ _ => absurd_false⟩
    refine WP.mono (shown_hidden (Prog.all_perform.mpr trivial) h) fun r _ h =>
      ⟨fun _ => ?_, fun _ => wp_trivial fun _ _ => absurd_false⟩
    refine WP.mono (shown_hidden (Prog.all_perform.mpr trivial) h) fun _ _ h => ?_
    exact readLoop_shown n 1 Nat.one_pos (Nat.add_comm 1 n) ho (fun _ => rfl) h

theorem writeLoop_shown {s : Interface} {fuel N : Nat} :
    ∀ (n q : Nat) {lsb : Int} {f : Bool × Bool} {fs : List (Bool × Bool)} {b : Bus}, (n ≠ 0 → q + n = N) →
      Alternating odd lsb → (n ≠ 0 → f = (true, false)) → Shown as true (lsb != 0) f fs b →
      WP answering True (writeLoop fuel s N n q lsb) b fun ok b' =>
        ok = true → ∃ l f, Shown as true l f (fs ++ further odd N q n) b'
  | 0, q, lsb, f, fs, b, _, _, _, h => by
    have hnil : further odd N q 0 = [] := by cases odd <;> rfl
    exact fun _ => ⟨_, _, by rwa [hnil, List.append_nil]⟩
  | n + 1, q, lsb, f, fs, b, hN, ho, hf, h => by
    obtain rfl := hf (by omega)
    have hN := hN (by omega)
    simp only [writeLoop, wp_bind]
    refine WP.mono (shown_hidden (Prog.all_perform.mpr trivial) h) fun val _ h => ?_
    refine WP.mono (shown_hidden (all_set ⟨by decide, by decide, by decide⟩) h) fun _ _ h => ?_
    refine WP.mono (mark_shown (q := q) (by omega) h) fun _ _ h => WP.mono (shown_next ho h) fun rc _ h => ?_
    obtain ⟨hrc, h⟩ := h
    simp only [if_pos hrc, wp_bind]
    refine WP.mono (shown_hidden (hidden_wait fuel s) h) fun ok _ h => ?_
    rw [wp_ite]
    refine ⟨fun _ => ?_, fun _ => wp_bind.mpr (wp_trivial fun _ _ => absurd_false)⟩
    rw [further_succ, ← List.append_assoc]
    exact writeLoop_shown n (q + 1) (fun _ => by omega) ho.next (fun hn => frameAt_inner (by omega)) h

/-! ## The requests -/

/-- The accesses of a block of `N` quadlets. -/
def blockFrames (odd : Bool) (N : Nat) : List (Bool × Bool) := (true, false) :: further odd N 1 (N - 1)

/-- The end of a block: what was shown is lowered. -/
theorem finish_frames {s : Interface} {fs : List (Bool × Bool)} (h : Shown as r l f fs b) :
    WP answering True (timestamp s 1) b fun _ b₁ => WP answering True lower b₁ fun _ b₂ =>
      WP answering True (timestamp s 0) b₂ fun _ b' =>
        ∃ acc, b'.accesses = as ++ acc ∧ acc.map Emio.frame = fs := by
  refine WP.mono (shown_hidden (hidden_timestamp s 1) h) fun _ _ h => WP.mono (shown_lower h) fun _ _ h => ?_
  exact WP.mono (shown_hidden (hidden_timestamp s 0) h) fun _ _ h => h.accesses

theorem readBlock_frames {s : Interface} {fuel : Nat} {addr : BitVec 16} {nBytes : BitVec 32}
    (h : b.lines.reqBus = false) :
    WP answering True (exec fuel (.readBlock addr nBytes) s) b fun x b' => x.1 = true →
      ∃ acc, b'.accesses = b.accesses ++ acc ∧
        acc.map Emio.frame = blockFrames (addr.getLsbD 0) (nQuads nBytes) := by
  have h : Shown b.accesses false b.lines.addrLsb b.lines.frame [] b := ⟨h, rfl, rfl, [], (List.append_nil _).symm, rfl⟩
  have ho := alternating_lsbValue addr
  simp only [exec, readBlock, wp_ite, wp_bind, wp_pure]
  refine ⟨fun _ => absurd_false, fun _ => ?_⟩
  refine WP.mono (shown_hidden (hidden_timestamp s 0) h) fun _ _ h => ?_
  refine WP.mono (shown_hidden (all_setInput s trivial) h) fun x _ h => ⟨fun _ => ?_, fun _ => absurd_false⟩
  obtain ⟨_, s⟩ := x
  refine WP.mono (shown_ctrl 0 1 0 h) fun _ _ h => ⟨fun _ => ?_, fun _ => absurd_false⟩
  obtain ⟨_, h⟩ := h
  refine WP.mono (shown_hidden (all_set ⟨by decide, by decide, by decide⟩) h) fun _ _ h =>
    ⟨fun _ => ?_, fun _ => wp_trivial fun _ _ => absurd_false⟩
  refine WP.mono (shown_lsb _ h) fun _ _ h => ?_
  obtain ⟨_, h⟩ := h
  refine WP.mono (shown_raise h) fun _ _ h => ⟨fun _ => ?_, fun _ => wp_trivial fun _ _ => absurd_false⟩
  obtain ⟨_, h⟩ := h
  refine WP.mono (shown_hidden (hidden_timestamp s 1) h) fun _ _ h => ?_
  refine WP.mono (readLoop_first ho h) fun ok _ h => ⟨fun hok => ?_, fun _ => absurd_false⟩
  obtain ⟨l, f, h⟩ := h hok
  exact WP.mono (finish_frames h) fun _ _ h => WP.mono h fun _ _ h => WP.mono h fun _ _ h _ => h

theorem writeBlock_frames {s : Interface} {fuel : Nat} {addr : BitVec 16} {nBytes : BitVec 32}
    (h : b.lines.reqBus = false) :
    WP answering True (exec fuel (.writeBlock addr nBytes) s) b fun x b' => x.1 = true →
      ∃ acc, b'.accesses = b.accesses ++ acc ∧
        acc.map Emio.frame = blockFrames (addr.getLsbD 0) (nQuads nBytes) := by
  have h : Shown b.accesses false b.lines.addrLsb b.lines.frame [] b := ⟨h, rfl, rfl, [], (List.append_nil _).symm, rfl⟩
  have ho := alternating_lsbValue addr
  simp only [exec, writeBlock, wp_ite, wp_bind, wp_pure]
  refine ⟨fun _ => absurd_false, fun _ => ?_⟩
  refine WP.mono (shown_hidden (hidden_timestamp s 0) h) fun _ _ h => ?_
  refine WP.mono (shown_hidden (Prog.all_perform.mpr trivial) h) fun val _ h => ?_
  refine WP.mono (shown_hidden (all_setOutput s _ trivial) h) fun x _ h => ⟨fun _ => ?_, fun _ => absurd_false⟩
  obtain ⟨_, s⟩ := x
  refine WP.mono (shown_hidden (all_set ⟨by decide, by decide, by decide⟩) h) fun _ _ h => ?_
  refine WP.mono (shown_lsb _ h) fun _ _ h => ?_
  obtain ⟨_, h⟩ := h
  refine WP.mono (shown_ctrl 0 1 0 h) fun _ _ h => ?_
  obtain ⟨_, h⟩ := h
  refine WP.mono (shown_raise h) fun _ _ h => ?_
  obtain ⟨_, h⟩ := h
  refine WP.mono (shown_hidden (hidden_wait fuel s) h) fun ok _ h => ⟨fun _ => ?_, fun _ => wp_trivial fun _ _ => absurd_false⟩
  refine WP.mono (shown_hidden (hidden_timestamp s 1) h) fun _ _ h => ?_
  refine WP.mono (writeLoop_shown (N := nQuads nBytes) _ 1 (fun _ => by omega) ho (fun _ => rfl) h)
    fun ok _ h => ⟨fun hok => ?_, fun _ => absurd_false⟩
  obtain ⟨l, f, h⟩ := h hok
  exact WP.mono (finish_frames h) fun _ _ h => WP.mono h fun _ _ h => WP.mono h fun _ _ h _ => h

/-! ## The data touched -/

/-- The call touches the data of quadlets below `n` only. -/
def Within (n : Nat) (e : GpioOp) : Prop := ∀ q ∈ touchesGpio e, q < n

theorem within_none {n : Nat} {e : GpioOp} (he : touchesGpio e = []) : Within n e := by
  rw [Within, he]
  exact fun _ h => absurd h List.not_mem_nil

theorem within_one {n q : Nat} {e : GpioOp} (he : touchesGpio e = [q]) (hq : q < n) : Within n e := by
  rw [Within, he]
  exact fun _ h => by rwa [List.mem_singleton.mp h]

theorem within_touched {n : Nat} {p : GpioProg α} (hp : p.All (Within n)) {t : Trace GpioOp GpioOp.Ans}
    {a : α} (hr : p.Runs t a) : ∀ q ∈ touchedGpio t, q < n := by
  intro q hq
  obtain ⟨x, hx, hq⟩ := List.mem_flatMap.mp hq
  exact hp.trace hr x hx q hq

theorem within_readLoop {s : Interface} {fuel N : Nat} :
    ∀ (n q : Nat) (lsb : Int), q + n = N → (readLoop fuel s N n q lsb).All (Within N)
  | 0, _, _, _ => trivial
  | n + 1, q, lsb, hN => by
    have hset (g : Lines) (values : List Int) : (setValue g values).All (Within N) := all_set (within_none rfl)
    have hlower : lower.All (Within N) := all_lower (within_none rfl) (within_none rfl)
    have hwait := all_wait (P := Within N) fuel s (within_none rfl) (within_none rfl) (within_none rfl) (within_none rfl)
    have hnext (lsb : Int) : (readNext N q lsb).All (Within N) := by
      unfold readNext
      split
      · split
        · refine Prog.all_bind (hset ..) fun rc => ?_
          split
          · trivial
          · exact Prog.all_bind (hset ..) fun _ => trivial
        · exact Prog.all_bind (hset ..) fun _ => trivial
      · trivial
    refine Prog.all_bind (hnext _) fun ok => ?_
    split
    · refine Prog.all_bind hwait fun ok => ?_
      split
      · refine Prog.all_bind (Prog.all_perform.mpr (within_none rfl)) fun r => ?_
        dsimp only
        split
        · exact Prog.all_bind (Prog.all_perform.mpr (within_one rfl (by omega))) fun _ =>
            within_readLoop n (q + 1) _ (by omega)
        · exact Prog.all_bind hlower fun _ => trivial
      · exact Prog.all_bind hlower fun _ => trivial
    · exact Prog.all_bind hlower fun _ => trivial

theorem within_writeLoop {s : Interface} {fuel N : Nat} :
    ∀ (n q : Nat) (lsb : Int), (n ≠ 0 → q + n = N) → (writeLoop fuel s N n q lsb).All (Within N)
  | 0, _, _, _ => trivial
  | n + 1, q, lsb, hN => by
    have hN := hN (by omega)
    have hset (g : Lines) (values : List Int) : (setValue g values).All (Within N) := all_set (within_none rfl)
    have hlower : lower.All (Within N) := all_lower (within_none rfl) (within_none rfl)
    have hwait := all_wait (P := Within N) fuel s (within_none rfl) (within_none rfl) (within_none rfl) (within_none rfl)
    refine Prog.all_bind (Prog.all_perform.mpr (within_one rfl (by omega))) fun val => ?_
    refine Prog.all_bind (hset ..) fun _ => ?_
    refine Prog.all_bind (Prog.all_onlyIf (Prog.all_bind (hset ..) fun _ => trivial)) fun _ => ?_
    refine Prog.all_bind (hset ..) fun rc => ?_
    split
    · refine Prog.all_bind hwait fun ok => ?_
      split
      · exact within_writeLoop n (q + 1) _ fun _ => by omega
      · exact Prog.all_bind hlower fun _ => trivial
    · exact Prog.all_bind hlower fun _ => trivial

/-- A block transfer touches the data of its quadlets only, if it has any. -/
theorem all_block {s : Interface} {req : Request} {fuel : Nat} (hr : req.isBlock = true) (hq : 0 < req.quads) :
    (exec fuel req s).All (Within req.quads) := by
  have hset (g : Lines) (values : List Int) : (setValue g values).All (Within req.quads) := all_set (within_none rfl)
  have hlower : lower.All (Within req.quads) := all_lower (within_none rfl) (within_none rfl)
  have htime (s : Interface) (n : Nat) := all_timestamp (P := Within req.quads) s n (within_none rfl)
  have hwait (s : Interface) := all_wait (P := Within req.quads) fuel s (within_none rfl) (within_none rfl)
    (within_none rfl) (within_none rfl)
  cases req with
  | readQuadlet addr => cases hr
  | writeQuadlet addr data => cases hr
  | readBlock addr nBytes =>
    simp only [exec, readBlock]
    split
    · trivial
    refine Prog.all_bind (htime s 0) fun _ => Prog.all_bind (all_setInput s (within_none rfl)) fun x => ?_
    obtain ⟨ok, s⟩ := x
    dsimp only
    split
    · refine Prog.all_bind (hset ..) fun rc => ?_
      split
      · refine Prog.all_bind (hset ..) fun rc => ?_
        split
        · refine Prog.all_bind (hset ..) fun _ => Prog.all_bind (hset ..) fun rc => ?_
          split
          · refine Prog.all_bind (htime s 1) fun _ => ?_
            refine Prog.all_bind (within_readLoop _ 0 _ (Nat.zero_add _)) fun ok => ?_
            split
            · exact Prog.all_bind (htime s 1) fun _ => Prog.all_bind hlower fun _ =>
                Prog.all_bind (htime s 0) fun _ => trivial
            · trivial
          · exact Prog.all_bind (hset ..) fun _ => trivial
        · exact Prog.all_bind (hset ..) fun _ => trivial
      · trivial
    · trivial
  | writeBlock addr nBytes =>
    simp only [exec, writeBlock]
    split
    · trivial
    refine Prog.all_bind (htime s 0) fun _ => ?_
    refine Prog.all_bind (Prog.all_perform.mpr (within_one rfl hq)) fun val => Prog.all_bind (all_setOutput s _ (within_none rfl)) fun x => ?_
    obtain ⟨ok, s⟩ := x
    dsimp only
    split
    · refine Prog.all_bind (hset ..) fun _ => Prog.all_bind (hset ..) fun _ => ?_
      refine Prog.all_bind (hset ..) fun _ => Prog.all_bind (hset ..) fun _ => Prog.all_bind (hwait s) fun ok => ?_
      split
      · refine Prog.all_bind (htime s 1) fun _ => ?_
        refine Prog.all_bind (within_writeLoop _ 1 _ fun _ => Nat.add_sub_cancel' hq) fun ok => ?_
        split
        · exact Prog.all_bind (htime s 1) fun _ => Prog.all_bind hlower fun _ =>
            Prog.all_bind (htime s 0) fun _ => trivial
        · trivial
      · exact Prog.all_bind hlower fun _ => trivial
    · trivial

end FpgaV3.Proof.Gpiod
