import FpgaV3.Proof.Gpiod.Bits
import FpgaV3.Proof.Gpiod.Events
import FpgaV3.Proof.Gpiod.Frames
import FpgaV3.Spec.Healthy
import FpgaV3.Spec.Present

/-!
# The quadlets presented by a block transfer

With a library that never fails, a block transfer presents each quadlet with
the level of the value of `lsb` on the LSB line. The loop complements that
value as an `int`: from an even address on the level alternates, from an odd
one it stays high (`readBlock_faces`, `writeBlock_faces`). The first word of a
`WriteBlock` is on the data lines only if the call that changes their direction
puts it there.
-/

namespace FpgaV3.Proof.Gpiod

open FpgaV3.Spec FpgaV3.Impl FpgaV3.Impl.Gpiod

/-! ## The calls -/

/-- What is seen of the lines at a request. -/
structure Face where
  lsb : Bool
  word : BitVec 32
  dir : BitVec 32
  en : BitVec 32

def face (l : Emio) : Face := ⟨l.addrLsb, l.lower, l.dir, l.en⟩

/-- The request line, what is seen of the lines, and what was seen at the
requests. -/
structure Held (r : Bool) (f : Face) (fs : List Face) (p : Presented) : Prop where
  reqBus : p.lines.reqBus = r
  face : face p.lines = f
  requests : p.requests.map Gpiod.face = fs

variable {d : Nat → BitVec 32} {p : Presented} {r : Bool} {f : Face} {fs : List Face} {α : Type}

theorem Held.call (h : Held r f fs p) {x : GpioEvent} {r' : Bool} {f' : Face}
    (hr : (p.lines.call x).reqBus = r') (hf : Gpiod.face (p.lines.call x) = f') :
    Held r' f' (fs ++ if isRequest p.lines (p.lines.call x) x.1 then [f'] else []) (p.call x) := by
  refine ⟨hr, hf, ?_⟩
  show (p.requests ++ _).map Gpiod.face = _
  rw [List.map_append, h.requests]
  split
  · rw [List.map_singleton, hf]
  · rfl

/-- A call that requests nothing. -/
theorem Held.still (h : Held r f fs p) {x : GpioEvent} {f' : Face} (hr : (p.lines.call x).reqBus = r)
    (hf : Gpiod.face (p.lines.call x) = f') (hx : isRequest p.lines (p.lines.call x) x.1 = false) :
    Held r f' fs (p.call x) := by
  have hcall := h.call hr hf
  rwa [hx, if_neg Bool.false_ne_true, List.append_nil] at hcall

/-- A call that changes nothing that is seen. -/
def Aside : GpioOp → Prop
  | .setValue g _ => g = .ctrl ∨ g = .regAddr
  | .requestInput _ | .requestOutput _ _ | .setDirectionInput _ | .setDirectionOutput _ _ => False
  | _ => True

theorem face_setLines {l : Emio} {g : Lines} {values : List Int} (hg : g = .ctrl ∨ g = .regAddr) :
    (l.setLines g values).reqBus = l.reqBus ∧ face (l.setLines g values) = face l := by
  have hne : g ≠ .reqBus ∧ g ≠ .addrLsb ∧ g ≠ .regData := by
    rcases hg with rfl | rfl <;> decide
  refine ⟨reqBus_setLines hne.1, ?_⟩
  rw [face, addrLsb_setLines hne.2.1, lower_setLines hne.2.2, dir_setLines, en_setLines]
  rfl

theorem face_call {e : GpioOp} {rc : e.Ans} (he : Aside e) (l : Emio) :
    (l.call ⟨e, rc⟩).reqBus = l.reqBus ∧ face (l.call ⟨e, rc⟩) = face l := by
  have hite {c : Prop} [Decidable c] {l' : Emio} (h : l'.reqBus = l.reqBus ∧ face l' = face l) :
      (if c then l' else l).reqBus = l.reqBus ∧ face (if c then l' else l) = face l := by
    split
    · exact h
    · exact ⟨rfl, rfl⟩
  have hsame : l.reqBus = l.reqBus ∧ face l = face l := ⟨rfl, rfl⟩
  cases e with
  | setValue g values => exact hite (face_setLines he)
  | requestInput _ => exact he.elim
  | requestOutput _ _ => exact he.elim
  | setDirectionInput _ => exact he.elim
  | setDirectionOutput _ _ => exact he.elim
  | _ => exact hsame

/-- Nothing is requested while `req_bus` keeps its level. -/
theorem isRequest_aside {e : GpioOp} (he : Aside e) {l l' : Emio} (h : l'.reqBus = l.reqBus) :
    isRequest l l' e = false := by
  cases e with
  | setValue g values => rcases he with rfl | rfl <;> simp only [isRequest, h, Bool.not_and_self]
  | _ => simp only [isRequest, h, Bool.not_and_self]

theorem held_aside {q : GpioProg α} (hq : q.All Aside) (h : Held r f fs p) :
    WP (presenting d) True q p fun _ => Held r f fs := by
  refine wp_invariant (fun p e rc p' he hs h => ?_) hq h
  obtain ⟨-, rfl⟩ := hs
  obtain ⟨hr, hf⟩ : (p.lines.call ⟨e, rc⟩).reqBus = p.lines.reqBus ∧ face (p.lines.call ⟨e, rc⟩) = face p.lines :=
    face_call he p.lines
  exact h.still (hr.trans h.reqBus) (hf.trans h.face) (isRequest_aside he hr)

theorem held_load (q : Nat) (h : Held r f fs p) :
    WP (presenting d) True (load q) p fun v p' => v = d q ∧ Held r f fs p' := by
  have haside := held_aside (d := d) (q := load q) (Prog.all_perform.mpr trivial) h
  rw [wp_load] at haside ⊢
  exact fun v p' hs => ⟨hs.1.2, haside v p' hs⟩

/-- A call that succeeds sets its lines. -/
theorem wp_given {g : Lines} {values : List Int} {Q : Int → Presented → Prop}
    (h : Q 0 (p.call ⟨.setValue g values, (0 : Int)⟩)) : WP (presenting d) True (setValue g values) p Q := by
  rw [wp_setValue]
  rintro rc p' ⟨⟨hrc, -⟩, rfl⟩
  obtain rfl : rc = 0 := hrc
  exact h

theorem held_data (x : BitVec 32) (h : Held r f fs p) :
    WP (presenting d) True (setValue .regData (dataValues x)) p fun _ => Held r { f with word := x } fs := by
  refine wp_given (h.still ((reqBus_setLines (by decide)).trans h.reqBus) ?_ ?_)
  · show face (p.lines.setLines .regData (dataValues x)) = _
    rw [face, addrLsb_setLines (by decide), lower_set, dir_setLines, en_setLines, ← h.face]
    rfl
  · show (!p.lines.reqBus && (p.lines.setLines .regData (dataValues x)).reqBus) = false
    rw [reqBus_setLines (by decide), Bool.not_and_self]

theorem held_lsb (v : Int) (h : Held r f fs p) :
    WP (presenting d) True (setValue .addrLsb [v]) p fun rc p' =>
      rc = 0 ∧ Held r { f with lsb := v != 0 } (fs ++ if r then [{ f with lsb := v != 0 }] else []) p' := by
  have hr : (p.lines.call ⟨.setValue .addrLsb [v], (0 : Int)⟩).reqBus = r :=
    (reqBus_setLines (by decide)).trans h.reqBus
  have hface : face (p.lines.setLines .addrLsb [v]) = { f with lsb := v != 0 } := by
    rw [face, addrLsb_set, lower_setLines (by decide), dir_setLines, en_setLines, ← h.face]
    rfl
  have hcall := h.call hr hface
  rw [show isRequest p.lines (p.lines.call ⟨.setValue .addrLsb [v], (0 : Int)⟩) (.setValue .addrLsb [v]) = r from hr] at hcall
  exact wp_given ⟨rfl, hcall⟩

theorem held_raise (h : Held false f fs p) :
    WP (presenting d) True (setValue .reqBus [1]) p fun rc p' => rc = 0 ∧ Held true f (fs ++ [f]) p' := by
  have hr : (p.lines.call ⟨.setValue .reqBus [1], (0 : Int)⟩).reqBus = true := reqBus_set 1
  have hface : face (p.lines.setLines .reqBus [1]) = f := by
    rw [face, addrLsb_setLines (by decide), lower_setLines (by decide), dir_setLines, en_setLines, ← h.face]
    rfl
  have hreq : isRequest p.lines (p.lines.call ⟨.setValue .reqBus [1], (0 : Int)⟩) (.setValue .reqBus [1]) = true := by
    simp only [isRequest, h.reqBus, hr]
    rfl
  have hcall := h.call hr hface
  rw [hreq] at hcall
  exact wp_given ⟨rfl, hcall⟩

theorem held_lower (h : Held r f fs p) : WP (presenting d) True lower p fun _ => Held false f fs := by
  have hlow : (p.lines.setLines .reqBus [0]).reqBus = false := reqBus_set 0
  have hface : face (p.lines.setLines .reqBus [0]) = f := by
    rw [face, addrLsb_setLines (by decide), lower_setLines (by decide), dir_setLines, en_setLines, ← h.face]
    rfl
  have hcall := h.call (x := ⟨.setValue .reqBus [0], (0 : Int)⟩) hlow hface
  have hno : isRequest p.lines (p.lines.setLines .reqBus [0]) (.setValue .reqBus [0]) = false := by
    simp only [isRequest, hlow, Bool.and_false]
  rw [show p.lines.call ⟨.setValue .reqBus [0], (0 : Int)⟩ = p.lines.setLines .reqBus [0] from rfl, hno,
    if_neg Bool.false_ne_true, List.append_nil] at hcall
  simp only [lower, wp_bind, wp_pure]
  exact wp_given (held_aside (all_set (Or.inl rfl)) hcall)

theorem aside_timestamp (s : Interface) (n : Nat) : (timestamp s n).All Aside := all_timestamp s n trivial

theorem aside_wait (fuel : Nat) (s : Interface) : (waitOpDone fuel s).All Aside :=
  all_wait fuel s trivial trivial trivial trivial

/-! ## The direction -/

theorem held_setInput {s : Interface} (hd : s.isInput = true → f.dir = 0) (h : Held false f fs p) :
    WP (presenting d) True (setInput s) p fun x p' =>
      x = (true, { s with isInput := true }) ∧ Held false { f with dir := 0 } fs p' := by
  unfold setInput
  cases hin : s.isInput
  · rw [if_neg Bool.false_ne_true, wp_bind]
    rintro rc p' ⟨⟨hrc, -⟩, rfl⟩
    obtain rfl : rc = 0 := hrc
    have hface : face (p.lines.call ⟨.setDirectionInput .regData, (0 : Int)⟩) = { f with dir := 0 } := by
      rw [← h.face]; rfl
    refine ⟨rfl, h.still h.reqBus hface ?_⟩
    show (!p.lines.reqBus && p.lines.reqBus) = false
    exact Bool.not_and_self _
  · rw [if_pos rfl]
    have hs : s = { s with isInput := true } := by cases s; cases hin; rfl
    have hf : { f with dir := 0 } = f := by rw [← hd hin]
    exact ⟨by rw [← hs], hf ▸ h⟩

theorem call_setDirectionOutput (l : Emio) (values : List Int) :
    l.call ⟨.setDirectionOutput .regData values, (0 : Int)⟩ =
      { l.setLines .regData values with dir := BitVec.allOnes 32, en := BitVec.allOnes 32 } := by
  simp only [Emio.call, if_true]

/-- The word is written with the direction only. -/
theorem held_setOutput {s : Interface} {w : BitVec 32} (h : Held false f fs p) :
    WP (presenting d) True (setOutput s (dataValues w)) p fun x p' => x = (true, { s with isInput := false }) ∧
      Held false (if s.isInput then ⟨f.lsb, w, BitVec.allOnes 32, BitVec.allOnes 32⟩ else f) fs p' := by
  unfold setOutput
  cases hin : s.isInput
  · rw [if_neg Bool.false_ne_true, if_neg Bool.false_ne_true]
    have hs : s = { s with isInput := false } := by cases s; cases hin; rfl
    exact ⟨by rw [← hs], h⟩
  · rw [if_pos rfl, if_pos rfl, wp_bind]
    rintro rc p' ⟨⟨hrc, -⟩, rfl⟩
    obtain rfl : rc = 0 := hrc
    have hcall := call_setDirectionOutput p.lines (dataValues w)
    have hword := lower_set p.lines w
    have hreq : (p.lines.setLines .regData (dataValues w)).reqBus = p.lines.reqBus := reqBus_setLines (by decide)
    have hlsb : (p.lines.setLines .regData (dataValues w)).addrLsb = f.lsb := by
      rw [addrLsb_setLines (by decide), ← h.face]; rfl
    obtain ⟨l, hl⟩ : ∃ l, l = p.lines.setLines .regData (dataValues w) := ⟨_, rfl⟩
    rw [← hl] at hcall hword hreq hlsb
    have hsame : (p.lines.call ⟨.setDirectionOutput .regData (dataValues w), (0 : Int)⟩).reqBus = p.lines.reqBus := by
      rw [hcall]; exact hreq
    refine ⟨rfl, h.still (hsame.trans h.reqBus) ?_ ?_⟩
    · rw [hcall, ← hlsb, ← hword]; rfl
    · simp only [isRequest, hsame, Bool.not_and_self]

/-! ## The loops -/

/-- The level of the LSB line at quadlet `q`. -/
def levelAt (odd : Bool) (q : Nat) : Bool := odd || decide (q % 2 = 1)

theorem Alternating.level {odd : Bool} {lsb : Int} (h : Alternating odd lsb) {q : Nat}
    (hq : (lsb != 0) = levelAt odd q) : (~~~lsb != 0) = levelAt odd (q + 1) := by
  have hchange := h.changes
  have hpar : decide ((q + 1) % 2 = 1) = !decide (q % 2 = 1) := by
    rcases Nat.mod_two_eq_zero_or_one q with hm | hm
    · rw [hm, show (q + 1) % 2 = 1 by omega]; rfl
    · rw [hm, show (q + 1) % 2 = 0 by omega]; rfl
  rw [hq] at hchange
  rw [levelAt, hpar]
  cases odd
  · rw [levelAt, Bool.false_or] at hchange
    cases hd : decide (q % 2 = 1) <;> rw [hd] at hchange <;> cases hl : (~~~lsb != 0) <;> rw [hl] at hchange <;>
      first | rfl | exact absurd hchange (by decide)
  · rw [levelAt, Bool.true_or] at hchange
    cases hl : (~~~lsb != 0) <;> rw [hl] at hchange <;> first | rfl | exact absurd hchange (by decide)

theorem level_lsbValue (addr : BitVec 16) : (lsbValue addr != 0) = levelAt (addr.getLsbD 0) 0 := by
  unfold lsbValue
  cases h : addr.getLsbD 0
  · rw [if_neg (by rw [and_one_ne_zero, h]; decide)]; rfl
  · rw [if_pos ((and_one_ne_zero addr).mpr h)]; rfl

variable {odd : Bool} {lsb : Int} {fuel N : Nat} {s : Interface}

/-- Marking the last quadlet presents nothing. -/
theorem aside_mark : (setValue .ctrl ctrl_blkEnd).All Aside := all_set (Or.inl rfl)

theorem readNext_faces {q : Nat} (hq : 0 < q) (h : Held true f fs p) :
    WP (presenting d) True (readNext N q lsb) p fun _ p' =>
      Held true { f with lsb := lsb != 0 } (fs ++ [{ f with lsb := lsb != 0 }]) p' := by
  unfold readNext
  rw [if_pos hq]
  have hset {p : Presented} (h : Held true f fs p) := held_lsb (d := d) lsb h
  split
  · simp only [wp_bind, wp_ite, wp_pure]
    rintro rc p' ⟨⟨hrc, -⟩, rfl⟩
    refine ⟨fun hne => absurd hrc hne, fun _ => ?_⟩
    have hmark := held_aside (d := d) aside_mark h
    exact WP.mono (hset (hmark rc _ ⟨⟨hrc, trivial⟩, rfl⟩)) fun _ _ h => h.2
  · simp only [wp_bind, wp_pure]
    exact WP.mono (hset h) fun _ _ h => h.2

/-- The loop of `ReadBlock` after the first quadlet. -/
theorem readLoop_faces (n : Nat) {q : Nat} (hq : 0 < q) (ho : Alternating odd lsb)
    (hl : (lsb != 0) = levelAt odd (q - 1)) (h : Held true f fs p) :
    WP (presenting d) True (readLoop fuel s N n q lsb) p fun ok p' => ok = true →
      ∃ f', Held true f' (fs ++ (List.range' q n).map fun i => { f with lsb := levelAt odd i }) p' := by
  induction n generalizing q lsb f fs p with
  | zero => exact fun _ => ⟨f, by rwa [List.range'_zero, List.map_nil, List.append_nil]⟩
  | succ n ih =>
    have hlevel : (~~~lsb != 0) = levelAt odd q := by
      rw [ho.level hl, Nat.sub_add_cancel hq]
    simp only [readLoop, wp_bind, if_pos (show q > 0 from hq)]
    refine WP.mono (readNext_faces hq h) fun ok _ h => ?_
    simp only [wp_ite, wp_bind, wp_pure]
    refine ⟨fun _ => ?_, fun _ => wp_trivial fun _ _ => absurd_false⟩
    refine WP.mono (held_aside (aside_wait fuel s) h) fun ok _ h =>
      ⟨fun _ => ?_, fun _ => wp_trivial fun _ _ => absurd_false⟩
    refine WP.mono (held_aside (Prog.all_perform.mpr trivial) h) fun r _ h =>
      ⟨fun _ => ?_, fun _ => wp_trivial fun _ _ => absurd_false⟩
    refine WP.mono (held_aside (Prog.all_perform.mpr trivial) h) fun _ _ h => ?_
    rw [hlevel] at h
    refine WP.mono (ih (Nat.succ_pos q) ho.next hlevel h) fun ok _ h hok => ?_
    obtain ⟨f', h⟩ := h hok
    refine ⟨f', ?_⟩
    rwa [List.append_assoc] at h

/-- The first quadlet is requested with `req_bus`, not by the loop. -/
theorem readLoop_first_faces (ho : Alternating odd lsb) (hl : (lsb != 0) = levelAt odd 0) (h : Held true f fs p) :
    WP (presenting d) True (readLoop fuel s N N 0 lsb) p fun ok p' => ok = true →
      ∃ f', Held true f' (fs ++ (List.range' 1 (N - 1)).map fun i => { f with lsb := levelAt odd i }) p' := by
  cases N with
  | zero => exact fun _ => ⟨f, by rwa [List.range'_zero, List.map_nil, List.append_nil]⟩
  | succ n =>
    simp only [readLoop, wp_bind, readNext, if_neg (Nat.lt_irrefl 0), wp_pure, if_true]
    refine WP.mono (held_aside (aside_wait fuel s) h) fun ok _ h => ?_
    simp only [wp_ite, wp_bind, wp_pure]
    refine ⟨fun _ => ?_, fun _ => wp_trivial fun _ _ => absurd_false⟩
    refine WP.mono (held_aside (Prog.all_perform.mpr trivial) h) fun r _ h =>
      ⟨fun _ => ?_, fun _ => wp_trivial fun _ _ => absurd_false⟩
    refine WP.mono (held_aside (Prog.all_perform.mpr trivial) h) fun _ _ h => ?_
    exact readLoop_faces n Nat.one_pos ho hl h

/-- The loop of `WriteBlock`. -/
theorem writeLoop_faces (n : Nat) {q : Nat} (hq : 0 < q) (ho : Alternating odd lsb)
    (hl : (lsb != 0) = levelAt odd (q - 1)) (h : Held true f fs p) :
    WP (presenting d) True (writeLoop fuel s N n q lsb) p fun ok p' => ok = true →
      ∃ f', Held true f' (fs ++ (List.range' q n).map fun i =>
        { f with lsb := levelAt odd i, word := bswap32 (d i) }) p' := by
  induction n generalizing q lsb f fs p with
  | zero => exact fun _ => ⟨f, by rwa [List.range'_zero, List.map_nil, List.append_nil]⟩
  | succ n ih =>
    have hlevel : (~~~lsb != 0) = levelAt odd q := by
      rw [ho.level hl, Nat.sub_add_cancel hq]
    simp only [writeLoop, wp_bind]
    refine WP.mono (held_load q h) fun v _ h => ?_
    obtain ⟨rfl, h⟩ := h
    refine WP.mono (held_data _ h) fun _ _ h => ?_
    refine WP.mono (held_aside (Prog.all_onlyIf (Prog.all_bind aside_mark fun _ => trivial)) h) fun _ _ h => ?_
    refine WP.mono (held_lsb (~~~lsb) h) fun rc _ h => ?_
    simp only [if_pos h.1, wp_bind]
    refine WP.mono (held_aside (aside_wait fuel s) h.2) fun ok _ h => ?_
    rw [wp_ite]
    refine ⟨fun _ => ?_, fun _ => wp_bind.mpr (wp_trivial fun _ _ => absurd_false)⟩
    rw [hlevel, if_pos rfl] at h
    refine WP.mono (ih (Nat.succ_pos q) ho.next hlevel h) fun ok _ h hok => ?_
    obtain ⟨f', h⟩ := h hok
    refine ⟨f', ?_⟩
    rwa [List.append_assoc] at h

/-! ## The requests -/

/-- The end of a block presents nothing. -/
theorem finish_faces (h : Held r f fs p) :
    WP (presenting d) True (timestamp s 1) p fun _ p₁ => WP (presenting d) True lower p₁ fun _ p₂ =>
      WP (presenting d) True (timestamp s 0) p₂ fun _ p' => p'.requests.map face = fs := by
  refine WP.mono (held_aside (aside_timestamp s 1) h) fun _ _ h => WP.mono (held_lower h) fun _ _ h => ?_
  exact WP.mono (held_aside (aside_timestamp s 0) h) fun _ _ h => h.requests

/-- The faces of the quadlets of a block of `N`; the first is presented even
if there is none. -/
def faces (N : Nat) (g : Nat → Face) : List Face := (List.range (N - 1 + 1)).map g

theorem faces_eq (N : Nat) (g : Nat → Face) : faces N g = g 0 :: (List.range' 1 (N - 1)).map g := by
  rw [faces, List.range_eq_range', List.range'_succ, List.map_cons]

theorem readBlock_faces {addr : BitVec 16} {nBytes : BitVec 32} (hr : p.lines.reqBus = false)
    (hq : p.requests = []) (hd : s.isInput = true → p.lines.dir = 0) :
    WP (presenting d) True (exec fuel (.readBlock addr nBytes) s) p fun x p' => x.1 = true →
      p'.requests.map face = faces (nQuads nBytes) fun q =>
        ⟨levelAt (addr.getLsbD 0) q, p.lines.lower, 0, p.lines.en⟩ := by
  have h : Held false (face p.lines) [] p := ⟨hr, rfl, by rw [hq]; rfl⟩
  have ho := alternating_lsbValue addr
  simp only [exec, readBlock, wp_ite, wp_bind, wp_pure]
  refine ⟨fun _ => absurd_false, fun _ => ?_⟩
  refine WP.mono (held_aside (aside_timestamp s 0) h) fun _ _ h => ?_
  refine WP.mono (held_setInput hd h) fun x _ h => ?_
  obtain ⟨rfl, h⟩ := h
  refine ⟨fun _ => ?_, fun hn => absurd rfl hn⟩
  refine WP.mono (held_aside (all_set (Or.inl rfl)) h) fun _ _ h => ⟨fun _ => ?_, fun _ => absurd_false⟩
  refine WP.mono (held_aside (all_set (Or.inr rfl)) h) fun _ _ h =>
    ⟨fun _ => ?_, fun _ => wp_trivial fun _ _ => absurd_false⟩
  refine WP.mono (held_lsb _ h) fun _ _ h => WP.mono (held_raise h.2) fun _ _ h =>
    ⟨fun _ => ?_, fun _ => wp_trivial fun _ _ => absurd_false⟩
  refine WP.mono (held_aside (aside_timestamp _ 1) h.2) fun _ _ h => ?_
  rw [level_lsbValue] at h
  refine WP.mono (readLoop_first_faces ho (level_lsbValue addr) h) fun ok _ h => ⟨fun hok => ?_, fun _ => absurd_false⟩
  obtain ⟨f', h⟩ := h hok
  refine WP.mono (finish_faces h) fun _ _ h => WP.mono h fun _ _ h => WP.mono h fun _ _ h _ => ?_
  rw [h, faces_eq]
  rfl

theorem writeBlock_faces {addr : BitVec 16} {nBytes : BitVec 32} (hr : p.lines.reqBus = false)
    (hq : p.requests = [])
    (hd : s.isInput = false → p.lines.dir = BitVec.allOnes 32 ∧ p.lines.en = BitVec.allOnes 32) :
    WP (presenting d) True (exec fuel (.writeBlock addr nBytes) s) p fun x p' => x.1 = true →
      p'.requests.map face = faces (nQuads nBytes) fun q =>
        ⟨levelAt (addr.getLsbD 0) q, if q = 0 ∧ s.isInput = false then p.lines.lower else bswap32 (d q),
          BitVec.allOnes 32, BitVec.allOnes 32⟩ := by
  have h : Held false (face p.lines) [] p := ⟨hr, rfl, by rw [hq]; rfl⟩
  have ho := alternating_lsbValue addr
  have hfirst : (if s.isInput then ⟨(face p.lines).lsb, bswap32 (d 0), BitVec.allOnes 32, BitVec.allOnes 32⟩
      else face p.lines) = (⟨p.lines.addrLsb, if s.isInput = false then p.lines.lower else bswap32 (d 0),
        BitVec.allOnes 32, BitVec.allOnes 32⟩ : Face) := by
    cases hin : s.isInput
    · rw [if_neg Bool.false_ne_true, if_pos rfl]
      show (⟨p.lines.addrLsb, p.lines.lower, p.lines.dir, p.lines.en⟩ : Face) = _
      rw [(hd hin).1, (hd hin).2]
    · rw [if_pos rfl, if_neg (by decide)]
      rfl
  simp only [exec, writeBlock, wp_ite, wp_bind, wp_pure]
  refine ⟨fun _ => absurd_false, fun _ => ?_⟩
  refine WP.mono (held_aside (aside_timestamp s 0) h) fun _ _ h => WP.mono (held_load 0 h) fun v _ h => ?_
  obtain ⟨rfl, h⟩ := h
  refine WP.mono (held_setOutput h) fun x _ h => ?_
  obtain ⟨rfl, h⟩ := h
  rw [hfirst] at h
  refine ⟨fun _ => ?_, fun hn => absurd rfl hn⟩
  refine WP.mono (held_aside (all_set (Or.inr rfl)) h) fun _ _ h => WP.mono (held_lsb _ h) fun _ _ h => ?_
  refine WP.mono (held_aside (all_set (Or.inl rfl)) h.2) fun _ _ h => WP.mono (held_raise h) fun _ _ h => ?_
  rw [level_lsbValue] at h
  refine WP.mono (held_aside (aside_wait fuel _) h.2) fun ok _ h =>
    ⟨fun _ => ?_, fun _ => wp_trivial fun _ _ => absurd_false⟩
  refine WP.mono (held_aside (aside_timestamp _ 1) h) fun _ _ h => ?_
  refine WP.mono (writeLoop_faces _ Nat.one_pos ho (level_lsbValue addr) h) fun ok _ h =>
    ⟨fun hok => ?_, fun _ => absurd_false⟩
  obtain ⟨f', h⟩ := h hok
  refine WP.mono (finish_faces h) fun _ _ h => WP.mono h fun _ _ h => WP.mono h fun _ _ h _ => ?_
  have hrest : (List.range' 1 (nQuads nBytes - 1)).map (fun i =>
      (⟨levelAt (addr.getLsbD 0) i, bswap32 (d i), BitVec.allOnes 32, BitVec.allOnes 32⟩ : Face)) =
      (List.range' 1 (nQuads nBytes - 1)).map fun i => ⟨levelAt (addr.getLsbD 0) i,
        if i = 0 ∧ s.isInput = false then p.lines.lower else bswap32 (d i), BitVec.allOnes 32, BitVec.allOnes 32⟩ := by
    refine List.map_congr_left fun i hi => ?_
    rw [if_neg fun h0 => by have := (List.mem_range'_1.mp hi).1; omega]
  rw [h, faces_eq, ← hrest]
  simp only [true_and]
  rfl

/-! ## What is presented -/

variable {g : Nat → Face} {ls : List Emio}

theorem faces_get (h : ls.map face = faces N g) {q : Nat} {l : Emio} (hl : ls[q]? = some l) :
    q < N - 1 + 1 ∧ face l = g q := by
  have hq : (ls.map face)[q]? = some (face l) := by rw [List.getElem?_map, hl]; rfl
  rw [h, faces, List.getElem?_map] at hq
  obtain ⟨i, hi, hg⟩ := Option.map_eq_some_iff.mp hq
  rw [List.getElem?_eq_some_iff] at hi
  obtain ⟨hlt, hi⟩ := hi
  rw [List.length_range] at hlt
  rw [List.getElem_range] at hi
  exact ⟨hlt, by rw [← hg, hi]⟩

theorem faces_at (h : ls.map face = faces N g) {q : Nat} (hq : q < N - 1 + 1) :
    ∃ l, ls[q]? = some l ∧ face l = g q := by
  have hlen : ls.length = N - 1 + 1 := by
    rw [← List.length_map (f := face), h, faces, List.length_map, List.length_range]
  exact ⟨ls[q], List.getElem?_eq_getElem _, (faces_get h (List.getElem?_eq_getElem _)).2⟩

theorem getLsbD_add (a : BitVec 16) (q : Nat) :
    (a + BitVec.ofNat 16 q).getLsbD 0 = (a.getLsbD 0 ^^ decide (q % 2 = 1)) := by
  have hbit (x : BitVec 16) : x.getLsbD 0 = decide (x.toNat % 2 = 1) := Nat.testBit_zero x.toNat
  rw [hbit, hbit, BitVec.toNat_add, BitVec.toNat_ofNat]
  rcases Nat.mod_two_eq_zero_or_one a.toNat with ha | ha <;> rcases Nat.mod_two_eq_zero_or_one q with hq | hq
  · rw [ha, hq, show (a.toNat + q % 2 ^ 16) % 2 ^ 16 % 2 = 0 by omega]; rfl
  · rw [ha, hq, show (a.toNat + q % 2 ^ 16) % 2 ^ 16 % 2 = 1 by omega]; rfl
  · rw [ha, hq, show (a.toNat + q % 2 ^ 16) % 2 ^ 16 % 2 = 1 by omega]; rfl
  · rw [ha, hq, show (a.toNat + q % 2 ^ 16) % 2 ^ 16 % 2 = 0 by omega]; rfl

/-- The level is the parity of the address if the first address is even, or for
the first quadlet. -/
theorem sequenced_iff {addr : BitVec 16} (hg : ∀ q, (g q).lsb = levelAt (addr.getLsbD 0) q)
    (h : ls.map face = faces N g) : Sequenced addr ls ↔ addr.getLsbD 0 = false ∨ N ≤ 1 := by
  have hlevel {q : Nat} {l : Emio} (hl : face l = g q) : l.addrLsb = levelAt (addr.getLsbD 0) q := by
    rw [← hg q, ← hl]; rfl
  constructor
  · intro hs
    cases ha : addr.getLsbD 0
    · exact Or.inl rfl
    · rcases Nat.lt_or_ge 1 N with hN | hN
      · obtain ⟨l, hl, hf⟩ := faces_at h (show 1 < N - 1 + 1 by omega)
        have heq := (hs 1 l hl).symm.trans (hlevel hf)
        rw [getLsbD_add, ha] at heq
        exact absurd heq (by decide)
      · exact Or.inr hN
  · intro hc q l hl
    obtain ⟨hq, hf⟩ := faces_get h hl
    rw [getLsbD_add, hlevel hf, levelAt]
    rcases hc with ha | hN
    · rw [ha, Bool.false_or, Bool.false_xor]
    · rw [show q = 0 by omega]
      cases addr.getLsbD 0 <;> rfl

theorem toggles_iff {odd : Bool} (hg : ∀ q, (g q).lsb = levelAt odd q) (h : ls.map face = faces N g) :
    Toggles ls ↔ odd = false ∨ N ≤ 1 := by
  have hlevel {q : Nat} {l : Emio} (hl : face l = g q) : l.addrLsb = levelAt odd q := by
    rw [← hg q, ← hl]; rfl
  constructor
  · intro ht
    cases odd
    · exact Or.inl rfl
    · rcases Nat.lt_or_ge 1 N with hN | hN
      · obtain ⟨l, hl, hf⟩ := faces_at h (show 0 < N - 1 + 1 by omega)
        obtain ⟨l', hl', hf'⟩ := faces_at h (show 1 < N - 1 + 1 by omega)
        exact absurd ((hlevel hf').trans (hlevel hf).symm) (ht 0 l l' hl hl')
      · exact Or.inr hN
  · intro hc q l l' hl hl'
    obtain ⟨-, hf⟩ := faces_get h hl
    obtain ⟨hq, hf'⟩ := faces_get h hl'
    rcases hc with rfl | hN
    · rw [hlevel hf, hlevel hf', levelAt, levelAt]
      rcases Nat.mod_two_eq_zero_or_one q with hm | hm
      · rw [hm, show (q + 1) % 2 = 1 by omega]; decide
      · rw [hm, show (q + 1) % 2 = 0 by omega]; decide
    · omega

theorem history_kept {b : Bus} (h : History fuel s b) : Kept s b := by
  obtain ⟨t, x, b₀, b₁, cs, hi, hp, hs⟩ := h
  have hx : Kept x b₁ := (init_kept.sound hi hp) rfl
  exact (hs.invariant (I := Kept) (C := fun _ => True) (P := fun _ => True)
    (fun hk hr hp _ => ⟨(command_kept hk).sound hr hp, trivial⟩) hx fun _ _ => trivial).1

/-- After any history, a block transfer that returns true, no call having
failed, presents its quadlets with the LSB lines of their addresses if and only
if the first address is even or there is no further quadlet. -/
theorem block_sequenced_iff {b : Bus} (hb : History fuel s b) {req : Request} {addr : BitVec 16}
    {nBytes : BitVec 32} (hreq : req = .readBlock addr nBytes ∨ req = .writeBlock addr nBytes)
    {t : Trace GpioOp GpioOp.Ans} {s' : Interface} (hr : (exec fuel req s).Runs t (true, s'))
    (hp : (presenting d).Path ⟨b.lines, []⟩ t p) :
    p.requests.length = nQuads nBytes - 1 + 1 ∧
    (Sequenced addr p.requests ↔ addr.getLsbD 0 = false ∨ nQuads nBytes ≤ 1) ∧
    (Toggles p.requests ↔ addr.getLsbD 0 = false ∨ nQuads nBytes ≤ 1) := by
  have hk := history_kept hb
  have hfaces : ∃ g : Nat → Face, (∀ q, (g q).lsb = levelAt (addr.getLsbD 0) q) ∧
      p.requests.map face = faces (nQuads nBytes) g := by
    have hlines : (⟨b.lines, []⟩ : Presented).lines = b.lines := rfl
    obtain ⟨p₀, hp₀⟩ : ∃ p₀ : Presented, p₀ = ⟨b.lines, []⟩ := ⟨_, rfl⟩
    rw [← hp₀] at hp hlines
    have hbus : p₀.lines.reqBus = false := by rw [hlines]; exact hk.idle.reqBus
    have hnone : p₀.requests = [] := by rw [hp₀]
    rcases hreq with rfl | rfl
    · have hin : s.isInput = true → p₀.lines.dir = 0 := by rw [hlines]; exact hk.input
      exact ⟨_, fun _ => rfl, WP.sound (readBlock_faces hbus hnone hin) hr hp rfl⟩
    · have hout : s.isInput = false → p₀.lines.dir = BitVec.allOnes 32 ∧ p₀.lines.en = BitVec.allOnes 32 := by
        rw [hlines]; exact hk.output
      exact ⟨_, fun _ => rfl, WP.sound (writeBlock_faces hbus hnone hout) hr hp rfl⟩
  obtain ⟨g, hg, h⟩ := hfaces
  refine ⟨?_, sequenced_iff hg h, toggles_iff hg h⟩
  rw [← List.length_map (f := face), h, faces, List.length_map, List.length_range]

/-- After any history, a `WriteBlock` that returns true, no call having failed,
presents each quadlet with its word if and only if the data lines were inputs
before it, or carried the first word already. -/
theorem writeBlock_carried_iff {b : Bus} (hb : History fuel s b) {addr : BitVec 16} {nBytes : BitVec 32}
    {t : Trace GpioOp GpioOp.Ans} {s' : Interface}
    (hr : (exec fuel (.writeBlock addr nBytes) s).Runs t (true, s'))
    (hp : (presenting d).Path ⟨b.lines, []⟩ t p) :
    p.requests.length = nQuads nBytes - 1 + 1 ∧
    (Carried d p.requests ↔ s.isInput = true ∨ b.lines.lower = bswap32 (d 0)) := by
  have hk := history_kept hb
  have hlines : (⟨b.lines, []⟩ : Presented).lines = b.lines := rfl
  obtain ⟨p₀, hp₀⟩ : ∃ p₀ : Presented, p₀ = ⟨b.lines, []⟩ := ⟨_, rfl⟩
  rw [← hp₀] at hp hlines
  have hbus : p₀.lines.reqBus = false := by rw [hlines]; exact hk.idle.reqBus
  have hnone : p₀.requests = [] := by rw [hp₀]
  have hout : s.isInput = false → p₀.lines.dir = BitVec.allOnes 32 ∧ p₀.lines.en = BitVec.allOnes 32 := by
    rw [hlines]; exact hk.output
  have h := WP.sound (writeBlock_faces (d := d) hbus hnone hout) hr hp rfl
  rw [hlines] at h
  refine ⟨by rw [← List.length_map (f := face), h, faces, List.length_map, List.length_range], ?_⟩
  constructor
  · intro hc
    obtain ⟨l, hl, hf⟩ := faces_at h (Nat.succ_pos _)
    have hword : l.lower = if 0 = 0 ∧ s.isInput = false then b.lines.lower else bswap32 (d 0) :=
      congrArg Face.word hf
    cases hin : s.isInput
    · rw [hin, if_pos ⟨rfl, rfl⟩, (hc 0 l hl).2] at hword
      exact Or.inr hword.symm
    · exact Or.inl rfl
  · intro hc q l hl
    obtain ⟨-, hf⟩ := faces_get h hl
    have hword : l.lower = if q = 0 ∧ s.isInput = false then b.lines.lower else bswap32 (d q) :=
      congrArg Face.word hf
    refine ⟨⟨congrArg Face.dir hf, congrArg Face.en hf⟩, ?_⟩
    rw [hword]
    split
    · rename_i hq
      obtain ⟨rfl, hin⟩ := hq
      rcases hc with hc | hc
      · exact absurd (hin.symm.trans hc) (by decide)
      · exact hc
    · rfl

/-! ## Runs of a library that never fails -/

/-- A library that never fails, and a firmware of version 1. -/
def versioned : Env GpioOp GpioOp.Ans Unit where
  step σ e := match e with
    | .getValueBulk .version => ((0, [0, 0, 0, 1]), ())
    | e => obliging.step σ e

theorem versioned_cleans (b : Bus) (e : GpioOp) : cleans b ⟨e, (versioned.step () e).1⟩ := by
  cases e with
  | setValue g values => exact fun _ => Or.inl rfl
  | _ => trivial

theorem versioned_succeeds (e : GpioOp) :
    succeeds ⟨e, (versioned.step () e).1⟩ ∧ Holds (fun _ => 0) ⟨e, (versioned.step () e).1⟩ := by
  cases e with
  | getValueBulk g => exact ⟨by cases g <;> rfl, trivial⟩
  | setValue g values => exact ⟨rfl, trivial⟩
  | setDirectionInput g => exact ⟨rfl, trivial⟩
  | setDirectionOutput g values => exact ⟨rfl, trivial⟩
  | load q => exact ⟨trivial, rfl⟩
  | _ => exact ⟨trivial, trivial⟩

theorem versioned_bus {q : GpioProg α} {x : α} {b b' : Bus}
    (h : (versioned.observe Bus.driveGpio).run q b = some (x, b')) :
    ∃ t, q.Runs t x ∧ (gpioBuses cleans).Path b t b' := Env.path_of_observe versioned_cleans h

theorem versioned_presents {q : GpioProg α} {x : α} {p p' : Presented}
    (h : (versioned.observe Presented.call).run q p = some (x, p')) :
    ∃ t, q.Runs t x ∧ (presenting fun _ => 0).Path p t p' := Env.path_of_observe (fun _ => versioned_succeeds) h

/-- `Init` alone is a history. -/
theorem history_init : History 1 { version := 1 } low := by
  have hrun : (versioned.observe Bus.driveGpio).run (Gpiod.init {}) low = some ((true, { version := 1 }), low) := rfl
  obtain ⟨t, hr, hp⟩ := versioned_bus hrun
  exact ⟨t, _, low, low, [], hr, hp, .nil⟩

/-- The lines after a `WriteQuadlet(0x10, 5)`. -/
def written : Bus := ⟨⟨5, 0x10, BitVec.allOnes 32, BitVec.allOnes 32⟩, [⟨5, 0x150010, BitVec.allOnes 32, BitVec.allOnes 32⟩]⟩

theorem history_written : History 1 { version := 1, isInput := false } written := by
  have hinit : (versioned.observe Bus.driveGpio).run (Gpiod.init {}) low = some ((true, { version := 1 }), low) := rfl
  have hwrite : (versioned.observe Bus.driveGpio).run (command 1 (.request (.writeQuadlet 0x10 5)) { version := 1 }) low =
      some ((true, { version := 1, isInput := false }), written) := rfl
  obtain ⟨t, hr, hp⟩ := versioned_bus hinit
  obtain ⟨t', hr', hp'⟩ := versioned_bus hwrite
  exact ⟨t, _, low, low, _, hr, hp, .cons hr' hp' .nil⟩

/-- A `ReadBlock` of two quadlets from an even address. -/
theorem block_sequenced_iff_even : ∃ t s' p, (exec 1 (.readBlock 0x10 8) { version := 1 }).Runs t (true, s') ∧
    (presenting fun _ => 0).Path ⟨low.lines, []⟩ t p ∧ p.requests.length = 2 ∧
    Sequenced 0x10 p.requests ∧ Toggles p.requests := by
  have hrun : (versioned.observe Presented.call).run (exec 1 (.readBlock 0x10 8) { version := 1 }) ⟨low.lines, []⟩ =
      some ((true, { version := 1 }), ⟨⟨0, 0x800010, 0, 0⟩, [⟨0, 0x90010, 0, 0⟩, ⟨0, 0x910010, 0, 0⟩]⟩) := rfl
  obtain ⟨t, hr, hp⟩ := versioned_presents hrun
  obtain ⟨hlen, hseq, htog⟩ := block_sequenced_iff history_init (Or.inl rfl) hr hp
  exact ⟨t, _, _, hr, hp, hlen, hseq.mpr (Or.inl (by decide)), htog.mpr (Or.inl (by decide))⟩

/-- From an odd address, the LSB line is high for the second quadlet as for the
first. -/
theorem odd_address : ∃ t s' p, History 1 { version := 1 } low ∧
    (exec 1 (.readBlock 0x11 8) { version := 1 }).Runs t (true, s') ∧
    (presenting fun _ => 0).Path ⟨low.lines, []⟩ t p ∧ ¬ Sequenced 0x11 p.requests ∧ ¬ Toggles p.requests := by
  have hrun : (versioned.observe Presented.call).run (exec 1 (.readBlock 0x11 8) { version := 1 }) ⟨low.lines, []⟩ =
      some ((true, { version := 1 }), ⟨⟨0, 0x800011, 0, 0⟩, [⟨0, 0x890011, 0, 0⟩, ⟨0, 0x910011, 0, 0⟩]⟩) := rfl
  obtain ⟨t, hr, hp⟩ := versioned_presents hrun
  refine ⟨t, _, _, history_init, hr, hp, fun h => ?_, fun h => ?_⟩
  · exact absurd (h 1 _ rfl) (by decide)
  · exact absurd (h 0 _ _ rfl rfl) (by decide)

/-- A `WriteBlock` of two quadlets as the first request. -/
theorem writeBlock_carried_iff_first : ∃ t s' p, (exec 1 (.writeBlock 0x10 8) { version := 1 }).Runs t (true, s') ∧
    (presenting fun _ => 0).Path ⟨low.lines, []⟩ t p ∧ p.requests.length = 2 ∧ Carried (fun _ => 0) p.requests := by
  have hrun : (versioned.observe Presented.call).run (exec 1 (.writeBlock 0x10 8) { version := 1 }) ⟨low.lines, []⟩ =
      some ((true, { version := 1, isInput := false }),
        ⟨⟨0, 0x800010, BitVec.allOnes 32, BitVec.allOnes 32⟩,
          [⟨0, 0x90010, BitVec.allOnes 32, BitVec.allOnes 32⟩, ⟨0, 0x910010, BitVec.allOnes 32, BitVec.allOnes 32⟩]⟩) := rfl
  obtain ⟨t, hr, hp⟩ := versioned_presents hrun
  obtain ⟨hlen, hc⟩ := writeBlock_carried_iff history_init hr hp
  exact ⟨t, _, _, hr, hp, hlen, hc.mpr (Or.inl rfl)⟩

/-- After a `WriteQuadlet`, the first word of a `WriteBlock` is that of the
`WriteQuadlet`. -/
theorem stale_word : ∃ t s' p, History 1 { version := 1, isInput := false } written ∧
    (exec 1 (.writeBlock 0x10 8) { version := 1, isInput := false }).Runs t (true, s') ∧
    (presenting fun _ => 0).Path ⟨written.lines, []⟩ t p ∧ ¬ Carried (fun _ => 0) p.requests := by
  have hrun : (versioned.observe Presented.call).run (exec 1 (.writeBlock 0x10 8) { version := 1, isInput := false })
      ⟨written.lines, []⟩ = some ((true, { version := 1, isInput := false }),
        ⟨⟨0, 0x800010, BitVec.allOnes 32, BitVec.allOnes 32⟩,
          [⟨5, 0x90010, BitVec.allOnes 32, BitVec.allOnes 32⟩, ⟨0, 0x910010, BitVec.allOnes 32, BitVec.allOnes 32⟩]⟩) := rfl
  obtain ⟨t, hr, hp⟩ := versioned_presents hrun
  refine ⟨t, _, _, history_written, hr, hp, fun h => ?_⟩
  exact absurd (h 0 _ rfl).2 (by decide)

end FpgaV3.Proof.Gpiod
