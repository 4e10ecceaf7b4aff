import FpgaV3.Framework.Session
import FpgaV3.Proof.Gpiod.Calls

/-!
# The lines in the gpiod driver

Every request finds the bus idle and leaves it idle, whichever of its calls
fail, and makes its accesses with the data lines in its own direction
(`exec_lines`): `Facing` says the latter and is kept by every call but those
that change the direction, and every exit lowers what it has raised.
-/

namespace FpgaV3.Proof.Gpiod

open FpgaV3.Spec FpgaV3.Impl FpgaV3.Impl.Gpiod

/-- The lines follow a library that may fail, but not to lower them. -/
abbrev gpio : World GpioOp GpioOp.Ans Bus := gpioBuses cleans

variable {b : Bus} {as : List Emio} {req : Request} {α : Type}

/-! ## The direction of the data lines -/

/-- A call that does not change the direction of the data lines. -/
def Neutral : GpioOp → Prop
  | .requestInput g => g ≠ .regData
  | .setDirectionInput _ | .setDirectionOutput _ _ => False
  | _ => True

/-- The data lines, and those of every access since `as`, are in the direction
of the request. -/
structure Facing (req : Request) (as : List Emio) (b : Bus) : Prop where
  lines : Directed req b.lines
  accesses : ∃ acc, b.accesses = as ++ acc ∧ ∀ l ∈ acc, Directed req l

theorem directed_congr {l l' : Emio} (hd : l'.dir = l.dir) (he : l'.en = l.en) (h : Directed req l) :
    Directed req l' := by
  unfold Spec.Directed at h ⊢
  split at h
  · rw [if_pos (by assumption)]; exact hd.trans h
  · rw [if_neg (by assumption)]; exact ⟨hd.trans h.1, he.trans h.2⟩

theorem call_neutral {e : GpioOp} {r : e.Ans} (he : Neutral e) (l : Emio) :
    (l.call ⟨e, r⟩).dir = l.dir ∧ (l.call ⟨e, r⟩).en = l.en := by
  cases e with
  | requestInput g =>
    cases g with
    | regData => exact absurd rfl he
    | _ => exact ⟨rfl, rfl⟩
  | setDirectionInput g => exact he.elim
  | setDirectionOutput g values => exact he.elim
  | setValue g values => simp only [Emio.call]; split <;> simp
  | requestOutput g values => simp only [Emio.call]; split <;> simp
  | _ => exact ⟨rfl, rfl⟩

theorem facing_put {l : Emio} (h : Facing req as b) (hl : Directed req l) : Facing req as (b.put l) := by
  obtain ⟨acc, ha, hacc⟩ := h.accesses
  refine ⟨hl, ?_⟩
  simp only [Bus.put]
  split
  · refine ⟨acc ++ [l], by rw [ha, List.append_assoc], fun l' hl' => ?_⟩
    rcases List.mem_append.mp hl' with hl' | hl'
    · exact hacc l' hl'
    · rw [List.mem_singleton.mp hl']; exact hl
  · exact ⟨acc, by rw [ha, List.append_nil], hacc⟩

theorem facing_keeps {adm : Bus → GpioEvent → Prop} {p : GpioProg α} (hp : p.All Neutral) (h : Facing req as b) :
    WP (gpioBuses adm) True p b fun _ => Facing req as := by
  refine wp_invariant (fun b e r b' he hs h => ?_) hp h
  obtain ⟨-, rfl⟩ := hs
  obtain ⟨hd, hen⟩ := call_neutral (r := r) he b.lines
  exact facing_put h (directed_congr hd hen h.lines)

/-! ## The control lines -/

/-- `reg_wen`, `blk_start` and `blk_end` are low. -/
structure CtrlLow (l : Emio) : Prop where
  regWen : l.regWen = false
  blkStart : l.blkStart = false
  blkEnd : l.blkEnd = false

theorem CtrlLow.idle {l : Emio} (h : CtrlLow l) (hr : l.reqBus = false) : l.Idle :=
  ⟨hr, h.regWen, h.blkStart, h.blkEnd⟩

theorem idle_ctrlLow {l : Emio} (h : l.Idle) : CtrlLow l := ⟨h.regWen, h.blkStart, h.blkEnd⟩

theorem setLines_ctrlLow {l : Emio} {g : Lines} {values : List Int} (hg : g ≠ .ctrl) (h : CtrlLow l) :
    CtrlLow (l.setLines g values) :=
  ⟨by rw [regWen_setLines hg, h.regWen], by rw [blkStart_setLines hg, h.blkStart],
    by rw [blkEnd_setLines hg, h.blkEnd]⟩

theorem ctrl_zero_low (l : Emio) : CtrlLow (l.setLines .ctrl ctrl_zero) :=
  have h := ctrl_set (l := l) 0 0 0
  ⟨h.1, h.2.1, h.2.2⟩

theorem lines_setValue {adm : Bus → GpioEvent → Prop} {g : Lines} {values : List Int} {rc : Int} {b' : Bus}
    (hs : (gpioBuses adm).step b (.setValue g values) rc b') :
    b'.lines = b.lines.setLines g values ∨ b'.lines = b.lines := by
  obtain ⟨-, rfl⟩ := hs
  simp only [Bus.driveGpio, Bus.lines_put, Emio.call]
  split
  · exact Or.inl rfl
  · exact Or.inr rfl

/-- A clean-up call lowers its lines. -/
theorem lines_cleanup {g : Lines} {values : List Int} {rc : Int} {b' : Bus} (hc : isCleanup g values)
    (hs : gpio.step b (.setValue g values) rc b') : b'.lines = b.lines.setLines g values := by
  obtain ⟨hadm, rfl⟩ := hs
  simp only [Bus.driveGpio, Bus.lines_put, Emio.call]
  split
  · rfl
  · exact ((hadm hc).resolve_left (by assumption)).symm

theorem reqBus_cleanup : isCleanup .reqBus [0] := ⟨Or.inl rfl, by simp⟩

theorem ctrl_cleanup : isCleanup .ctrl ctrl_zero := ⟨Or.inr rfl, by simp [ctrl_zero]⟩

/-- Whatever is high, `lower` lowers it. -/
theorem lower_idle : WP gpio True lower b fun _ b' => b'.lines.Idle := by
  simp only [lower, wp_bind, wp_setValue, wp_pure]
  intro rc b₁ h₁ rc' b₂ h₂
  have e₁ := lines_cleanup reqBus_cleanup h₁
  have e₂ := lines_cleanup ctrl_cleanup h₂
  refine (e₂ ▸ ctrl_zero_low b₁.lines).idle ?_
  rw [e₂, reqBus_setLines (by decide), e₁, reqBus_set]
  rfl

/-- A call that leaves the request and control lines alone. -/
def Calm : GpioOp → Prop
  | .setValue g _ | .requestOutput g _ => g ≠ .reqBus ∧ g ≠ .ctrl
  | _ => True

theorem ite_idle {p : Prop} [Decidable p] {l l' : Emio} (h : l.Idle) (h' : l'.Idle) :
    (if p then l else l').Idle := by
  split
  · exact h
  · exact h'

theorem call_calm {e : GpioOp} {r : e.Ans} (he : Calm e) {l : Emio} (h : l.Idle) : (l.call ⟨e, r⟩).Idle := by
  have hset : ∀ (g : Lines) (values : List Int), g ≠ .reqBus ∧ g ≠ .ctrl → (l.setLines g values).Idle :=
    fun g values hg => (setLines_ctrlLow hg.2 (idle_ctrlLow h)).idle (by rw [reqBus_setLines hg.1, h.reqBus])
  cases e with
  | setValue g values => exact ite_idle (hset g values he) h
  | requestOutput g values => exact ite_idle (hset g values he) h
  | requestInput g =>
    cases g with
    | regData => exact ite_idle ⟨h.1, h.2, h.3, h.4⟩ h
    | _ => exact h
  | setDirectionInput g =>
    cases g with
    | regData => exact ite_idle ⟨h.1, h.2, h.3, h.4⟩ h
    | _ => exact h
  | setDirectionOutput g values =>
    cases g with
    | regData =>
      have hl := hset .regData values (by decide)
      exact ite_idle ⟨hl.1, hl.2, hl.3, hl.4⟩ h
    | _ => exact h
  | _ => exact h

/-! ## The parts of a request -/

theorem put_low {l : Emio} (h : l.reqBus = false) : (b.put l).accesses = b.accesses := by
  rw [Bus.put_of_not (by simp [Emio.triggers, h])]

/-- A request that ends with the bus idle has served it, the driver knowing
the direction. -/
theorem served_of {s : Interface} (hs : s.isInput = req.isRead) (hi : b.lines.Idle) (h : Facing req as b) :
    ∃ acc, Served req as s b acc := by
  obtain ⟨acc, ha, hacc⟩ := h.accesses
  refine ⟨acc, ⟨hi, ?_⟩, ha, hacc⟩
  have := h.lines
  rwa [Spec.Directed, ← hs] at this

/-- What setting the direction leads to: it failed and nothing has changed, or
the data lines are in the direction of the request. -/
def Turned (req : Request) (s : Interface) (as : List Emio) (x : Bool × Interface) (b : Bus) : Prop :=
  (x.1 = false ∧ Served req as x.2 b []) ∨
    (x.1 = true ∧ x.2 = { s with isInput := req.isRead } ∧ b.lines.Idle ∧ Facing req as b)

theorem served_nil {s : Interface} (h : Kept s b) (ha : b.accesses = as) : Served req as s b [] :=
  ⟨h, by rw [ha, List.append_nil], fun _ hl => absurd hl List.not_mem_nil⟩

theorem setInput_turned (req : Request) {s : Interface} {adm : Bus → GpioEvent → Prop} (hr : req.isRead = true) (h : Kept s b) :
    WP (gpioBuses adm) True (setInput s) b fun x b' => Turned req s b.accesses x b' := by
  unfold setInput
  split
  · rename_i hin
    refine Or.inr ⟨rfl, ?_, h.idle, ⟨by rw [Spec.Directed, if_pos hr]; exact h.input hin, [], by simp⟩⟩
    cases s; cases hin; rw [hr]
  · simp only [wp_bind, wp_perform, wp_ite, wp_pure]
    rintro rc b' ⟨-, rfl⟩
    constructor
    · intro hrc
      have hl : b.lines.call ⟨.setDirectionInput .regData, rc⟩ = { b.lines with dir := 0 } := if_pos hrc
      have hi : ({ b.lines with dir := 0 } : Emio).Idle := ⟨h.idle.1, h.idle.2, h.idle.3, h.idle.4⟩
      refine Or.inr ⟨rfl, by rw [hr], ?_, ?_, [], ?_, fun _ hl => absurd hl List.not_mem_nil⟩
      · rw [Bus.driveGpio, Bus.lines_put, hl]; exact hi
      · rw [Bus.driveGpio, Bus.lines_put, hl, Spec.Directed, if_pos hr]; rfl
      · rw [Bus.driveGpio, hl, put_low hi.reqBus, List.append_nil]
    · intro hrc
      have hl : b.lines.call ⟨.setDirectionInput .regData, rc⟩ = b.lines := if_neg hrc
      refine Or.inl ⟨rfl, served_nil ⟨?_, ?_⟩ ?_⟩
      · rw [Bus.driveGpio, Bus.lines_put, hl]; exact h.idle
      · rw [Bus.driveGpio, Bus.lines_put, hl]; exact h.synced
      · rw [Bus.driveGpio, hl, put_low h.idle.reqBus]

theorem setOutput_turned (req : Request) {s : Interface} {values : List Int} {adm : Bus → GpioEvent → Prop}
    (hr : req.isRead = false) (h : Kept s b) :
    WP (gpioBuses adm) True (setOutput s values) b fun x b' => Turned req s b.accesses x b' := by
  unfold setOutput
  split
  · simp only [wp_bind, wp_perform, wp_ite, wp_pure]
    rintro rc b' ⟨-, rfl⟩
    constructor
    · intro hrc
      have hl : b.lines.call ⟨.setDirectionOutput .regData values, rc⟩ =
          { b.lines.setLines .regData values with dir := BitVec.allOnes 32, en := BitVec.allOnes 32 } := if_pos hrc
      have hi : (b.lines.setLines .regData values).Idle :=
        (setLines_ctrlLow (by decide) (idle_ctrlLow h.idle)).idle (by rw [reqBus_setLines (by decide), h.idle.reqBus])
      have hc : (b.lines.call ⟨.setDirectionOutput .regData values, rc⟩).Idle := by
        rw [hl]; exact ⟨hi.1, hi.2, hi.3, hi.4⟩
      refine Or.inr ⟨rfl, by rw [hr], hc, ?_, [], ?_, fun _ hl => absurd hl List.not_mem_nil⟩
      · rw [Bus.driveGpio, Bus.lines_put, hl, Spec.Directed, if_neg (by simp [hr])]; exact ⟨rfl, rfl⟩
      · rw [Bus.driveGpio, put_low hc.reqBus, List.append_nil]
    · intro hrc
      have hl : b.lines.call ⟨.setDirectionOutput .regData values, rc⟩ = b.lines := if_neg hrc
      refine Or.inl ⟨rfl, served_nil ⟨?_, ?_⟩ ?_⟩
      · rw [Bus.driveGpio, Bus.lines_put, hl]; exact h.idle
      · rw [Bus.driveGpio, Bus.lines_put, hl]; exact h.synced
      · rw [Bus.driveGpio, hl, put_low h.idle.reqBus]
  · rename_i hin
    simp only [Bool.not_eq_true] at hin
    refine Or.inr ⟨rfl, ?_, h.idle, ⟨by rw [Spec.Directed, if_neg (by simp [hr])]; exact h.output hin, [], by simp⟩⟩
    cases s; cases hin; rw [hr]

/-- A call that leaves the request and control lines and the direction alone. -/
def Tame (e : GpioOp) : Prop := Calm e ∧ Neutral e

theorem tame_kept {adm : Bus → GpioEvent → Prop} {s : Interface} {p : GpioProg α} (hp : p.All Tame)
    (h : Kept s b) :
    WP (gpioBuses adm) True p b fun _ b' => Kept s b' ∧ b'.accesses = b.accesses := by
  refine wp_invariant (I := fun b' => Kept s b' ∧ b'.accesses = b.accesses) (fun b₁ e r b₂ he hs hb => ?_) hp ⟨h, rfl⟩
  obtain ⟨-, rfl⟩ := hs
  have hi := call_calm (r := r) he.1 hb.1.idle
  obtain ⟨hd, hen⟩ := call_neutral (r := r) he.2 b₁.lines
  refine ⟨⟨hi, ?_⟩, by rw [Bus.driveGpio, put_low hi.reqBus, hb.2]⟩
  have hsy := hb.1.synced
  unfold Synced at hsy ⊢
  split at hsy
  · rw [if_pos (by assumption)]; exact hd.trans hsy
  · rw [if_neg (by assumption)]; exact ⟨hd.trans hsy.1, hen.trans hsy.2⟩

/-- A call that raises no control line, nor changes the direction. -/
def Mild : GpioOp → Prop
  | .setValue g values => g = .ctrl → values = ctrl_zero
  | .requestOutput _ _ | .requestInput _ | .setDirectionInput _ | .setDirectionOutput _ _ => False
  | _ => True

theorem Mild.neutral {e : GpioOp} (h : Mild e) : Neutral e := by
  cases e <;> trivial

theorem call_mild {e : GpioOp} {r : e.Ans} (he : Mild e) {l : Emio} (h : CtrlLow l) : CtrlLow (l.call ⟨e, r⟩) := by
  cases e with
  | setValue g values =>
    simp only [Emio.call]
    split
    · by_cases hg : g = .ctrl
      · subst hg; rw [he rfl]; exact ctrl_zero_low l
      · exact setLines_ctrlLow hg h
    · exact h
  | requestOutput g values => exact he.elim
  | requestInput g => exact he.elim
  | setDirectionInput g => exact he.elim
  | setDirectionOutput g values => exact he.elim
  | _ => exact h

theorem mild_keeps {adm : Bus → GpioEvent → Prop} {p : GpioProg α} (hp : p.All Mild)
    (h : CtrlLow b.lines ∧ Facing req as b) :
    WP (gpioBuses adm) True p b fun _ b' => CtrlLow b'.lines ∧ Facing req as b' := by
  refine wp_invariant (fun b e r b' he hs h => ?_) hp h
  obtain ⟨-, rfl⟩ := hs
  obtain ⟨hd, hen⟩ := call_neutral (r := r) he.neutral b.lines
  exact ⟨call_mild he h.1, facing_put h.2 (directed_congr hd hen h.2.lines)⟩

theorem neutral_wait (fuel : Nat) (s : Interface) : (waitOpDone fuel s).All Neutral :=
  all_wait fuel s trivial trivial trivial trivial

theorem mild_set {g : Lines} {values : List Int} (h : g = .ctrl → values = ctrl_zero) :
    (setValue g values).All Mild := Prog.all_perform.mpr h

/-- Lowering `req_bus` alone. -/
theorem release_idle (h : CtrlLow b.lines ∧ Facing req as b) :
    WP gpio True (setValue .reqBus [0]) b fun _ b' => b'.lines.Idle ∧ Facing req as b' := by
  refine WP.and ?_ (facing_keeps (all_set trivial) h.2)
  rw [wp_setValue]
  intro rc b' hs
  rw [lines_cleanup reqBus_cleanup hs]
  exact (setLines_ctrlLow (by decide) h.1).idle (by rw [reqBus_set]; rfl)

/-- Lowering everything. -/
theorem lower_served {s : Interface} (hs : s.isInput = req.isRead) (h : Facing req as b) :
    WP gpio True lower b fun _ b' => ∃ acc, Served req as s b' acc :=
  WP.mono (WP.and lower_idle (facing_keeps (all_lower trivial trivial) h)) fun _ _ h => served_of hs h.1 h.2

/-- What was served stays served by calls that leave the bus alone. -/
theorem tame_served {adm : Bus → GpioEvent → Prop} {s : Interface} {p : GpioProg α} (hp : p.All Tame)
    (h : ∃ acc, Served req as s b acc) :
    WP (gpioBuses adm) True p b fun _ b' => ∃ acc, Served req as s b' acc := by
  obtain ⟨acc, h⟩ := h
  exact WP.mono (tame_kept hp h.kept) fun _ b' hb => ⟨acc, hb.1, by rw [hb.2, h.accesses], h.directed⟩

theorem tame_timestamp (s : Interface) (n : Nat) : (timestamp s n).All Tame :=
  all_timestamp s n ⟨trivial, trivial⟩

/-! ## The requests -/

theorem readQuadlet_lines {s : Interface} {fuel : Nat} {addr : BitVec 16} (h : Kept s b) :
    WP gpio True (exec fuel (.readQuadlet addr) s) b fun x b' =>
      ∃ acc, Served (.readQuadlet addr) b.accesses x.2 b' acc := by
  simp only [exec, readQuadlet, wp_bind, wp_pure]
  refine WP.mono (tame_kept (tame_timestamp s 0) h) fun _ b₁ hpost => ?_
  obtain ⟨h₁, ha⟩ := hpost
  rw [← ha]
  refine WP.mono (setInput_turned (.readQuadlet addr) rfl h₁) fun x b₂ h₂ => ?_
  obtain ⟨ok, s'⟩ := x
  rcases h₂ with ⟨hok, h₂⟩ | ⟨hok, hs, hi, hf⟩
  · obtain rfl : ok = false := hok
    exact ⟨[], h₂⟩
  · obtain rfl : ok = true := hok
    obtain rfl : s' = { s with isInput := true } := hs
    simp only [if_true, wp_bind, wp_ite, wp_pure]
    refine WP.mono (mild_keeps (mild_set fun e => absurd e (by decide)) ⟨idle_ctrlLow hi, hf⟩) fun _ _ h => ?_
    refine WP.mono (mild_keeps (mild_set fun _ => rfl) h) fun _ _ h => ?_
    refine WP.mono (mild_keeps (mild_set fun e => absurd e (by decide)) h) fun _ _ h => ?_
    refine WP.mono (mild_keeps (all_timestamp _ _ trivial) h) fun _ _ h => ?_
    refine WP.mono (mild_keeps (all_wait _ _ trivial trivial trivial trivial) h) fun ok _ h => ⟨fun _ => ?_, fun _ => ?_⟩
    · refine WP.mono (mild_keeps (all_timestamp _ _ trivial) h) fun _ _ h => ?_
      refine WP.mono (mild_keeps (Prog.all_perform.mpr trivial) h) fun r _ h => ?_
      refine WP.mono (release_idle h) fun _ _ h => ⟨fun _ => ?_, fun _ => served_of rfl h.1 h.2⟩
      exact WP.mono (tame_served (tame_timestamp _ 0) (served_of rfl h.1 h.2)) fun _ _ h => h
    · exact WP.mono (release_idle h) fun _ _ h => served_of rfl h.1 h.2

theorem writeQuadlet_lines {s : Interface} {fuel : Nat} {addr : BitVec 16} {data : BitVec 32} (h : Kept s b) :
    WP gpio True (exec fuel (.writeQuadlet addr data) s) b fun x b' =>
      ∃ acc, Served (.writeQuadlet addr data) b.accesses x.2 b' acc := by
  simp only [exec, writeQuadlet, wp_bind]
  refine WP.mono (tame_kept (tame_timestamp s 0) h) fun _ b₁ hpost => ?_
  obtain ⟨h₁, ha⟩ := hpost
  refine WP.mono (tame_kept (Prog.all_onlyIf (Prog.all_bind (all_set ⟨⟨by decide, by decide⟩, trivial⟩) fun _ => trivial)) h₁)
    fun _ b₂ hpost => ?_
  obtain ⟨h₂, ha'⟩ := hpost
  rw [← ha, ← ha']
  refine WP.mono (setOutput_turned (.writeQuadlet addr data) rfl h₂) fun x b₃ h₃ => ?_
  obtain ⟨ok, s'⟩ := x
  rcases h₃ with ⟨hok, h₃⟩ | ⟨hok, hs, hi, hf⟩
  · obtain rfl : ok = false := hok
    exact ⟨[], h₃⟩
  · obtain rfl : ok = true := hok
    obtain rfl : s' = { s with isInput := false } := hs
    simp only [if_true, wp_bind, wp_pure]
    refine WP.mono (facing_keeps (all_set trivial) hf) fun _ _ h => ?_
    refine WP.mono (facing_keeps (all_set trivial) h) fun _ _ h => ?_
    refine WP.mono (facing_keeps (all_set trivial) h) fun _ _ h => ?_
    refine WP.mono (facing_keeps (all_timestamp _ _ trivial) h) fun _ _ h => ?_
    refine WP.mono (facing_keeps (neutral_wait ..) h) fun ret _ h => ?_
    refine WP.mono (facing_keeps (Prog.all_onlyIf (all_timestamp _ _ trivial)) h) fun _ _ h => ?_
    refine WP.mono (lower_served (s := { s with isInput := false }) rfl h) fun _ _ h => ?_
    exact WP.mono (tame_served (Prog.all_onlyIf (tame_timestamp _ _)) h) fun _ _ h => h

theorem neutral_readNext (N q : Nat) (lsb : Int) : (readNext N q lsb).All Neutral := by
  unfold readNext
  split
  · split
    · refine Prog.all_bind (all_set trivial) fun rc => ?_
      split
      · trivial
      · exact Prog.all_bind (all_set trivial) fun _ => trivial
    · exact Prog.all_bind (all_set trivial) fun _ => trivial
  · trivial

/-- Lowering everything and returning false. -/
theorem fail_served {s : Interface} {Q : Prop} (hs : s.isInput = req.isRead) (h : Facing req as b) :
    WP gpio True lower b fun _ b' => Facing req as b' ∧ (Q → ∃ acc, Served req as s b' acc) :=
  WP.mono (WP.and (facing_keeps (all_lower trivial trivial) h) (lower_served hs h)) fun _ _ h => ⟨h.1, fun _ => h.2⟩

/-- The loops of the block transfers lower what was raised if they fail. -/
theorem readLoop_lines {s : Interface} {fuel N : Nat} (hs : s.isInput = req.isRead) :
    ∀ (n q : Nat) (lsb : Int) {b : Bus}, Facing req as b → WP gpio True (readLoop fuel s N n q lsb) b fun ok b' =>
      Facing req as b' ∧ (ok = false → ∃ acc, Served req as s b' acc)
  | 0, _, _, _, h => ⟨h, fun h => Bool.noConfusion h⟩
  | n + 1, q, lsb, b, h => by
    simp only [readLoop, wp_bind]
    refine WP.mono (facing_keeps (neutral_readNext N q _) h) fun ok _ h => ?_
    rw [wp_ite]
    refine ⟨fun _ => ?_, fun _ => ?_⟩
    · simp only [wp_bind]
      refine WP.mono (facing_keeps (neutral_wait fuel s) h) fun ok _ h => ?_
      rw [wp_ite]
      refine ⟨fun _ => ?_, fun _ => ?_⟩
      · simp only [wp_bind]
        refine WP.mono (facing_keeps (Prog.all_perform.mpr trivial) h) fun r _ h => ?_
        rw [wp_ite]
        refine ⟨fun _ => ?_, fun _ => fail_served hs h⟩
        simp only [wp_bind]
        refine WP.mono (facing_keeps (Prog.all_perform.mpr trivial) h) fun _ _ h => ?_
        exact readLoop_lines hs n (q + 1) _ h
      · exact fail_served hs h
    · exact fail_served hs h

theorem writeLoop_lines {s : Interface} {fuel N : Nat} (hs : s.isInput = req.isRead) :
    ∀ (n q : Nat) (lsb : Int) {b : Bus}, Facing req as b → WP gpio True (writeLoop fuel s N n q lsb) b fun ok b' =>
      Facing req as b' ∧ (ok = false → ∃ acc, Served req as s b' acc)
  | 0, _, _, _, h => ⟨h, fun h => Bool.noConfusion h⟩
  | n + 1, q, lsb, b, h => by
    simp only [writeLoop, wp_bind]
    refine WP.mono (facing_keeps (Prog.all_perform.mpr trivial) h) fun _ _ h => ?_
    refine WP.mono (facing_keeps (all_set trivial) h) fun _ _ h => ?_
    refine WP.mono (facing_keeps (Prog.all_onlyIf (Prog.all_bind (all_set trivial) fun _ => trivial)) h) fun _ _ h => ?_
    refine WP.mono (facing_keeps (all_set trivial) h) fun rc _ h => ?_
    rw [wp_ite]
    refine ⟨fun _ => ?_, fun _ => fail_served hs h⟩
    simp only [wp_bind]
    refine WP.mono (facing_keeps (neutral_wait fuel s) h) fun ok _ h => ?_
    rw [wp_ite]
    exact ⟨fun _ => writeLoop_lines hs n (q + 1) _ h, fun _ => fail_served hs h⟩

/-- Before `req_bus` is raised. -/
structure Waiting (req : Request) (as : List Emio) (b : Bus) : Prop where
  reqBus : b.lines.reqBus = false
  facing : Facing req as b

theorem waiting_set {g : Lines} {values : List Int} (hg : g ≠ .reqBus) (h : Waiting req as b) :
    WP gpio True (setValue g values) b fun _ b' => Waiting req as b' := by
  refine WP.mono (WP.and ?_ (facing_keeps (all_set trivial) h.facing)) fun _ _ h => ⟨h.1, h.2⟩
  rw [wp_setValue]
  intro rc b' hs
  rcases lines_setValue hs with e | e
  · rw [e, reqBus_setLines hg, h.reqBus]
  · rw [e, h.reqBus]

/-- A call that fails leaves the lines as they are. -/
theorem set_failed {g : Lines} {values : List Int} :
    WP gpio True (setValue g values) b fun rc b' => rc ≠ 0 → b'.lines = b.lines := by
  rw [wp_setValue]
  rintro rc b' ⟨-, rfl⟩ hrc
  simp only [Bus.driveGpio, Bus.lines_put, Emio.call, if_neg hrc]

theorem waiting_cleanup {s : Interface} (hs : s.isInput = req.isRead) (h : Waiting req as b) :
    WP gpio True (setValue .ctrl ctrl_zero) b fun _ b' => ∃ acc, Served req as s b' acc := by
  refine WP.mono (WP.and (WP.and ?_ (waiting_set (by decide) h)) (facing_keeps (all_set trivial) h.facing))
    fun _ _ h => served_of hs (CtrlLow.idle h.1.1 h.1.2.reqBus) h.2
  rw [wp_setValue]
  intro rc b' hs
  rw [lines_cleanup ctrl_cleanup hs]
  exact ctrl_zero_low b.lines

theorem readBlock_lines {s : Interface} {fuel : Nat} {addr : BitVec 16} {nBytes : BitVec 32} (h : Kept s b) :
    WP gpio True (exec fuel (.readBlock addr nBytes) s) b fun x b' =>
      ∃ acc, Served (.readBlock addr nBytes) b.accesses x.2 b' acc := by
  simp only [exec, readBlock, wp_ite, wp_bind, wp_pure]
  refine ⟨fun _ => ⟨[], served_nil h rfl⟩, fun _ => ?_⟩
  refine WP.mono (tame_kept (tame_timestamp s 0) h) fun _ b₁ hpost => ?_
  obtain ⟨h₁, ha⟩ := hpost
  rw [← ha]
  refine WP.mono (setInput_turned (.readBlock addr nBytes) rfl h₁) fun x b₂ h₂ => ?_
  obtain ⟨ok, s'⟩ := x
  rcases h₂ with ⟨hok, h₂⟩ | ⟨hok, hs, hi, hf⟩
  · obtain rfl : ok = false := hok
    exact ⟨absurd_false, fun _ => ⟨[], h₂⟩⟩
  · obtain rfl : ok = true := hok
    obtain rfl : s' = { s with isInput := true } := hs
    refine ⟨fun _ => ?_, fun h => absurd rfl h⟩
    refine WP.mono (WP.and set_failed (waiting_set (by decide) ⟨hi.reqBus, hf⟩)) fun rc _ h =>
      ⟨fun _ => ?_, fun hrc => served_of rfl (by rw [h.1 hrc]; exact hi) h.2.facing⟩
    refine WP.mono (waiting_set (by decide) h.2) fun rc _ h => ⟨fun _ => ?_, fun _ => waiting_cleanup rfl h⟩
    refine WP.mono (waiting_set (by decide) h) fun _ _ h => ?_
    refine WP.mono (WP.and set_failed (facing_keeps (all_set trivial) h.facing)) fun rc _ hpost =>
      ⟨fun _ => ?_, fun hrc => waiting_cleanup rfl ⟨by rw [hpost.1 hrc]; exact h.reqBus, hpost.2⟩⟩
    refine WP.mono (facing_keeps (all_timestamp _ _ trivial) hpost.2) fun _ _ hf => ?_
    refine WP.mono (readLoop_lines (s := { s with isInput := true }) rfl _ _ _ hf) fun ok _ h =>
      ⟨fun _ => ?_, fun hok => h.2 (by simpa using hok)⟩
    refine WP.mono (facing_keeps (all_timestamp _ _ trivial) h.1) fun _ _ hf => ?_
    refine WP.mono (lower_served (s := { s with isInput := true }) rfl hf) fun _ _ h => ?_
    exact WP.mono (tame_served (tame_timestamp _ _) h) fun _ _ h => h

theorem writeBlock_lines {s : Interface} {fuel : Nat} {addr : BitVec 16} {nBytes : BitVec 32} (h : Kept s b) :
    WP gpio True (exec fuel (.writeBlock addr nBytes) s) b fun x b' =>
      ∃ acc, Served (.writeBlock addr nBytes) b.accesses x.2 b' acc := by
  simp only [exec, writeBlock, wp_ite, wp_bind, wp_pure]
  refine ⟨fun _ => ⟨[], served_nil h rfl⟩, fun _ => ?_⟩
  refine WP.mono (tame_kept (tame_timestamp s 0) h) fun _ b₁ hpost => ?_
  obtain ⟨h₁, ha⟩ := hpost
  refine WP.mono (tame_kept (Prog.all_perform.mpr ⟨trivial, trivial⟩) h₁) fun val b₂ hpost => ?_
  obtain ⟨h₂, ha'⟩ := hpost
  rw [← ha, ← ha']
  refine WP.mono (setOutput_turned (.writeBlock addr nBytes) rfl h₂) fun x b₃ h₃ => ?_
  obtain ⟨ok, s'⟩ := x
  rcases h₃ with ⟨hok, h₃⟩ | ⟨hok, hs, hi, hf⟩
  · obtain rfl : ok = false := hok
    exact ⟨absurd_false, fun _ => ⟨[], h₃⟩⟩
  · obtain rfl : ok = true := hok
    obtain rfl : s' = { s with isInput := false } := hs
    refine ⟨fun _ => ?_, fun h => absurd rfl h⟩
    refine WP.mono (facing_keeps (all_set trivial) hf) fun _ _ hf => ?_
    refine WP.mono (facing_keeps (all_set trivial) hf) fun _ _ hf => ?_
    refine WP.mono (facing_keeps (all_set trivial) hf) fun _ _ hf => ?_
    refine WP.mono (facing_keeps (all_set trivial) hf) fun _ _ hf => ?_
    refine WP.mono (facing_keeps (neutral_wait ..) hf) fun ok _ hf => ⟨fun _ => ?_, fun _ => ?_⟩
    · refine WP.mono (facing_keeps (all_timestamp _ _ trivial) hf) fun _ _ hf => ?_
      refine WP.mono (writeLoop_lines (s := { s with isInput := false }) rfl _ _ _ hf) fun ok _ h =>
        ⟨fun _ => ?_, fun hok => h.2 (by simpa using hok)⟩
      refine WP.mono (facing_keeps (all_timestamp _ _ trivial) h.1) fun _ _ hf => ?_
      refine WP.mono (lower_served (s := { s with isInput := false }) rfl hf) fun _ _ h => ?_
      exact WP.mono (tame_served (tame_timestamp _ _) h) fun _ _ h => h
    · exact lower_served rfl hf

/-- Every request leaves the bus idle, whichever calls of it fail. -/
theorem exec_lines {s : Interface} {fuel : Nat} (h : Kept s b) :
    WP gpio True (exec fuel req s) b fun x b' => ∃ acc, Served req b.accesses x.2 b' acc := by
  cases req with
  | readQuadlet addr => exact readQuadlet_lines h
  | writeQuadlet addr data => exact writeQuadlet_lines h
  | readBlock addr nBytes => exact readBlock_lines h
  | writeBlock addr nBytes => exact writeBlock_lines h

/-! ## Initialisation -/

theorem wp_orClose {s : Interface} {ok : Bool} {next : GpioProg (Bool × Interface)} {b : Bus}
    {Q : Bool × Interface → Bus → Prop} (hclose : ∀ b', Q (false, s) b')
    (hnext : ok = true → WP gpio True next b Q) : WP gpio True (orClose s ok next) b Q := by
  unfold orClose
  split
  · exact hnext (by assumption)
  · simp only [wp_bind, wp_pure]
    exact wp_trivial fun _ b' => hclose b'

theorem dir_keeps {p : GpioProg α} (hp : p.All Neutral) (h : b.lines.dir = 0) :
    WP gpio True p b fun _ b' => b'.lines.dir = 0 := by
  refine wp_invariant (fun b e r b' he hs h => ?_) hp h
  obtain ⟨-, rfl⟩ := hs
  exact (call_neutral he b.lines).1.trans h

/-- A request of output lines that succeeds sets them. -/
theorem requestOutput_sets {g : Lines} {values : List Int} :
    WP gpio True (.perform (GpioOp.requestOutput g values)) b fun rc b' =>
      rc = 0 → b'.lines = b.lines.setLines g values := by
  rw [wp_perform]
  rintro rc b' ⟨-, rfl⟩ hrc
  simp only [Bus.driveGpio, Bus.lines_put, Emio.call, if_pos hrc]

theorem requestInput_sets :
    WP gpio True (.perform (GpioOp.requestInput .regData)) b fun rc b' => rc = 0 → b'.lines.dir = 0 := by
  rw [wp_perform]
  rintro rc b' ⟨-, rfl⟩ hrc
  simp only [Bus.driveGpio, Bus.lines_put, Emio.call, if_pos hrc]

theorem wp_getLines {g : Lines} (h : b.lines.reqBus = false) :
    WP gpio True (.perform (GpioOp.getLines g)) b fun _ b' => b'.lines.reqBus = false := by
  rw [wp_perform]
  rintro rc b' ⟨-, rfl⟩
  exact h

theorem setEventMode_kept {s : Interface} {newState : Bool} (h : Kept s b) :
    WP gpio True (setEventMode s newState) b fun s' b' => Kept s' b' := by
  unfold setEventMode
  simp only [wp_bind, wp_ite, wp_pure]
  refine WP.mono (tame_kept (Prog.all_perform.mpr ⟨trivial, trivial⟩) h) fun _ _ h => ?_
  have h := h.1
  refine ⟨fun _ => ?_, fun _ => ?_⟩
  · exact WP.mono (tame_kept (Prog.all_perform.mpr ⟨trivial, trivial⟩) h) fun _ _ h => ⟨h.1.idle, h.1.synced⟩
  · exact WP.mono (tame_kept (Prog.all_perform.mpr ⟨trivial, fun e => absurd e (by decide)⟩) h) fun _ _ h => ⟨h.1.idle, h.1.synced⟩

/-- After a successful `Init` the bus is idle and the data lines are inputs,
whatever the lines were before. -/
theorem init_kept : WP gpio True (Gpiod.init {}) b fun x b' => x.1 = true → Kept x.2 b' := by
  unfold Gpiod.init
  simp only [wp_bind, wp_ite, wp_pure]
  refine wp_trivial fun _ _ => ⟨fun _ h => absurd h (by decide), fun _ => ?_⟩
  refine wp_trivial fun _ _ => wp_orClose (fun _ => absurd_false) fun _ => ?_
  simp only [wp_bind]
  refine wp_trivial fun _ _ => wp_orClose (fun _ => absurd_false) fun _ => ?_
  simp only [wp_bind]
  refine wp_trivial fun r _ => wp_trivial fun _ b₁ => wp_orClose (fun _ => absurd_false) fun _ => ?_
  simp only [wp_bind]
  refine wp_trivial fun _ b₂ => wp_orClose (fun _ => absurd_false) fun _ => ?_
  simp only [wp_bind]
  refine WP.mono requestInput_sets fun rc b₃ h => wp_orClose (fun _ => absurd_false) fun hrc => ?_
  have hdir := h (of_decide_eq_true hrc)
  have hget {e : GpioOp} {b : Bus} (he : Neutral e) (h : b.lines.dir = 0) := dir_keeps (Prog.all_perform.mpr he) h
  simp only [wp_bind]
  refine WP.mono (hget trivial hdir) fun _ _ h => wp_orClose (fun _ => absurd_false) fun _ => ?_
  simp only [wp_bind]
  refine WP.mono (hget trivial h) fun _ _ h => wp_orClose (fun _ => absurd_false) fun _ => ?_
  simp only [wp_bind]
  refine WP.mono (hget trivial h) fun _ _ h => ?_
  refine WP.mono (hget trivial h) fun _ _ h => wp_orClose (fun _ => absurd_false) fun _ => ?_
  simp only [wp_bind]
  refine WP.mono (hget trivial h) fun _ _ h => wp_orClose (fun _ => absurd_false) fun _ => ?_
  simp only [wp_bind]
  refine WP.mono (hget trivial h) fun _ _ h => WP.mono (hget trivial h) fun _ _ h => ?_
  refine WP.mono (hget trivial h) fun _ _ h => wp_orClose (fun _ => absurd_false) fun _ => ?_
  simp only [wp_bind]
  refine WP.mono (WP.and requestOutput_sets (hget trivial h)) fun rc b₄ hpost =>
    wp_orClose (fun _ => absurd_false) fun hrc => ?_
  obtain ⟨hset, h⟩ := hpost
  have hlow : b₄.lines.reqBus = false := by rw [hset (of_decide_eq_true hrc), reqBus_set]; rfl
  simp only [wp_bind]
  refine WP.mono (WP.and (wp_getLines hlow) (hget trivial h)) fun _ b₅ hpost =>
    wp_orClose (fun _ => absurd_false) fun _ => ?_
  obtain ⟨hlow, h⟩ := hpost
  simp only [wp_bind]
  refine WP.mono (WP.and requestOutput_sets (hget trivial h)) fun rc b₆ hpost =>
    wp_orClose (fun _ => absurd_false) fun hrc => ?_
  obtain ⟨hset, h⟩ := hpost
  have hset := hset (of_decide_eq_true hrc)
  have hidle : b₆.lines.Idle := by
    rw [hset]
    exact (ctrl_zero_low b₅.lines).idle (by rw [reqBus_setLines (by decide), hlow])
  simp only [wp_bind, wp_pure]
  exact WP.mono (setEventMode_kept ⟨hidle, h⟩) fun _ _ h _ => h

end FpgaV3.Proof.Gpiod
