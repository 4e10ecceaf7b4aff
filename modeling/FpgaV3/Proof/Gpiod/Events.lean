import FpgaV3.Proof.Gpiod.Idle
import FpgaV3.Spec.Events
import FpgaV3.Spec.Healthy

/-!
# The events that the gpiod driver reads

In event mode, a request that starts without an event in the queue, and during
which `op_done` rises for its own accesses only, reads the events of these
(`exec_own`); so in every run of such requests no event is taken for another
access (`session_own`). `Level` carries the proof: the requests made so far,
and how many of their events were read.
-/

namespace FpgaV3.Proof.Gpiod

open FpgaV3.Spec FpgaV3.Impl FpgaV3.Impl.Gpiod

variable {g₀ : Nat} {σ σ' : Kernel} {α : Type}

/-! ## The worlds -/

theorem triggers_self (l : Emio) : l.triggers l = false := by
  simp [Emio.triggers]

/-- The lines of a path of the kernel. -/
theorem kernels_bus {t : Trace GpioOp GpioOp.Ans} (h : (kernels g₀).Path σ t σ') :
    (gpioBuses cleans).Path σ.bus t σ'.bus := by
  induction t generalizing σ with
  | nil => exact congrArg Kernel.bus h
  | cons x t ih =>
    obtain ⟨e, r⟩ := x
    obtain ⟨σ₁, ⟨gs, -, hadm, rfl⟩, hp⟩ := h
    refine ⟨_, ⟨?_, rfl⟩, ih hp⟩
    cases e with
    | setValue g values => exact fun _ => Or.inl hadm
    | _ => trivial

theorem events_risen (s : Kernel) (x : GpioEvent) : (s.events x).risen = s.risen := by
  unfold Kernel.events
  split
  · rfl
  · split <;> rfl
  · split <;> rfl
  · rfl

/-- The accesses answered are only added to. -/
theorem risen_path {t : Trace GpioOp GpioOp.Ans} (h : (kernels g₀).Path σ t σ') :
    ∃ gs, σ'.risen = σ.risen ++ gs := by
  induction t generalizing σ with
  | nil => exact ⟨[], by rw [h, List.append_nil]⟩
  | cons x t ih =>
    obtain ⟨σ₁, ⟨gs, -, -, rfl⟩, hp⟩ := h
    obtain ⟨gs', h⟩ := ih hp
    refine ⟨gs ++ gs', ?_⟩
    rw [h, Kernel.answer, events_risen, ← List.append_assoc]
    rfl

/-- A path on which `op_done` rises for later accesses only. -/
theorem kernels_later {t : Trace GpioOp GpioOp.Ans} (h : (kernels 0).Path σ t σ')
    (hl : ∀ g ∈ σ'.risen.drop σ.risen.length, g₀ < g) : (kernels g₀).Path σ t σ' := by
  induction t generalizing σ with
  | nil => exact h
  | cons x t ih =>
    obtain ⟨σ₁, ⟨gs, hdue, hadm, rfl⟩, hp⟩ := h
    have hrisen : ((σ.rise gs).answer x).risen = σ.risen ++ gs := events_risen _ _
    obtain ⟨gs', h⟩ := risen_path hp
    rw [h, hrisen, List.append_assoc, List.drop_left] at hl
    refine ⟨_, ⟨gs, ⟨hdue.nodup, fun g hg => hl g (List.mem_append_left _ hg), hdue.triggered, hdue.fresh⟩, hadm,
      rfl⟩, ih hp fun g hg => ?_⟩
    rw [h, hrisen, List.drop_left] at hg
    exact hl g (List.mem_append_right _ hg)

/-! ## The events of a request -/

/-- Of the accesses from `g₀` on, `a` were triggered and the events of the first
`c` were read; the event of one more may be queued. -/
structure Level (g₀ : Nat) (taken : List Nat) (req : Bool) (a c : Nat) (s : Kernel) : Prop where
  reqBus : s.bus.lines.reqBus = req
  accesses : s.bus.accesses.length = g₀ + a
  taken : s.taken = taken ++ List.range' (g₀ + 1) c
  risen : ∀ g, g₀ < g → g ≤ g₀ + c → g ∈ s.risen
  queue : s.queue = [] ∨ a = c + 1 ∧ s.queue = [g₀ + a] ∧ g₀ + a ∈ s.risen
  bound : a ≤ c + 1

variable {tk : List Nat} {r : Bool} {a c : Nat}

theorem eq_singleton {k : Nat} {gs : List Nat} (hn : gs.Nodup) (h : ∀ g ∈ gs, g = k) : gs = [] ∨ gs = [k] := by
  rcases gs with _ | ⟨g, _ | ⟨g', gs⟩⟩
  · exact Or.inl rfl
  · exact Or.inr (by rw [h g List.mem_cons_self])
  · have hg := h g List.mem_cons_self
    have hg' := h g' (List.mem_cons_of_mem _ List.mem_cons_self)
    exact absurd (hg.trans hg'.symm) (List.ne_of_not_mem_cons (List.nodup_cons.mp hn).1)

/-- Only the event of the last access can still come. -/
theorem Level.rise (h : Level g₀ tk r a c σ) {gs : List Nat} (hd : σ.Due g₀ gs) : Level g₀ tk r a c (σ.rise gs) := by
  have hlast : ∀ g ∈ gs, a = c + 1 ∧ g = g₀ + a := by
    intro g hg
    have hlater := hd.later g hg
    have htriggered := hd.triggered g hg
    have hfresh : ¬ g ≤ g₀ + c := fun hle => hd.fresh g hg (h.risen g hlater hle)
    have hbound := h.bound
    rw [h.accesses] at htriggered
    omega
  have hrisen (g : Nat) (hlt : g₀ < g) (hle : g ≤ g₀ + c) : g ∈ (σ.rise gs).risen :=
    List.mem_append_left _ (h.risen g hlt hle)
  refine ⟨h.reqBus, h.accesses, h.taken, hrisen, ?_, h.bound⟩
  rcases eq_singleton hd.nodup fun g hg => (hlast g hg).2 with rfl | rfl
  · rcases h.queue with hq | ⟨ha, hq, hin⟩
    · left; simp [Kernel.rise, hq]
    · right; exact ⟨ha, by simp [Kernel.rise, hq], List.mem_append_left _ hin⟩
  · obtain ⟨ha, -⟩ := hlast _ List.mem_cons_self
    have hfresh := hd.fresh _ List.mem_cons_self
    have hq := h.queue.resolve_right fun hq => hfresh hq.2.2
    cases he : σ.edges
    · left; simp [Kernel.rise, hq, he]
    · right; exact ⟨ha, by simp [Kernel.rise, hq, he], List.mem_append_right _ List.mem_cons_self⟩

/-- A call, after `op_done` has risen or not. -/
theorem wp_level {e : GpioOp} {Q : e.Ans → Kernel → Prop} (h : Level g₀ tk r a c σ)
    (hQ : ∀ x s, Level g₀ tk r a c s → s.Admits ⟨e, x⟩ → Q x (s.answer ⟨e, x⟩)) :
    WP (kernels g₀) True (.perform e) σ Q := by
  rw [wp_perform]
  rintro x _ ⟨gs, hd, hadm, rfl⟩
  exact hQ x _ (h.rise hd) hadm

/-- A call that makes no request and reads no event. -/
def Mute : GpioOp → Prop
  | .setValue g _ | .requestOutput g _ => g ≠ .reqBus ∧ g ≠ .addrLsb
  | .release _ | .requestRisingEdgeEvents _ | .eventRead _ => False
  | _ => True

theorem answer_still {s : Kernel} {x : GpioEvent} {r' : Bool} (h : Level g₀ tk r a c s) (he : s.events x = s)
    (hr : (s.bus.lines.call x).reqBus = r') (ht : s.bus.lines.triggers (s.bus.lines.call x) = false) :
    Level g₀ tk r' a c (s.answer x) := by
  have hans : s.answer x = { s with bus := s.bus.driveGpio x } := by rw [Kernel.answer, he]
  have hacc : (s.bus.driveGpio x).accesses = s.bus.accesses := by rw [Bus.driveGpio, Bus.put_of_not ht]
  rw [hans]
  exact ⟨hr, by rw [← h.accesses, ← hacc], h.taken, h.risen, h.queue, h.bound⟩

theorem level_mute {p : GpioProg α} (hp : p.All Mute) (h : Level g₀ tk r a c σ) :
    WP (kernels g₀) True p σ fun _ => Level g₀ tk r a c := by
  refine wp_invariant (fun s e x s' he hs h => ?_) hp h
  obtain ⟨gs, hd, -, rfl⟩ := hs
  have h := h.rise hd
  have hsame := call_keeps (f := fun l => (l.reqBus, l.addrLsb)) (e := e) (r := x) (l := (s.rise gs).bus.lines)
    (fun g values hg => by
      have hg : g ≠ .reqBus ∧ g ≠ .addrLsb := by
        cases e with
        | setValue g' values' => obtain rfl := hg; exact he
        | requestOutput g' values' => obtain rfl := hg; exact he
        | setDirectionOutput g' values' => obtain rfl := hg; decide
        | _ => exact hg.elim
      exact Prod.ext (reqBus_setLines hg.1) (addrLsb_setLines hg.2)) fun _ _ _ => rfl
  obtain ⟨hreq, hlsb⟩ := Prod.mk.inj hsame
  refine answer_still h ?_ (hreq.trans h.reqBus) ?_
  · cases e <;> first | rfl | exact he.elim
  · rw [Emio.triggers, hreq, hlsb]
    exact triggers_self _

/-- A call that sets lines with `req_bus` low after it triggers nothing. -/
theorem level_low {g : Lines} {values : List Int} (h : Level g₀ tk r a c σ)
    (hl : ∀ l : Emio, l.reqBus = r → (l.setLines g values).reqBus = false) :
    WP (kernels g₀) True (setValue g values) σ fun _ => Level g₀ tk false a c := by
  refine wp_level h fun rc s hs hadm => ?_
  obtain rfl : rc = 0 := hadm
  have hlow := hl s.bus.lines hs.reqBus
  refine answer_still hs rfl hlow ?_
  rw [Emio.triggers, show s.bus.lines.call ⟨.setValue g values, (0 : Int)⟩ = s.bus.lines.setLines g values from rfl,
    hlow, Bool.false_and]

/-- A call that sets lines makes one request at most. -/
theorem level_request {g : Lines} {values : List Int} (h : Level g₀ tk r c c σ) :
    WP (kernels g₀) True (setValue g values) σ fun _ s => ∃ r' a', Level g₀ tk r' a' c s := by
  refine wp_level h fun rc s hs _ => ?_
  cases ht : s.bus.lines.triggers (s.bus.lines.call ⟨.setValue g values, rc⟩)
  · exact ⟨_, c, answer_still hs rfl rfl ht⟩
  · have hacc : (s.bus.driveGpio ⟨.setValue g values, rc⟩).accesses.length = g₀ + (c + 1) := by
      rw [Bus.driveGpio, Bus.put_of_triggers ht, List.length_append, hs.accesses]
      rfl
    have hq : s.queue = [] := hs.queue.resolve_right fun hq => absurd hq.1 (by omega)
    exact ⟨_, c + 1, rfl, hacc, hs.taken, hs.risen, Or.inl hq, Nat.le_refl _⟩

/-- A wait that returns true has read the event of the last access. -/
theorem wait_level {s : Interface} {fuel : Nat} (hs : s.useEvents = true) (h : Level g₀ tk r a c σ) :
    WP (kernels g₀) True (waitOpDone fuel s) σ fun ok σ' => ok = true → Level g₀ tk r (c + 1) (c + 1) σ' := by
  simp only [waitOpDone, hs, if_true, wp_bind]
  refine WP.mono (level_mute (Prog.all_perform.mpr trivial) h) fun rc σ₁ h => ?_
  rw [wp_ite]
  refine ⟨fun _ => ?_, fun _ => absurd_false⟩
  rw [wp_bind]
  refine wp_level h fun rc σ₂ h hadm hrc => ?_
  obtain rfl : rc = 0 := of_decide_eq_true hrc
  obtain ⟨rfl, hq, hin⟩ := h.queue.resolve_left (hadm rfl)
  have hbus : (σ₂.answer ⟨.eventRead .opDone, (0 : Int)⟩).bus = σ₂.bus := by
    have : σ₂.bus.put σ₂.bus.lines = σ₂.bus := Bus.put_of_not (triggers_self _)
    exact this
  refine ⟨by rw [hbus, h.reqBus], by rw [hbus, h.accesses], ?_, fun g hlt hle => ?_, Or.inl ?_, by omega⟩
  · rw [List.range'_concat, ← List.append_assoc, ← h.taken]
    simp [Kernel.answer, Kernel.events, hq, Nat.add_assoc, Nat.add_comm 1]
  · rcases Nat.lt_or_ge g (g₀ + (c + 1)) with hg | hg
    · exact h.risen g hlt (by omega)
    · rw [show g = g₀ + (c + 1) by omega]; exact hin
  · simp [Kernel.answer, Kernel.events, hq]

/-! ## The loops -/

/-- The events of the first `c` accesses were read. -/
def Taken (g₀ : Nat) (tk : List Nat) (c : Nat) (s : Kernel) : Prop := ∃ r a, Level g₀ tk r a c s

/-- There are no further accesses. -/
def Even (g₀ : Nat) (tk : List Nat) (c : Nat) (s : Kernel) : Prop := ∃ r, Level g₀ tk r c c s

theorem taken_mute {p : GpioProg α} (hp : p.All Mute) (h : Taken g₀ tk c σ) :
    WP (kernels g₀) True p σ fun _ => Taken g₀ tk c := by
  obtain ⟨r, a, h⟩ := h
  exact WP.mono (level_mute hp h) fun _ _ h => ⟨r, a, h⟩

theorem even_mute {p : GpioProg α} (hp : p.All Mute) (h : Even g₀ tk c σ) :
    WP (kernels g₀) True p σ fun _ => Even g₀ tk c := by
  obtain ⟨r, h⟩ := h
  exact WP.mono (level_mute hp h) fun _ _ h => ⟨r, h⟩

theorem even_request {g : Lines} {values : List Int} (h : Even g₀ tk c σ) :
    WP (kernels g₀) True (setValue g values) σ fun _ => Taken g₀ tk c := by
  obtain ⟨r, h⟩ := h
  exact level_request h

theorem taken_wait {s : Interface} {fuel : Nat} (hs : s.useEvents = true) (h : Taken g₀ tk c σ) :
    WP (kernels g₀) True (waitOpDone fuel s) σ fun ok σ' => ok = true → Even g₀ tk (c + 1) σ' := by
  obtain ⟨r, a, h⟩ := h
  exact WP.mono (wait_level hs h) fun _ _ h hok => ⟨r, h hok⟩

theorem mute_timestamp (s : Interface) (n : Nat) : (timestamp s n).All Mute := all_timestamp s n trivial

theorem mute_ctrl (values : List Int) : (setValue .ctrl values).All Mute := all_set ⟨by decide, by decide⟩

theorem release_taken (h : Taken g₀ tk c σ) :
    WP (kernels g₀) True (setValue .reqBus [0]) σ fun _ => Taken g₀ tk c := by
  obtain ⟨r, a, h⟩ := h
  exact WP.mono (level_low h fun l _ => reqBus_set 0) fun _ _ h => ⟨false, a, h⟩

/-- Lowering the request and control lines makes no request. -/
theorem lower_taken (h : Taken g₀ tk c σ) : WP (kernels g₀) True lower σ fun _ => Taken g₀ tk c := by
  simp only [lower, wp_bind, wp_pure]
  exact WP.mono (release_taken h) fun _ _ h => taken_mute (mute_ctrl _) h

/-- Before quadlet `q` of a `ReadBlock` is waited for, it is requested. -/
theorem readNext_taken {N q : Nat} {lsb : Int} (h₀ : Taken g₀ tk q σ) (h : q > 0 → Even g₀ tk q σ) :
    WP (kernels g₀) True (readNext N q lsb) σ fun _ => Taken g₀ tk q := by
  unfold readNext
  split
  · rename_i hq
    split
    · simp only [wp_bind, wp_ite, wp_pure]
      refine WP.mono (even_mute (mute_ctrl _) (h hq)) fun rc _ h => ⟨fun _ => ?_, fun _ => even_request h⟩
      obtain ⟨r, h⟩ := h
      exact ⟨r, q, h⟩
    · simp only [wp_bind, wp_pure]
      exact even_request (h hq)
  · exact h₀

theorem readLoop_even {s : Interface} {fuel N : Nat} (hs : s.useEvents = true) :
    ∀ (n q : Nat) (lsb : Int) {σ : Kernel}, q + n = N → Taken g₀ tk q σ → (q > 0 → Even g₀ tk q σ) →
      WP (kernels g₀) True (readLoop fuel s N n q lsb) σ fun ok σ' =>
        ok = true → Taken g₀ tk N σ' ∧ (N > 0 → Even g₀ tk N σ')
  | 0, q, _, _, hN, h₀, h => by
    obtain rfl : q = N := hN
    exact fun _ => ⟨h₀, h⟩
  | n + 1, q, lsb, σ, hN, h₀, h => by
    simp only [readLoop, wp_bind]
    refine WP.mono (readNext_taken h₀ h) fun ok _ h => ?_
    simp only [wp_ite, wp_bind, wp_pure]
    refine ⟨fun _ => ?_, fun _ => wp_trivial fun _ _ => absurd_false⟩
    refine WP.mono (taken_wait hs h) fun ok _ h => ⟨fun hok => ?_, fun _ => wp_trivial fun _ _ => absurd_false⟩
    refine WP.mono (even_mute (Prog.all_perform.mpr trivial) (h hok)) fun x _ h =>
      ⟨fun _ => ?_, fun _ => wp_trivial fun _ _ => absurd_false⟩
    refine WP.mono (even_mute (Prog.all_perform.mpr trivial) h) fun _ _ h => ?_
    have h₀ : Taken g₀ tk (q + 1) _ := h.imp fun r h => ⟨q + 1, h⟩
    exact readLoop_even hs n (q + 1) _ (by omega) h₀ fun _ => h

theorem writeLoop_even {s : Interface} {fuel N : Nat} (hs : s.useEvents = true) :
    ∀ (n q : Nat) (lsb : Int) {σ : Kernel}, Even g₀ tk q σ →
      WP (kernels g₀) True (writeLoop fuel s N n q lsb) σ fun ok σ' => ok = true → Even g₀ tk (q + n) σ'
  | 0, q, _, _, h => fun _ => h
  | n + 1, q, lsb, σ, h => by
    simp only [writeLoop, wp_bind]
    refine WP.mono (even_mute (Prog.all_perform.mpr trivial) h) fun val _ h => ?_
    refine WP.mono (even_mute (all_set ⟨by decide, by decide⟩) h) fun _ _ h => ?_
    refine WP.mono (even_mute (Prog.all_onlyIf (Prog.all_bind (mute_ctrl _) fun _ => trivial)) h) fun _ _ h => ?_
    refine WP.mono (even_request h) fun rc _ h => ?_
    simp only [wp_ite, wp_bind, wp_pure]
    refine ⟨fun _ => ?_, fun _ => wp_trivial fun _ _ => absurd_false⟩
    refine WP.mono (taken_wait hs h) fun ok _ h => ⟨fun hok => ?_, fun _ => wp_trivial fun _ _ => absurd_false⟩
    rw [show q + (n + 1) = q + 1 + n by omega]
    exact writeLoop_even hs n (q + 1) _ (h hok)

/-! ## The requests -/

theorem setInput_events {s : Interface} (h : Level g₀ tk r a c σ) :
    WP (kernels g₀) True (setInput s) σ fun x σ' => x.2.useEvents = s.useEvents ∧ Level g₀ tk r a c σ' := by
  refine WP.mono (WP.and ?_ (level_mute (all_setInput s trivial) h)) fun _ _ h => h
  unfold setInput
  split
  · rfl
  · simp only [wp_bind, wp_ite, wp_pure]
    exact wp_trivial fun _ _ => ⟨fun _ => trivial, fun _ => trivial⟩

theorem setOutput_events {s : Interface} {values : List Int} (h : Level g₀ tk r a c σ) :
    WP (kernels g₀) True (setOutput s values) σ fun x σ' => x.2.useEvents = s.useEvents ∧ Level g₀ tk r a c σ' := by
  refine WP.mono (WP.and ?_ (level_mute (all_setOutput s values trivial) h)) fun _ _ h => h
  unfold setOutput
  split
  · simp only [wp_bind, wp_ite, wp_pure]
    exact wp_trivial fun _ _ => ⟨fun _ => trivial, fun _ => trivial⟩
  · rfl

theorem Even.taken (h : Even g₀ tk c σ) : Taken g₀ tk c σ := h.imp fun _ h => ⟨c, h⟩

/-- A request that has read the events of `c` accesses ends. -/
theorem lower_own {q : Nat} {s : Interface} (hq : q ≤ c) (h : Taken g₀ tk c σ) :
    WP (kernels g₀) True (timestamp s 1) σ fun _ σ₁ => WP (kernels g₀) True lower σ₁ fun _ σ₂ =>
      WP (kernels g₀) True (timestamp s 0) σ₂ fun _ => ReadOwn g₀ tk q := by
  refine WP.mono (taken_mute (mute_timestamp s 1) h) fun _ _ h => WP.mono (lower_taken h) fun _ _ h => ?_
  refine WP.mono (taken_mute (mute_timestamp s 0) h) fun _ _ h => ?_
  obtain ⟨r, a, h⟩ := h
  exact ⟨c, hq, h.taken⟩

/-- A request in event mode that starts with an empty queue reads its own
events only, if `op_done` rises for no earlier access. -/
theorem exec_own {fuel : Nat} {s : Interface} {req : Request} (hs : s.useEvents = true)
    (h : Level g₀ tk false 0 0 σ) :
    WP (kernels g₀) True (exec fuel req s) σ fun x σ' => x.1 = true → ReadOwn g₀ tk req.quads σ' := by
  cases req with
  | readQuadlet addr =>
    simp only [exec, readQuadlet, wp_bind]
    refine WP.mono (level_mute (mute_timestamp s 0) h) fun _ _ h => ?_
    refine WP.mono (setInput_events h) fun x _ h => ?_
    obtain ⟨ok, s'⟩ := x
    obtain ⟨hs', h⟩ := h
    simp only [wp_ite, wp_bind, wp_pure]
    refine ⟨fun _ => ?_, fun _ => absurd_false⟩
    refine WP.mono (level_mute (all_set ⟨by decide, by decide⟩) h) fun _ _ h => ?_
    refine WP.mono (level_mute (mute_ctrl _) h) fun _ _ h => WP.mono (level_request h) fun _ _ h => ?_
    refine WP.mono (taken_mute (mute_timestamp s' 1) h) fun _ _ h => ?_
    refine WP.mono (taken_wait (hs'.trans hs) h) fun ok _ h => ⟨fun hok => ?_, fun _ => wp_trivial fun _ _ => absurd_false⟩
    refine WP.mono (even_mute (mute_timestamp s' 1) (h hok)) fun _ _ h => ?_
    refine WP.mono (even_mute (Prog.all_perform.mpr trivial) h) fun x _ h => ?_
    refine WP.mono (release_taken h.taken) fun _ _ h => ⟨fun _ => ?_, fun _ => absurd_false⟩
    refine WP.mono (taken_mute (mute_timestamp s' 0) h) fun _ _ h _ => ?_
    obtain ⟨r, a, h⟩ := h
    exact ⟨1, Nat.le_refl _, h.taken⟩
  | writeQuadlet addr data =>
    simp only [exec, writeQuadlet, wp_bind]
    refine WP.mono (level_mute (mute_timestamp s 0) h) fun _ _ h => ?_
    refine WP.mono (level_mute (Prog.all_onlyIf (Prog.all_bind (all_set ⟨by decide, by decide⟩) fun _ => trivial)) h)
      fun _ _ h => ?_
    refine WP.mono (setOutput_events h) fun x _ h => ?_
    obtain ⟨ok, s'⟩ := x
    obtain ⟨hs', h⟩ := h
    simp only [wp_ite, wp_bind, wp_pure]
    refine ⟨fun _ => ?_, fun _ => absurd_false⟩
    refine WP.mono (level_mute (all_set ⟨by decide, by decide⟩) h) fun _ _ h => ?_
    refine WP.mono (level_mute (mute_ctrl _) h) fun _ _ h => WP.mono (level_request h) fun _ _ h => ?_
    refine WP.mono (taken_mute (mute_timestamp s' 1) h) fun _ _ h => ?_
    refine WP.mono (taken_wait (hs'.trans hs) h) fun ret σ₁ h => ?_
    cases ret
    · exact wp_trivial fun _ _ => wp_trivial fun _ _ => wp_trivial fun _ _ => absurd_false
    · refine WP.mono (taken_mute (Prog.all_onlyIf (mute_timestamp s' 1)) (h rfl).taken) fun _ _ h => ?_
      refine WP.mono (lower_taken h) fun _ _ h => ?_
      refine WP.mono (taken_mute (Prog.all_onlyIf (mute_timestamp s' 0)) h) fun _ _ h _ => ?_
      obtain ⟨r, a, h⟩ := h
      exact ⟨1, Nat.le_refl _, h.taken⟩
  | readBlock addr nBytes =>
    simp only [exec, readBlock, wp_ite, wp_bind, wp_pure]
    refine ⟨fun _ => absurd_false, fun _ => ?_⟩
    refine WP.mono (level_mute (mute_timestamp s 0) h) fun _ _ h => ?_
    refine WP.mono (setInput_events h) fun x _ h => ⟨fun _ => ?_, fun _ => absurd_false⟩
    obtain ⟨ok, s'⟩ := x
    obtain ⟨hs', h⟩ := h
    refine WP.mono (level_mute (mute_ctrl _) h) fun _ _ h => ⟨fun _ => ?_, fun _ => absurd_false⟩
    refine WP.mono (level_mute (all_set ⟨by decide, by decide⟩) h) fun _ _ h =>
      ⟨fun _ => ?_, fun _ => wp_trivial fun _ _ => absurd_false⟩
    refine WP.mono (level_low h fun l hl => (reqBus_setLines (by decide)).trans hl) fun _ _ h => ?_
    refine WP.mono (level_request h) fun _ _ h => ⟨fun _ => ?_, fun _ => wp_trivial fun _ _ => absurd_false⟩
    refine WP.mono (taken_mute (mute_timestamp s' 1) h) fun _ _ h => ?_
    refine WP.mono (readLoop_even (hs'.trans hs) _ 0 _ (Nat.zero_add _) h fun h => absurd h (Nat.lt_irrefl 0)) fun ok _ h =>
      ⟨fun hok => ?_, fun _ => absurd_false⟩
    refine WP.mono (lower_own (Nat.le_refl _) (h hok).1) fun _ _ h => WP.mono h fun _ _ h => WP.mono h fun _ _ h _ => h
  | writeBlock addr nBytes =>
    simp only [exec, writeBlock, wp_ite, wp_bind, wp_pure]
    refine ⟨fun _ => absurd_false, fun _ => ?_⟩
    refine WP.mono (level_mute (mute_timestamp s 0) h) fun _ _ h => ?_
    refine WP.mono (level_mute (Prog.all_perform.mpr trivial) h) fun val _ h => ?_
    refine WP.mono (setOutput_events h) fun x _ h => ⟨fun _ => ?_, fun _ => absurd_false⟩
    obtain ⟨ok, s'⟩ := x
    obtain ⟨hs', h⟩ := h
    refine WP.mono (level_mute (all_set ⟨by decide, by decide⟩) h) fun _ _ h => ?_
    refine WP.mono (level_low h fun l hl => (reqBus_setLines (by decide)).trans hl) fun _ _ h => ?_
    refine WP.mono (level_mute (mute_ctrl _) h) fun _ _ h => WP.mono (level_request h) fun _ _ h => ?_
    refine WP.mono (taken_wait (hs'.trans hs) h) fun ok _ h => ⟨fun hok => ?_, fun _ => wp_trivial fun _ _ => absurd_false⟩
    refine WP.mono (even_mute (mute_timestamp s' 1) (h hok)) fun _ _ h => ?_
    refine WP.mono (writeLoop_even (hs'.trans hs) _ 1 _ h) fun ok _ h => ⟨fun hok => ?_, fun _ => absurd_false⟩
    have hq : nQuads nBytes ≤ 1 + (nQuads nBytes - 1) := by omega
    refine WP.mono (lower_own hq (h hok).taken) fun _ _ h => WP.mono h fun _ _ h => WP.mono h fun _ _ h _ => h

/-! ## Runs -/

theorem command_kept {fuel : Nat} {s : Interface} {b : Bus} {o : Command} (h : Kept s b) :
    WP gpio True (command fuel o s) b fun x b' => Kept x.2 b' := by
  cases o with
  | request req => exact WP.mono (exec_lines h) fun _ _ h => h.elim fun _ h => h.kept
  | setEventMode newState =>
    simp only [command, wp_bind, wp_pure]
    exact setEventMode_kept h

/-- A firmware that answers the accesses in their order, the next one before
each call for which the second component says so. -/
def board : Env GpioOp GpioOp.Ans (Kernel × List Bool) where
  step σ e :=
    let g := σ.1.risen.length + 1
    let due := σ.2.headD false = true ∧ g ≤ σ.1.bus.accesses.length ∧ g ∉ σ.1.risen
    let s := σ.1.rise (if due then [g] else [])
    let r : e.Ans := match e with
      | .eventWait _ _ => if s.queue = [] then 0 else 1
      | .eventRead _ => if s.queue = [] then -1 else 0
      | e => (obliging.step () e).1
    (r, s.answer ⟨e, r⟩, σ.2.tail)

theorem board_step (σ : Kernel × List Bool) (e : GpioOp) :
    (kernels 0).step σ.1 e (board.step σ e).1 (board.step σ e).2.1 := by
  refine ⟨_, ?_, ?_, rfl⟩
  · split
    · rename_i h
      refine ⟨by simp, ?_, ?_, ?_⟩ <;> rintro g hg <;> rw [List.mem_singleton.mp hg]
      · exact Nat.succ_pos _
      · exact h.2.1
      · exact h.2.2
    · exact ⟨List.nodup_nil, fun _ h => absurd h List.not_mem_nil, fun _ h => absurd h List.not_mem_nil,
        fun _ h => absurd h List.not_mem_nil⟩
  · cases e with
    | eventWait g timeout =>
      cases g with
      | opDone => intro hrc hq; rw [board] at hrc; simp only [hq, if_true] at hrc; cases hrc
      | _ => trivial
    | eventRead g =>
      cases g with
      | opDone => intro hrc hq; rw [board] at hrc; simp only [hq, if_true] at hrc; cases hrc
      | _ => trivial
    | _ => trivial

theorem board_path {p : GpioProg α} {σ σ' : Kernel × List Bool} {x : α} (h : board.run p σ = some (x, σ')) :
    ∃ t, p.Runs t x ∧ (kernels 0).Path σ.1 t σ'.1 :=
  ⟨_, (Env.runs_of_run h).1, Env.path_of_run board_step h⟩

/-- The kernel after `SetEventMode(true)`. -/
def watching : Kernel := { bus := low, edges := true }

theorem board_init : board.run (Gpiod.init {}) ({ bus := low }, []) = some ((true, {}), { bus := low }, []) := rfl

theorem board_events : board.run (command 1 (.setEventMode true) {}) ({ bus := low }, []) =
    some ((true, { useEvents := true }), watching, []) := rfl

/-- A `ReadQuadlet` in event mode. -/
abbrev eventRead : GpioProg (Bool × Interface) := command 1 (.request (.readQuadlet 0x10)) { useEvents := true }

/-- The kernel after a `ReadQuadlet(0x10)` that timed out. -/
def unanswered : Kernel := { bus := ⟨⟨0, 0x10, 0, 0⟩, [⟨0, 0x10010, 0, 0⟩]⟩, edges := true }

end FpgaV3.Proof.Gpiod
