import FpgaV3.Proof.Gpiod.Calls
import FpgaV3.Spec.Events
import FpgaV3.Spec.Requested

/-!
# The gpiod driver uses lines as it has requested them

`Init` leaves the chip open with the lines that the methods use (`Ready`), or closed;
each method keeps `Ready`, and makes only calls that it permits; the destructor closes
the chip (`lines_permitted`).
-/

namespace FpgaV3.Proof.Gpiod

open FpgaV3.Spec FpgaV3.Impl FpgaV3.Impl.Gpiod

variable {σ : GpioChip} {s : Interface} {g : Lines} {values : List Int} {next : GpioProg (Bool × Interface)}
  {Q : Bool × Interface → GpioChip → Prop}

/-- The calls that the library permits. -/
abbrev Uses {α : Type} (p : GpioProg α) (σ : GpioChip) (Q : α → GpioChip → Prop) : Prop :=
  Guard consumers GpioChip.Permits p σ Q

/-- A call that is permitted, and what follows it. -/
theorem uses_step {α : Type} {e : GpioOp} {f : e.Ans → GpioProg α} {Q : α → GpioChip → Prop} (hok : σ.Permits e)
    (h : ∀ r, Unchecked ⟨e, r⟩ → Uses (f r) (σ.call ⟨e, r⟩) Q) : Uses (.perform e >>= f) σ Q :=
  guard_bind.mpr ⟨hok, fun r _ hs => hs.2 ▸ h r hs.1⟩

/-! ## `Init` -/

theorem uses_orClose {ok : Bool} (hopen : σ.isOpen = true) (hfail : Q (false, s) {}) (hnext : ok = true → Uses next σ Q) :
    Uses (orClose s ok next) σ Q := by
  unfold orClose
  exact guard_ite hnext fun _ => uses_step hopen fun _ _ => hfail

theorem uses_getLines (hopen : σ.isOpen = true) (hfail : Q (false, s) {}) (hnext : Uses next (σ.give g) Q) :
    Uses (.perform (GpioOp.getLines g) >>= fun rc => orClose s (rc = 0) next) σ Q := by
  refine uses_step hopen fun rc _ => ?_
  show Uses (orClose s (rc = 0) next) (if rc = 0 then σ.give g else σ) Q
  split
  · exact uses_orClose hopen hfail fun _ => hnext
  · rename_i hrc
    exact uses_orClose hopen hfail fun h => absurd (of_decide_eq_true h) hrc

theorem uses_getLine (hopen : σ.isOpen = true) (hfail : Q (false, s) {}) (hnext : Uses next (σ.give g) Q) :
    Uses (.perform (GpioOp.getLine g) >>= fun ok => orClose s ok next) σ Q := by
  refine uses_step hopen fun ok _ => ?_
  show Uses (orClose s ok next) (if ok then σ.give g else σ) Q
  split
  · exact uses_orClose hopen hfail fun _ => hnext
  · rename_i hok
    exact uses_orClose hopen hfail fun h => absurd h hok

theorem uses_requestInput (hopen : σ.isOpen = true) (hok : σ.got g = true ∧ σ.mode g = .free)
    (hfail : Q (false, s) {}) (hnext : Uses next (σ.request g .input) Q) :
    Uses (.perform (GpioOp.requestInput g) >>= fun rc => orClose s (rc = 0) next) σ Q := by
  refine uses_step hok fun rc _ => ?_
  show Uses (orClose s (rc = 0) next) (if rc = 0 then σ.request g .input else σ) Q
  split
  · exact uses_orClose hopen hfail fun _ => hnext
  · rename_i hrc
    exact uses_orClose hopen hfail fun h => absurd (of_decide_eq_true h) hrc

theorem uses_requestOutput (hopen : σ.isOpen = true) (hok : σ.got g = true ∧ σ.mode g = .free)
    (hfail : Q (false, s) {}) (hnext : Uses next (σ.request g .output) Q) :
    Uses (.perform (GpioOp.requestOutput g values) >>= fun rc => orClose s (rc = 0) next) σ Q := by
  refine uses_step hok fun rc _ => ?_
  show Uses (orClose s (rc = 0) next) (if rc = 0 then σ.request g .output else σ) Q
  split
  · exact uses_orClose hopen hfail fun _ => hnext
  · rename_i hrc
    exact uses_orClose hopen hfail fun h => absurd (of_decide_eq_true h) hrc

theorem mode_requested {m : Mode} : (σ.request g m).mode g = m := by
  show Function.update σ.mode g m g = m
  rw [Function.update_self]

theorem mode_request {g' : Lines} {m : Mode} (hne : g' ≠ g) : (σ.request g m).mode g' = σ.mode g' :=
  Function.update_of_ne hne ..

/-- What the methods need of the chip. -/
structure Ready (s : Interface) (σ : GpioChip) : Prop where
  isOpen : σ.isOpen = true
  got : ∀ g ∈ [Lines.regData, .regAddr, .ctrl, .opDone], σ.got g = true
  outputs : ∀ g ∈ [Lines.regAddr, .addrLsb, .reqBus, .ctrl], σ.mode g = .output
  data : σ.mode .regData = if s.isInput then .input else .output
  done : σ.mode .opDone = if s.useEvents then .events else .input

/-- `op_done` is released, and requested anew. -/
theorem uses_setEventMode {newState : Bool} {Q : Interface → GpioChip → Prop} (hgot : σ.got .opDone = true)
    (hQ : Q { s with useEvents := newState } ((σ.request .opDone .free).request .opDone (if newState then .events else .input))) :
    Uses (setEventMode s newState) σ Q := by
  have hfree : (σ.request .opDone .free).mode .opDone = .free := mode_requested
  unfold setEventMode
  refine uses_step hgot fun _ _ => guard_ite (fun hnew => ?_) fun hnew => ?_
  · refine uses_step ⟨hgot, hfree⟩ fun rc hrc => ?_
    obtain rfl : rc = 0 := hrc
    rw [if_pos hnew] at hQ
    exact hQ
  · refine uses_step ⟨hgot, hfree⟩ fun rc hrc => ?_
    obtain rfl : rc = 0 := hrc
    rw [if_neg hnew] at hQ
    exact hQ

/-- A request whose result is dropped leaves the line free, or requested. -/
theorem uses_requestEvents {f : Int → GpioProg (Bool × Interface)} (hok : σ.got g = true ∧ σ.mode g = .free)
    (hnext : ∀ rc m, Uses (f rc) (σ.request g m) Q) :
    Uses (.perform (GpioOp.requestRisingEdgeEvents g) >>= f) σ Q := by
  refine uses_step hok fun rc _ => ?_
  show Uses (f rc) (if rc = 0 then σ.request g .events else σ) Q
  split
  · exact hnext rc .events
  · have hself : σ.request g .free = σ := by rw [← hok.2, GpioChip.request, Function.update_eq_self]
    rw [← hself]
    exact hnext rc .free

theorem ready_init : Uses (Gpiod.init {}) {} fun x σ => if x.1 then Ready x.2 σ else σ = {} := by
  unfold Gpiod.init
  refine uses_step rfl fun ok _ => ?_
  cases ok with
  | false => rfl
  | true =>
    show Uses (Prog.perform (GpioOp.getLines .version) >>= _) { isOpen := true } _
    refine uses_getLines rfl rfl (uses_requestInput rfl ⟨rfl, rfl⟩ rfl ?_)
    refine uses_step rfl fun r _ => uses_step rfl fun _ _ => uses_orClose rfl rfl fun _ => ?_
    refine uses_getLines rfl rfl (uses_requestInput rfl ⟨rfl, rfl⟩ rfl ?_)
    refine uses_getLines rfl rfl (uses_requestOutput rfl ⟨rfl, rfl⟩ rfl ?_)
    refine uses_step rfl fun lsb hlsb => ?_
    obtain rfl : lsb = true := hlsb
    refine uses_requestOutput rfl ⟨rfl, rfl⟩ rfl (uses_getLine rfl rfl ?_)
    refine uses_step rfl fun grant hgrant => ?_
    obtain rfl : grant = true := hgrant
    refine uses_requestEvents ⟨rfl, rfl⟩ fun rc m => ?_
    refine uses_getLine rfl rfl (uses_requestOutput rfl ⟨rfl, rfl⟩ rfl ?_)
    refine uses_getLines rfl rfl (uses_requestOutput rfl ⟨rfl, rfl⟩ rfl ?_)
    refine guard_bind.mpr (uses_setEventMode rfl ?_)
    show Ready _ _
    refine ⟨rfl, fun g hg => ?_, fun g hg => ?_, rfl, rfl⟩
    · simp only [List.mem_cons, List.not_mem_nil, or_false] at hg
      rcases hg with rfl | rfl | rfl | rfl <;> rfl
    · simp only [List.mem_cons, List.not_mem_nil, or_false] at hg
      rcases hg with rfl | rfl | rfl | rfl <;> rfl

/-! ## Between the changes of direction -/

/-- The calls of the methods that leave the chip as it is. -/
def Steady (s : Interface) : GpioOp → Prop
  | .setValue g _ => g ∈ [Lines.regAddr, .addrLsb, .reqBus, .ctrl] ∨ g = .regData ∧ s.isInput = false
  | .getValueBulk g => g = .regData ∧ s.isInput = true
  | .getValue g => g = .opDone ∧ s.useEvents = false
  | .eventWait g _ | .eventRead g => g = .opDone ∧ s.useEvents = true
  | .getCurTime | .load _ | .store _ _ => True
  | _ => False

theorem Ready.permits {e : GpioOp} (h : Ready s σ) (he : Steady s e) : σ.Permits e := by
  have hdata := h.data
  have hdone := h.done
  cases e with
  | setValue g values =>
    rcases he with hg | ⟨rfl, hs⟩
    · exact h.outputs g hg
    · rwa [hs] at hdata
  | getValueBulk g =>
    obtain ⟨rfl, hs⟩ := he
    rwa [hs] at hdata
  | getValue g =>
    obtain ⟨rfl, hs⟩ := he
    rwa [hs] at hdone
  | eventWait g timeout =>
    obtain ⟨rfl, hs⟩ := he
    rwa [hs] at hdone
  | eventRead g =>
    obtain ⟨rfl, hs⟩ := he
    rwa [hs] at hdone
  | getCurTime => trivial
  | load q => trivial
  | store q v => trivial
  | _ => exact he.elim

theorem call_steady {e : GpioOp} {r : e.Ans} (he : Steady s e) : σ.call ⟨e, r⟩ = σ := by
  cases e <;> first | rfl | exact he.elim

theorem uses_steady {α : Type} {p : GpioProg α} (hp : p.All (Steady s)) (h : Ready s σ) : Uses p σ fun _ => Ready s := by
  refine guard_invariant (fun _ _ he h => h.permits he) (fun σ e r σ' he hs h => ?_) hp h
  rw [hs.2, call_steady he]
  exact h

theorem steady_timestamp (n : Nat) : (timestamp s n).All (Steady s) := all_timestamp s n trivial

theorem steady_output {g : Lines} (hg : g ∈ [Lines.regAddr, .addrLsb, .reqBus, .ctrl]) :
    (setValue g values).All (Steady s) := all_set (Or.inl hg)

theorem steady_data (hs : s.isInput = false) : (setValue .regData values).All (Steady s) := all_set (Or.inr ⟨rfl, hs⟩)

theorem steady_lower : lower.All (Steady s) := all_lower (Or.inl (by decide)) (Or.inl (by decide))

/-- The wait reads the value of `op_done`, or its events, by the mode. -/
theorem steady_wait (fuel : Nat) : (waitOpDone fuel s).All (Steady s) := by
  unfold waitOpDone
  split
  · rename_i hs
    refine Prog.all_bind (Prog.all_perform.mpr ⟨rfl, hs⟩) fun rc => ?_
    split
    · exact Prog.all_bind (Prog.all_perform.mpr ⟨rfl, hs⟩) fun _ => trivial
    · trivial
  · rename_i hs
    have hs : s.useEvents = false := eq_false_of_ne_true hs
    refine Prog.all_bind (Prog.all_perform.mpr ⟨rfl, hs⟩) fun val => ?_
    split
    · refine Prog.all_bind (Prog.all_perform.mpr trivial) fun t => ?_
      exact Prog.all_bind (all_poll ⟨rfl, hs⟩ trivial fuel _ _) fun _ => trivial
    · trivial

theorem steady_readLoop (hs : s.isInput = true) (fuel N : Nat) :
    ∀ (n q : Nat) (lsb : Int), (readLoop fuel s N n q lsb).All (Steady s)
  | 0, _, _ => trivial
  | n + 1, q, lsb => by
    have hfail : (lower >>= fun _ => (pure false : GpioProg Bool)).All (Steady s) :=
      Prog.all_bind steady_lower fun _ => trivial
    have hstore (v : BitVec 32) : (Gpiod.store q v).All (Steady s) := ⟨trivial, fun _ => trivial⟩
    have hnext (lsb : Int) : (readNext N q lsb).All (Steady s) := by
      unfold readNext
      split
      · split
        · refine Prog.all_bind (steady_output (by decide)) fun rc => ?_
          split
          · trivial
          · exact Prog.all_bind (steady_output (by decide)) fun _ => trivial
        · exact Prog.all_bind (steady_output (by decide)) fun _ => trivial
      · trivial
    unfold readLoop
    refine Prog.all_bind (hnext _) fun ok => ?_
    split
    · refine Prog.all_bind (steady_wait fuel) fun ok => ?_
      split
      · refine Prog.all_bind (Prog.all_perform.mpr ⟨rfl, hs⟩) fun x => ?_
        dsimp only
        split
        · exact Prog.all_bind (hstore _) fun _ => steady_readLoop hs fuel N n _ _
        · exact hfail
      · exact hfail
    · exact hfail

theorem steady_writeLoop (hs : s.isInput = false) (fuel N : Nat) :
    ∀ (n q : Nat) (lsb : Int), (writeLoop fuel s N n q lsb).All (Steady s)
  | 0, _, _ => trivial
  | n + 1, q, lsb => by
    have hfail : (lower >>= fun _ => (pure false : GpioProg Bool)).All (Steady s) :=
      Prog.all_bind steady_lower fun _ => trivial
    have hmark : (setValue .ctrl ctrl_blkEnd >>= fun _ => (pure () : GpioProg Unit)).All (Steady s) :=
      Prog.all_bind (steady_output (by decide)) fun _ => trivial
    have hload : (Gpiod.load q).All (Steady s) := ⟨trivial, fun _ => trivial⟩
    unfold writeLoop
    refine Prog.all_bind hload fun val => ?_
    refine Prog.all_bind (steady_data hs) fun _ => ?_
    refine Prog.all_bind (Prog.all_onlyIf hmark) fun _ => ?_
    refine Prog.all_bind (steady_output (by decide)) fun rc => ?_
    split
    · refine Prog.all_bind (steady_wait fuel) fun ok => ?_
      split
      · exact steady_writeLoop hs fuel N n _ _
      · exact hfail
    · exact hfail

/-! ## The methods -/

/-- A method, from where the chip is ready for the object. -/
abbrev Keeping {α : Type} (s : Interface) (p : GpioProg (α × Interface)) : Prop :=
  ∀ σ, Ready s σ → Uses p σ fun x => Ready x.2

variable {α β : Type}

theorem keeping_ret {a : α} : Keeping s (pure (a, s)) := fun _ h => h

theorem keeping_bind {p : GpioProg β} {f : β → GpioProg (α × Interface)} (hp : p.All (Steady s))
    (hf : ∀ b, Keeping s (f b)) : Keeping s (p >>= f) :=
  fun _ h => guard_bind.mpr ((uses_steady hp h).mono fun b _ h => hf b _ h)

theorem keeping_ite {c : Prop} [Decidable c] {p q : GpioProg (α × Interface)} (hp : c → Keeping s p)
    (hq : ¬ c → Keeping s q) : Keeping s (if c then p else q) :=
  fun σ h => guard_ite (fun hc => hp hc σ h) fun hc => hq hc σ h

/-- The data lines are requested as inputs, or as outputs. -/
theorem Ready.request {b : Bool} (h : Ready s σ) :
    Ready { s with isInput := b } (σ.request .regData (if b then .input else .output)) := by
  refine ⟨h.isOpen, h.got, fun g hg => ?_, ?_, ?_⟩
  · have hne : g ≠ .regData := by
      intro hg'
      subst hg'
      simp at hg
    exact (mode_request hne).trans (h.outputs g hg)
  · exact mode_requested
  · exact (mode_request (by decide)).trans h.done

/-- The direction is changed only if it has to be. -/
theorem keeping_setInput {f : Bool × Interface → GpioProg (α × Interface)}
    (hnext : ∀ s', s'.isInput = true → Keeping s' (f (true, s'))) (hfail : ∀ s', Keeping s' (f (false, s'))) :
    Keeping s (setInput s >>= f) := by
  intro σ h
  unfold setInput
  refine guard_bind.mpr (guard_ite (fun hs => hnext s hs σ h) fun hs => ?_)
  have hmode : σ.mode .regData = .output := by rw [h.data, if_neg hs]
  refine uses_step (Or.inr hmode) fun rc _ => guard_ite (fun hrc => ?_) fun hrc => ?_
  · have hcall : σ.call ⟨.setDirectionInput .regData, rc⟩ = σ.request .regData .input := if_pos hrc
    rw [hcall]
    exact hnext _ rfl _ h.request
  · have hcall : σ.call ⟨.setDirectionInput .regData, rc⟩ = σ := if_neg hrc
    rw [hcall]
    exact hfail s σ h

theorem keeping_setOutput {f : Bool × Interface → GpioProg (α × Interface)}
    (hnext : ∀ s', s'.isInput = false → Keeping s' (f (true, s'))) (hfail : ∀ s', Keeping s' (f (false, s'))) :
    Keeping s (setOutput s values >>= f) := by
  intro σ h
  unfold setOutput
  refine guard_bind.mpr (guard_ite (fun hs => ?_) fun hs => hnext s (eq_false_of_ne_true hs) σ h)
  have hmode : σ.mode .regData = .input := by rw [h.data, if_pos hs]
  refine uses_step (Or.inl hmode) fun rc _ => guard_ite (fun hrc => ?_) fun hrc => ?_
  · have hcall : σ.call ⟨.setDirectionOutput .regData values, rc⟩ = σ.request .regData .output := if_pos hrc
    rw [hcall]
    exact hnext _ rfl _ h.request
  · have hcall : σ.call ⟨.setDirectionOutput .regData values, rc⟩ = σ := if_neg hrc
    rw [hcall]
    exact hfail s σ h

theorem keeping_readQuadlet {fuel : Nat} {addr : BitVec 16} : Keeping s (readQuadlet fuel s addr) := by
  unfold readQuadlet
  refine keeping_bind (steady_timestamp 0) fun _ => keeping_setInput (fun s hs => ?_) fun s => keeping_ret
  have hdata : (getValueBulk .regData).All (Steady s) := ⟨⟨rfl, hs⟩, fun _ => trivial⟩
  refine keeping_bind (steady_output (by decide)) fun _ => keeping_bind (steady_output (by decide)) fun _ => ?_
  refine keeping_bind (steady_output (by decide)) fun _ => keeping_bind (steady_timestamp 1) fun _ => ?_
  refine keeping_bind (steady_wait fuel) fun ok => keeping_ite (fun _ => ?_) fun _ => ?_
  · refine keeping_bind (steady_timestamp 1) fun _ => keeping_bind hdata fun x => ?_
    refine keeping_bind (steady_output (by decide)) fun _ => keeping_ite (fun _ => ?_) fun _ => keeping_ret
    exact keeping_bind (steady_timestamp 0) fun _ => keeping_ret
  · exact keeping_bind (steady_output (by decide)) fun _ => keeping_ret

theorem keeping_writeQuadlet {fuel : Nat} {addr : BitVec 16} {data : BitVec 32} :
    Keeping s (writeQuadlet fuel s addr data) := by
  have hdirect : (Prog.onlyIf (!s.isInput) do let _ ← setValue .regData (dataValues data)).All (Steady s) := by
    unfold Prog.onlyIf
    split
    · rename_i hs
      exact Prog.all_bind (steady_data (Bool.not_eq_true' _ ▸ hs)) fun _ => trivial
    · trivial
  unfold writeQuadlet
  refine keeping_bind (steady_timestamp 0) fun _ => keeping_bind hdirect fun _ => ?_
  refine keeping_setOutput (fun s hs => ?_) fun s => keeping_ret
  refine keeping_bind (steady_output (by decide)) fun _ => keeping_bind (steady_output (by decide)) fun _ => ?_
  refine keeping_bind (steady_output (by decide)) fun _ => keeping_bind (steady_timestamp 1) fun _ => ?_
  refine keeping_bind (steady_wait fuel) fun ok => ?_
  refine keeping_bind (Prog.all_onlyIf (steady_timestamp 1)) fun _ => keeping_bind steady_lower fun _ => ?_
  exact keeping_bind (Prog.all_onlyIf (steady_timestamp 0)) fun _ => keeping_ret

theorem keeping_readBlock {fuel : Nat} {addr : BitVec 16} {nBytes : BitVec 32} :
    Keeping s (readBlock fuel s addr nBytes) := by
  have hfail (s : Interface) : Keeping s (setValue .ctrl ctrl_zero >>= fun _ => pure (false, s)) :=
    keeping_bind (steady_output (by decide)) fun _ => keeping_ret
  unfold readBlock
  refine keeping_ite (fun _ => keeping_ret) fun _ => keeping_bind (steady_timestamp 0) fun _ => ?_
  refine keeping_setInput (fun s hs => ?_) fun s => keeping_ret
  refine keeping_bind (steady_output (by decide)) fun rc => keeping_ite (fun _ => ?_) fun _ => keeping_ret
  refine keeping_bind (steady_output (by decide)) fun rc => keeping_ite (fun _ => ?_) fun _ => hfail s
  refine keeping_bind (steady_output (by decide)) fun _ => ?_
  refine keeping_bind (steady_output (by decide)) fun rc => keeping_ite (fun _ => ?_) fun _ => hfail s
  refine keeping_bind (steady_timestamp 1) fun _ => ?_
  refine keeping_bind (steady_readLoop hs fuel _ _ _ _) fun ok => keeping_ite (fun _ => ?_) fun _ => keeping_ret
  refine keeping_bind (steady_timestamp 1) fun _ => keeping_bind steady_lower fun _ => ?_
  exact keeping_bind (steady_timestamp 0) fun _ => keeping_ret

theorem keeping_writeBlock {fuel : Nat} {addr : BitVec 16} {nBytes : BitVec 32} :
    Keeping s (writeBlock fuel s addr nBytes) := by
  have hload : (Gpiod.load 0).All (Steady s) := ⟨trivial, fun _ => trivial⟩
  unfold writeBlock
  refine keeping_ite (fun _ => keeping_ret) fun _ => keeping_bind (steady_timestamp 0) fun _ => ?_
  refine keeping_bind hload fun val => keeping_setOutput (fun s hs => ?_) fun s => keeping_ret
  refine keeping_bind (steady_output (by decide)) fun _ => keeping_bind (steady_output (by decide)) fun _ => ?_
  refine keeping_bind (steady_output (by decide)) fun _ => keeping_bind (steady_output (by decide)) fun _ => ?_
  refine keeping_bind (steady_wait fuel) fun ok => keeping_ite (fun _ => ?_) fun _ => ?_
  · refine keeping_bind (steady_timestamp 1) fun _ => ?_
    refine keeping_bind (steady_writeLoop hs fuel _ _ _ _) fun ok => keeping_ite (fun _ => ?_) fun _ => keeping_ret
    refine keeping_bind (steady_timestamp 1) fun _ => keeping_bind steady_lower fun _ => ?_
    exact keeping_bind (steady_timestamp 0) fun _ => keeping_ret
  · exact keeping_bind steady_lower fun _ => keeping_ret

/-- A command leaves the chip ready, whatever it returns. -/
theorem ready_command (fuel : Nat) (cmd : Command) (s : Interface) (σ : GpioChip) (h : Ready s σ) :
    Uses (command fuel cmd s) σ fun x => Ready x.2 := by
  cases cmd with
  | request req =>
    cases req with
    | readQuadlet addr => exact guard_bind.mpr ((keeping_readQuadlet σ h).mono fun _ _ h => h)
    | writeQuadlet addr data => exact keeping_writeQuadlet σ h
    | readBlock addr nBytes => exact keeping_readBlock σ h
    | writeBlock addr nBytes => exact keeping_writeBlock σ h
  | setEventMode newState =>
    have hmode {g : Lines} {m m' : Mode} (hne : g ≠ .opDone) :
        ((σ.request .opDone m).request .opDone m').mode g = σ.mode g := (mode_request hne).trans (mode_request hne)
    refine guard_bind.mpr (uses_setEventMode (h.got _ (by decide)) ⟨h.isOpen, h.got, fun g hg => ?_, ?_, mode_requested⟩)
    · have hne : g ≠ .opDone := by
        intro hg'
        subst hg'
        simp at hg
      exact (hmode hne).trans (h.outputs g hg)
    · exact (hmode (by decide)).trans h.data

theorem uses_destroy (h : Ready s σ) : Uses destroy σ fun _ σ' => σ' = {} := by
  refine uses_step (h.got .regData (by decide)) fun _ _ => ?_
  refine uses_step (h.got .regAddr (by decide)) fun _ _ => ?_
  refine uses_step (h.got .ctrl (by decide)) fun _ _ => ?_
  exact ⟨h.isOpen, fun _ _ hs => hs.2⟩

/-- Whichever calls of `Init` fail, it has used the library as that permits, and has closed the chip
again if it returns false. After `Init` has succeeded, whatever commands the object has served and
whatever they returned, each further one uses the lines as they are requested at the time, and so does
the destructor, which leaves the chip closed. -/
theorem lines_permitted :
    Uses (Gpiod.init {}) {} fun x σ =>
      (x.1 = false → σ = {}) ∧
        (x.1 = true → ∀ (fuel : Nat) (cs : List (Call GpioOp GpioOp.Ans GpioChip Command Interface Bool))
          (s' : Interface) (σ' : GpioChip), Session consumers (command fuel) x.2 σ cs s' σ' →
            (∀ cmd, Uses (command fuel cmd s') σ' fun _ _ => True) ∧ Uses destroy σ' fun _ σ'' => σ'' = {}) := by
  refine ready_init.mono fun x σ h => ⟨fun hx => ?_, fun hx fuel cs s' σ' hs => ?_⟩
  · rwa [hx, if_neg Bool.false_ne_true] at h
  · rw [hx, if_pos rfl] at h
    have hready : Ready s' σ' := guard_session (I := Ready) (ready_command fuel) hs h
    exact ⟨fun cmd => (ready_command fuel cmd s' σ' hready).mono fun _ _ _ => trivial, uses_destroy hready⟩

end FpgaV3.Proof.Gpiod
