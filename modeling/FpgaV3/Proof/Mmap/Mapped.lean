import FpgaV3.Proof.Mmap.Calls
import FpgaV3.Spec.Mapped

/-!
# The mmap driver accesses what it has mapped

`Init` maps the clock registers, unmaps them and maps the GPIO registers; every
request accesses these only (`registers_mapped`).
-/

namespace FpgaV3.Proof.Mmap

open FpgaV3.Spec FpgaV3.Impl FpgaV3.Impl.Mmap

variable {σ : Mapping}

/-- The calls that the mapping permits. -/
abbrev Accesses {α : Type} (p : RegProg α) (σ : Mapping) (Q : α → Mapping → Prop) : Prop :=
  Guard mappings Mapping.Permits p σ Q

/-- A call that is permitted, and what follows it. -/
theorem accesses_step {α : Type} {e : RegOp} {f : e.Ans → RegProg α} {Q : α → Mapping → Prop} (hok : σ.Permits e)
    (h : ∀ r, Accesses (f r) (σ.call ⟨e, r⟩) Q) : Accesses (.perform e >>= f) σ Q :=
  guard_bind.mpr ⟨hok, fun r _ hs => hs.2 ▸ h r⟩

/-! ## While a region is mapped -/

/-- The mapping permits the call, and is not changed by it. -/
def Inside (σ : Mapping) (e : RegOp) : Prop := σ.Permits e ∧ ∀ r, σ.call ⟨e, r⟩ = σ

theorem accesses_inside {α : Type} {p : RegProg α} (hp : p.All (Inside σ)) : Accesses p σ fun _ σ' => σ' = σ := by
  refine guard_invariant (I := (· = σ)) (fun σ' e he h => ?_) (fun σ' e r σ'' he hs h => ?_) hp rfl
  · rw [h]
    exact he.1
  · rw [hs.2, h]
    exact he.2 r

theorem inside_read {r : Reg} (h : σ.Has r) : (registerRead r).All (Inside σ) := ⟨⟨h, fun _ => rfl⟩, fun _ => trivial⟩

theorem inside_write {r : Reg} {v : BitVec 32} (h : σ.Has r) : (registerWrite r v).All (Inside σ) :=
  ⟨⟨h, fun _ => rfl⟩, fun _ => trivial⟩

/-! ## `Init` -/

/-- The clock control register is mapped. -/
def clockMapped : Mapping := { isOpen := true, region := some (SLCR_BASE_ADDR, APER_CLK_CTRL + 4) }

/-- The GPIO registers are mapped. -/
def gpioMapped : Mapping := { isOpen := true, region := some (GPIO_BASE_ADDR, GPIO_SIZE) }

theorem has_clock : clockMapped.Has .aperClkCtrl := ⟨_, rfl, by decide⟩

theorem has_gpio {r : Reg} (hr : r ≠ .aperClkCtrl) : gpioMapped.Has r := by
  refine ⟨GPIO_SIZE, ?_, ?_⟩
  · cases r <;> first | rfl | exact absurd rfl hr
  · cases r <;> decide

theorem gpio_read {r : Reg} (hr : r ≠ .aperClkCtrl) : (registerRead r).All (Inside gpioMapped) :=
  inside_read (has_gpio hr)

theorem gpio_write {r : Reg} {v : BitVec 32} (hr : r ≠ .aperClkCtrl) : (registerWrite r v).All (Inside gpioMapped) :=
  inside_write (has_gpio hr)

theorem inside_setClock : setClock.All (Inside clockMapped) := by
  refine Prog.all_bind (inside_read has_clock) fun clk => ?_
  split
  · exact inside_write has_clock
  · trivial

/-- What follows a part that keeps the mapping. -/
theorem accesses_then {α β : Type} {p : RegProg β} {f : β → RegProg α} {Q : α → Mapping → Prop} (hp : p.All (Inside σ))
    (h : ∀ b, Accesses (f b) σ Q) : Accesses (p >>= f) σ Q :=
  guard_bind.mpr ((accesses_inside hp).mono fun b _ hσ => hσ ▸ h b)

/-- `Init` fails with the GPIO registers mapped if it does not know the version. -/
theorem init_mapped : Accesses (Mmap.init {}) {} fun x σ =>
    (x.1 = true → σ = gpioMapped) ∧ (x.1 = false → (σ.region ≠ none ↔ x.2.version > 1)) := by
  have hnone {σ : Mapping} (hσ : σ.region = none) : σ.region ≠ none ↔ ({} : Interface).version > 1 := by
    rw [hσ]
    decide
  unfold Mmap.init
  refine accesses_step rfl fun ok => guard_ite (fun _ => ⟨absurd_false, fun _ => hnone ?_⟩) fun hok => ?_
  · cases ok <;> rfl
  obtain rfl : ok = true := by simpa using hok
  refine accesses_step ⟨rfl, rfl⟩ fun ok => guard_ite (fun hok => ⟨absurd_false, fun _ => hnone ?_⟩) fun hok => ?_
  · obtain rfl : ok = false := by simpa using hok
    rfl
  obtain rfl : ok = true := by simpa using hok
  show Accesses _ clockMapped _
  refine accesses_then inside_setClock fun _ => accesses_step ⟨_, rfl⟩ fun _ => ?_
  refine accesses_step ⟨rfl, rfl⟩ fun ok => guard_ite (fun hok => ⟨absurd_false, fun _ => hnone ?_⟩) fun hok => ?_
  · obtain rfl : ok = false := by simpa using hok
    rfl
  obtain rfl : ok = true := by simpa using hok
  show Accesses _ gpioMapped _
  refine accesses_then (gpio_write (by decide)) fun _ => accesses_then (gpio_read (by decide)) fun upper => ?_
  refine guard_ite (fun hv => ⟨absurd_false, fun _ => iff_of_true (by decide) hv⟩) fun _ => ?_
  refine accesses_then (gpio_write (by decide)) fun _ => accesses_then (gpio_write (by decide)) fun _ => ?_
  refine accesses_then (gpio_write (by decide)) fun _ => accesses_then (gpio_write (by decide)) fun _ => ?_
  exact ⟨fun _ => rfl, fun h => absurd h.symm Bool.false_ne_true⟩

/-! ## The requests -/

abbrev Gpio : RegOp → Prop := Inside gpioMapped

theorem gpio_clock : Gpio .getCurTime := ⟨trivial, fun _ => rfl⟩

theorem gpio_timestamp (s : Interface) (n : Nat) : (timestamp s n).All Gpio := all_timestamp s n gpio_clock

theorem gpio_wait (fuel : Nat) (s : Interface) (state : Bool) : (waitOpDone fuel s state).All Gpio :=
  all_wait fuel s state (gpio_read (by decide)).1 gpio_clock

theorem gpio_setInput (s : Interface) : (setInput s).All Gpio := all_setInput s (gpio_write (by decide)).1

theorem gpio_setOutput (s : Interface) : (setOutput s).All Gpio :=
  all_setOutput s (gpio_write (by decide)).1 (gpio_write (by decide)).1

theorem gpio_exec (fuel : Nat) (req : Request) (s : Interface) : (exec fuel req s).All Gpio := by
  have hupper (v : BitVec 32) : (registerWrite .outputUpper v).All Gpio := gpio_write (by decide)
  have htime (s : Interface) (n : Nat) := gpio_timestamp s n
  have hwait (s : Interface) (b : Bool) := gpio_wait fuel s b
  have hskip : (pure () : RegProg Unit).All Gpio := trivial
  cases req with
  | readQuadlet addr =>
    have hdone (x : Option (BitVec 32) × Interface) : (pure (x.1.isSome, x.2) : RegProg (Bool × Interface)).All Gpio :=
      trivial
    refine Prog.all_bind ?_ hdone
    refine Prog.all_bind (htime s 0) fun _ => Prog.all_bind (gpio_setInput s) fun s => ?_
    refine Prog.all_bind (hupper _) fun _ => Prog.all_bind (htime s 1) fun _ => Prog.all_bind (hwait s true) fun ok => ?_
    split
    · refine Prog.all_bind (htime s 1) fun _ => Prog.all_bind (gpio_read (by decide)) fun data => ?_
      refine Prog.all_bind (hupper _) fun _ => Prog.all_bind (hwait s false) fun _ => ?_
      exact Prog.all_bind (htime s 0) fun _ => trivial
    · exact Prog.all_bind (hupper _) fun _ => trivial
  | writeQuadlet addr data =>
    refine Prog.all_bind (htime s 0) fun _ => Prog.all_bind (gpio_setOutput s) fun s => ?_
    refine Prog.all_bind (gpio_write (by decide)) fun _ => Prog.all_bind (hupper _) fun _ => ?_
    refine Prog.all_bind (htime s 1) fun _ => Prog.all_bind (hwait s true) fun ret => ?_
    cases ret with
    | false =>
      refine Prog.all_bind (hupper _) fun _ => Prog.all_bind (hwait s false) fun _ => ?_
      trivial
    | true =>
      refine Prog.all_bind (htime s 1) fun _ => Prog.all_bind (hupper _) fun _ => ?_
      exact Prog.all_bind (hwait s false) fun _ => Prog.all_bind (htime s 0) fun _ => trivial
  | readBlock addr nBytes =>
    have hdone (q : Nat) : (registerRead .inputLower >>= fun val => store q (bswap32 val)).All Gpio :=
      Prog.all_bind (gpio_read (by decide)) fun _ => ⟨⟨trivial, fun _ => rfl⟩, fun _ => trivial⟩
    simp only [exec, readBlock]
    split
    · trivial
    refine Prog.all_bind (htime s 0) fun _ => Prog.all_bind (gpio_setInput s) fun s => ?_
    refine Prog.all_bind (htime s 1) fun _ => Prog.all_bind (all_blockLoop (fun _ _ => hskip) (hwait s true)
      (fun q _ => hdone q) (fun v => (hupper v).1) _ _ _ _ (Nat.zero_add _)) fun ok => ?_
    split
    · refine Prog.all_bind (htime s 1) fun _ => Prog.all_bind (hupper 0) fun _ => ?_
      exact Prog.all_bind (hwait s false) fun _ => Prog.all_bind (htime s 0) fun _ => trivial
    · trivial
  | writeBlock addr nBytes =>
    have hready (q : Nat) : (load q >>= fun val => registerWrite .outputLower (bswap32 val)).All Gpio :=
      Prog.all_bind ⟨⟨trivial, fun _ => rfl⟩, fun _ => trivial⟩ fun _ => gpio_write (by decide)
    simp only [exec, writeBlock]
    split
    · trivial
    refine Prog.all_bind (htime s 0) fun _ => Prog.all_bind (gpio_setOutput s) fun s => ?_
    refine Prog.all_bind (htime s 1) fun _ => Prog.all_bind (all_blockLoop (fun q _ => hready q) (hwait s true)
      (fun _ _ => hskip) (fun v => (hupper v).1) _ _ _ _ (Nat.zero_add _)) fun ok => ?_
    split
    · refine Prog.all_bind (htime s 1) fun _ => Prog.all_bind (hwait s false) fun _ => ?_
      exact Prog.all_bind (hupper 0) fun _ => Prog.all_bind (htime s 0) fun _ => trivial
    · trivial

/-- The destructor unmaps the registers. -/
theorem destroy_mapped : Accesses (Mmap.destroy true) gpioMapped fun _ σ => σ.region = none :=
  ⟨⟨_, rfl⟩, fun _ _ hs => by rw [hs.2]; rfl⟩

end FpgaV3.Proof.Mmap
