import FpgaV3.Proof.Gpiod.Calls
import FpgaV3.Spec.Healthy
import FpgaV3.Spec.Reports

/-!
# What the gpiod driver reports

In polling mode, a request that returns true is without failure exactly if the
calls that it does not check have succeeded (`exec_reported_iff`). A
`ReadBlock` of no quadlet requests one and never waits for it.
-/

namespace FpgaV3.Proof.Gpiod

open FpgaV3.Spec FpgaV3.Impl FpgaV3.Impl.Gpiod

/-- No unchecked call has failed. -/
def trusted (req : Request) (ok : Bool) (x : GpioEvent) : Bool := ok && (!unchecked req x.1 || returned x = 0)

/-- What was seen of a request, and whether its unchecked calls succeeded. -/
abbrev reporting (req : Request) : World GpioOp GpioOp.Ans (Report × Bool) :=
  World.obs (fun _ _ => True) fun σ x => (report σ.1 x, trusted req σ.2 x)

/-- A request under way: nothing has failed but what is unchecked, and `n`
quadlets are acknowledged. -/
structure Tracks (raised pending : Bool) (n : Nat) (σ : Report × Bool) : Prop where
  sound : σ.1.sound = σ.2
  raised : σ.1.raised = raised
  pending : σ.1.pending = pending
  lowered : σ.1.lowered = false
  acked : σ.1.acked = n

variable {req : Request} {r p : Bool} {n : Nat} {σ : Report × Bool} {α : Type}

/-! ## The calls -/

theorem wp_reporting {e : GpioOp} {Q : e.Ans → Report × Bool → Prop} :
    WP (reporting req) True (.perform e) σ Q ↔ ∀ x, Q x (report σ.1 ⟨e, x⟩, trusted req σ.2 ⟨e, x⟩) := by
  rw [wp_perform]
  constructor
  · exact fun h x => h x _ ⟨trivial, rfl⟩
  · rintro h x _ ⟨-, rfl⟩
    exact h x

/-- A call that presents lines is unchecked, or it succeeded. -/
theorem tracks_present {e : GpioOp} {x : e.Ans} {rc : Int} (h : Tracks r p n σ)
    (hrep : report σ.1 ⟨e, x⟩ = σ.1.present rc) (hrc : unchecked req e = true → returned ⟨e, x⟩ = rc)
    (hu : unchecked req e = true ∨ rc = 0) :
    Tracks r p n (report σ.1 ⟨e, x⟩, trusted req σ.2 ⟨e, x⟩) := by
  rw [hrep]
  refine ⟨?_, h.raised, h.pending, h.lowered, h.acked⟩
  rcases hu with hu | hu
  · simp only [Report.present, trusted, h.sound, hu, hrc hu, Bool.not_true, Bool.false_or]
  · cases hc : unchecked req e
    · simp only [Report.present, trusted, h.sound, hu, hc, decide_true, Bool.not_false, Bool.true_or]
    · simp only [Report.present, trusted, h.sound, hu, hc, hrc hc, decide_true, Bool.not_true, Bool.false_or]

theorem present_set {g : Lines} {values : List Int} (hg : g ≠ .reqBus) (hl : g = .addrLsb → r = false)
    (h : Tracks r p n σ) : WP (reporting req) True (setValue g values) σ fun rc σ' =>
      unchecked req (.setValue g values) = true ∨ rc = 0 → Tracks r p n σ' := by
  refine wp_reporting.mpr fun rc hu => ?_
  have hrep : report σ.1 ⟨.setValue g values, rc⟩ = σ.1.present rc := by
    cases g with
    | reqBus => exact absurd rfl hg
    | addrLsb => simp only [report, h.lowered, h.raised, hl rfl, Bool.false_eq_true, if_false]
    | _ => simp only [report, h.lowered, Bool.false_eq_true, if_false]
  exact tracks_present h hrep (fun _ => rfl) hu

/-- A call that requests a quadlet, none being pending. -/
theorem request_set {g : Lines} {values : List Int} (hg : g = .reqBus ∧ values ≠ [0] ∨ g = .addrLsb ∧ r = true)
    (h : Tracks r false n σ) : WP (reporting req) True (setValue g values) σ fun rc σ' =>
      unchecked req (.setValue g values) = true ∨ rc = 0 → Tracks true true n σ' := by
  refine wp_reporting.mpr fun rc hu => ?_
  have hrep : report σ.1 ⟨.setValue g values, rc⟩ = σ.1.request rc := by
    rcases hg with ⟨rfl, hv⟩ | ⟨rfl, rfl⟩
    · simp only [report, h.lowered, hv, Bool.false_eq_true, if_false]
    · simp only [report, h.lowered, h.raised, Bool.false_eq_true, if_false, if_true]
  rw [hrep]
  refine ⟨?_, rfl, rfl, h.lowered, h.acked⟩
  cases hc : unchecked req (.setValue g values)
  · have hrc : rc = 0 := hu.resolve_left (by simp [hc])
    simp [Report.request, trusted, returned, h.sound, h.pending, hc, hrc]
  · simp [Report.request, trusted, returned, h.sound, h.pending, hc]
    rfl

/-- A call that says nothing of the request. -/
def Plain : GpioOp → Prop
  | .getCurTime | .load _ => True
  | _ => False

theorem plain_keeps {P : Report × Bool → Prop} {q : GpioProg α} (hq : q.All Plain) (h : P σ) :
    WP (reporting req) True q σ fun _ => P := by
  refine wp_invariant (fun σ e x σ' he hs h => ?_) hq h
  have hrep : report σ.1 ⟨e, x⟩ = σ.1 := by
    cases e with
    | getCurTime => exact ite_self _
    | load q => exact ite_self _
    | _ => exact he.elim
  have htr : trusted req σ.2 ⟨e, x⟩ = σ.2 := by
    cases e with
    | getCurTime => cases req <;> exact Bool.and_true _
    | load q => cases req <;> exact Bool.and_true _
    | _ => exact he.elim
  have hσ : σ' = (report σ.1 ⟨e, x⟩, trusted req σ.2 ⟨e, x⟩) := hs.2
  rw [hσ, hrep, htr]
  exact h

theorem plain_timestamp (s : Interface) (k : Nat) : (timestamp s k).All Plain := all_timestamp s k trivial

/-! ## Waiting -/

/-- A sample of `op_done`. -/
theorem wp_sample {Q : Int → Report × Bool → Prop} (h : σ.1.lowered = false) :
    WP (reporting req) True (.perform (GpioOp.getValue .opDone)) σ Q ↔ ∀ val, Q val (σ.1.sample val, σ.2) := by
  have htr (val : Int) : trusted req σ.2 ⟨.getValue .opDone, val⟩ = σ.2 := by cases req <;> exact Bool.and_true _
  have hrep (val : Int) : report σ.1 ⟨.getValue .opDone, val⟩ = σ.1.sample val := by
    simp only [report, h, Bool.false_eq_true, if_false]
  rw [wp_reporting]
  exact forall_congr' fun val => by rw [hrep, htr]

theorem sample_other {s : Report} {val : Int} (h : val ≠ 1) : s.sample val = s := by
  simp [Report.sample, h]

theorem Tracks.sample (h : Tracks r true n σ) : Tracks r false (n + 1) (σ.1.sample 1, σ.2) := by
  have hs : σ.1.sample 1 = { σ.1 with pending := false, acked := σ.1.acked + 1 } := by
    simp [Report.sample, h.pending]
  rw [hs]
  exact ⟨h.sound, h.raised, rfl, h.lowered, congrArg (· + 1) h.acked⟩

/-- After a sample the quadlet is acknowledged if the sample was 1. -/
def Sampled (r : Bool) (n : Nat) (val : Int) (σ : Report × Bool) : Prop :=
  if val = 1 then Tracks r false (n + 1) σ else Tracks r true n σ

theorem sampled (h : Tracks r true n σ) (val : Int) : Sampled r n val (σ.1.sample val, σ.2) := by
  unfold Sampled
  split
  · rename_i hv; rw [hv]; exact h.sample
  · rename_i hv; rw [sample_other hv]; exact h

theorem pollLoop_tracks {timeout : Int} {t : Timespec} :
    ∀ (fuel : Nat) (val dt : Int) {σ : Report × Bool}, Sampled r n val σ →
      WP (reporting req) True (pollLoop timeout t fuel val dt) σ fun val σ' => Sampled r n val σ'
  | 0, _, _, _, _ => trivial
  | fuel + 1, val, dt, σ, h => by
    unfold pollLoop
    split
    · rename_i hc
      have h : Tracks r true n σ := by
        have hv : val ≠ 1 := fun hv => absurd hc.1 (by rw [hv]; decide)
        rwa [Sampled, if_neg hv] at h
      rw [wp_bind, wp_sample h.lowered]
      intro val
      rw [wp_bind]
      refine WP.mono (plain_keeps (Prog.all_perform.mpr trivial) (sampled h val)) fun t _ h => ?_
      exact pollLoop_tracks fuel val _ h
    · exact h

/-- A wait that returns true in polling mode has sampled `op_done` 1. -/
theorem wait_tracks {s : Interface} {fuel : Nat} (hs : s.useEvents = false) (h : Tracks r true n σ) :
    WP (reporting req) True (waitOpDone fuel s) σ fun ok σ' => ok = true → Tracks r false (n + 1) σ' := by
  simp only [waitOpDone, hs, Bool.false_eq_true, if_false, wp_bind]
  rw [wp_sample h.lowered]
  intro val
  have hdone {val : Int} {σ : Report × Bool} (h : Sampled r n val σ) :
      decide (val = 1) = true → Tracks r false (n + 1) σ := by
    intro hv
    rwa [Sampled, if_pos (of_decide_eq_true hv)] at h
  rw [wp_ite]
  refine ⟨fun _ => ?_, fun _ => hdone (sampled h val)⟩
  rw [wp_bind]
  refine WP.mono (plain_keeps (Prog.all_perform.mpr trivial) (sampled h val)) fun t _ h => ?_
  rw [wp_bind]
  exact WP.mono (pollLoop_tracks fuel val 0 h) fun val _ h => hdone h

/-! ## The parts of a request -/

theorem setInput_tracks {s : Interface} (h : Tracks r p n σ) :
    WP (reporting req) True (setInput s) σ fun x σ' =>
      x.1 = true → x.2.useEvents = s.useEvents ∧ Tracks r p n σ' := by
  unfold setInput
  split
  · exact fun _ => ⟨rfl, h⟩
  · rw [wp_bind, wp_reporting]
    intro rc
    rw [wp_ite]
    refine ⟨fun hrc _ => ⟨rfl, ?_⟩, fun _ => absurd_false⟩
    refine tracks_present h ?_ (fun hu => ?_) (Or.inr hrc)
    · simp only [report, h.lowered, Bool.false_eq_true, if_false]
    · cases req <;> cases hu

theorem setOutput_tracks {s : Interface} {values : List Int} (h : Tracks r p n σ) :
    WP (reporting req) True (setOutput s values) σ fun x σ' =>
      x.1 = true → x.2.useEvents = s.useEvents ∧ Tracks r p n σ' := by
  unfold setOutput
  split
  · rw [wp_bind, wp_reporting]
    intro rc
    rw [wp_ite]
    refine ⟨fun hrc _ => ⟨rfl, ?_⟩, fun _ => absurd_false⟩
    refine tracks_present h ?_ (fun hu => ?_) (Or.inr hrc)
    · simp only [report, h.lowered, Bool.false_eq_true, if_false]
    · cases req <;> cases hu
  · exact fun _ => ⟨rfl, h⟩

/-- The data lines are read after the quadlet is acknowledged. -/
theorem read_tracks (h : Tracks r false n σ) :
    WP (reporting req) True (getValueBulk .regData) σ fun x σ' =>
      x.1 = 0 → Tracks r false n σ' ∧ σ'.1.word = some (ofValues x.2) := by
  refine wp_reporting.mpr fun x hx => ?_
  have hrep : report σ.1 ⟨.getValueBulk .regData, x⟩ = { σ.1 with word := some (ofValues x.2) } := by
    simp only [report, h.lowered, h.pending, hx, Bool.false_eq_true, if_false, Bool.not_false, Bool.and_true, if_true]
  have htr : trusted req σ.2 ⟨.getValueBulk .regData, x⟩ = σ.2 := by cases req <;> exact Bool.and_true _
  rw [hrep, htr]
  exact ⟨⟨h.sound, h.raised, h.pending, h.lowered, h.acked⟩, rfl⟩

/-- The word stored is the one that was read. -/
theorem store_tracks {q : Nat} {v : BitVec 32} (h : Tracks r false n σ ∧ σ.1.word = some v) :
    WP (reporting req) True (store q (bswap32 v)) σ fun _ σ' => Tracks r false n σ' := by
  refine wp_reporting.mpr fun x => ?_
  have hrep : report σ.1 ⟨.store q (bswap32 v), x⟩ = { σ.1 with word := none } := by
    simp only [report, h.1.lowered, h.2, bswap32_bswap32, Bool.false_eq_true, if_false, decide_true, Bool.and_true]
  have htr : trusted req σ.2 ⟨.store q (bswap32 v), x⟩ = σ.2 := by cases req <;> exact Bool.and_true _
  rw [hrep, htr]
  exact ⟨h.1.sound, h.1.raised, h.1.pending, h.1.lowered, h.1.acked⟩

/-- A request that has lowered `req_bus`. -/
structure Finished (p : Bool) (n : Nat) (word : Option (BitVec 32)) (σ : Report × Bool) : Prop where
  sound : σ.1.sound = (σ.2 && !p)
  lowered : σ.1.lowered = true
  acked : σ.1.acked = n
  word : σ.1.word = word

theorem release_finishes (h : Tracks r p n σ) :
    WP (reporting req) True (setValue .reqBus [0]) σ fun _ σ' => Finished p n σ.1.word σ' := by
  refine wp_reporting.mpr fun x => ?_
  have hrep : report σ.1 ⟨.setValue .reqBus [0], x⟩ = { σ.1 with sound := σ.1.sound && !σ.1.pending, lowered := true } := by
    simp only [report, h.lowered, Bool.false_eq_true, if_false, if_true]
  have htr : trusted req σ.2 ⟨.setValue .reqBus [0], x⟩ = σ.2 := by cases req <;> exact Bool.and_true _
  rw [hrep, htr]
  exact ⟨by simp only [h.sound, h.pending], rfl, h.acked, rfl⟩

/-- What follows only cleans up. -/
theorem lower_finishes (hu : unchecked req (.setValue .ctrl ctrl_zero) = false) (h : Tracks r p n σ) :
    WP (reporting req) True lower σ fun _ σ' => Finished p n σ.1.word σ' := by
  simp only [lower, wp_bind, wp_pure]
  refine WP.mono (release_finishes h) fun _ σ₁ h => wp_reporting.mpr fun x => ?_
  have hrep : report σ₁.1 ⟨.setValue .ctrl ctrl_zero, x⟩ = σ₁.1 := by simp only [report, h.lowered, if_true]
  have htr : trusted req σ₁.2 ⟨.setValue .ctrl ctrl_zero, x⟩ = σ₁.2 := by
    simp only [trusted, hu, Bool.not_false, Bool.true_or, Bool.and_true]
  rw [hrep, htr]
  exact h

/-! ## The loops -/

theorem readNext_tracks {N q : Nat} {lsb : Int} (h : Tracks true (decide (q = 0)) q σ) :
    WP (reporting req) True (readNext N q lsb) σ fun ok σ' => ok = true → Tracks true true q σ' := by
  unfold readNext
  split
  · rename_i hq
    rw [decide_eq_false (by omega)] at h
    have hrequest {σ : Report × Bool} (h : Tracks true false q σ) :
        WP (reporting req) True (setValue .addrLsb [lsb]) σ fun rc σ' =>
          unchecked req (.setValue .addrLsb [lsb]) = true ∨ rc = 0 → Tracks true true q σ' :=
      request_set (Or.inr ⟨rfl, rfl⟩) h
    split
    · simp only [wp_bind, wp_ite, wp_pure]
      refine WP.mono (present_set (by decide) (fun e => by cases e) h) fun rc _ h => ⟨fun _ => absurd_false, fun hrc => ?_⟩
      have h := h (Or.inr (Decidable.not_not.mp hrc))
      exact WP.mono (hrequest h) fun rc _ h hrc => h (Or.inr (of_decide_eq_true hrc))
    · simp only [wp_bind, wp_pure]
      exact WP.mono (hrequest h) fun rc _ h hrc => h (Or.inr (of_decide_eq_true hrc))
  · rename_i hq
    rw [decide_eq_true (by omega)] at h
    exact fun _ => h

theorem readLoop_tracks {s : Interface} {fuel N : Nat} (hs : s.useEvents = false) :
    ∀ (n q : Nat) (lsb : Int) {σ : Report × Bool}, q + n = N → Tracks true (decide (q = 0)) q σ →
      WP (reporting req) True (readLoop fuel s N n q lsb) σ fun ok σ' =>
        ok = true → Tracks true (decide (N = 0)) N σ'
  | 0, q, _, _, hN, h => by
    obtain rfl : q = N := hN
    exact fun _ => h
  | n + 1, q, lsb, σ, hN, h => by
    simp only [readLoop, wp_bind]
    refine WP.mono (readNext_tracks h) fun ok _ h => ?_
    simp only [wp_ite, wp_bind, wp_pure]
    refine ⟨fun hok => ?_, fun _ => wp_trivial fun _ _ => absurd_false⟩
    refine WP.mono (wait_tracks hs (h hok)) fun ok _ h => ⟨fun hok => ?_, fun _ => wp_trivial fun _ _ => absurd_false⟩
    refine WP.mono (read_tracks (h hok)) fun x _ h => ⟨fun hx => ?_, fun _ => wp_trivial fun _ _ => absurd_false⟩
    exact WP.mono (store_tracks (h hx)) fun _ _ h => readLoop_tracks hs n (q + 1) _ (by omega) h

theorem writeLoop_tracks {s : Interface} {fuel N : Nat} {addr : BitVec 16} {nBytes : BitVec 32}
    (hs : s.useEvents = false) :
    ∀ (n q : Nat) (lsb : Int) {σ : Report × Bool}, Tracks true false q σ →
      WP (reporting (.writeBlock addr nBytes)) True (writeLoop fuel s N n q lsb) σ fun ok σ' =>
        ok = true → Tracks true false (q + n) σ'
  | 0, q, _, _, h => fun _ => h
  | n + 1, q, lsb, σ, h => by
    simp only [writeLoop, wp_bind]
    refine WP.mono (plain_keeps (Prog.all_perform.mpr trivial) h) fun val _ h => ?_
    refine WP.mono (present_set (by decide) (fun e => absurd e (by decide)) h) fun rc _ h => ?_
    have h := h (Or.inl rfl)
    refine WP.mono (Q := fun _ => Tracks true false q) ?_ fun _ _ h => ?_
    · rw [wp_onlyIf]
      refine ⟨fun _ => ?_, fun _ => h⟩
      rw [wp_bind]
      exact WP.mono (present_set (by decide) (fun e => absurd e (by decide)) h) fun rc _ h => h (Or.inl rfl)
    · refine WP.mono (request_set (Or.inr ⟨rfl, rfl⟩) h) fun rc _ h => ?_
      simp only [wp_ite, wp_bind, wp_pure]
      refine ⟨fun hrc => ?_, fun _ => wp_trivial fun _ _ => absurd_false⟩
      refine WP.mono (wait_tracks hs (h (Or.inr hrc))) fun ok _ h => ⟨fun hok => ?_, fun _ => wp_trivial fun _ _ => absurd_false⟩
      rw [show q + (n + 1) = q + 1 + n by omega]
      exact writeLoop_tracks hs n (q + 1) _ (h hok)

/-! ## The requests -/

theorem tracks_start : Tracks false false 0 ({}, true) := ⟨rfl, rfl, rfl, rfl, rfl⟩

theorem plain_finished {s : Interface} {k : Nat} {w : Option (BitVec 32)} (h : Finished p n w σ) :
    WP (reporting req) True (timestamp s k) σ fun _ => Finished p n w :=
  plain_keeps (plain_timestamp s k) h

/-- The word that `ReadQuadlet` returns is the one it read. -/
theorem readQuadlet_reports {s : Interface} {fuel : Nat} {addr : BitVec 16} (hs : s.useEvents = false) :
    WP (reporting (.readQuadlet addr)) True (readQuadlet fuel s addr) ({}, true) fun x σ' =>
      ∀ v, x.1 = some v → Finished false 1 (some v) σ' := by
  simp only [readQuadlet, wp_bind]
  refine WP.mono (plain_keeps (plain_timestamp s 0) tracks_start) fun _ _ h => ?_
  refine WP.mono (setInput_tracks h) fun x _ h => ?_
  obtain ⟨ok, s'⟩ := x
  simp only [wp_ite, wp_bind, wp_pure]
  refine ⟨fun hok => ?_, fun _ _ => absurd_none⟩
  obtain ⟨hs', h⟩ := h hok
  have hs' : s'.useEvents = false := hs'.trans hs
  refine WP.mono (present_set (by decide) (fun e => absurd e (by decide)) h) fun _ _ h => ?_
  refine WP.mono (present_set (by decide) (fun e => absurd e (by decide)) (h (Or.inl rfl))) fun _ _ h => ?_
  refine WP.mono (request_set (Or.inl ⟨rfl, by decide⟩) (h (Or.inl rfl))) fun _ _ h => ?_
  refine WP.mono (plain_keeps (plain_timestamp s' 1) (h (Or.inl rfl))) fun _ _ h => ?_
  refine WP.mono (wait_tracks hs' h) fun ok _ h => ⟨fun hok => ?_, fun _ => wp_trivial fun _ _ _ => absurd_none⟩
  refine WP.mono (plain_keeps (plain_timestamp s' 1) (h hok)) fun _ _ h => ?_
  refine WP.mono (read_tracks h) fun x σ₁ h => ?_
  by_cases hx : x.1 = 0
  · obtain ⟨h, hw⟩ := h hx
    refine WP.mono (release_finishes h) fun _ _ h => ⟨fun _ => ?_, fun hn => absurd hx hn⟩
    refine WP.mono (plain_finished h) fun _ _ h v hv => ?_
    rw [← hv, ← hw]
    exact h
  · exact wp_trivial fun _ _ => ⟨fun hz => absurd hz hx, fun _ _ => absurd_none⟩

theorem writeQuadlet_reports {s : Interface} {fuel : Nat} {addr : BitVec 16} {data : BitVec 32}
    (hs : s.useEvents = false) :
    WP (reporting (.writeQuadlet addr data)) True (writeQuadlet fuel s addr data) ({}, true) fun x σ' =>
      x.1 = true → ∃ w, Finished false 1 w σ' := by
  simp only [writeQuadlet, wp_bind]
  refine WP.mono (plain_keeps (plain_timestamp s 0) tracks_start) fun _ σ₁ h => ?_
  refine WP.mono (Q := fun _ => Tracks false false 0) ?_ fun _ _ h => ?_
  · rw [wp_onlyIf]
    refine ⟨fun _ => ?_, fun _ => h⟩
    rw [wp_bind]
    exact WP.mono (present_set (by decide) (fun e => absurd e (by decide)) h) fun _ _ h => h (Or.inl rfl)
  refine WP.mono (setOutput_tracks h) fun x _ h => ?_
  obtain ⟨ok, s'⟩ := x
  simp only [wp_ite, wp_bind, wp_pure]
  refine ⟨fun hok => ?_, fun _ => absurd_false⟩
  obtain ⟨hs', h⟩ := h hok
  have hs' : s'.useEvents = false := hs'.trans hs
  refine WP.mono (present_set (by decide) (fun e => absurd e (by decide)) h) fun _ _ h => ?_
  refine WP.mono (present_set (by decide) (fun e => absurd e (by decide)) (h (Or.inl rfl))) fun _ _ h => ?_
  refine WP.mono (request_set (Or.inl ⟨rfl, by decide⟩) (h (Or.inl rfl))) fun _ _ h => ?_
  refine WP.mono (plain_keeps (plain_timestamp s' 1) (h (Or.inl rfl))) fun _ _ h => ?_
  refine WP.mono (wait_tracks hs' h) fun ret σ₂ h => ?_
  cases ret
  · exact wp_trivial fun _ _ => wp_trivial fun _ _ => wp_trivial fun _ _ => absurd_false
  · refine WP.mono (plain_keeps (Prog.all_onlyIf (plain_timestamp s' 1)) (h rfl)) fun _ _ h => ?_
    refine WP.mono (lower_finishes rfl h) fun _ _ h => ?_
    exact WP.mono (plain_keeps (Prog.all_onlyIf (plain_timestamp s' 0)) h) fun _ _ h _ => ⟨_, h⟩

theorem readBlock_reports {s : Interface} {fuel : Nat} {addr : BitVec 16} {nBytes : BitVec 32}
    (hs : s.useEvents = false) :
    WP (reporting (.readBlock addr nBytes)) True (readBlock fuel s addr nBytes) ({}, true) fun x σ' =>
      x.1 = true → ∃ w, Finished (decide (nQuads nBytes = 0)) (nQuads nBytes) w σ' := by
  simp only [readBlock, wp_ite, wp_bind, wp_pure]
  refine ⟨fun _ => absurd_false, fun _ => ?_⟩
  refine WP.mono (plain_keeps (plain_timestamp s 0) tracks_start) fun _ σ₁ h => ?_
  refine WP.mono (setInput_tracks h) fun x _ h => ?_
  obtain ⟨ok, s'⟩ := x
  refine ⟨fun hok => ?_, fun _ => absurd_false⟩
  obtain ⟨hs', h⟩ := h hok
  have hs' : s'.useEvents = false := hs'.trans hs
  refine WP.mono (present_set (by decide) (fun e => absurd e (by decide)) h) fun _ _ h => ⟨fun hrc => ?_, fun _ => absurd_false⟩
  refine WP.mono (present_set (by decide) (fun e => absurd e (by decide)) (h (Or.inr hrc))) fun _ _ h =>
    ⟨fun hrc => ?_, fun _ => wp_trivial fun _ _ => absurd_false⟩
  refine WP.mono (present_set (by decide) (fun _ => rfl) (h (Or.inr hrc))) fun _ _ h => ?_
  have h := h (Or.inl (by simp [unchecked]))
  refine WP.mono (request_set (Or.inl ⟨rfl, by decide⟩) h) fun _ _ h =>
    ⟨fun hrc => ?_, fun _ => wp_trivial fun _ _ => absurd_false⟩
  refine WP.mono (plain_keeps (plain_timestamp s' 1) (h (Or.inr hrc))) fun _ _ h => ?_
  refine WP.mono (readLoop_tracks hs' _ 0 _ (Nat.zero_add _) h) fun ok _ h => ⟨fun hok => ?_, fun _ => absurd_false⟩
  refine WP.mono (plain_keeps (plain_timestamp s' 1) (h hok)) fun _ _ h => ?_
  refine WP.mono (lower_finishes rfl h) fun _ _ h => ?_
  exact WP.mono (plain_finished h) fun _ _ h _ => ⟨_, h⟩

theorem writeBlock_reports {s : Interface} {fuel : Nat} {addr : BitVec 16} {nBytes : BitVec 32}
    (hs : s.useEvents = false) :
    WP (reporting (.writeBlock addr nBytes)) True (writeBlock fuel s addr nBytes) ({}, true) fun x σ' =>
      x.1 = true → ∃ w, Finished false (1 + (nQuads nBytes - 1)) w σ' := by
  simp only [writeBlock, wp_ite, wp_bind, wp_pure]
  refine ⟨fun _ => absurd_false, fun _ => ?_⟩
  refine WP.mono (plain_keeps (plain_timestamp s 0) tracks_start) fun _ σ₁ h => ?_
  refine WP.mono (plain_keeps (Prog.all_perform.mpr trivial) h) fun val _ h => ?_
  refine WP.mono (setOutput_tracks h) fun x _ h => ?_
  obtain ⟨ok, s'⟩ := x
  refine ⟨fun hok => ?_, fun _ => absurd_false⟩
  obtain ⟨hs', h⟩ := h hok
  have hs' : s'.useEvents = false := hs'.trans hs
  refine WP.mono (present_set (by decide) (fun e => absurd e (by decide)) h) fun _ _ h => ?_
  refine WP.mono (present_set (by decide) (fun _ => rfl) (h (Or.inl rfl))) fun _ _ h => ?_
  have h := h (Or.inl (by simp [unchecked]))
  refine WP.mono (present_set (by decide) (fun e => absurd e (by decide)) h) fun _ _ h => ?_
  refine WP.mono (request_set (Or.inl ⟨rfl, by decide⟩) (h (Or.inl rfl))) fun _ _ h => ?_
  refine WP.mono (wait_tracks hs' (h (Or.inl rfl))) fun ok _ h => ⟨fun hok => ?_, fun _ => wp_trivial fun _ _ => absurd_false⟩
  refine WP.mono (plain_keeps (plain_timestamp s' 1) (h hok)) fun _ _ h => ?_
  refine WP.mono (writeLoop_tracks hs' _ 1 _ h) fun ok _ h => ⟨fun hok => ?_, fun _ => absurd_false⟩
  refine WP.mono (plain_keeps (plain_timestamp s' 1) (h hok)) fun _ _ h => ?_
  refine WP.mono (lower_finishes rfl h) fun _ _ h => ?_
  exact WP.mono (plain_finished h) fun _ _ h _ => ⟨_, h⟩

/-- A request that returns true has acknowledged its quadlets, and its failures
are those of the calls it does not check. -/
theorem exec_reports {s : Interface} {fuel : Nat} (hs : s.useEvents = false) :
    WP (reporting req) True (exec fuel req s) ({}, true) fun x σ' => x.1 = true →
      σ'.1.sound = (σ'.2 && !(req.isRead && decide (req.quads = 0))) ∧ σ'.1.lowered = true ∧ req.quads ≤ σ'.1.acked := by
  cases req with
  | readQuadlet addr =>
    simp only [exec, wp_bind, wp_pure]
    refine WP.mono (readQuadlet_reports hs) fun x _ h hdata => ?_
    obtain ⟨data, s'⟩ := x
    obtain ⟨v, hv⟩ := Option.isSome_iff_exists.mp hdata
    have h := h v hv
    exact ⟨h.sound, h.lowered, Nat.le_of_eq h.acked.symm⟩
  | writeQuadlet addr data =>
    refine WP.mono (writeQuadlet_reports hs) fun _ _ h hok => ?_
    obtain ⟨w, h⟩ := h hok
    exact ⟨h.sound, h.lowered, Nat.le_of_eq h.acked.symm⟩
  | readBlock addr nBytes =>
    refine WP.mono (readBlock_reports hs) fun _ _ h hok => ?_
    obtain ⟨w, h⟩ := h hok
    exact ⟨h.sound, h.lowered, Nat.le_of_eq h.acked.symm⟩
  | writeBlock addr nBytes =>
    refine WP.mono (writeBlock_reports hs) fun _ _ h hok => ?_
    obtain ⟨w, h⟩ := h hok
    refine ⟨h.sound, h.lowered, ?_⟩
    rw [h.acked, Request.quads]
    omega

/-- Whether the unchecked calls of a trace succeeded. -/
theorem foldl_trusted (req : Request) (t : Trace GpioOp GpioOp.Ans) (ok : Bool) :
    t.foldl (trusted req) ok = true ↔ ok = true ∧ ∀ x ∈ t, unchecked req x.1 = true → returned x = 0 := by
  induction t generalizing ok with
  | nil => simp
  | cons x t ih =>
    rw [List.foldl_cons, ih, List.forall_mem_cons, trusted, Bool.and_eq_true, Bool.or_eq_true, and_assoc]
    cases unchecked req x.1 <;> simp

/-- In polling mode, a request that returns true made no call that failed, and
was acknowledged, exactly if the calls it does not check have succeeded and it
is no `ReadBlock` of no quadlet. The word that `ReadQuadlet` returns was read
from the data lines. -/
theorem exec_reported_iff {fuel : Nat} {s : Interface} (hs : s.useEvents = false) (req : Request) :
    (∀ {t s'}, (exec fuel req s).Runs t (true, s') →
      (Reported req t ↔ (∀ x ∈ t, unchecked req x.1 = true → returned x = 0) ∧ (req.isRead = true → 0 < req.quads))) ∧
    ∀ {addr t v s'}, (readQuadlet fuel s addr).Runs t (some v, s') → (t.foldl report {}).word = some v := by
  have hpath (req : Request) (t : Trace GpioOp GpioOp.Ans) : (reporting req).Path ({}, true) t
      (t.foldl report {}, t.foldl (trusted req) true) := by
    rw [← World.foldl_prod]
    exact World.path_obs.mpr ⟨fun _ _ => trivial, rfl⟩
  constructor
  · intro t s' hr
    obtain ⟨hsound, hlow, hack⟩ := (exec_reports hs).sound hr (hpath req t) rfl
    have htrust := foldl_trusted req t true
    simp only [true_and] at htrust
    rw [Reported, hsound, Bool.and_eq_true, htrust]
    have hquads : (!(req.isRead && decide (req.quads = 0))) = true ↔ (req.isRead = true → 0 < req.quads) := by
      cases req.isRead <;> simp [Nat.pos_iff_ne_zero]
    rw [hquads]
    exact ⟨And.left, fun h => ⟨h, hlow, hack⟩⟩
  · intro addr t v s' hr
    exact ((readQuadlet_reports hs).sound hr (hpath _ t) v rfl).word

/-- A `ReadQuadlet` of which no call fails. -/
theorem exec_reported_iff_read : ∃ t s', (exec 1 (.readQuadlet 0x10) {}).Runs t (true, s') ∧
    Reported (.readQuadlet 0x10) t ∧ (t.foldl report {}).word = some 0 := by
  have hread := Env.runs_of_run (show obliging.run (readQuadlet 1 {} 0x10) () = some ((some 0, {}), ()) from rfl)
  have hexec := Env.runs_of_run (show obliging.run (exec 1 (.readQuadlet 0x10) {}) () = some ((true, {}), ()) from rfl)
  have h := @exec_reported_iff 1 {} rfl (.readQuadlet 0x10)
  exact ⟨_, _, hexec.1, (h.1 hexec.1).mpr ⟨by decide, fun _ => Nat.one_pos⟩, h.2 hread.1⟩

/-- A library that never sets the address lines. -/
def stuck : Env GpioOp GpioOp.Ans Unit where
  step σ e := match e with
    | .setValue g _ => (if g = .regAddr then -1 else 0, ())
    | e => obliging.step σ e

/-- A `WriteQuadlet` returns true though its address was not presented. -/
theorem unreported_write : ∃ t s', (exec 1 (.writeQuadlet 0x10 5) {}).Runs t (true, s') ∧
    ¬ Reported (.writeQuadlet 0x10 5) t := by
  have hrun := Env.runs_of_run (show stuck.run (exec 1 (.writeQuadlet 0x10 5) {}) () =
    some ((true, { isInput := false }), ()) from rfl)
  exact ⟨_, _, hrun.1, by decide⟩

end FpgaV3.Proof.Gpiod
