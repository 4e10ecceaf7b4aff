import FpgaV3.Framework.Env
import FpgaV3.Framework.Session
import FpgaV3.Proof.Mmap.Requests
import FpgaV3.Spec.Release

/-!
# The end of a handshake in the mmap driver

After it has lowered `req_bus` the driver samples `op_done` once, and
`WriteBlock` not at all. So a call that returns true has closed its handshake
exactly when it is no `WriteBlock` and `op_done` had dropped by that sample
(`call_closed_iff`), and in a run of such calls no sample is stale
(`call_rest`).
-/

namespace FpgaV3.Proof.Mmap

open FpgaV3.Spec FpgaV3.Impl FpgaV3.Impl.Mmap

/-! ## What a call does -/

/-- How far the handshake is closed, and the samples with `req_bus` low. -/
abbrev ends (timeout : Int) : World RegOp RegOp.Ans (Closing × Bool × Bool) :=
  World.obs (fun _ _ => True) fun σ e => (close timeout σ.1 e, drop σ.2 e)

theorem ends_phases (timeout : Int) :
    Phases (ends timeout) (fun σ => σ = (.open, false, true)) fun σ => σ = (.open, true, true) where
  still := by
    rintro _ e r σ' ⟨hw, hu⟩ ⟨-, rfl⟩ rfl
    cases e with
    | regWrite reg v =>
      cases reg with
      | outputUpper => exact absurd rfl (hw v)
      | _ => rfl
    | regRead reg =>
      cases reg with
      | inputUpper => exact absurd rfl hu
      | _ => rfl
    | _ => rfl
  raise := by
    rintro _ v r σ' hv ⟨-, rfl⟩ rfl
    simp only [close, drop, hv, if_true]
  high := by
    rintro _ e r σ' he ⟨-, rfl⟩ rfl
    cases e with
    | regWrite reg v =>
      cases reg with
      | outputUpper => simp only [close, drop, he v rfl, if_true]
      | _ => rfl
    | regRead reg => cases reg <;> rfl
    | _ => rfl

/-- A reading of the clock changes nothing of a handshake that is not polled. -/
theorem ends_timestamp {timeout : Int} {s : Interface} {n : Nat} {c : Closing} {d : Bool × Bool}
    (hc : c = .low ∨ c = .closed) :
    WP (ends timeout) True (timestamp s n) (c, d) fun _ σ => σ = (c, d) := by
  rw [wp_timestamp]
  split
  · rintro t σ ⟨-, rfl⟩
    rcases hc with rfl | rfl <;> rfl
  · rfl

theorem opened {σ : Closing × Bool × Bool} (h : σ = (.open, false, true) ∨ σ = (.open, true, true)) :
    ∃ b, σ = (.open, b, true) := by
  rcases h with h | h
  · exact ⟨false, h⟩
  · exact ⟨true, h⟩

/-- After a request other than `WriteBlock`, the handshake is closed exactly
when the sample that follows the release has `op_done` clear. -/
theorem closing_closed {fuel : Nat} {s : Interface} {req : Request} (hr : req.isWriteBlock = false)
    {σ : Closing × Bool × Bool} (hσ : σ = (.open, false, true) ∨ σ = (.open, true, true)) :
    WP (ends s.timeout) True (closing fuel s req) σ fun _ σ' =>
      σ'.1 = .closed ↔ σ'.2.2 = true ∨ s.timeout ≤ 0 := by
  obtain ⟨b, rfl⟩ := opened hσ
  have h : WP (ends s.timeout) True (do
      registerWrite .outputUpper 0
      let _ ← waitOpDone fuel s false
      timestamp s 0) (.open, b, true) fun _ σ => σ.1 = .closed ↔ σ.2.2 = true ∨ s.timeout ≤ 0 := by
    simp only [wp_bind, wp_registerWrite, wp_wait_clear]
    rintro u _ ⟨-, rfl⟩ v _ ⟨-, rfl⟩
    simp only [close, drop, reqBus_zero, Bool.false_eq_true, if_false, if_true, Bool.false_or, Bool.true_and,
      reduceCtorEq]
    by_cases hv : opDone v = true
    · by_cases ht : 0 < s.timeout
      · simp only [hv, ht, Bool.true_eq_false, if_true, if_false, Bool.not_true, wp_timestamp]
        have : ¬ s.timeout ≤ 0 := by omega
        split
        · rintro t _ ⟨-, rfl⟩
          simp [close, drop, this]
        · simp [this]
      · simp only [hv, ht, Bool.true_eq_false, if_false, Bool.not_true]
        refine WP.mono (ends_timestamp (Or.inr rfl)) fun _ σ hσ => ?_
        rw [hσ]
        exact iff_of_true rfl (Or.inr (by omega))
    · simp only [hv, if_true, Bool.not_false]
      refine WP.mono (ends_timestamp (Or.inr rfl)) fun _ σ hσ => ?_
      rw [hσ]
      exact iff_of_true rfl (Or.inl rfl)
  cases req with
  | writeBlock addr nBytes => cases hr
  | _ => exact h

/-- `WriteBlock` takes no sample after it has lowered `req_bus`. -/
theorem closing_open {fuel : Nat} {s : Interface} {req : Request} (hr : req.isWriteBlock = true)
    {σ : Closing × Bool × Bool} (hσ : σ = (.open, false, true) ∨ σ = (.open, true, true)) :
    WP (ends s.timeout) True (closing fuel s req) σ fun _ σ' => σ'.1 = .low := by
  obtain ⟨b, rfl⟩ := opened hσ
  cases req with
  | writeBlock addr nBytes =>
    simp only [closing, wp_bind, wp_registerWrite, wp_wait_clear]
    rintro v _ ⟨-, rfl⟩ u _ ⟨-, rfl⟩
    simp only [close, drop, reqBus_zero, Bool.false_eq_true, if_false, if_true]
    exact WP.mono (ends_timestamp (Or.inl rfl)) fun _ σ hσ => by rw [hσ]
  | _ => cases hr

/-- The condition under which a call closes its handshake: the version check
refuses it, or it is no `WriteBlock` and `op_done` had dropped when it was
sampled with `req_bus` low (or there is no time to poll). -/
def Closes (s : Interface) (req : Request) (t : Trace RegOp RegOp.Ans) : Prop :=
  ¬ Supported s req ∨ (req.isWriteBlock = false ∧ (Dropped t ∨ s.timeout ≤ 0))

theorem call_closed_iff {s s' : Interface} {req : Request} {fuel : Nat} {t : Trace RegOp RegOp.Ans} {ok : Bool}
    (hr : (exec fuel req s).Runs t (ok, s')) : (ok = true → Closed s.timeout t) ↔ Closes s req t := by
  by_cases hv : Supported s req
  · have hp : (ends s.timeout).Path (.open, false, true) t (t.foldl (close s.timeout) .open, t.foldl drop (false, true)) :=
      World.path_obs.mpr ⟨fun _ _ => trivial, World.foldl_prod.symm⟩
    simp only [Closes, hv, not_true_eq_false, false_or]
    cases hw : req.isWriteBlock with
    | false =>
      obtain ⟨hok, h⟩ := (wp_exec (ends_phases s.timeout) hv rfl fun _ => closing_closed hw).sound hr hp
      have hok : ok = true := hok
      simp only [hok, forall_const, true_and]
      exact h
    | true =>
      obtain ⟨hok, h⟩ := (wp_exec (ends_phases s.timeout) hv rfl fun _ => closing_open hw).sound hr hp
      have hok : ok = true := hok
      simp only [hok, forall_const, Bool.true_eq_false, false_and, iff_false, Closed]
      intro hc
      rw [hc] at h; cases h
  · rw [exec_refused hv] at hr
    obtain ⟨-, e⟩ := hr
    obtain rfl : ok = false := congrArg Prod.fst e
    exact iff_of_true (fun h => absurd h (by decide)) (Or.inl hv)

/-! ## Against the firmware -/

/-- The firmware, and the samples with `req_bus` low. -/
abbrev peers : World RegOp RegOp.Ans (Peer × Bool × Bool) := Peer.world.observe drop

/-- While `req_bus` is held, `op_done` is high for no request but the current
one. -/
structure Held (σ : Peer × Bool × Bool) : Prop where
  drop : σ.2 = (σ.1.req, true)
  level : σ.1.level = none ∨ (σ.1.req = true ∧ σ.1.level = some σ.1.gen)
  stale : σ.1.stale = false

theorem held_sample {s s' : Peer} {v : BitVec 32} {b b' : Bool × Bool} (h : Held (s, b))
    (hs : peers.step (s, b) (.regRead .inputUpper) v (s', b')) : Held (s', b') := by
  obtain ⟨⟨l, hl, hv, hs'⟩, hb⟩ := hs
  obtain ⟨hd, hlev, hst⟩ := h
  simp only at hd hlev hst hs' hb
  subst hs' hb hd
  have hl' : l = none ∨ (s.req = true ∧ l = some s.gen) := by
    rcases hl with h | h | h
    · rw [h]; exact hlev
    · exact Or.inr h
    · exact Or.inl h.1
  refine ⟨?_, hl', ?_⟩
  · rcases hl' with rfl | ⟨hr, rfl⟩
    · simp [Spec.drop, hv]
    · simp [Spec.drop, hr]
  · rcases hl' with rfl | ⟨hr, rfl⟩ <;> simp [hst, Peer.misread]

theorem held_request {s s' : Peer} {v : BitVec 32} {x : Unit} {b b' : Bool × Bool} (hv : reqBus v = true)
    (h : Held (s, b)) (hs : peers.step (s, b) (.regWrite .outputUpper v) x (s', b')) : Held (s', b') := by
  obtain ⟨hs, hb⟩ := hs
  obtain ⟨hd, hlev, hst⟩ := h
  simp only [Peer.world] at hd hlev hst hs hb
  subst hs hb hd
  simp only [hv, Bool.true_and]
  refine ⟨by simp [Spec.drop, hv], ?_, hst⟩
  rcases hlev with h | ⟨hr, h⟩
  · exact Or.inl h
  · exact Or.inr ⟨rfl, by simp [hr, h]⟩

theorem peers_phases : Phases peers Held Held := by
  have hold : ∀ σ e r σ', Holding e → peers.step σ e r σ' → Held σ → Held σ' := by
    rintro ⟨s, b⟩ e r ⟨s', b'⟩ he hs h
    have same : (s', b') = (s, b) → Held (s', b') := fun e => e ▸ h
    cases e with
    | regWrite reg v =>
      cases reg with
      | outputUpper => exact held_request (he v rfl) h hs
      | _ => exact same (Prod.ext hs.1 hs.2)
    | regRead reg =>
      cases reg with
      | inputUpper => exact held_sample h hs
      | _ => exact same (Prod.ext hs.1 hs.2)
    | _ => exact same (Prod.ext hs.1 hs.2)
  exact ⟨fun σ e r σ' he => hold σ e r σ' he.holding,
    fun σ v r σ' hv => hold σ _ r σ' fun v' e => by cases e; exact hv, hold⟩

theorem peers_timestamp {s : Interface} {n : Nat} {σ : Peer × Bool × Bool} :
    WP peers True (timestamp s n) σ fun _ σ' => σ' = σ := by
  rw [wp_timestamp]
  split
  · exact fun t σ' hs => Prod.ext hs.1 hs.2
  · rfl

/-- After a request other than `WriteBlock`, `op_done` is low if the sample
that follows the release says so. -/
theorem closing_rest {fuel : Nat} {s : Interface} {req : Request} (hr : req.isWriteBlock = false)
    {σ : Peer × Bool × Bool} (hσ : Held σ ∨ Held σ) :
    WP peers True (closing fuel s req) σ fun _ σ' => σ'.2.2 = true → σ'.1.Rest := by
  have h : WP peers True (do
      registerWrite .outputUpper 0
      let _ ← waitOpDone fuel s false
      timestamp s 0) σ fun _ σ' => σ'.2.2 = true → σ'.1.Rest := by
    simp only [wp_bind, wp_registerWrite, wp_wait_clear]
    rintro u ⟨p₁, b₁⟩ ⟨hp, hb⟩ v ⟨p₂, b₂⟩ ⟨⟨l, hl, hv, hp'⟩, hb'⟩
    refine WP.mono peers_timestamp fun _ σ' hσ' hdrop => ?_
    subst hσ'
    have hreq : p₁.req = false := by rw [show p₁ = _ from hp]; exact reqBus_zero
    have hst : p₁.stale = false := by
      rw [show p₁ = _ from hp]
      exact hσ.elim Held.stale Held.stale
    have hclear : opDone v = false := by
      obtain rfl : b₂ = drop (drop σ.2 ⟨.regWrite .outputUpper 0, u⟩) ⟨.regRead .inputUpper, v⟩ := by
        rw [show b₂ = _ from hb', show b₁ = _ from hb]
      simp only [drop, reqBus_zero, Bool.false_or, Bool.and_eq_true, Bool.not_eq_true'] at hdrop
      exact hdrop.2
    obtain rfl : l = none := by rwa [hclear, eq_comm, Option.isSome_eq_false_iff, Option.isNone_iff_eq_none] at hv
    rw [show p₂ = _ from hp']
    exact ⟨hreq, rfl, by simp [Peer.misread, hst]⟩
  cases req with
  | writeBlock addr nBytes => cases hr
  | _ => exact h

theorem call_rest {s s' : Interface} {req : Request} {fuel : Nat} {t : Trace RegOp RegOp.Ans} {ok : Bool}
    {p p' : Peer} (hr : (exec fuel req s).Runs t (ok, s')) (hp : Peer.world.Path p t p') (h : p.Rest)
    (hc : Closes s req t) (hd : Dropped t) : p'.Rest := by
  by_cases hv : Supported s req
  · have hw : req.isWriteBlock = false := (hc.resolve_left (not_not_intro hv)).1
    have hheld : Held (p, false, true) := ⟨by rw [h.req], Or.inl h.level, h.stale⟩
    have hx := (wp_exec peers_phases hv hheld fun _ => closing_rest hw).sound hr (hp.observe drop (false, true))
    exact hx.2 hd
  · rw [exec_refused hv] at hr
    obtain ⟨rfl, -⟩ := hr
    exact World.path_nil.mp hp ▸ h

/-! ## Runs -/

/-- In any world, every call of a run that returns true closes its handshake
exactly if every call meets the condition; and against the firmware, if every
call does and `op_done` has always dropped when it is sampled with `req_bus`
low, no sample of the run is stale. -/
theorem session_closed_iff (fuel : Nat) :
    (∀ {S : Type} {w : World RegOp RegOp.Ans S} {x x' : Interface} {s s' : S}
      {cs : List (Call RegOp RegOp.Ans S Request Interface Bool)}, Session w (exec fuel) x s cs x' s' →
      ((∀ c ∈ cs, c.ans = true → Closed c.obj.timeout c.trace) ↔ ∀ c ∈ cs, Closes c.obj c.op c.trace)) ∧
    ∀ {x x' : Interface} {p p' : Peer} {cs : List (Call RegOp RegOp.Ans Peer Request Interface Bool)},
      Session Peer.world (exec fuel) x p cs x' p' → p.Rest →
      (∀ c ∈ cs, Closes c.obj c.op c.trace ∧ Dropped c.trace) → p'.stale = false := by
  constructor
  · intro S w x x' s s' cs h
    have hall := h.invariant (I := fun _ _ => True) (C := fun _ => True)
      (P := fun c => (c.ans = true → Closed c.obj.timeout c.trace) ↔ Closes c.obj c.op c.trace)
      (fun _ hr _ _ => ⟨trivial, call_closed_iff hr⟩) trivial fun _ _ => trivial
    exact forall₂_congr hall.2
  · intro x x' p p' cs h hp hc
    have hrest := h.invariant (I := fun _ p => p.Rest) (P := fun _ => True)
      (fun hI hr hpath hC => ⟨call_rest hr hpath hI hC.1 hC.2, trivial⟩) hp hc
    exact hrest.1.stale

/-- The samples of a firmware that answers at once, and drops `op_done` with
`req_bus` if it is `prompt`; the state is the level of `req_bus`. -/
def firmware (prompt : Bool) : Env RegOp RegOp.Ans Bool where
  step req
    | .regRead _ => (if req || !prompt then Bits.opDone else 0, req)
    | .regWrite _ v => ((), reqBus v)
    | .load _ => (0, req)
    | .getCurTime => (⟨0, 0⟩, req)
    | .openMem => (true, req)
    | .mmapInit _ _ => (true, req)
    | .munmap _ => ((), req)
    | .store _ _ => ((), req)

/-- A `ReadQuadlet`, `v` being the sample that follows the release. -/
def readTrace (v : BitVec 32) : Trace RegOp RegOp.Ans :=
  [⟨.regWrite .outputUpper 0x10010, ()⟩, ⟨.regRead .inputUpper, Bits.opDone⟩,
    ⟨.regRead .inputLower, Bits.opDone⟩, ⟨.regWrite .outputUpper 0, ()⟩, ⟨.regRead .inputUpper, v⟩]

abbrev readRegister : RegProg (Bool × Interface) := exec 1 (.readQuadlet 0x10) { version := 1 }

theorem runs_prompt : readRegister.Runs (readTrace 0) (true, { version := 1 }) :=
  (Env.runs_of_run (show (firmware true).run readRegister false = some (_, false) from rfl)).1

theorem runs_late : readRegister.Runs (readTrace Bits.opDone) (true, { version := 1 }) :=
  (Env.runs_of_run (show (firmware false).run readRegister false = some (_, false) from rfl)).1

theorem path_prompt : Peer.world.Path {} (readTrace 0) ⟨false, 1, none, false⟩ := by
  simp only [readTrace, World.path_cons, World.path_nil]
  exact ⟨⟨true, 1, none, false⟩, rfl, ⟨true, 1, some 1, false⟩, ⟨some 1, .inr (.inl ⟨rfl, rfl⟩), rfl, rfl⟩,
    _, rfl, ⟨false, 1, some 1, false⟩, rfl, _, ⟨none, .inr (.inr ⟨rfl, fun h => absurd h (by decide)⟩), rfl, rfl⟩, rfl⟩

/-- A run of one read that the firmware answers promptly. -/
theorem session_closed_iff_read : ∃ cs p', Session Peer.world (exec 1) { version := 1 } {} cs { version := 1 } p' ∧
    ((∀ c ∈ cs, c.ans = true → Closed c.obj.timeout c.trace) ↔ ∀ c ∈ cs, Closes c.obj c.op c.trace) ∧
    p'.stale = false := by
  have h : Session Peer.world (exec 1) { version := 1 } {} [⟨.readQuadlet 0x10, _, _, readTrace 0, true, _⟩]
      { version := 1 } _ := .cons runs_prompt path_prompt .nil
  refine ⟨_, _, h, (session_closed_iff 1).1 h, (session_closed_iff 1).2 h ⟨rfl, rfl, rfl⟩ ?_⟩
  rintro c (_ | ⟨_, ⟨⟩⟩)
  exact ⟨Or.inr ⟨rfl, Or.inl rfl⟩, rfl⟩

/-- Two reads of a run, the firmware dropping `op_done` after the second sample
that follows the release: the first read has not closed its handshake, and the
second takes the level of the first for its own. -/
theorem stale_read : ∃ cs p', Session Peer.world (exec 1) { version := 1 } {} cs { version := 1 } p' ∧
    (∃ c ∈ cs, c.ans = true ∧ ¬ Closed c.obj.timeout c.trace) ∧ p'.stale = true := by
  have h₁ : Peer.world.Path {} (readTrace Bits.opDone) ⟨false, 1, some 1, false⟩ := by
    simp only [readTrace, World.path_cons, World.path_nil]
    exact ⟨⟨true, 1, none, false⟩, rfl, ⟨true, 1, some 1, false⟩, ⟨some 1, .inr (.inl ⟨rfl, rfl⟩), rfl, rfl⟩,
      _, rfl, ⟨false, 1, some 1, false⟩, rfl, _, ⟨some 1, .inl rfl, rfl, rfl⟩, rfl⟩
  have h₂ : Peer.world.Path ⟨false, 1, some 1, false⟩ (readTrace Bits.opDone) ⟨false, 2, some 1, true⟩ := by
    simp only [readTrace, World.path_cons, World.path_nil]
    exact ⟨⟨true, 2, some 1, false⟩, rfl, ⟨true, 2, some 1, true⟩, ⟨some 1, .inl rfl, rfl, rfl⟩,
      _, rfl, ⟨false, 2, some 1, true⟩, rfl, _, ⟨some 1, .inl rfl, rfl, rfl⟩, rfl⟩
  exact ⟨_, _, .cons runs_late h₁ (.cons runs_late h₂ .nil), ⟨_, .head _, rfl, by decide⟩, rfl⟩

end FpgaV3.Proof.Mmap
