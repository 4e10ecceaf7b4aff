import FpgaV3.Proof.Mmap.Calls

/-!
# The requests of the mmap driver

A supported request makes its accesses with `req_bus` high from the first one
on, and then closes the handshake (`wp_exec`): every request but `WriteBlock`
lowers `req_bus` and takes one sample; `WriteBlock` takes the sample first.
It returns true in every case (`exec_true`).

* `Phases`: what holds until `req_bus` is raised, and what holds from then on.
-/

namespace FpgaV3.Proof.Mmap

open FpgaV3.Spec FpgaV3.Impl FpgaV3.Impl.Mmap

/-! ## The phases of a request -/

/-- The version check of the block transfers passes. -/
def Supported (s : Interface) (req : Request) : Prop := req.isBlock = true → ¬ s.version < 1

/-- A call that neither writes `Reg_OutputUpper` nor samples `Reg_InputUpper`. -/
def Still (e : RegOp) : Prop := (∀ v, e ≠ .regWrite .outputUpper v) ∧ e ≠ .regRead .inputUpper

/-- A call that does not lower `req_bus`. -/
def Holding (e : RegOp) : Prop := ∀ v, e = .regWrite .outputUpper v → reqBus v = true

theorem Still.holding {e : RegOp} (h : Still e) : Holding e := fun v hv => absurd hv (h.1 v)

/-- What a request does after its accesses. -/
def closing (fuel : Nat) (s : Interface) : Request → RegProg Unit
  | .writeBlock _ _ => do
    let _ ← waitOpDone fuel s false
    registerWrite .outputUpper 0
    timestamp s 0
  | _ => do
    registerWrite .outputUpper 0
    let _ ← waitOpDone fuel s false
    timestamp s 0

instance {s : Interface} {req : Request} : Decidable (Supported s req) :=
  inferInstanceAs (Decidable (_ → _))

/-- A request that the version check refuses makes no call. -/
theorem exec_refused {fuel : Nat} {s : Interface} {req : Request} (h : ¬ Supported s req) :
    exec fuel req s = .ret (false, s) := by
  simp only [Supported, Classical.not_imp, Decidable.not_not] at h
  cases req with
  | readBlock addr nBytes => simp only [exec, readBlock, if_pos h.2]; rfl
  | writeBlock addr nBytes => simp only [exec, writeBlock, if_pos h.2]; rfl
  | _ => cases h.1

/-- `I` holds until `req_bus` is raised, and `J` from then on while it stays
high. -/
structure Phases {S : Type} (w : World RegOp RegOp.Ans S) (I J : S → Prop) : Prop where
  still : ∀ σ e r σ', Still e → w.step σ e r σ' → I σ → I σ'
  raise : ∀ σ v r σ', reqBus v = true → w.step σ (.regWrite .outputUpper v) r σ' → I σ → J σ'
  high : ∀ σ e r σ', Holding e → w.step σ e r σ' → J σ → J σ'

section
variable {S : Type} {w : World RegOp RegOp.Ans S} {I J : S → Prop} {σ : S} {α : Type}

theorem Phases.before (h : Phases w I J) {p : RegProg α} (hp : p.All Still) (hσ : I σ) :
    WP w True p σ fun _ => I :=
  wp_invariant h.still hp hσ

theorem Phases.after (h : Phases w I J) {p : RegProg α} (hp : p.All Holding) (hσ : J σ) :
    WP w True p σ fun _ => J :=
  wp_invariant h.high hp hσ

theorem Phases.either (h : Phases w I J) {p : RegProg α} (hp : p.All Still) (hσ : I σ ∨ J σ) :
    WP w True p σ fun _ σ' => I σ' ∨ J σ' :=
  wp_invariant (fun σ e r σ' he hs hσ => hσ.imp (h.still σ e r σ' he hs) (h.high σ e r σ' he.holding hs))
    hp hσ

theorem Phases.request (h : Phases w I J) {v : BitVec 32} (hv : reqBus v = true) (hσ : I σ ∨ J σ) :
    WP w True (registerWrite .outputUpper v) σ fun _ => J := by
  rw [wp_registerWrite]
  intro u σ' hs
  rcases hσ with hσ | hσ
  · exact h.raise σ v u σ' hv hs hσ
  · refine h.high σ _ u σ' (fun v' e => ?_) hs hσ
    cases e; exact hv

theorem still_timestamp (s : Interface) (n : Nat) : (timestamp s n).All Still :=
  all_timestamp s n (by simp [Still])

theorem holding_wait (fuel : Nat) (s : Interface) (state : Bool) : (waitOpDone fuel s state).All Holding :=
  all_wait fuel s state (by simp [Holding]) (by simp [Holding])

theorem blockLoop_phases (h : Phases w I J) {s : Interface} {fuel N : Nat} {ready done : Nat → RegProg Unit}
    (hr : ∀ q, (ready q).All Still) (hd : ∀ q, (done q).All Still) :
    ∀ (n q : Nat) (addr : BitVec 16) (outreg : BitVec 32) {σ : S}, reqBus outreg = true → I σ ∨ J σ →
      WP w True (blockLoop ready (waitOpDone fuel s true) done N n q addr outreg) σ fun ok σ' =>
        ok = true ∧ (I σ' ∨ J σ')
  | 0, _, _, _, _, _, hσ => ⟨rfl, hσ⟩
  | n + 1, q, addr, outreg, σ, ho, hσ => by
    simp only [blockLoop, wp_bind]
    refine WP.mono (h.either (hr q) hσ) fun _ _ hσ => ?_
    refine WP.mono (h.request (reqBus_next ho) hσ) fun _ _ hσ => ?_
    refine WP.mono (WP.and wait_true (h.after (holding_wait ..) hσ)) fun ok _ hpost => ?_
    obtain ⟨hok, hσ⟩ := hpost
    simp only [hok, if_true, wp_bind]
    refine WP.mono (h.either (hd q) (Or.inr hσ)) fun _ _ hσ => ?_
    exact blockLoop_phases h hr hd n _ _ _ (reqBus_next ho) hσ

/-- A supported request makes its accesses and closes the handshake. -/
theorem wp_exec (hP : Phases w I J) {fuel : Nat} {s : Interface} {req : Request} (hv : Supported s req)
    {Q : S → Prop} (hσ : I σ)
    (hc : ∀ σ, I σ ∨ J σ → WP w True (closing fuel s req) σ fun _ => Q) :
    WP w True (exec fuel req s) σ fun x σ' => x.1 = true ∧ Q σ' := by
  have hin := WP.mono (hP.before (still_timestamp s 0) hσ) fun _ σ₁ h₁ =>
    WP.and setInput_fields (hP.before (all_setInput s (by simp [Still])) h₁)
  have hout := WP.mono (hP.before (still_timestamp s 0) hσ) fun _ σ₁ h₁ =>
    WP.and setOutput_fields (hP.before (all_setOutput s (by simp [Still]) (by simp [Still])) h₁)
  cases req with
  | readQuadlet addr =>
    simp only [closing, wp_bind] at hc
    simp only [exec, readQuadlet, wp_bind, wp_pure]
    refine WP.mono hin fun _ _ h => WP.mono h fun s' _ hpost => ?_
    obtain ⟨⟨b, hs⟩, hσ⟩ := hpost
    subst hs
    refine WP.mono (hP.request (reqBus_request _) (Or.inl hσ)) fun _ _ hσ => ?_
    refine WP.mono (hP.after (all_timestamp _ _ (by simp [Holding])) hσ) fun _ _ hσ => ?_
    refine WP.mono (WP.and wait_true (hP.after (holding_wait ..) hσ)) fun ok _ hpost => ?_
    obtain ⟨hok, hσ⟩ := hpost
    simp only [hok, if_true, wp_bind, wp_pure]
    refine WP.mono (hP.after (all_timestamp _ _ (by simp [Holding])) hσ) fun _ _ hσ => ?_
    refine WP.mono (hP.after (Prog.all_perform.mpr (by simp [Holding])) hσ) fun _ _ hσ => ?_
    exact WP.mono (hc _ (Or.inr hσ)) fun _ _ h => WP.mono h fun _ _ h => WP.mono h fun _ _ h => ⟨rfl, h⟩
  | writeQuadlet addr data =>
    simp only [closing, wp_bind] at hc
    simp only [exec, writeQuadlet, wp_bind]
    refine WP.mono hout fun _ _ h => WP.mono h fun s' _ hpost => ?_
    obtain ⟨⟨b, hs⟩, hσ⟩ := hpost
    subst hs
    refine WP.mono (hP.before (Prog.all_perform.mpr (by simp [Still])) hσ) fun _ _ hσ => ?_
    refine WP.mono (hP.request (reqBus_request _) (Or.inl hσ)) fun _ _ hσ => ?_
    refine WP.mono (hP.after (all_timestamp _ _ (by simp [Holding])) hσ) fun _ _ hσ => ?_
    refine WP.mono (WP.and wait_true (hP.after (holding_wait ..) hσ)) fun ok _ hpost => ?_
    obtain ⟨hok, hσ⟩ := hpost
    simp only [hok, if_true, wp_bind, wp_pure]
    refine WP.mono (hP.after (all_timestamp _ _ (by simp [Holding])) hσ) fun _ _ hσ => ?_
    exact WP.mono (hc _ (Or.inr hσ)) fun _ _ h => WP.mono h fun _ _ h => WP.mono h fun _ _ h => ⟨trivial, h⟩
  | readBlock addr nBytes =>
    simp only [closing, wp_bind] at hc
    simp only [exec, readBlock, if_neg (hv rfl), wp_bind]
    refine WP.mono hin fun _ _ h => WP.mono h fun s' _ hpost => ?_
    obtain ⟨⟨b, hs⟩, hσ⟩ := hpost
    subst hs
    refine WP.mono (hP.before (still_timestamp _ _) hσ) fun _ _ hσ => ?_
    refine WP.mono (blockLoop_phases hP (fun _ => ?_) (fun q => ?_) _ _ _ _ (reqBus_request _) (Or.inl hσ))
      fun ok _ hpost => ?_
    · trivial
    · exact Prog.all_bind (Prog.all_perform.mpr (by simp [Still])) fun _ =>
        Prog.all_perform.mpr (by simp [Still])
    obtain ⟨hok, hσ⟩ := hpost
    simp only [hok, if_true, wp_bind, wp_pure]
    refine WP.mono (hP.either (still_timestamp _ _) hσ) fun _ _ hσ => ?_
    exact WP.mono (hc _ hσ) fun _ _ h => WP.mono h fun _ _ h => WP.mono h fun _ _ h => ⟨trivial, h⟩
  | writeBlock addr nBytes =>
    simp only [closing, wp_bind] at hc
    simp only [exec, writeBlock, if_neg (hv rfl), wp_bind]
    refine WP.mono hout fun _ _ h => WP.mono h fun s' _ hpost => ?_
    obtain ⟨⟨b, hs⟩, hσ⟩ := hpost
    subst hs
    refine WP.mono (hP.before (still_timestamp _ _) hσ) fun _ _ hσ => ?_
    refine WP.mono (blockLoop_phases hP (fun q => ?_) (fun _ => ?_) _ _ _ _ (reqBus_request _) (Or.inl hσ))
      fun ok _ hpost => ?_
    · exact Prog.all_bind (Prog.all_perform.mpr (by simp [Still])) fun _ =>
        Prog.all_perform.mpr (by simp [Still])
    · trivial
    obtain ⟨hok, hσ⟩ := hpost
    simp only [hok, if_true, wp_bind, wp_pure]
    refine WP.mono (hP.either (still_timestamp _ _) hσ) fun _ _ hσ => ?_
    exact WP.mono (hc _ hσ) fun _ _ h => WP.mono h fun _ _ h => WP.mono h fun _ _ h => ⟨trivial, h⟩

theorem blockLoop_true {s : Interface} {fuel N n q : Nat} {ready done : Nat → RegProg Unit}
    {addr : BitVec 16} {outreg : BitVec 32} :
    WP w True (blockLoop ready (waitOpDone fuel s true) done N n q addr outreg) σ fun ok _ => ok = true := by
  induction n generalizing q addr outreg σ with
  | zero => rfl
  | succ n ih =>
    simp only [blockLoop, wp_bind]
    refine wp_trivial fun _ _ => wp_trivial fun _ _ => WP.mono wait_true fun ok _ hok => ?_
    simp only [hok, if_true, wp_bind]
    exact wp_trivial fun _ _ => ih

/-- A supported request returns true. -/
theorem exec_true {fuel : Nat} {s : Interface} {req : Request} (hv : Supported s req) (σ : S) :
    WP w True (exec fuel req s) σ fun x _ => x.1 = true := by
  have hP : Phases w (fun _ => True) fun _ => True :=
    ⟨fun _ _ _ _ _ _ _ => trivial, fun _ _ _ _ _ _ _ => trivial, fun _ _ _ _ _ _ _ => trivial⟩
  exact WP.mono (wp_exec hP hv trivial fun _ _ => wp_trivial fun _ _ => trivial)
    fun _ _ h => h.1

end

end FpgaV3.Proof.Mmap
