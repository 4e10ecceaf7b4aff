import FpgaV3.Proof.Standalone
import FpgaV3.Spec.Exchange
import FpgaV3.Spec.Healthy

/-!
# The contract of the standalone library

A request of the standalone library either is refused before it reaches the
bus, or exchanges all its quadlets (`exec_exchanged`). `waitOpDone` ends only
once it has sampled `op_done` set (`wait_acked`), so every quadlet is
acknowledged before the next write to `Reg_OutputUpper`.
-/

namespace FpgaV3.Proof.Standalone

open FpgaV3.Spec FpgaV3.Impl FpgaV3.Impl.Standalone

/-! ## The calls -/

/-- Where the exchanges stand, whatever was written. -/
def Stage (turn : Turn) (n : Nat) (samples stored : List (Nat × BitVec 32)) (o : Option Exchange) : Prop :=
  ∃ written, o = some ⟨turn, n, samples, stored, written⟩

/-- A call that is no part of an exchange, or a sample of `Reg_InputUpper`. -/
def Apart (e : RegOp) : Prop :=
  (∀ v, e ≠ .regWrite .outputUpper v) ∧ e ≠ .regRead .inputLower ∧ ∀ q v, e ≠ .store q v

variable {α : Type} {turn : Turn} {n : Nat} {samples stored : List (Nat × BitVec 32)} {o : Option Exchange}

theorem call_apart {e : RegOp} (he : Apart e) (r : e.Ans) {x : Exchange} (hx : x.turn ≠ .asked) :
    x.call ⟨e, r⟩ = some x := by
  obtain ⟨hw, hl, hs⟩ := he
  cases e with
  | regWrite reg v =>
    cases reg with
    | outputUpper => exact absurd rfl (hw v)
    | _ => rfl
  | regRead reg =>
    cases reg with
    | inputLower => exact absurd rfl hl
    | inputUpper => exact if_neg fun h => hx h.1
    | _ => rfl
  | store q v => exact absurd rfl (hs q v)
  | _ => rfl

/-- While no quadlet is waited for, such calls leave the exchanges as they
are. -/
theorem exchange_apart {p : RegProg α} (hp : p.All Apart) {x : Exchange} (hx : x.turn ≠ .asked) :
    WP exchanges True p (some x) fun _ o' => o' = some x := by
  refine wp_invariant (I := fun o => o = some x) (fun o e r o' he hs h => ?_) hp rfl
  obtain ⟨-, rfl⟩ := hs
  rw [h]
  exact call_apart he r hx

theorem stage_apart {p : RegProg α} (hp : p.All Apart) (ht : turn ≠ .asked) (h : Stage turn n samples stored o) :
    WP exchanges True p o fun _ => Stage turn n samples stored := by
  obtain ⟨written, rfl⟩ := h
  exact WP.mono (exchange_apart hp ht) fun _ _ h => ⟨written, h⟩

/-- A data word, which is written while a quadlet is acknowledged or none is
requested. -/
theorem apart_lower {v : BitVec 32} : (registerWrite .outputLower v).All Apart :=
  Prog.all_perform.mpr (by simp [Apart])

theorem stage_request {v : BitVec 32} (hv : reqBus v = true) (ht : turn ≠ .asked) (h : Stage turn n samples stored o) :
    WP exchanges True (registerWrite .outputUpper v) o fun _ => Stage .asked n samples stored := by
  obtain ⟨written, rfl⟩ := h
  rw [wp_registerWrite]
  rintro u o' ⟨-, rfl⟩
  refine ⟨written ++ [v], ?_⟩
  simp only [Option.bind_some, Exchange.call, if_neg ht, hv, if_true]

/-- Lowering all lines completes the request. -/
theorem stage_lower (ht : turn ≠ .asked) (h : Stage turn n samples stored o) :
    WP exchanges True (registerWrite .outputUpper 0) o fun _ o' =>
      ∃ x, o' = some x ∧ x.Complete n ∧ x.samples = samples ∧ x.stored = stored := by
  obtain ⟨written, rfl⟩ := h
  rw [wp_registerWrite]
  rintro u o' ⟨-, rfl⟩
  have hlow : reqBus (0 : BitVec 32) = false := rfl
  refine ⟨⟨.idle, n, samples, stored, written ++ [0]⟩, ?_, ⟨rfl, rfl, List.getLast?_concat⟩, rfl, rfl⟩
  simp only [Option.bind_some, Exchange.call, if_neg ht, hlow, Bool.false_eq_true, if_false]

theorem stage_sample (h : Stage .acked (n + 1) samples stored o) :
    WP exchanges True (registerRead .inputLower) o fun v =>
      Stage .acked (n + 1) (samples ++ [(n, v)]) stored := by
  obtain ⟨written, rfl⟩ := h
  rw [wp_registerRead]
  rintro v o' ⟨-, rfl⟩
  exact ⟨written, by simp only [Option.bind_some, Exchange.call, if_true, Nat.add_sub_cancel]⟩

theorem stage_store {q : Nat} {v : BitVec 32} (h : Stage turn n samples stored o) :
    WP exchanges True (store q v) o fun _ => Stage turn n samples (stored ++ [(q, v)]) := by
  obtain ⟨written, rfl⟩ := h
  rw [wp_store]
  rintro u o' ⟨-, rfl⟩
  exact ⟨written, rfl⟩

/-! ## The wait -/

/-- The quadlet is acknowledged once a sample has `op_done` set. -/
def Polled (n : Nat) (samples stored : List (Nat × BitVec 32)) (upper : BitVec 32) (o : Option Exchange) : Prop :=
  if upper &&& Bits.opDone = 0 then Stage .asked n samples stored o else Stage .acked (n + 1) samples stored o

theorem polled_sample (h : Stage .asked n samples stored o) :
    WP exchanges True (registerRead .inputUpper) o fun upper => Polled n samples stored upper := by
  obtain ⟨written, rfl⟩ := h
  rw [wp_registerRead]
  rintro upper o' ⟨-, rfl⟩
  simp only [Polled, Option.bind_some, Exchange.call, true_and]
  split
  · rename_i h0
    have hclear : opDone upper = false := by rw [opDone, h0]; rfl
    exact ⟨written, by simp only [hclear, Bool.false_eq_true, if_false]⟩
  · rename_i h0
    have hset : opDone upper = true := bne_iff_ne.mpr h0
    exact ⟨written, by simp only [hset, if_true]⟩

theorem firstLoop_polled (num : Nat) {upper : BitVec 32} (h : Polled n samples stored upper o) :
    WP exchanges True (firstLoop num upper) o fun x o' =>
      Polled n samples stored x.2 o' ∧ (x.1 = false → x.2 &&& Bits.opDone ≠ 0) := by
  induction num generalizing upper o with
  | zero => exact ⟨h, fun h => Bool.noConfusion h⟩
  | succ num ih =>
    unfold firstLoop
    split
    · rename_i h0
      rw [Polled, if_pos h0] at h
      exact wp_bind.mpr (WP.mono (polled_sample h) fun _ _ h => ih h)
    · rename_i h0
      exact ⟨h, fun _ => h0⟩

theorem secondLoop_acked (fuel : Nat) {upper : BitVec 32} (h : Polled n samples stored upper o) :
    WP exchanges True (secondLoop fuel upper) o fun _ => Stage .acked (n + 1) samples stored := by
  induction fuel generalizing upper o with
  | zero => trivial
  | succ fuel ih =>
    unfold secondLoop
    split
    · rename_i h0
      rw [Polled, if_pos h0] at h
      exact wp_bind.mpr (WP.mono (polled_sample h) fun _ _ h => ih h)
    · rename_i h0
      rwa [Polled, if_neg h0] at h

/-- Whatever is sampled, the wait ends with the quadlet acknowledged. -/
theorem wait_acked (fuel num : Nat) (h : Stage .asked n samples stored o) :
    WP exchanges True (waitOpDone fuel num) o fun ok o' => ok = true ∧ Stage .acked (n + 1) samples stored o' := by
  have hstart : Polled n samples stored 0 o := by rw [Polled, if_pos (by decide)]; exact h
  simp only [waitOpDone, wp_bind, wp_onlyIf, wp_pure]
  refine WP.mono (firstLoop_polled num hstart) fun x o' hpost => ?_
  obtain ⟨hpoll, hdone⟩ := hpost
  refine ⟨fun _ => WP.mono (secondLoop_acked fuel hpoll) fun _ _ h => ⟨trivial, h⟩, fun hout => ⟨trivial, ?_⟩⟩
  rwa [Polled, if_neg (hdone (Bool.eq_false_iff.mpr hout))] at hpoll

/-! ## The block loop -/

/-- After `q` quadlets of a block, each word stored is the sample of its
quadlet; a write has none. -/
def Moved (read : Bool) (turn : Turn) (q : Nat) (o : Option Exchange) : Prop :=
  ∃ samples, samples.map Prod.fst = (if read then List.range q else []) ∧ Stage turn q samples samples o

theorem blockLoop_moved {read : Bool} {ready done : Nat → RegProg Unit} {fuel N : Nat}
    (hr : ∀ q, (ready q).All Apart)
    (hd : ∀ q ss o, ss.map Prod.fst = (if read then List.range q else []) → Stage .acked (q + 1) ss ss o →
      WP exchanges True (done q) o fun _ => Moved read .acked (q + 1)) :
    ∀ (n q : Nat) (addr : BitVec 16) (outreg : BitVec 32) {turn : Turn} {o : Option Exchange},
      reqBus outreg = true → turn ≠ .asked → Moved read turn q o →
      WP exchanges True (blockLoop ready (waitOpDone fuel 5) done N n q addr outreg) o fun _ o' =>
        ∃ turn', turn' ≠ .asked ∧ Moved read turn' (q + n) o'
  | 0, _, _, _, turn, _, _, ht, h => ⟨turn, ht, h⟩
  | n + 1, q, addr, outreg, turn, o, ho, ht, h => by
    obtain ⟨ss, hss, h⟩ := h
    have hnext : reqBus (updateLsb addr (markLast N q outreg)) = true := reqBus_next ho
    simp only [blockLoop, wp_bind]
    refine WP.mono (stage_apart (hr q) ht h) fun _ _ h => WP.mono (stage_request hnext ht h) fun _ _ h => ?_
    refine WP.mono (wait_acked fuel 5 h) fun ok _ h => ?_
    simp only [h.1, if_true, wp_bind]
    refine WP.mono (hd q ss _ hss h.2) fun _ _ h => ?_
    rw [show q + (n + 1) = q + 1 + n by omega]
    exact blockLoop_moved hr hd n (q + 1) _ _ hnext (by decide) h

/-! ## The requests -/

theorem apart_setDataInput : setDataInput.All Apart := all_setDataInput (by simp [Apart]) (by simp [Apart])

theorem apart_setDataOutput : setDataOutput.All Apart :=
  all_setDataOutput (by simp [Apart]) (by simp [Apart]) (by simp [Apart])

theorem apart_getVersion : getVersion.All Apart := all_getVersion (by simp [Apart])

theorem refused_start : ({} : Exchange).Refused := ⟨rfl, rfl⟩

theorem stage_start (h : o = some {}) : Stage .idle 0 [] [] o := ⟨[], h⟩

theorem moved_start {read : Bool} (h : o = some {}) : Moved read .idle 0 o := by
  refine ⟨[], ?_, stage_start h⟩
  cases read <;> rfl

theorem readQuadlet_exchanged (fuel : Nat) (addr : BitVec 16) :
    WP exchanges True (readQuadlet fuel addr) (some {}) fun r o' => ∃ x, o' = some x ∧
      (r = none → x.Refused) ∧ ∀ d, r = some d → x.Complete 1 ∧ x.samples = [(0, d)] := by
  simp only [readQuadlet, wp_bind, wp_ite, wp_pure]
  refine WP.mono (exchange_apart apart_setDataInput (by decide)) fun ok o h => ⟨fun _ => ?_, fun _ => ?_⟩
  · refine WP.mono (stage_request (reqBus_request _) (by decide) (stage_start h)) fun _ _ h => ?_
    refine WP.mono (wait_acked fuel 5 h) fun _ _ h => WP.mono (stage_sample h.2) fun v _ h => ?_
    refine WP.mono (stage_lower (by decide) h) fun _ _ h => ?_
    obtain ⟨x, ho, hc, hs, -⟩ := h
    refine ⟨x, ho, absurd_none ∘ Eq.symm, fun d hd => ⟨hc, ?_⟩⟩
    rw [hs, ← Option.some.inj hd]
    rfl
  · exact ⟨{}, h, fun _ => refused_start, fun d => absurd_none⟩

theorem writeQuadlet_exchanged (fuel : Nat) (addr : BitVec 16) (data : BitVec 32) :
    WP exchanges True (writeQuadlet fuel addr data) (some {}) fun ok o' => ∃ x, o' = some x ∧
      if ok then x.Complete 1 else x.Refused := by
  simp only [writeQuadlet, wp_bind, wp_ite, wp_pure]
  refine WP.mono (exchange_apart apart_setDataOutput (by decide)) fun ok o h => ⟨fun _ => ?_, fun _ => ?_⟩
  · refine WP.mono (stage_apart apart_lower (by decide) (stage_start h)) fun _ _ h => ?_
    refine WP.mono (stage_request (reqBus_request _) (by decide) h) fun _ _ h => ?_
    refine WP.mono (wait_acked fuel 5 h) fun _ _ h => WP.mono (stage_lower (by decide) h.2) fun _ _ h => ?_
    obtain ⟨x, ho, hc, -⟩ := h
    exact ⟨x, ho, hc⟩
  · exact ⟨{}, h, refused_start⟩

/-- The end of a block transfer. -/
theorem lower_moves {req : Request} {turn : Turn} (ht : turn ≠ .asked) (h : Moved req.isRead turn req.quads o) :
    WP exchanges True (registerWrite .outputUpper 0) o fun _ o' =>
      ∃ x, o' = some x ∧ x.Complete req.quads ∧ x.Moves req := by
  obtain ⟨ss, hss, h⟩ := h
  refine WP.mono (stage_lower ht h) fun _ _ h => ?_
  obtain ⟨x, ho, hc, hs, hst⟩ := h
  exact ⟨x, ho, hc, by rw [hst, hs], by rw [hs, hss]⟩

theorem readBlock_exchanged (fuel : Nat) (addr : BitVec 16) (nBytes : BitVec 32) :
    WP exchanges True (readBlock fuel addr nBytes) (some {}) fun ok o' => ∃ x, o' = some x ∧
      if ok then x.Complete (nQuads nBytes) ∧ x.Moves (.readBlock addr nBytes) else x.Refused := by
  simp only [readBlock, wp_bind, wp_ite, wp_pure]
  refine WP.mono (exchange_apart apart_getVersion (by decide)) fun ver o h =>
    ⟨fun _ => ⟨{}, h, refused_start⟩, fun _ => ?_⟩
  rw [h]
  refine WP.mono (exchange_apart apart_setDataInput (by decide)) fun ok o h =>
    ⟨fun _ => ?_, fun _ => ⟨{}, h, refused_start⟩⟩
  have hstart : Moved (Request.readBlock addr nBytes).isRead .idle 0 o := moved_start h
  refine WP.mono (blockLoop_moved (fun _ => ?_) (fun q ss o hss h => ?_) _ 0 _ _ (reqBus_request _) (by decide) hstart)
    fun _ _ h => ?_
  · trivial
  · simp only [wp_bind]
    refine WP.mono (stage_sample h) fun v _ h => WP.mono (stage_store h) fun _ _ h => ⟨_, ?_, h⟩
    rw [List.map_append, hss]
    exact List.range_succ.symm
  · obtain ⟨turn, ht, h⟩ := h
    rw [Nat.zero_add] at h
    exact lower_moves ht h

theorem writeBlock_exchanged (fuel : Nat) (addr : BitVec 16) (nBytes : BitVec 32) :
    WP exchanges True (writeBlock fuel addr nBytes) (some {}) fun ok o' => ∃ x, o' = some x ∧
      if ok then x.Complete (nQuads nBytes) ∧ x.Moves (.writeBlock addr nBytes) else x.Refused := by
  simp only [writeBlock, wp_bind, wp_ite, wp_pure]
  refine WP.mono (exchange_apart apart_getVersion (by decide)) fun ver o h =>
    ⟨fun _ => ⟨{}, h, refused_start⟩, fun _ => ?_⟩
  rw [h]
  refine WP.mono (exchange_apart apart_setDataOutput (by decide)) fun ok o h =>
    ⟨fun _ => ?_, fun _ => ⟨{}, h, refused_start⟩⟩
  have hstart : Moved (Request.writeBlock addr nBytes).isRead .idle 0 o := moved_start h
  refine WP.mono (blockLoop_moved (fun q => ?_) (fun q ss o hss h => ?_) _ 0 _ _ (reqBus_request _) (by decide) hstart)
    fun _ _ h => ?_
  · exact Prog.all_bind (Prog.all_perform.mpr (by simp [Apart])) fun _ => apart_lower
  · exact ⟨ss, hss, h⟩
  · obtain ⟨turn, ht, h⟩ := h
    rw [Nat.zero_add] at h
    exact lower_moves ht h

/-- What a request of the standalone library does, whatever it samples: if it
returns false, no request has reached the bus and nothing is stored; if it
returns true, every quadlet was acknowledged before the next one was presented
or `req_bus` lowered, the words read are the samples of their quadlets, and all
lines are low. -/
theorem exec_exchanged (fuel : Nat) :
    (∀ req t ok, (exec fuel req).Runs t ok → ∃ x, exchange t = some x ∧ (ok = false → x.Refused) ∧
      (ok = true → x.Complete req.quads ∧ (req.isBlock = true → x.Moves req))) ∧
    ∀ addr t r, (readQuadlet fuel addr).Runs t r → ∃ x, exchange t = some x ∧ (r = none → x.Refused) ∧
      ∀ d, r = some d → x.Complete 1 ∧ x.samples = [(0, d)] := by
  have hpath (t : Trace RegOp RegOp.Ans) : exchanges.Path (some {}) t (exchange t) :=
    World.path_obs.mpr ⟨fun _ _ => trivial, rfl⟩
  have hpost {c : Exchange → Prop} {ok : Bool} {o : Option Exchange} (h : ∃ x, o = some x ∧ if ok then c x else x.Refused) :
      ∃ x, o = some x ∧ (ok = false → x.Refused) ∧ (ok = true → c x) := by
    obtain ⟨x, ho, h⟩ := h
    refine ⟨x, ho, fun hok => ?_, fun hok => ?_⟩
    · rwa [hok, if_neg Bool.false_ne_true] at h
    · rwa [hok, if_pos rfl] at h
  constructor
  · intro req t ok hr
    cases req with
    | readQuadlet addr =>
      obtain ⟨t₁, t₂, r, rfl, hread, rfl, rfl⟩ := Prog.runs_bind.mp hr
      rw [List.append_nil]
      obtain ⟨x, hx, hnone, hsome⟩ := (readQuadlet_exchanged fuel addr).sound hread (hpath t₁)
      refine ⟨x, hx, fun h => hnone (Option.isNone_iff_eq_none.mp (Option.isSome_eq_false_iff.mp h)), fun h => ?_⟩
      obtain ⟨d, hd⟩ := Option.isSome_iff_exists.mp h
      exact ⟨(hsome d hd).1, fun h => Bool.noConfusion h⟩
    | writeQuadlet addr data =>
      obtain ⟨x, hx, hno, hyes⟩ := hpost ((writeQuadlet_exchanged fuel addr data).sound hr (hpath t))
      exact ⟨x, hx, hno, fun h => ⟨hyes h, fun h => Bool.noConfusion h⟩⟩
    | readBlock addr nBytes =>
      obtain ⟨x, hx, hno, hyes⟩ := hpost ((readBlock_exchanged fuel addr nBytes).sound hr (hpath t))
      exact ⟨x, hx, hno, fun h => ⟨(hyes h).1, fun _ => (hyes h).2⟩⟩
    | writeBlock addr nBytes =>
      obtain ⟨x, hx, hno, hyes⟩ := hpost ((writeBlock_exchanged fuel addr nBytes).sound hr (hpath t))
      exact ⟨x, hx, hno, fun h => ⟨(hyes h).1, fun _ => (hyes h).2⟩⟩
  · exact fun addr t r hr => (readQuadlet_exchanged fuel addr).sound hr (hpath t)

/-- A read of one quadlet, answered at the first sample. -/
theorem exec_exchanged_read : ∃ t x, (readQuadlet 1 0x10).Runs t (some 0x10020000) ∧ exchange t = some x ∧
    x.Complete 1 ∧ x.samples = [(0, 0x10020000)] := by
  have hrun := Env.runs_of_run (show ready.run (readQuadlet 1 0x10) () = some (some 0x10020000, ()) from rfl)
  obtain ⟨x, hx, -, hsome⟩ := (exec_exchanged 1).2 0x10 _ _ hrun.1
  exact ⟨_, x, hrun.1, hx, hsome _ rfl⟩

end FpgaV3.Proof.Standalone
