import FpgaV3.Proof.Mmap.Calls
import FpgaV3.Proof.Protocol
import FpgaV3.Proof.Standalone
import FpgaV3.Spec.Healthy

/-!
# The standalone library and the mmap driver agree

Both make the writes of the `script` of a request, whatever the history of the
mmap driver: the standalone library if the firmware passes its checks, the mmap
driver always. The words of a block are byte-swapped in one and not in the
other (`drivers_agree`).
-/

namespace FpgaV3.Proof

open FpgaV3.Spec FpgaV3.Impl

/-- The transcript of a request: its writes, and the words it stored, each `f` of
its sample. -/
structure Spoken (f : BitVec 32 → BitVec 32) (d : Nat → BitVec 32) (req : Request) (x : Transcript) : Prop where
  outputs : x.outputs = script d req
  stored : x.stored = if req.isBlock then x.samples.mapIdx fun q v => (q, f v) else []

/-- The transcript of a `ReadQuadlet` that returned `v`. -/
structure Returned (addr : BitVec 16) (v : BitVec 32) (x : Transcript) : Prop where
  outputs : x.outputs = [(.outputUpper, addr.setWidth 32 ||| Bits.requestBus), (.outputUpper, 0)]
  samples : x.samples = [v]
  stored : x.stored = []

variable {d : Nat → BitVec 32} {f : BitVec 32 → BitVec 32} {os : List (Reg × BitVec 32)} {m : Nat} {x : Transcript}
  {fuel : Nat} {adm : Transcript → RegEvent → Prop}

theorem told_start : Told f [] 0 {} := ⟨rfl, rfl, rfl⟩

/-- The data are read, and the lines lowered. -/
theorem told_return {addr : BitVec 16} (h : Told f [(.outputUpper, addr.setWidth 32 ||| Bits.requestBus)] 0 x) :
    WP (World.obs adm Transcript.call) True (registerRead .inputLower) x fun v x₁ =>
      WP (World.obs adm Transcript.call) True (registerWrite .outputUpper 0) x₁ fun _ => Returned addr v := by
  have hnone : x.samples = [] := List.length_eq_zero_iff.mp h.samples
  refine WP.mono (told_sample h) fun v x₁ hpost => ?_
  obtain ⟨hos, hss, hst⟩ := hpost
  rw [wp_registerWrite]
  rintro u x' ⟨-, rfl⟩
  refine ⟨?_, ?_, ?_⟩
  · show x₁.outputs ++ _ = _
    rw [hos]
    rfl
  · show x₁.samples = [v]
    rw [hss, hnone]
    rfl
  · show x₁.stored = []
    rw [hst, h.stored, hnone]
    rfl

theorem spoken_quadlet {req : Request} (hreq : req.isBlock = false) (h : Told f (script d req) 0 x) : Spoken f d req x := by
  refine ⟨h.outputs, ?_⟩
  rw [h.stored, List.length_eq_zero_iff.mp h.samples, hreq]
  rfl

theorem spoken_block {req : Request} (hreq : req.isBlock = true) (h : Told f (script d req) m x) : Spoken f d req x :=
  ⟨h.outputs, by rw [h.stored, hreq]; rfl⟩

/-- A word of a block is loaded and written. -/
theorem told_ready (ha : ∀ x e, adm x e → Loads d e) {g : BitVec 32 → BitVec 32} (q : Nat) (h : Told f os m x) :
    WP (World.obs adm Transcript.call) True (do
      let val ← load q
      registerWrite .outputLower (g val)) x fun _ => Told f (os ++ [(.outputLower, g (d q))]) m := by
  rw [wp_bind]
  refine WP.mono (told_load ha q h) fun v _ hpost => ?_
  obtain ⟨rfl, h⟩ := hpost
  exact told_lower h

/-! ## The standalone library -/

namespace Standalone

open FpgaV3.Impl.Standalone

theorem unsaid_wait (fuel num : Nat) : (waitOpDone fuel num).All Unsaid := all_wait fuel num (by simp [Unsaid])

theorem told_getVersion (h : Told f os m x) :
    WP (saneTranscripts d) True getVersion x fun ver x' => ver = 1 ∧ Told f os m x' := by
  simp only [getVersion, wp_bind, wp_registerRead, wp_pure]
  rintro upper x' ⟨⟨hs, -⟩, rfl⟩
  exact ⟨hs.1, h⟩

theorem told_setDataInput (h : Told f os m x) :
    WP (saneTranscripts d) True setDataInput x fun ok x' => ok = true ∧ Told f os m x' := by
  simp only [setDataInput, wp_bind, wp_registerRead, wp_registerWrite, wp_pure]
  rintro u x₁ ⟨-, rfl⟩ upper x' ⟨⟨hs, -⟩, rfl⟩
  refine ⟨decide_eq_true ?_, h.outputs, h.samples, h.stored⟩
  have hmask := hs.2 0 rfl
  rwa [if_pos rfl] at hmask

theorem told_setDataOutput (h : Told f os m x) :
    WP (saneTranscripts d) True setDataOutput x fun ok x' => ok = true ∧ Told f os m x' := by
  simp only [setDataOutput, wp_bind, wp_registerRead, wp_registerWrite, wp_pure]
  rintro u x₁ ⟨-, rfl⟩ u x₂ ⟨-, rfl⟩ upper x' ⟨⟨hs, -⟩, rfl⟩
  refine ⟨decide_eq_true ?_, h.outputs, h.samples, h.stored⟩
  have hmask := hs.2 0xffffffff rfl
  rwa [if_neg (by decide)] at hmask

theorem loads_sane (x : Transcript) (e : RegEvent) (h : Sane x e ∧ Loads d e) : Loads d e := h.2

theorem readQuadlet_told (addr : BitVec 16) : WP (saneTranscripts d) True (readQuadlet fuel addr) {} fun r x =>
    ∃ v, r = some v ∧ Returned addr v x := by
  simp only [readQuadlet, wp_bind, wp_ite, wp_pure]
  refine WP.mono (told_setDataInput (f := id) told_start) fun ok _ hpost =>
    ⟨fun _ => ?_, fun hn => absurd hpost.1 hn⟩
  refine WP.mono (told_upper hpost.2) fun _ _ h => WP.mono (told_unsaid (unsaid_wait fuel 5) h) fun _ _ h => ?_
  exact WP.mono (told_return h) fun v _ h => WP.mono h fun _ _ h => ⟨v, rfl, h⟩

theorem writeQuadlet_told (addr : BitVec 16) (data : BitVec 32) (h : Told f os m x) :
    WP (saneTranscripts d) True (writeQuadlet fuel addr data) x fun ok x' =>
      ok = true ∧ Told f (os ++ quadletOutputs addr data) m x' := by
  simp only [writeQuadlet, wp_bind, wp_ite, wp_pure]
  refine WP.mono (told_setDataOutput h) fun ok _ hpost => ⟨fun _ => ?_, fun hn => absurd hpost.1 hn⟩
  refine WP.mono (told_lower hpost.2) fun _ _ h => WP.mono (told_upper h) fun _ _ h => ?_
  refine WP.mono (told_unsaid (unsaid_wait fuel 5) h) fun _ _ h => WP.mono (told_upper h) fun _ _ h => ⟨trivial, ?_⟩
  rwa [List.append_assoc, List.append_assoc] at h

theorem exec_told (req : Request) :
    WP (saneTranscripts d) True (exec fuel req) {} fun ok x => ok = true ∧ Spoken id d req x := by
  cases req with
  | readQuadlet addr =>
    simp only [exec, wp_bind, wp_pure]
    refine WP.mono (readQuadlet_told addr) fun r x h => ?_
    obtain ⟨v, rfl, h⟩ := h
    exact ⟨rfl, h.outputs, h.stored⟩
  | writeQuadlet addr data =>
    exact WP.mono (writeQuadlet_told addr data told_start) fun _ _ h => ⟨h.1, spoken_quadlet rfl h.2⟩
  | readBlock addr nBytes =>
    simp only [exec, readBlock, wp_bind, wp_ite, wp_pure]
    refine WP.mono (told_getVersion (f := id) told_start) fun ver _ hpost =>
      ⟨fun hn => absurd hpost.1 hn, fun _ => ?_⟩
    refine WP.mono (told_setDataInput hpost.2) fun ok _ hpost => ⟨fun _ => ?_, fun hn => absurd hpost.1 hn⟩
    refine WP.mono (blockLoop_told (k := 1) (o := fun _ => []) (fun q os m x h => ?_) (unsaid_wait fuel 5)
      (fun _ => wait_true) (fun q os x h => ?_) _ 0 _ _ hpost.2) fun _ _ hpost => ?_
    · rwa [List.append_nil]
    · rw [Nat.one_mul] at h ⊢
      exact told_move h
    · exact WP.mono (told_upper hpost.2) fun _ _ h => ⟨trivial, spoken_block rfl h⟩
  | writeBlock addr nBytes =>
    simp only [exec, writeBlock, wp_bind, wp_ite, wp_pure]
    refine WP.mono (told_getVersion (f := id) told_start) fun ver _ hpost =>
      ⟨fun hn => absurd hpost.1 hn, fun _ => ?_⟩
    refine WP.mono (told_setDataOutput hpost.2) fun ok _ hpost => ⟨fun _ => ?_, fun hn => absurd hpost.1 hn⟩
    refine WP.mono (blockLoop_told (k := 0) (o := fun q => [(.outputLower, d q)])
      (fun q os m x h => told_ready loads_sane (g := id) q h) (unsaid_wait fuel 5)
      (fun _ => wait_true) (fun q os x h => ?_) _ 0 _ _ hpost.2) fun _ _ hpost => ?_
    · rwa [Nat.zero_mul] at h ⊢
    · exact WP.mono (told_upper hpost.2) fun _ _ h => ⟨trivial, spoken_block rfl h⟩

theorem writePromData_told (nBytes : BitVec 32) : WP (saneTranscripts d) True (writePromData fuel nBytes) {} fun ok x =>
    ok = true ∧ x.outputs = promScript d (promQuads nBytes) := by
  simp only [writePromData, wp_bind, wp_pure]
  have hwrite (addr : BitVec 16) (data : BitVec 32) (s : Unit) (os : List (Reg × BitVec 32)) (m : Nat) (x : Transcript)
      (h : Told id os m x) : WP (saneTranscripts d) True (do
        let ok ← writeQuadlet fuel addr data
        return (ok, ())) x fun r x' => r.1 = true ∧ Told id (os ++ quadletOutputs addr data) m x' := by
    simp only [wp_bind, wp_pure]
    exact writeQuadlet_told addr data h
  refine WP.mono (promLoop_told loads_sane hwrite (promQuads nBytes) 0 () told_start) fun r _ hpost => ⟨hpost.1, ?_⟩
  rw [promScript, List.range_eq_range']
  exact hpost.2.outputs

end Standalone

/-! ## The mmap driver -/

namespace Mmap

open FpgaV3.Impl.Mmap

theorem unsaid_timestamp (s : Interface) (n : Nat) : (timestamp s n).All Unsaid := all_timestamp s n (by simp [Unsaid])

theorem unsaid_wait (fuel : Nat) (s : Interface) (state : Bool) : (waitOpDone fuel s state).All Unsaid :=
  all_wait fuel s state (by simp [Unsaid]) (by simp [Unsaid])

theorem unsaid_setInput (s : Interface) : (setInput s).All Unsaid := all_setInput s (by simp [Unsaid])

theorem unsaid_setOutput (s : Interface) : (setOutput s).All Unsaid :=
  all_setOutput s (by simp [Unsaid]) (by simp [Unsaid])

theorem loads_transcript (_ : Transcript) (e : RegEvent) (h : Loads d e) : Loads d e := h

/-- The handshake is closed, and the time taken. -/
theorem unsaid_closing (s : Interface) : (do
    let _ ← waitOpDone fuel s false
    timestamp s 0).All Unsaid := Prog.all_bind (unsaid_wait fuel s false) fun _ => unsaid_timestamp s 0

theorem readQuadlet_told {s : Interface} (addr : BitVec 16) :
    WP (transcripts d) True (readQuadlet fuel s addr) {} fun r x => ∃ v, r.1 = some v ∧ Returned addr v x := by
  simp only [readQuadlet, wp_bind, wp_ite, wp_pure]
  refine WP.mono (told_unsaid (f := id) (unsaid_timestamp s 0) told_start) fun _ _ h => ?_
  refine WP.mono (told_unsaid (unsaid_setInput s) h) fun s _ h => WP.mono (told_upper h) fun _ _ h => ?_
  refine WP.mono (told_unsaid (unsaid_timestamp s 1) h) fun _ _ h => ?_
  refine WP.mono (WP.and wait_true (told_unsaid (unsaid_wait fuel s true) h)) fun ok _ hpost =>
    ⟨fun _ => ?_, fun hn => absurd hpost.1 hn⟩
  refine WP.mono (told_unsaid (unsaid_timestamp s 1) hpost.2) fun _ _ h => ?_
  refine WP.mono (told_return h) fun v _ h => WP.mono h fun _ x h => ?_
  have hclose : WP (transcripts d) True (do
      let _ ← waitOpDone fuel s false
      timestamp s 0) x fun _ => Alike x := alike_unsaid (unsaid_closing s)
  rw [wp_bind] at hclose
  refine WP.mono hclose fun _ _ ha => WP.mono ha fun _ _ ha => ⟨v, rfl, ?_⟩
  exact ⟨ha.outputs.trans h.outputs, ha.samples.trans h.samples, ha.stored.trans h.stored⟩

theorem writeQuadlet_told {s : Interface} (addr : BitVec 16) (data : BitVec 32) (h : Told f os m x) :
    WP (transcripts d) True (writeQuadlet fuel s addr data) x fun r x' =>
      r.1 = true ∧ Told f (os ++ quadletOutputs addr data) m x' := by
  simp only [writeQuadlet, wp_bind]
  refine WP.mono (told_unsaid (unsaid_timestamp s 0) h) fun _ _ h => ?_
  refine WP.mono (told_unsaid (unsaid_setOutput s) h) fun s _ h => WP.mono (told_lower h) fun _ _ h => ?_
  refine WP.mono (told_upper h) fun _ _ h => WP.mono (told_unsaid (unsaid_timestamp s 1) h) fun _ _ h => ?_
  refine WP.mono (WP.and wait_true (told_unsaid (unsaid_wait fuel s true) h)) fun ok _ hpost => ?_
  obtain ⟨hok, h⟩ := hpost
  simp only [hok, if_true, wp_bind, wp_pure]
  refine WP.mono (told_unsaid (unsaid_timestamp s 1) h) fun _ _ h => WP.mono (told_upper h) fun _ _ h => ?_
  refine WP.mono (told_unsaid (unsaid_wait fuel s false) h) fun _ _ h => ?_
  refine WP.mono (told_unsaid (unsaid_timestamp s 0) h) fun _ _ h => ⟨trivial, ?_⟩
  rwa [List.append_assoc, List.append_assoc] at h

theorem exec_told {s : Interface} (req : Request) (hv : req.isBlock = true → s.version = 1) :
    WP (transcripts d) True (exec fuel req s) {} fun r x => r.1 = true ∧ Spoken bswap32 (fun q => bswap32 (d q)) req x := by
  cases req with
  | readQuadlet addr =>
    simp only [exec, wp_bind, wp_pure]
    refine WP.mono (readQuadlet_told addr) fun r x h => ?_
    obtain ⟨v, hr, h⟩ := h
    exact ⟨by rw [hr]; rfl, h.outputs, h.stored⟩
  | writeQuadlet addr data =>
    exact WP.mono (writeQuadlet_told addr data told_start) fun _ _ h => ⟨h.1, spoken_quadlet rfl h.2⟩
  | readBlock addr nBytes =>
    have hver : ¬ s.version < 1 := by rw [hv rfl]; decide
    simp only [exec, readBlock, if_neg hver, wp_bind, wp_ite, wp_pure]
    refine WP.mono (told_unsaid (f := bswap32) (unsaid_timestamp s 0) told_start) fun _ _ h => ?_
    refine WP.mono (told_unsaid (unsaid_setInput s) h) fun s _ h => ?_
    refine WP.mono (told_unsaid (unsaid_timestamp s 1) h) fun _ _ h => ?_
    refine WP.mono (blockLoop_told (k := 1) (o := fun _ => []) (fun q os m x h => ?_) (unsaid_wait fuel s true)
      (fun _ => wait_true) (fun q os x h => ?_) _ 0 _ _ h) fun ok _ hpost => ⟨fun _ => ?_, fun hn => absurd hpost.1 hn⟩
    · rwa [List.append_nil]
    · rw [Nat.one_mul] at h ⊢
      exact told_move h
    · refine WP.mono (told_unsaid (unsaid_timestamp s 1) hpost.2) fun _ _ h => WP.mono (told_upper h) fun _ _ h => ?_
      refine WP.mono (told_unsaid (unsaid_wait fuel s false) h) fun _ _ h => ?_
      exact WP.mono (told_unsaid (unsaid_timestamp s 0) h) fun _ _ h => ⟨trivial, spoken_block rfl h⟩
  | writeBlock addr nBytes =>
    have hver : ¬ s.version < 1 := by rw [hv rfl]; decide
    simp only [exec, writeBlock, if_neg hver, wp_bind, wp_ite, wp_pure]
    refine WP.mono (told_unsaid (f := bswap32) (unsaid_timestamp s 0) told_start) fun _ _ h => ?_
    refine WP.mono (told_unsaid (unsaid_setOutput s) h) fun s _ h => ?_
    refine WP.mono (told_unsaid (unsaid_timestamp s 1) h) fun _ _ h => ?_
    refine WP.mono (blockLoop_told (k := 0) (o := fun q => [(.outputLower, bswap32 (d q))])
      (fun q os m x h => told_ready loads_transcript q h) (unsaid_wait fuel s true)
      (fun _ => wait_true) (fun q os x h => ?_) _ 0 _ _ h) fun ok _ hpost => ⟨fun _ => ?_, fun hn => absurd hpost.1 hn⟩
    · rwa [Nat.zero_mul] at h ⊢
    · refine WP.mono (told_unsaid (unsaid_timestamp s 1) hpost.2) fun _ _ h => ?_
      refine WP.mono (told_unsaid (unsaid_wait fuel s false) h) fun _ _ h => WP.mono (told_upper h) fun _ _ h => ?_
      exact WP.mono (told_unsaid (unsaid_timestamp s 0) h) fun _ _ h => ⟨trivial, spoken_block rfl h⟩

theorem writePromData_told {s : Interface} (nBytes : BitVec 32) :
    WP (transcripts d) True (writePromData fuel s nBytes) {} fun r x =>
      r.1 = true ∧ x.outputs = promScript d (promQuads nBytes) := by
  refine WP.mono (promLoop_told loads_transcript (f := id) (fun addr data s os m x h => ?_) (promQuads nBytes) 0 s
    told_start) fun r _ hpost => ⟨hpost.1, ?_⟩
  · exact writeQuadlet_told addr data h
  · rw [promScript, List.range_eq_range']
    exact hpost.2.outputs

end Mmap

/-! ## Agreement -/

/-- A request, a `ReadQuadlet` with its word, and a copy to the PROM registers,
made of the standalone library and of an mmap driver with any history: the
writes are the same, and so are the results, but for the byte order of the words
of a block. -/
theorem drivers_agree (fuel fuel' : Nat) (s : Interface) (d : Nat → BitVec 32) :
    (∀ req t₁ ok₁ x₁ t₂ r₂ x₂, (req.isBlock = true → s.version = 1) → (Standalone.exec fuel req).Runs t₁ ok₁ →
      (saneTranscripts fun q => bswap32 (d q)).Path {} t₁ x₁ → (Mmap.exec fuel' req s).Runs t₂ r₂ →
      (transcripts d).Path {} t₂ x₂ → ok₁ = true ∧ r₂.1 = true ∧ x₁.outputs = x₂.outputs ∧
      (x₁.samples = x₂.samples → x₂.stored = x₁.stored.map fun y => (y.1, bswap32 y.2))) ∧
    (∀ addr t₁ r₁ x₁ t₂ r₂ x₂, (Standalone.readQuadlet fuel addr).Runs t₁ r₁ → (saneTranscripts d).Path {} t₁ x₁ →
      (Mmap.readQuadlet fuel' s addr).Runs t₂ r₂ → (transcripts d).Path {} t₂ x₂ →
      r₁.isSome = true ∧ r₂.1.isSome = true ∧ x₁.outputs = x₂.outputs ∧ (x₁.samples = x₂.samples → r₁ = r₂.1)) ∧
    ∀ nBytes t₁ ok₁ x₁ t₂ r₂ x₂, (Standalone.writePromData fuel nBytes).Runs t₁ ok₁ → (saneTranscripts d).Path {} t₁ x₁ →
      (Mmap.writePromData fuel' s nBytes).Runs t₂ r₂ → (transcripts d).Path {} t₂ x₂ →
      ok₁ = true ∧ r₂.1 = true ∧ x₁.outputs = x₂.outputs := by
  refine ⟨?_, ?_, ?_⟩
  · intro req t₁ ok₁ x₁ t₂ r₂ x₂ hv hr₁ hp₁ hr₂ hp₂
    obtain ⟨hok₁, h₁⟩ := (Standalone.exec_told req).sound hr₁ hp₁
    obtain ⟨hok₂, h₂⟩ := (Mmap.exec_told req hv).sound hr₂ hp₂
    refine ⟨hok₁, hok₂, h₁.outputs.trans h₂.outputs.symm, fun hs => ?_⟩
    rw [h₁.stored, h₂.stored, hs]
    split
    · rw [List.mapIdx_eq_zipIdx_map, List.mapIdx_eq_zipIdx_map, List.map_map]
      rfl
    · rfl
  · intro addr t₁ r₁ x₁ t₂ r₂ x₂ hr₁ hp₁ hr₂ hp₂
    obtain ⟨v₁, hv₁, h₁⟩ := (Standalone.readQuadlet_told addr).sound hr₁ hp₁
    obtain ⟨v₂, hv₂, h₂⟩ := (Mmap.readQuadlet_told addr).sound hr₂ hp₂
    refine ⟨by rw [hv₁]; rfl, by rw [hv₂]; rfl, h₁.outputs.trans h₂.outputs.symm, fun hs => ?_⟩
    rw [h₁.samples, h₂.samples] at hs
    rw [hv₁, hv₂, List.singleton_inj.mp hs]
  · intro nBytes t₁ ok₁ x₁ t₂ r₂ x₂ hr₁ hp₁ hr₂ hp₂
    obtain ⟨hok₁, h₁⟩ := (Standalone.writePromData_told nBytes).sound hr₁ hp₁
    obtain ⟨hok₂, h₂⟩ := (Mmap.writePromData_told nBytes).sound hr₂ hp₂
    exact ⟨hok₁, hok₂, h₁.trans h₂.symm⟩

/-- The sample of a firmware of version 1 that has answered, in a direction. -/
def echo : Option (BitVec 32) → BitVec 32
  | none => 0x10020000
  | some dir => if dir = 0 then 0x10020000 else 0x10220000

/-- A firmware that has always answered, and passes the checks. -/
def echoing : Env RegOp RegOp.Ans Transcript where
  step x e :=
    let r : e.Ans := match e with
      | .regRead .inputUpper => echo x.dir
      | e => (ready.step () e).1
    (r, x.call ⟨e, r⟩)

theorem sane_echo (x : Transcript) : Sane x ⟨.regRead .inputUpper, echo x.dir⟩ := by
  obtain ⟨dir, os, ss, st⟩ := x
  cases dir with
  | none => exact ⟨show (0x10020000 &&& Bits.version) >>> 28 = 1 by decide, fun _ h => absurd_none h⟩
  | some dir =>
    have hecho : echo (some dir) = if dir = 0 then 0x10020000 else 0x10220000 := rfl
    constructor
    · show (echo (some dir) &&& Bits.version) >>> 28 = 1
      rw [hecho]
      split <;> decide
    · intro dir' hdir
      show echo (some dir) &&& (Bits.requestBus ||| Bits.write) = _
      rw [← Option.some.inj hdir, hecho]
      split <;> decide

theorem echoing_sane (x : Transcript) (e : RegOp) :
    Sane x ⟨e, (echoing.step x e).1⟩ ∧ Loads (fun _ => bswap32 0) ⟨e, (echoing.step x e).1⟩ := by
  have hone {e : RegOp} {r : e.Ans} (hs : Sane x ⟨e, r⟩) (hl : Loads (fun _ => bswap32 0) ⟨e, r⟩) :
      Sane x ⟨e, r⟩ ∧ Loads (fun _ => bswap32 0) ⟨e, r⟩ := ⟨hs, hl⟩
  cases e with
  | regRead reg =>
    cases reg with
    | inputUpper => exact hone (sane_echo x) trivial
    | _ => exact hone trivial trivial
  | load q => exact hone trivial (show (0 : BitVec 32) = bswap32 0 by decide)
  | _ => exact hone trivial trivial

/-- A `WriteBlock` of two quadlets. -/
theorem drivers_agree_block : ∃ t₁ x₁ t₂ s' x₂, (Standalone.exec 1 (.writeBlock 0x10 8)).Runs t₁ true ∧
    (saneTranscripts fun _ => bswap32 0).Path {} t₁ x₁ ∧
    (Mmap.exec 1 (.writeBlock 0x10 8) { version := 1 }).Runs t₂ (true, s') ∧ (transcripts fun _ => 0).Path {} t₂ x₂ ∧
    x₁.outputs = x₂.outputs := by
  have hload (x : Transcript) (e : RegOp) : Loads (fun _ => 0) ⟨e, (ready.step () e).1⟩ := by
    cases e with
    | load q => exact rfl
    | _ => trivial
  have hecho (x : Transcript) (e : RegOp) : (saneTranscripts fun _ => bswap32 0).step x e (echoing.step x e).1
      (echoing.step x e).2 := ⟨echoing_sane x e, rfl⟩
  have hone : ∃ x, echoing.run (Standalone.exec 1 (.writeBlock 0x10 8)) {} = some (true, x) := ⟨_, rfl⟩
  have htwo : ∃ x, (ready.observe Transcript.call).run (Mmap.exec 1 (.writeBlock 0x10 8) { version := 1 }) {} =
      some ((true, { version := 1, isInput := false }), x) := ⟨_, rfl⟩
  obtain ⟨x₁, hone⟩ := hone
  obtain ⟨x₂, htwo⟩ := htwo
  have hr₁ := (Env.runs_of_run hone).1
  have hp₁ : (saneTranscripts fun _ => bswap32 0).Path {} _ x₁ := Env.path_of_run (f := id) hecho hone
  obtain ⟨t₂, hr₂, hp₂⟩ := Env.path_of_observe hload htwo
  have hagree := (drivers_agree 1 1 { version := 1 } fun _ => 0).1 _ _ _ _ _ _ _ (fun _ => rfl) hr₁ hp₁ hr₂ hp₂
  exact ⟨_, _, _, _, _, hr₁, hp₁, hr₂, hp₂, hagree.2.2.1⟩

end FpgaV3.Proof
