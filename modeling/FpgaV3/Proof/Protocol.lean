import FpgaV3.Proof.Registers
import FpgaV3.Spec.Transcript

/-!
# The parts of a transcript

The rules of the calls for the transcript of a driver, in any world that
computes it, and the block loop, which both register drivers share
(`blockLoop_told`).
-/

namespace FpgaV3.Proof

open FpgaV3.Spec FpgaV3.Impl

/-- The writes so far are `os`; `m` words were read, and each is stored as `f`
of it. -/
structure Told (f : BitVec 32 → BitVec 32) (os : List (Reg × BitVec 32)) (m : Nat) (x : Transcript) : Prop where
  outputs : x.outputs = os
  samples : x.samples.length = m
  stored : x.stored = x.samples.mapIdx fun q v => (q, f v)

/-- A call that neither writes an output register, reads the data nor stores a
word. -/
def Unsaid (e : RegOp) : Prop :=
  (∀ v, e ≠ .regWrite .outputLower v) ∧ (∀ v, e ≠ .regWrite .outputUpper v) ∧ e ≠ .regRead .inputLower ∧
    ∀ q v, e ≠ .store q v

variable {α : Type} {adm : Transcript → RegEvent → Prop} {f : BitVec 32 → BitVec 32} {os : List (Reg × BitVec 32)}
  {m : Nat} {x : Transcript}

/-- The same transcript, but for the direction. -/
structure Alike (x x' : Transcript) : Prop where
  outputs : x'.outputs = x.outputs
  samples : x'.samples = x.samples
  stored : x'.stored = x.stored

theorem call_unsaid {e : RegOp} (he : Unsaid e) (r : e.Ans) (x : Transcript) : Alike x (x.call ⟨e, r⟩) := by
  obtain ⟨hl, hu, hi, hs⟩ := he
  have hsame : Alike x x := ⟨rfl, rfl, rfl⟩
  cases e with
  | regWrite reg v =>
    cases reg with
    | outputLower => exact absurd rfl (hl v)
    | outputUpper => exact absurd rfl (hu v)
    | dirLower => exact ⟨rfl, rfl, rfl⟩
    | _ => exact hsame
  | regRead reg =>
    cases reg with
    | inputLower => exact absurd rfl hi
    | _ => exact hsame
  | store q v => exact absurd rfl (hs q v)
  | _ => exact hsame

theorem alike_unsaid {p : RegProg α} (hp : p.All Unsaid) :
    WP (World.obs adm Transcript.call) True p x fun _ => Alike x := by
  refine wp_invariant (fun x₁ e r x₂ he hs h => ?_) hp ⟨rfl, rfl, rfl⟩
  rw [hs.2]
  have hcall := call_unsaid he r x₁
  exact ⟨hcall.outputs.trans h.outputs, hcall.samples.trans h.samples, hcall.stored.trans h.stored⟩

theorem told_unsaid {p : RegProg α} (hp : p.All Unsaid) (h : Told f os m x) :
    WP (World.obs adm Transcript.call) True p x fun _ => Told f os m :=
  WP.mono (alike_unsaid hp) fun _ _ ha =>
    ⟨ha.outputs.trans h.outputs, by rw [ha.samples, h.samples], by rw [ha.stored, ha.samples, h.stored]⟩

theorem told_lower {v : BitVec 32} (h : Told f os m x) :
    WP (World.obs adm Transcript.call) True (registerWrite .outputLower v) x fun _ =>
      Told f (os ++ [(.outputLower, v)]) m := by
  rw [wp_registerWrite]
  rintro u x' ⟨-, rfl⟩
  exact ⟨by rw [← h.outputs]; rfl, h.samples, h.stored⟩

theorem told_upper {v : BitVec 32} (h : Told f os m x) :
    WP (World.obs adm Transcript.call) True (registerWrite .outputUpper v) x fun _ =>
      Told f (os ++ [(.outputUpper, v)]) m := by
  rw [wp_registerWrite]
  rintro u x' ⟨-, rfl⟩
  exact ⟨by rw [← h.outputs]; rfl, h.samples, h.stored⟩

theorem told_load {d : Nat → BitVec 32} (ha : ∀ x e, adm x e → Loads d e) (q : Nat) (h : Told f os m x) :
    WP (World.obs adm Transcript.call) True (load q) x fun v x' => v = d q ∧ Told f os m x' := by
  rw [wp_load]
  rintro v x' ⟨hv, rfl⟩
  exact ⟨ha _ _ hv, h⟩

/-- A word of the data is read. -/
theorem told_sample (h : Told f os m x) :
    WP (World.obs adm Transcript.call) True (registerRead .inputLower) x fun v x' =>
      x'.outputs = os ∧ x'.samples = x.samples ++ [v] ∧ x'.stored = x.stored := by
  rw [wp_registerRead]
  rintro v x' ⟨-, rfl⟩
  exact ⟨h.outputs, rfl, rfl⟩

/-- A word of a block is read, and stored. -/
theorem told_move (h : Told f os m x) :
    WP (World.obs adm Transcript.call) True (do
      let v ← registerRead .inputLower
      store m (f v)) x fun _ => Told f os (m + 1) := by
  rw [wp_bind]
  refine WP.mono (told_sample h) fun v x₁ hpost => ?_
  obtain ⟨hos, hss, hst⟩ := hpost
  rw [wp_store]
  rintro u x' ⟨-, rfl⟩
  refine ⟨hos, ?_, ?_⟩
  · show x₁.samples.length = m + 1
    rw [hss, List.length_append, h.samples]
    rfl
  · show x₁.stored ++ [(m, f v)] = x₁.samples.mapIdx fun q v => (q, f v)
    rw [hss, hst, h.stored, List.mapIdx_concat, h.samples]

/-- The block loop makes the writes of the block. `done` reads a word if `k` is
1, and none if it is 0. -/
theorem blockLoop_told {k : Nat} {ready done : Nat → RegProg Unit} {wait : RegProg Bool}
    {o : Nat → List (Reg × BitVec 32)} {N : Nat}
    (hr : ∀ q os m x, Told f os m x → WP (World.obs adm Transcript.call) True (ready q) x fun _ => Told f (os ++ o q) m)
    (hw : wait.All Unsaid) (hok : ∀ x, WP (World.obs adm Transcript.call) True wait x fun ok _ => ok = true)
    (hd : ∀ q os x, Told f os (k * q) x →
      WP (World.obs adm Transcript.call) True (done q) x fun _ => Told f os (k * (q + 1))) :
    ∀ (n q : Nat) (addr : BitVec 16) (outreg : BitVec 32) {os : List (Reg × BitVec 32)} {x : Transcript},
      Told f os (k * q) x →
      WP (World.obs adm Transcript.call) True (blockLoop ready wait done N n q addr outreg) x fun ok x' =>
        ok = true ∧ Told f (os ++ blockOutputs o N n q addr outreg) (k * (q + n)) x'
  | 0, q, _, _, os, x, h => ⟨rfl, by rwa [blockOutputs, List.append_nil]⟩
  | n + 1, q, addr, outreg, os, x, h => by
    simp only [blockLoop, wp_bind]
    refine WP.mono (hr q _ _ _ h) fun _ _ h => WP.mono (told_upper h) fun _ _ h => ?_
    refine WP.mono (WP.and (hok _) (told_unsaid hw h)) fun ok _ hpost => ?_
    obtain ⟨hok', h⟩ := hpost
    simp only [hok', if_true, wp_bind]
    refine WP.mono (hd q _ _ h) fun _ _ h => ?_
    refine WP.mono (blockLoop_told hr hw hok hd n (q + 1) _ _ h) fun ok _ hpost => ⟨hpost.1, ?_⟩
    rw [show q + (n + 1) = q + 1 + n by omega]
    have htold := hpost.2
    rw [List.append_assoc, List.append_assoc] at htold
    exact htold

/-- The loop of `WritePromData`, if every `WriteQuadlet` makes the writes of its
quadlet and returns true. -/
theorem promLoop_told {X : Type} {d : Nat → BitVec 32} (ha : ∀ x e, adm x e → Loads d e)
    {writeQuadlet : BitVec 16 → BitVec 32 → X → RegProg (Bool × X)}
    (hw : ∀ addr data s os m x, Told f os m x → WP (World.obs adm Transcript.call) True (writeQuadlet addr data s) x
      fun r x' => r.1 = true ∧ Told f (os ++ quadletOutputs addr data) m x') :
    ∀ (n i : Nat) (s : X) {os : List (Reg × BitVec 32)} {x : Transcript}, Told f os m x →
      WP (World.obs adm Transcript.call) True (promLoop load writeQuadlet n i s) x fun r x' => r.1 = true ∧
        Told f (os ++ (List.range' i n).flatMap fun i =>
          quadletOutputs (0x2000 + BitVec.ofNat 16 i) (bswap32 (d i))) m x'
  | 0, _, _, os, x, h => ⟨rfl, by rwa [List.range'_zero, List.flatMap_nil, List.append_nil]⟩
  | n + 1, i, s, os, x, h => by
    simp only [promLoop, wp_bind]
    refine WP.mono (told_load ha i h) fun v _ hpost => ?_
    obtain ⟨rfl, h⟩ := hpost
    refine WP.mono (hw _ _ s _ _ _ h) fun r _ hpost => ?_
    simp only [hpost.1, if_true]
    refine WP.mono (promLoop_told ha hw n (i + 1) r.2 hpost.2) fun r' _ hpost => ⟨hpost.1, ?_⟩
    rw [List.range'_succ, List.flatMap_cons, ← List.append_assoc]
    exact hpost.2

end FpgaV3.Proof
