import FpgaV3.Proof.Gpiod.Frames
import FpgaV3.Proof.Mmap.Lines
import FpgaV3.Proof.Standalone
import FpgaV3.Spec.Healthy

/-!
# Block framing in the three drivers

When a block transfer of each driver makes one access for each quadlet of the
block, framed by `blk_start` and `blk_end` (`block_framed_iff`). All three
compute `nBytes+3` in 32 bits, which wraps around for the three largest
lengths. The gpiod driver requests the first quadlet before its loop, framed
as one that others follow, so it also fails for blocks of no quadlet and of
one; and its LSB line does not change for odd addresses.
-/

namespace FpgaV3.Proof

open FpgaV3.Spec FpgaV3.Impl

theorem length_framesFrom (N q n : Nat) : (framesFrom N q n).length = n := by
  rw [framesFrom, List.length_map, List.length_range']

theorem length_frames (n : Nat) : (frames n).length = n := by
  rw [frames, List.length_map, List.length_range]

/-- The frames of the accesses of the register drivers. -/
theorem frames_nQuads_iff (nBytes : BitVec 32) :
    frames (nQuads nBytes) = frames (quads nBytes) ↔ nBytes.toNat + 3 < 2 ^ 32 := by
  constructor
  · intro h
    have hlen := congrArg List.length h
    rw [length_frames, length_frames] at hlen
    rcases Nat.lt_or_ge (nBytes.toNat + 3) (2 ^ 32) with hw | hw
    · exact hw
    · rw [nQuads_wrap (by omega), quads] at hlen
      omega
  · exact fun h => by rw [nQuads_eq h]

/-- The frames of the accesses of the gpiod driver. -/
theorem blockFrames_iff (odd : Bool) (nBytes : BitVec 32) :
    Gpiod.blockFrames odd (nQuads nBytes) = frames (quads nBytes) ↔
      4 < nBytes.toNat ∧ nBytes.toNat + 3 < 2 ^ 32 ∧ odd = false := by
  have hfrom (N : Nat) : frames (N + 2) = (true, false) :: framesFrom (N + 2) 1 (N + 1) := by
    rw [← framesFrom_zero, framesFrom, List.range'_succ, List.map_cons]
    rfl
  constructor
  · intro h
    have hlen := congrArg List.length h
    have hq : quads nBytes = (nBytes.toNat + 3) / 4 := rfl
    rw [length_frames, Gpiod.blockFrames, List.length_cons, Gpiod.further] at hlen
    have hw : nBytes.toNat + 3 < 2 ^ 32 := by
      rcases Nat.lt_or_ge (nBytes.toNat + 3) (2 ^ 32) with hw | hw
      · exact hw
      · rw [nQuads_wrap (by omega)] at hlen
        cases odd <;> simp only [Bool.false_eq_true, if_true, if_false, List.length_nil, length_framesFrom] at hlen <;> omega
    rw [nQuads_eq hw] at h hlen
    have htwo : 2 ≤ quads nBytes := by
      rcases hn : quads nBytes with _ | _ | n
      · rw [hn] at h; cases h
      · rw [hn] at h; cases odd <;> cases h
      · omega
    refine ⟨by omega, hw, ?_⟩
    cases odd
    · rfl
    · simp only [if_true, List.length_nil] at hlen
      omega
  · rintro ⟨hbig, hw, rfl⟩
    have hq : quads nBytes = (nBytes.toNat + 3) / 4 := rfl
    obtain ⟨n, hn⟩ := Nat.exists_eq_add_of_le' (show 2 ≤ quads nBytes by omega)
    rw [nQuads_eq hw, hn, hfrom]
    rfl

/-- Accesses with the frames of a block, from those of all accesses. -/
theorem framed_drop {n : Nat} {b b' : Bus} {acc : List Emio} {data : List Nat}
    (ha : b'.accesses = b.accesses ++ acc) :
    Framed n (b'.accesses.drop b.accesses.length) data ↔ acc.map Emio.frame = frames n ∧ ∀ q ∈ data, q < n := by
  rw [ha, List.drop_left]
  exact ⟨fun h => ⟨h.accesses, h.touched⟩, fun h => ⟨h.1, h.2⟩⟩

/-- When the block transfers of each driver are framed. Every run that returns
true is considered: of the mmap driver that is every run with version 1; the
standalone library also compares the bus with what it expects; and with a
library that never fails, the gpiod driver returns true if every access is
acknowledged. -/
theorem block_framed_iff (fuel : Nat) {req : Request} {addr : BitVec 16} {nBytes : BitVec 32}
    (hreq : req = .readBlock addr nBytes ∨ req = .writeBlock addr nBytes) :
    (∀ {s s' : Interface} {t : Trace RegOp RegOp.Ans} {b b' : Bus}, s.version = 1 → Kept s b →
      (Mmap.exec fuel req s).Runs t (true, s') → buses.Path b t b' →
      (Framed (quads nBytes) (b'.accesses.drop b.accesses.length) (touched t) ↔ nBytes.toNat + 3 < 2 ^ 32)) ∧
    (∀ {t : Trace RegOp RegOp.Ans} {b b' : Bus}, b.lines.Idle →
      (Standalone.exec fuel req).Runs t true → buses.Path b t b' →
      (Framed (quads nBytes) (b'.accesses.drop b.accesses.length) (touched t) ↔ nBytes.toNat + 3 < 2 ^ 32)) ∧
    ∀ {s s' : Interface} {t : Trace GpioOp GpioOp.Ans} {b b' : Bus}, s.version = 1 → Kept s b →
      (Gpiod.exec fuel req s).Runs t (true, s') → Gpiod.answering.Path b t b' →
      (Framed (quads nBytes) (b'.accesses.drop b.accesses.length) (touchedGpio t) ↔
        4 < nBytes.toNat ∧ nBytes.toNat + 3 < 2 ^ 32 ∧ addr.getLsbD 0 = false) := by
  have hblock : req.isBlock = true := by rcases hreq with rfl | rfl <;> rfl
  have hquads : req.quads = nQuads nBytes := by rcases hreq with rfl | rfl <;> rfl
  refine ⟨fun {s s' t b b'} hver hk hr hp => ?_, fun {t b b'} hi hr hp => ?_, fun {s s' t b b'} hver hk hr hp => ?_⟩
  · have hv : Mmap.Supported s req := fun _ => by rw [hver]; decide
    obtain ⟨acc, hs, hf⟩ := (Mmap.exec_lines hv hk).sound hr hp
    rw [framed_drop hs.accesses, hf hblock, hquads, frames_nQuads_iff]
    refine ⟨And.left, fun hw => ⟨hw, ?_⟩⟩
    rw [← nQuads_eq hw, ← hquads]
    exact within_touched (Mmap.all_block hblock) hr
  · obtain ⟨acc, ha, hf⟩ := (Standalone.block_frames hblock hi.reqBus).sound hr hp rfl
    rw [framed_drop ha, hf, hquads, frames_nQuads_iff]
    refine ⟨And.left, fun hw => ⟨hw, ?_⟩⟩
    rw [← nQuads_eq hw, ← hquads]
    exact within_touched (Standalone.all_block hblock) hr
  · have hframes : ∃ acc, b'.accesses = b.accesses ++ acc ∧
        acc.map Emio.frame = Gpiod.blockFrames (addr.getLsbD 0) (nQuads nBytes) := by
      rcases hreq with rfl | rfl
      · exact (Gpiod.readBlock_frames hk.idle.reqBus).sound hr hp rfl
      · exact (Gpiod.writeBlock_frames hk.idle.reqBus).sound hr hp rfl
    obtain ⟨acc, ha, hf⟩ := hframes
    rw [framed_drop ha, hf, blockFrames_iff]
    refine ⟨And.left, fun hc => ⟨hc, ?_⟩⟩
    have hq : quads nBytes = (nBytes.toNat + 3) / 4 := rfl
    have hpos : 0 < req.quads := by rw [hquads, nQuads_eq hc.2.1]; omega
    rw [← nQuads_eq hc.2.1, ← hquads]
    exact Gpiod.within_touched (Gpiod.all_block hblock hpos) hr

theorem low_kept : Kept { version := 1 } low := ⟨⟨rfl, rfl, rfl, rfl⟩, rfl⟩

theorem obliging_path {α : Type} (p : GpioProg α) (b : Bus) :
    Gpiod.answering.Path b (obliging.trace p ()) ((obliging.trace p ()).foldl Bus.driveGpio b) :=
  World.path_obs.mpr ⟨Env.trace_all (fun _ e => by cases e <;> trivial) p (), rfl⟩

/-- The gpiod driver presents a block of one quadlet with `blk_start` instead of
`blk_end`. -/
theorem single_quadlet : ∃ t s' b', (Gpiod.exec 1 (.readBlock 0x10 4) { version := 1 }).Runs t (true, s') ∧
    Kept { version := 1 } low ∧ Gpiod.answering.Path low t b' ∧ ¬ Framed (quads 4) b'.accesses (touchedGpio t) := by
  have hrun := Env.runs_of_run (show obliging.run (Gpiod.exec 1 (.readBlock 0x10 4) { version := 1 }) () =
    some ((true, { version := 1 }), ()) from rfl)
  have hpath := obliging_path (Gpiod.exec 1 (.readBlock 0x10 4) { version := 1 }) low
  refine ⟨_, _, _, hrun.1, low_kept, hpath, fun h => ?_⟩
  obtain ⟨acc, ha, hf⟩ := (Gpiod.readBlock_frames rfl).sound hrun.1 hpath rfl
  have hacc := h.accesses
  rw [ha, low, List.nil_append, hf] at hacc
  exact absurd hacc (by decide)

theorem ready_path {α : Type} (p : RegProg α) (b : Bus) :
    buses.Path b (ready.trace p ()) ((ready.trace p ()).foldl Bus.drive b) :=
  World.path_obs.mpr ⟨fun _ _ => trivial, rfl⟩

/-- A `ReadBlock` of two quadlets in each driver. -/
theorem block_framed_iff_two :
    (∃ t b', buses.Path low t b' ∧ Framed 2 b'.accesses (touched t)) ∧
    (∃ t b', buses.Path low t b' ∧ Framed 2 b'.accesses (touched t)) ∧
    ∃ t b', Gpiod.answering.Path low t b' ∧ Framed 2 b'.accesses (touchedGpio t) := by
  obtain ⟨hmmap, halone, hgpiod⟩ := block_framed_iff 1
    (Or.inl (rfl : Request.readBlock 0x10 8 = .readBlock 0x10 8))
  have hr₁ := Env.runs_of_run (show ready.run (Mmap.exec 1 (.readBlock 0x10 8) { version := 1 }) () =
    some ((true, { version := 1 }), ()) from rfl)
  have hr₂ := Env.runs_of_run (show ready.run (Standalone.exec 1 (.readBlock 0x10 8)) () = some (true, ()) from rfl)
  have hr₃ := Env.runs_of_run (show obliging.run (Gpiod.exec 1 (.readBlock 0x10 8) { version := 1 }) () =
    some ((true, { version := 1 }), ()) from rfl)
  have hp₁ := ready_path (Mmap.exec 1 (.readBlock 0x10 8) { version := 1 }) low
  have hp₂ := ready_path (Standalone.exec 1 (.readBlock 0x10 8)) low
  have hp₃ := obliging_path (Gpiod.exec 1 (.readBlock 0x10 8) { version := 1 }) low
  exact ⟨⟨_, _, hp₁, (hmmap rfl low_kept hr₁.1 hp₁).mpr (by decide)⟩,
    ⟨_, _, hp₂, (halone low_kept.idle hr₂.1 hp₂).mpr (by decide)⟩,
    ⟨_, _, hp₃, (hgpiod rfl low_kept hr₃.1 hp₃).mpr (by decide)⟩⟩

end FpgaV3.Proof
