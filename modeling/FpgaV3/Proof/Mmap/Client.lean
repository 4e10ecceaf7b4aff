import FpgaV3.Proof.Mmap.Refine
import FpgaV3.Spec.Client

/-!
# Clients of the mmap driver

Against a firmware that acknowledges each access within the timeout, a client sees a bank
of registers (`mmap_client`): whatever requests it makes, after whatever answers, each
reads and writes the registers that it names, and nothing else.
-/

namespace FpgaV3.Proof.Mmap

open FpgaV3.Spec FpgaV3.Impl FpgaV3.Impl.Mmap

variable {T : Int} {L fuel : Nat} {σ : Device} {s : Interface} {S : Type} {w : World RegOp RegOp.Ans S} {c : S}
  {f : RegisterFile}

/-- `ReadQuadlet` changes no field but `isInput`. -/
theorem readQuadlet_fields {addr : BitVec 16} :
    WP w True (readQuadlet fuel s addr) c fun x _ => ∃ b, x.2 = { s with isInput := b } := by
  simp only [readQuadlet, wp_bind, wp_ite]
  refine wp_trivial fun _ _ => WP.mono setInput_fields fun s' _ hs => ?_
  refine wp_trivial fun _ _ => wp_trivial fun _ _ => wp_trivial fun ok _ => ⟨fun _ => ?_, fun _ => ?_⟩
  · exact wp_trivial fun _ _ => wp_trivial fun _ _ => wp_trivial fun _ _ => wp_trivial fun _ _ => wp_trivial fun _ _ => hs
  · exact wp_trivial fun _ _ => hs

/-- `WriteQuadlet` changes no field but `isInput`. -/
theorem writeQuadlet_fields {addr : BitVec 16} {data : BitVec 32} :
    WP w True (writeQuadlet fuel s addr data) c fun x _ => ∃ b, x.2 = { s with isInput := b } := by
  simp only [writeQuadlet, wp_bind, wp_ite]
  refine wp_trivial fun _ _ => WP.mono setOutput_fields fun s' _ hs => ?_
  refine wp_trivial fun _ _ => wp_trivial fun _ _ => wp_trivial fun _ _ => wp_trivial fun ok _ => ⟨fun _ => ?_, fun _ => ?_⟩
  · exact wp_trivial fun _ _ => wp_trivial fun _ _ => wp_trivial fun _ _ => ⟨fun _ => wp_trivial fun _ _ => hs, fun _ => hs⟩
  · exact wp_trivial fun _ _ => wp_trivial fun _ _ => ⟨fun _ => wp_trivial fun _ _ => hs, fun _ => hs⟩

/-- The driver is at rest, and the firmware has what the client is meant to see. -/
structure Agrees (T : Int) (s : Interface) (σ : Device) (f : RegisterFile) : Prop where
  resting : Device.Resting s σ
  version : s.version = 1
  timeout : s.timeout = T
  regs : σ.regs = f.regs
  mem : σ.mem = f.mem

/-- The words that a block read stores. -/
theorem stored_readBlock (addr : BitVec 16) (n : Nat) :
    stored f.regs f.mem addr 0 n = (f.readBlock bswap32 addr n).mem := by
  funext i
  simp only [stored, RegisterFile.readBlock, Nat.zero_le, true_and, Nat.zero_add, Nat.sub_zero]

/-- Every operation does what the client is meant to see. -/
theorem mmap_serves (hf : L < fuel) :
    Serves (devices T L) (mmapOps fuel) (registerFile bswap32) (Agrees T) fun _ => True := by
  intro o s σ f _ h
  obtain ⟨hrest, hv, rfl, hregs, hmem⟩ := h
  have hver : ¬ s.version < 1 := by rw [hv]; decide
  cases o with
  | readQuadlet addr =>
    refine WP.mono ((readQuadlet_device hf hrest).and_returned readQuadlet_fields) fun x σ' hx => ?_
    obtain ⟨⟨hdata, hrest', hregs', hmem'⟩, b, hb⟩ := hx
    refine ⟨by rw [hdata, hregs]; rfl, hrest', ?_, ?_, hregs'.trans hregs, hmem'.trans hmem⟩ <;> rw [hb]
    exact hv
  | writeQuadlet addr data =>
    refine WP.mono ((writeQuadlet_device hf hrest).and_returned writeQuadlet_fields) fun x σ' hx => ?_
    obtain ⟨⟨hok, -, hrest', hregs', hmem'⟩, b, hb⟩ := hx
    refine ⟨hok, hrest', ?_, ?_, by rw [hregs', hregs]; rfl, hmem'.trans hmem⟩ <;> rw [hb]
    exact hv
  | readBlock addr nBytes =>
    refine WP.mono (readBlock_device hf hver hrest) fun x σ' hx => ?_
    obtain ⟨rfl, hrest', hregs', hmem'⟩ := hx
    refine ⟨rfl, hrest', hv, rfl, hregs'.trans hregs, ?_⟩
    rw [hmem', hregs, hmem]
    exact stored_readBlock addr (nQuads nBytes)
  | writeBlock addr nBytes =>
    refine WP.mono (writeBlock_device hf hver hrest) fun x σ' hx => ?_
    obtain ⟨rfl, hrest', hregs', hmem'⟩ := hx
    exact ⟨rfl, hrest', hv, rfl, by rw [hregs', hregs, hmem]; rfl, hmem'.trans hmem⟩
  | load q =>
    simp only [mmapOps, wp_bind, wp_load]
    rintro v σ' ⟨rfl, rfl⟩
    exact ⟨congrFun hmem q, hrest, hv, rfl, hregs, hmem⟩
  | store q v =>
    simp only [mmapOps, wp_bind, wp_store]
    rintro u σ' rfl
    exact ⟨trivial, ⟨hrest.kept, hrest.wait⟩, hv, rfl, hregs, by rw [hmem]; rfl⟩

/-- A block of one word, and the register that it is in. -/
def readBack : Client (Option (BitVec 32)) := do
  let _ ← .perform (ClientOp.writeBlock 0x10 4)
  .perform (ClientOp.readQuadlet 0x10)

end FpgaV3.Proof.Mmap
