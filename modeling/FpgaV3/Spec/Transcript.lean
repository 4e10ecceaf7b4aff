import FpgaV3.Spec.Emio
import FpgaV3.Impl.Prom

/-!
# Transcripts

What a driver writes to the output registers, in order (`Transcript.outputs`),
with the data samples and what is stored in the caller's data. The transcript
of a request does not depend on the driver: it is its `script`.

The standalone library checks a sample of `Reg_InputUpper` for the version, and
one after it has set the direction of the data lines for that direction
(`Sane`).
-/

namespace FpgaV3.Spec

open FpgaV3.Impl

/-- The direction set since the last write to `Reg_OutputUpper`, the writes to
the output registers, the samples of `Reg_InputLower`, and the words stored. -/
structure Transcript where
  dir : Option (BitVec 32) := none
  outputs : List (Reg × BitVec 32) := []
  samples : List (BitVec 32) := []
  stored : List (Nat × BitVec 32) := []

/-- The transcript after a call. -/
def Transcript.call (x : Transcript) : RegEvent → Transcript
  | ⟨.regWrite .outputLower v, _⟩ => { x with outputs := x.outputs ++ [(.outputLower, v)] }
  | ⟨.regWrite .outputUpper v, _⟩ => { x with dir := none, outputs := x.outputs ++ [(.outputUpper, v)] }
  | ⟨.regWrite .dirLower v, _⟩ => { x with dir := some v }
  | ⟨.regRead .inputLower, v⟩ => { x with samples := x.samples ++ [v] }
  | ⟨.store q v, _⟩ => { x with stored := x.stored ++ [(q, v)] }
  | _ => x

/-- The caller's block data are `d`. -/
def Loads (d : Nat → BitVec 32) : RegEvent → Prop
  | ⟨.load q, v⟩ => v = d q
  | _ => True

/-- A firmware of version 1, which passes the checks of the direction that was
set. -/
def Sane (x : Transcript) : RegEvent → Prop
  | ⟨.regRead .inputUpper, upper⟩ => (upper &&& Bits.version) >>> 28 = 1 ∧
      ∀ dir, x.dir = some dir → upper &&& (Bits.requestBus ||| Bits.write) = if dir = 0 then 0 else Bits.write
  | _ => True

/-- The transcript of calls whose block data are `d`. -/
def transcripts (d : Nat → BitVec 32) : World RegOp RegOp.Ans Transcript :=
  World.obs (fun _ x => Loads d x) Transcript.call

/-- The same, of a firmware that passes the checks. -/
def saneTranscripts (d : Nat → BitVec 32) : World RegOp RegOp.Ans Transcript :=
  World.obs (fun s x => Sane s x ∧ Loads d x) Transcript.call

/-- The writes of a block of `N` quadlets from quadlet `q` on, `n` being left:
`ready q`, then the request. -/
def blockOutputs (ready : Nat → List (Reg × BitVec 32)) (N : Nat) :
    (n q : Nat) → BitVec 16 → BitVec 32 → List (Reg × BitVec 32)
  | 0, _, _, _ => []
  | n + 1, q, addr, outreg =>
    let outreg := updateLsb addr (markLast N q outreg)
    ready q ++ (.outputUpper, outreg) :: blockOutputs ready N n (q + 1) (addr + 1) outreg

/-- The writes of a quadlet to be written. -/
def quadletOutputs (addr : BitVec 16) (data : BitVec 32) : List (Reg × BitVec 32) :=
  [(.outputLower, data), (.outputUpper, addr.setWidth 32 ||| Bits.regWen ||| Bits.requestBus), (.outputUpper, 0)]

/-- The writes of a request, `d` being the words on the data lines. -/
def script (d : Nat → BitVec 32) : Request → List (Reg × BitVec 32)
  | .readQuadlet addr => [(.outputUpper, addr.setWidth 32 ||| Bits.requestBus), (.outputUpper, 0)]
  | .writeQuadlet addr data => quadletOutputs addr data
  | .readBlock addr nBytes => blockOutputs (fun _ => []) (nQuads nBytes) (nQuads nBytes) 0 addr
      (addr.setWidth 32 ||| Bits.blkStart ||| Bits.requestBus) ++ [(.outputUpper, 0)]
  | .writeBlock addr nBytes => blockOutputs (fun q => [(.outputLower, d q)]) (nQuads nBytes) (nQuads nBytes) 0 addr
      (addr.setWidth 32 ||| Bits.blkStart ||| Bits.requestBus) ++ [(.outputUpper, 0)]

/-- The writes of a copy to the PROM registers. -/
def promScript (d : Nat → BitVec 32) (n : Nat) : List (Reg × BitVec 32) :=
  (List.range n).flatMap fun i => quadletOutputs (0x2000 + BitVec.ofNat 16 i) (bswap32 (d i))

end FpgaV3.Spec
