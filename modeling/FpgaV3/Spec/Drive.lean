import Mathlib.Algebra.Group.Nat.Defs
import FpgaV3.Impl.Mmap
import FpgaV3.Spec.Emio

/-!
# The lines as the drivers set them

How the register accesses of a driver change the EMIO lines (`Bus.drive`),
and what the accesses of a request must look like: in the direction of the
request (`Directed`) and, for a block, framed by `blk_start` and `blk_end`
(`Framed`). Between requests the bus is idle (`Kept`).
-/

namespace FpgaV3.Spec

open FpgaV3.Impl

/-- The lines after a write to a GPIO register. -/
def Emio.write (l : Emio) : Reg → BitVec 32 → Emio
  | .outputLower, v => { l with lower := v }
  | .outputUpper, v => { l with upper := v }
  | .dirLower, v => { l with dir := v }
  | .outEnLower, v => { l with en := v }
  | _, _ => l

/-- The bus after a call. -/
def Bus.drive (b : Bus) : RegEvent → Bus
  | ⟨.regWrite r v, _⟩ => b.put (b.lines.write r v)
  | _ => b

/-- The lines follow the calls, whatever these are answered. -/
def buses : World RegOp RegOp.Ans Bus := World.obs (fun _ _ => True) Bus.drive

/-- The data lines of an access are in the direction of the request: inputs
for a read, enabled outputs for a write. -/
def Directed (req : Request) (l : Emio) : Prop := if req.isRead then l.DataIn else l.DataOut

/-- The driver knows the direction of the data lines. -/
def Synced (s : Interface) (l : Emio) : Prop := if s.isInput then l.DataIn else l.DataOut

/-- Between requests: the bus is idle, and the driver knows the direction of
the data lines. -/
structure Kept (s : Interface) (b : Bus) : Prop where
  idle : b.lines.Idle
  synced : Synced s b.lines

theorem Kept.input {s : Interface} {b : Bus} (h : Kept s b) (hin : s.isInput = true) : b.lines.dir = 0 := by
  have := h.synced
  rwa [Synced, if_pos hin] at this

theorem Kept.output {s : Interface} {b : Bus} (h : Kept s b) (hin : s.isInput = false) :
    b.lines.dir = BitVec.allOnes 32 ∧ b.lines.en = BitVec.allOnes 32 := by
  have := h.synced
  rwa [Synced, if_neg (by simp [hin])] at this

/-- No call is in progress: the bus is idle, and `isInput` says whether the data
lines are inputs. -/
structure AtRest (s : Interface) (b : Bus) : Prop where
  idle : b.lines.Idle
  input : s.isInput = true ↔ b.lines.DataIn

theorem Kept.atRest {s : Interface} {b : Bus} (h : Kept s b) : AtRest s b where
  idle := h.idle
  input := by
    cases hin : s.isInput
    · refine iff_of_false Bool.false_ne_true fun (hd : b.lines.dir = 0) => ?_
      rw [(h.output hin).1] at hd
      exact absurd hd (by decide)
    · exact iff_of_true rfl (h.input hin)

/-- What a request leads to, `as` being the accesses before it. -/
structure Served (req : Request) (as : List Emio) (s : Interface) (b : Bus) (acc : List Emio) : Prop where
  kept : Kept s b
  accesses : b.accesses = as ++ acc
  directed : ∀ l ∈ acc, Directed req l

/-- The number of quadlets of a block. -/
def quads (nBytes : BitVec 32) : Nat := (nBytes.toNat + 3) / 4

/-- `blk_start` and `blk_end` for each access of a block of `n` quadlets. -/
def frames (n : Nat) : List (Bool × Bool) := (List.range n).map fun q => (decide (q < n - 1), decide (q = n - 1))

def Emio.frame (l : Emio) : Bool × Bool := (l.blkStart, l.blkEnd)

/-- A block of `n` quadlets: one access for each, in its frame, and no data
beyond them touched. -/
structure Framed (n : Nat) (accesses : List Emio) (touched : List Nat) : Prop where
  accesses : accesses.map Emio.frame = frames n
  touched : ∀ q ∈ touched, q < n

/-- The block data that a call touches. -/
def touches : RegOp → List Nat
  | .load q | .store q _ => [q]
  | _ => []

def touched (t : Trace RegOp RegOp.Ans) : List Nat := t.flatMap fun x => touches x.1

theorem nQuads_eq {nBytes : BitVec 32} (h : nBytes.toNat + 3 < 2 ^ 32) : nQuads nBytes = quads nBytes := by
  simp only [nQuads, quads, BitVec.toNat_udiv, BitVec.toNat_add]
  rw [show (3 : BitVec 32).toNat = 3 from rfl, show (4 : BitVec 32).toNat = 4 from rfl, Nat.mod_eq_of_lt h]

/-- `nBytes+3` wraps around: no quadlet is transferred. -/
theorem nQuads_wrap {nBytes : BitVec 32} (h : ¬ nBytes.toNat + 3 < 2 ^ 32) : nQuads nBytes = 0 := by
  have := nBytes.isLt
  simp only [nQuads, BitVec.toNat_udiv, BitVec.toNat_add]
  rw [show (3 : BitVec 32).toNat = 3 from rfl, show (4 : BitVec 32).toNat = 4 from rfl]
  omega

end FpgaV3.Spec
