import FpgaV3.Framework.Stores
import FpgaV3.Framework.World
import FpgaV3.Impl.Memtest

/-!
# What the memory test should find

The words under test are those of a range of addresses below all registers (`Below`).

A monitor knows nothing of the tests: it keeps what the program wrote last to each
address, and notes every word read in the range that is not that (`Monitor.errors`). It
also follows the stores to `err_buf`, and sees the results in the mailbox (`Uploaded`).

A memory with faults (`memory`) decodes an address to a cell, which several addresses may
share, and answers a read as the relation `may` allows for what the cell holds: always a
word that differs in a certain bit, or anything.
-/

namespace FpgaV3.Spec

open FpgaV3.Impl FpgaV3.Impl.Memtest

/-- The address is that of one of the `n` words from `start` on. -/
def InRange (start : BitVec 32) (n : Nat) (a : BitVec 32) : Prop := ∃ q < n, wordAddr start q = a

instance (start : BitVec 32) (n : Nat) (a : BitVec 32) : Decidable (InRange start n a) :=
  inferInstanceAs (Decidable (∃ q < n, wordAddr start q = a))

/-- The words are below the registers that the test accesses. -/
def Below (start : BitVec 32) (n : Nat) : Prop := start.toNat + 4 * n ≤ ERR_INFO.toNat

/-- The number of words that are tested: `memtest_simple` fills up blocks of 16 bytes. -/
def rangeWords (size : BitVec 32) : Nat := 4 * steps size 16

/-- The random value before the `q`-th word. -/
def rand (t : Test) : Nat → BitVec 32
  | 0 => t.randval
  | q + 1 => (t.gen (rand t q) q).2

/-- The `q`-th word of a test. -/
def word (t : Test) (q : Nat) : BitVec 32 := (t.gen (rand t q) q).1

/-! ## Errors -/

/-- A word read that is not the one written: the status of the mailbox, the address, the
word written and that read. -/
structure Mismatch where
  stat : BitVec 32
  addr : BitVec 32
  ref : BitVec 32
  data : BitVec 32
deriving DecidableEq

/-- The words differ in lane `j`. -/
def Mismatch.inLane (e : Mismatch) (j : Fin 4) : Bool := e.data &&& laneMask j ≠ e.ref &&& laneMask j

/-- What was written last, the errors so far, `err_buf`, and the places in it that were
stored to. -/
structure Monitor where
  last : BitVec 32 → BitVec 32 := fun _ => 0
  errors : List Mismatch := []
  buf : Int → BitVec 32 := fun _ => 0
  stored : List Int := []

def Monitor.call (start : BitVec 32) (n : Nat) (m : Monitor) : MemEvent → Monitor
  | ⟨.regWrite a v, _⟩ => { m with last := Function.update m.last a v }
  | ⟨.regRead a, data⟩ =>
    if InRange start n a ∧ data ≠ m.last a then
      { m with errors := m.errors ++ [⟨m.last MAILBOX_STAT, a, m.last a, data⟩] }
    else m
  | ⟨.setErrBuf i v, _⟩ => { m with buf := Function.update m.buf i v, stored := m.stored ++ [i] }
  | _ => m

/-- The monitor follows the calls, whatever these are answered. -/
def monitors (start : BitVec 32) (n : Nat) : World MemOp MemOp.Ans Monitor :=
  World.obs (fun _ _ => True) (Monitor.call start n)

/-- What the monitor saw of a run. -/
def seen (start : BitVec 32) (n : Nat) (t : Trace MemOp MemOp.Ans) : Monitor := t.foldl (Monitor.call start n) {}

/-- The counters say what the monitor saw: `epp` has a bit for each test that found an
error. -/
structure Counters (g : Globals) (errors : List Mismatch) : Prop where
  werr : g.werr = errors.length
  errcnt : ∀ j, g.errcnt j = errors.countP fun e => e.inLane j
  epp : ∀ k < 32, g.epp.getLsbD k = errors.any fun e => e.stat = 100 + BitVec.ofNat 32 k

/-- The status while `memtest_simple` is running. -/
def SimpleStat (stat : BitVec 32) : Prop := ∃ k, 1 ≤ k ∧ k ≤ 8 ∧ stat = 100 + BitVec.ofNat 32 k

/-- `err_buf` has the words of the first 80 errors, and their addresses, but for those
that `memtest_simple` found. -/
def Logged (m : Monitor) : Prop := ∀ (i : Nat) e, m.errors[i]? = some e → i < 80 →
  m.buf (3 * i + 1) = e.ref ∧ m.buf (3 * i + 2) = e.data ∧ (m.buf (3 * i) = e.addr ↔ ¬ SimpleStat e.stat)

/-- The stores beside the 256 words of `err_buf`. -/
def Monitor.wild (m : Monitor) : List Int := m.stored.filter fun i => i < 0 || 256 ≤ i

/-! ## The remote command -/

/-- The start and the size are whole megabytes of the first 1024, without the first. -/
structure Megabytes (start size : BitVec 32) : Prop where
  start_le : mbyte.toNat ≤ start.toNat
  size_le : mbyte.toNat ≤ size.toNat
  end_le : start.toNat + size.toNat ≤ 1024 * mbyte.toNat
  whole : mbyte.toNat ∣ start.toNat ∧ mbyte.toNat ∣ size.toNat

/-- How a remote command begins. -/
def commandReads (ctrl start size mode : BitVec 32) : Trace MemOp MemOp.Ans :=
  [⟨.regRead R00, ctrl⟩, ⟨.regRead MAILBOX_START, start⟩, ⟨.regRead MAILBOX_SIZE, size⟩, ⟨.regRead MAILBOX_MODE, mode⟩]

/-- How it ends. -/
def doneCalls (k : BitVec 32) : Trace MemOp MemOp.Ans :=
  [⟨.regRead MAILBOX_DONE, k⟩, ⟨.regWrite MAILBOX_DONE (k + 1), ()⟩]

/-- The mailbox has the number of errors in each lane and that of all errors, or 65535 if it is larger. -/
def Uploaded (m : Monitor) : Prop :=
  (∀ j : Fin 4, m.last (resultAddr j) = BitVec.ofNat 32 (min (m.errors.countP fun e => e.inLane j) 0xffff)) ∧
    m.last (resultAddr 4) = BitVec.ofNat 32 (min m.errors.length 0xffff)

/-! ## Faults -/

/-- The cells of a memory of which the `n` words from `start` on are tested. -/
def memory {κ : Type} [DecidableEq κ] (start : BitVec 32) (n : Nat) (decode : BitVec 32 → κ)
    (may : BitVec 32 → BitVec 32 → BitVec 32 → Prop) : World MemOp MemOp.Ans (κ → BitVec 32) where
  step s
    | .regWrite a v, _, s' => s' = if InRange start n a then Function.update s (decode a) v else s
    | .regRead a, v, s' => (InRange start n a → may a (s (decode a)) v) ∧ s' = s
    | _, _, s' => s' = s

/-- The cells keep what they are given. -/
def plain (_ c data : BitVec 32) : Prop := data = c

/-- The lane of bit `b`. -/
def lane (b : Fin 32) : Fin 4 := ⟨b / 8, by omega⟩

end FpgaV3.Spec
