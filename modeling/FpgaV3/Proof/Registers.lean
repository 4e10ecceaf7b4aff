import FpgaV3.Impl.Mmap
import FpgaV3.Spec.Drive
import FpgaV3.Spec.Handshake

/-!
# The register accesses

The rules of the calls that access the GPIO registers, in any world, and the
bits of the words that the block transfers write to `Reg_OutputUpper`.
-/

namespace FpgaV3.Proof

open FpgaV3.Spec FpgaV3.Impl

section
variable {S : Type} {w : World RegOp RegOp.Ans S} {lim : Prop} {σ : S}

theorem wp_registerRead {r : Reg} {Q : BitVec 32 → S → Prop} :
    WP w lim (registerRead r) σ Q ↔ ∀ v σ', w.step σ (.regRead r) v σ' → Q v σ' := Iff.rfl

theorem wp_registerWrite {r : Reg} {v : BitVec 32} {Q : Unit → S → Prop} :
    WP w lim (registerWrite r v) σ Q ↔ ∀ u σ', w.step σ (.regWrite r v) u σ' → Q u σ' := Iff.rfl

theorem wp_load {q : Nat} {Q : BitVec 32 → S → Prop} :
    WP w lim (load q) σ Q ↔ ∀ v σ', w.step σ (.load q) v σ' → Q v σ' := Iff.rfl

theorem wp_store {q : Nat} {v : BitVec 32} {Q : Unit → S → Prop} :
    WP w lim (store q v) σ Q ↔ ∀ u σ', w.step σ (.store q v) u σ' → Q u σ' := Iff.rfl

end

/-- What the calls of the block loop satisfy, its parts satisfying it at the
quadlets of the block. -/
theorem all_blockLoop {P : RegOp → Prop} {ready done : Nat → RegProg Unit} {wait : RegProg Bool} {N : Nat}
    (hr : ∀ q < N, (ready q).All P) (hw : wait.All P) (hd : ∀ q < N, (done q).All P)
    (hu : ∀ v, P (.regWrite .outputUpper v)) :
    ∀ (n q : Nat) (addr : BitVec 16) (outreg : BitVec 32), q + n = N →
      (blockLoop ready wait done N n q addr outreg).All P
  | 0, _, _, _, _ => trivial
  | n + 1, q, addr, outreg, hN => by
    refine Prog.all_bind (hr q (by omega)) fun _ => Prog.all_bind (Prog.all_perform.mpr (hu _)) fun _ => ?_
    refine Prog.all_bind hw fun ok => ?_
    split
    · exact Prog.all_bind (hd q (by omega)) fun _ => all_blockLoop hr hw hd hu n (q + 1) _ _ (by omega)
    · exact Prog.all_bind (Prog.all_perform.mpr (hu _)) fun _ => trivial

/-- The call touches the data of quadlets below `n` only. -/
def Within (n : Nat) (e : RegOp) : Prop := ∀ q ∈ touches e, q < n

theorem within_none {n : Nat} {e : RegOp} (he : touches e = []) : Within n e := by
  rw [Within, he]
  exact fun _ h => absurd h List.not_mem_nil

theorem within_one {n q : Nat} {e : RegOp} (he : touches e = [q]) (hq : q < n) : Within n e := by
  rw [Within, he]
  exact fun _ h => by rwa [List.mem_singleton.mp h]

theorem within_touched {n : Nat} {α : Type} {p : RegProg α} (hp : p.All (Within n)) {t : Trace RegOp RegOp.Ans}
    {a : α} (hr : p.Runs t a) : ∀ q ∈ touched t, q < n := by
  intro q hq
  obtain ⟨x, hx, hq⟩ := List.mem_flatMap.mp hq
  exact hp.trace hr x hx q hq

/-! ## The words written to `Reg_OutputUpper` -/

theorem and_one_ne_zero (addr : BitVec 16) : addr &&& 0x0001 ≠ 0 ↔ addr.getLsbD 0 = true := by
  rw [show (0x0001 : BitVec 16) = 1#16 from rfl, BitVec.and_one_eq_setWidth_ofBool_getLsbD]
  cases addr.getLsbD 0 <;> decide

theorem updateLsb_eq (addr : BitVec 16) (v : BitVec 32) : updateLsb addr v = setBit v 23 (addr.getLsbD 0) := by
  unfold updateLsb
  by_cases h : addr.getLsbD 0 = true
  · rw [if_pos ((and_one_ne_zero addr).mpr h), h]; rfl
  · rw [if_neg (mt (and_one_ne_zero addr).mp h), Bool.eq_false_iff.mpr h]; rfl

theorem markLast_eq (n q : Nat) (v : BitVec 32) :
    markLast n q v = if q = n - 1 then setBit (setBit v 19 false) 20 true else v := rfl

theorem getLsbD_updateLsb (addr : BitVec 16) (v : BitVec 32) (i : Nat) :
    (updateLsb addr v).getLsbD i = if i = 23 then addr.getLsbD 0 else v.getLsbD i := by
  rw [updateLsb_eq, getLsbD_setBit _ (by omega)]

theorem getLsbD_markLast (n q : Nat) (v : BitVec 32) (i : Nat) :
    (markLast n q v).getLsbD i =
      if q = n - 1 then if i = 20 then true else if i = 19 then false else v.getLsbD i else v.getLsbD i := by
  rw [markLast_eq]
  split
  · rw [getLsbD_setBit _ (by omega), getLsbD_setBit _ (by omega)]
  · rfl

theorem getLsbD_succ (addr : BitVec 16) : (addr + 1).getLsbD 0 = !addr.getLsbD 0 := by
  rw [BitVec.getLsbD_add (by omega), BitVec.carry_zero]
  simp

theorem reqBus_request (v : BitVec 32) : reqBus (v ||| Bits.requestBus) = true := by
  simp [reqBus, Bits.requestBus]

theorem reqBus_updateLsb (addr : BitVec 16) (v : BitVec 32) : reqBus (updateLsb addr v) = reqBus v := by
  unfold updateLsb
  split <;> simp [reqBus, Bits.lsb]

theorem reqBus_markLast (n q : Nat) (v : BitVec 32) : reqBus (markLast n q v) = reqBus v := by
  unfold markLast
  split <;> simp [reqBus, Bits.blkStart, Bits.blkEnd]

theorem reqBus_next {addr : BitVec 16} {n q : Nat} {v : BitVec 32} (h : reqBus v = true) :
    reqBus (updateLsb addr (markLast n q v)) = true := by
  rw [reqBus_updateLsb, reqBus_markLast, h]

theorem reqBus_zero : reqBus 0 = false := by decide

/-- A word that opens a block: `blk_start` and `req_bus` are set, `reg_wen` and
`blk_end` are not. -/
structure Opening (v : BitVec 32) : Prop where
  req : v.getLsbD 16 = true
  wen : v.getLsbD 18 = false
  start : v.getLsbD 19 = true
  fin : v.getLsbD 20 = false

theorem opening (addr : BitVec 16) : Opening (addr.setWidth 32 ||| Bits.blkStart ||| Bits.requestBus) := by
  constructor <;> simp [Bits.blkStart, Bits.requestBus]

theorem Opening.next {v : BitVec 32} (h : Opening v) {n q : Nat} (hq : q ≠ n - 1) (addr : BitVec 16) :
    Opening (updateLsb addr (markLast n q v)) := by
  constructor <;> simp only [getLsbD_updateLsb, getLsbD_markLast, hq, Nat.reduceEqDiff, if_false]
  · exact h.req
  · exact h.wen
  · exact h.start
  · exact h.fin

/-- The lines of an access of a block. -/
theorem Opening.lines {v : BitVec 32} (h : Opening v) {n q : Nat} {addr : BitVec 16} {l : Emio}
    (hl : l.upper = updateLsb addr (markLast n q v)) :
    l.reqBus = true ∧ l.addrLsb = addr.getLsbD 0 ∧ l.frame = (decide (q ≠ n - 1), decide (q = n - 1)) := by
  simp only [Emio.reqBus, Emio.addrLsb, Emio.frame, Emio.blkStart, Emio.blkEnd, hl, getLsbD_updateLsb,
    getLsbD_markLast]
  by_cases hq : q = n - 1 <;> simp only [hq, h.req, h.start, h.fin, Nat.reduceEqDiff, if_true, if_false,
    ne_eq, not_true_eq_false, not_false_eq_true, decide_true, decide_false, and_self]

end FpgaV3.Proof
