import FpgaV3.Spec.Flash

/-!
# The system calls, complete

What each call does to the partition and the offsets, if it completes, in any
world whose calls do (`Complete`): because what is asked for is there
(`complete_nor`), or because the other runs are left out (`complete_flaky`).
-/

namespace FpgaV3.Proof.Qspi

open FpgaV3.Spec FpgaV3.Impl FpgaV3.Impl.Qspi

variable {full lim : Prop} {m : Media} {w : World QspiOp QspiOp.Ans Nor} {σ : Nor} {n : Nat} {data : List Byte}

/-- What the call asks for is there. -/
def Fits (m : Media) (σ : Nor) : QspiOp → Prop
  | .read .flash n => σ.pos + n ≤ m.size
  | .read .file n => σ.filePos + n ≤ m.file.length
  | .write data => σ.pos + data.length ≤ m.size
  | .lseek off => 0 ≤ (σ.pos : Int) + off
  | _ => True

/-- The calls of the world complete, if what they ask for is there. Files are
opened and buffers allocated only if the world is `full`; the calls of one that is
not complete anyway. -/
structure Complete (full : Prop) (m : Media) (w : World QspiOp QspiOp.Ans Nor) : Prop where
  call : ∀ {σ σ' e r}, w.step σ e r σ' → (full → Fits m σ e) → Answers m σ ⟨e, r⟩ ∧ Completes ⟨e, r⟩ ∧ σ' = σ.after ⟨e, r⟩
  opens : ∀ {σ σ' fd ok}, full → w.step σ (.openFd fd) ok σ' → ok = true
  allocates : ∀ {σ σ' n ok}, full → w.step σ (.malloc n) ok σ' → ok = true

theorem complete_flaky (m : Media) : Complete False m (flaky m Completes) where
  call h _ := ⟨h.1.1, h.1.2, h.2⟩
  opens h := h.elim
  allocates h := h.elim

theorem nor_answers (e : QspiOp) : Answers m σ ⟨e, ((nor m).step σ e).1⟩ := by
  cases e with
  | memGetInfo => exact fun _ => rfl
  | fstat => rfl
  | read fd n =>
    cases fd with
    | flash => exact fun l hl => ⟨_, Nat.le_refl _, (Option.some.inj hl).symm⟩
    | file => exact fun l hl => ⟨n, Nat.le_refl n, (Option.some.inj hl).symm⟩
  | write data =>
    refine Or.inr ⟨Int.natCast_nonneg _, ?_⟩
    show ((data.take (m.size - σ.pos)).length : Int) ≤ (min data.length (m.size - σ.pos) : Nat)
    rw [List.length_take]
    omega
  | lseek off => exact Or.inr rfl
  | _ => trivial

/-- A call that asks for what is there completes. -/
theorem nor_completes {e : QspiOp} (h : Fits m σ e) : Completes ⟨e, ((nor m).step σ e).1⟩ ∧
    ((nor m).step σ e).2 = σ.after ⟨e, ((nor m).step σ e).1⟩ := by
  cases e with
  | openFd fd => cases fd <;> exact ⟨trivial, rfl⟩
  | read fd n =>
    cases fd with
    | flash =>
      have hfit : σ.pos + n ≤ m.size := h
      have hmin : min n (m.size - σ.pos) = n := Nat.min_eq_left (by omega)
      have hlen := length_chunk σ.flash σ.pos (min n (m.size - σ.pos))
      refine ⟨congrArg some (hlen.trans hmin), ?_⟩
      show { σ with pos := σ.pos + min n (m.size - σ.pos) } = { σ with pos := σ.pos + (chunk _ _ _).length }
      rw [hlen]
    | file =>
      have hfit : σ.filePos + n ≤ m.file.length := h
      refine ⟨congrArg some ?_, rfl⟩
      rw [List.length_take, List.length_drop]
      omega
  | write data =>
    have hfit : σ.pos + data.length ≤ m.size := h
    have hall : data.take (m.size - σ.pos) = data := List.take_of_length_le (by omega)
    constructor
    · show ((data.take (m.size - σ.pos)).length : Int) = data.length
      rw [hall]
    · show σ.write (data.take (m.size - σ.pos)) =
        if 0 ≤ ((data.take (m.size - σ.pos)).length : Int) then
          σ.write (data.take ((data.take (m.size - σ.pos)).length : Int).toNat)
        else σ
      rw [hall, if_pos (Int.natCast_nonneg _), Int.toNat_natCast, List.take_length]
  | lseek off =>
    have hfit : 0 ≤ (σ.pos : Int) + off := h
    refine ⟨hfit, ?_⟩
    show { σ with pos := ((σ.pos : Int) + off).toNat } =
      if 0 ≤ (σ.pos : Int) + off then { σ with pos := ((σ.pos : Int) + off).toNat } else σ
    rw [if_pos hfit]
  | memGetInfo | memErase _ _ => exact ⟨rfl, rfl⟩
  | _ => exact ⟨trivial, rfl⟩

theorem complete_nor (m : Media) : Complete True m (nor m).world where
  call {σ σ' e r} hs hfit := by
    have hanswers := nor_answers (m := m) (σ := σ) e
    have hcompletes := nor_completes (hfit trivial)
    rw [Env.step_world] at hs
    rw [hs] at hanswers hcompletes
    exact ⟨hanswers, hcompletes⟩
  opens {σ σ' fd ok} _ hs := by
    rw [Env.step_world] at hs
    cases fd <;> exact (Prod.mk.inj hs).1.symm
  allocates {σ σ' n ok} _ hs := (Prod.mk.inj hs).1.symm

/-! ## The calls -/

variable (hw : Complete full m w)
include hw

/-- What holds of every answer of a call that completes holds of the call. -/
theorem wp_complete {e : QspiOp} {Q : e.Ans → Nor → Prop} (hfit : full → Fits m σ e)
    (h : ∀ r, Answers m σ ⟨e, r⟩ → Completes ⟨e, r⟩ → Q r (σ.after ⟨e, r⟩)) : WP w lim (.perform e) σ Q := by
  intro r σ' hs
  obtain ⟨ha, hc, rfl⟩ := hw.call hs hfit
  exact h r ha hc

theorem wp_openFlash {Q : Bool → Nor → Prop} (h : Q true { σ with pos := 0 }) (hfail : ¬ full → Q false σ) :
    WP w lim (.perform (QspiOp.openFd .flash)) σ Q := by
  intro ok σ' hs
  obtain ⟨-, -, rfl⟩ := hw.call hs fun _ => trivial
  cases ok with
  | true => exact h
  | false => exact hfail fun hfull => Bool.false_ne_true (hw.opens hfull hs)

theorem wp_openFile {Q : Bool → Nor → Prop} (h : Q true { σ with filePos := 0 }) (hfail : ¬ full → Q false σ) :
    WP w lim (.perform (QspiOp.openFd .file)) σ Q := by
  intro ok σ' hs
  obtain ⟨-, -, rfl⟩ := hw.call hs fun _ => trivial
  cases ok with
  | true => exact h
  | false => exact hfail fun hfull => Bool.false_ne_true (hw.opens hfull hs)

theorem wp_malloc {Q : Bool → Nor → Prop} (h : ∀ ok, (full → ok = true) → Q ok σ) :
    WP w lim (.perform (QspiOp.malloc n)) σ Q := by
  intro ok σ' hs
  obtain ⟨-, -, rfl⟩ := hw.call hs fun _ => trivial
  exact h ok fun hfull => hw.allocates hfull hs

theorem wp_closeFd {Q : Unit → Nor → Prop} (fd : Fd) (h : Q () σ) : WP w lim (.perform (QspiOp.closeFd fd)) σ Q :=
  wp_complete hw (fun _ => trivial) fun _ _ _ => h

theorem wp_memGetInfo {Q : Int × Nat → Nor → Prop} (h : Q (0, m.erasesize) σ) :
    WP w lim (.perform QspiOp.memGetInfo) σ Q := by
  refine wp_complete hw (fun _ => trivial) fun r ha hc => ?_
  have hr : r = (0, m.erasesize) := Prod.ext hc (ha hc)
  rw [hr]
  exact h

theorem wp_fstat {Q : Int × Nat → Nor → Prop} (h : ∀ rc, Q (rc, m.file.length) σ) :
    WP w lim (.perform QspiOp.fstat) σ Q := by
  refine wp_complete hw (fun _ => trivial) fun r ha _ => ?_
  have hr : r = (r.1, m.file.length) := Prod.ext rfl ha
  rw [hr]
  exact h r.1

theorem wp_memUnlock {Q : Int → Nor → Prop} {start length : Nat} (h : ∀ rc, Q rc σ) :
    WP w lim (.perform (QspiOp.memUnlock start length)) σ Q :=
  wp_complete hw (fun _ => trivial) fun rc _ _ => h rc

theorem wp_memErase {Q : Int → Nor → Prop} {start length : Nat} (h : Q 0 (σ.erased start length)) :
    WP w lim (.perform (QspiOp.memErase start length)) σ Q := by
  refine wp_complete hw (fun _ => trivial) fun rc _ hc => ?_
  have hrc : rc = 0 := hc
  rw [hrc]
  exact h

theorem wp_write {Q : Int → Nor → Prop} (hfit : full → σ.pos + data.length ≤ m.size) (h : Q data.length (σ.write data)) :
    WP w lim (.perform (QspiOp.write data)) σ Q := by
  refine wp_complete hw hfit fun rc _ hc => ?_
  have hrc : rc = (data.length : Int) := hc
  show Q rc (if 0 ≤ rc then σ.write (data.take rc.toNat) else σ)
  rw [hrc, if_pos (Int.natCast_nonneg _), Int.toNat_natCast, List.take_length]
  exact h

theorem wp_lseek {Q : Int → Nor → Prop} {off : Int} {p : Nat} (hp : (σ.pos : Int) + off = p)
    (h : Q p { σ with pos := p }) : WP w lim (.perform (QspiOp.lseek off)) σ Q := by
  have hfit : 0 ≤ (σ.pos : Int) + off := by omega
  refine wp_complete hw (fun _ => hfit) fun r ha hc => ?_
  have hr0 : (0 : Int) ≤ r := hc
  have hneg : ¬ r = (-1 : Int) := by
    intro hr
    rw [hr] at hr0
    exact absurd hr0 (by decide)
  have hr : r = (p : Int) := (ha.resolve_left hneg).trans hp
  show Q r (if 0 ≤ r then { σ with pos := r.toNat } else σ)
  rw [if_pos hr0, hr]
  exact h

theorem wp_readFlash {Q : Option (List Byte) → Nor → Prop} (hfit : full → σ.pos + n ≤ m.size)
    (h : Q (some (chunk σ.flash σ.pos n)) { σ with pos := σ.pos + n }) :
    WP w lim (.perform (QspiOp.read .flash n)) σ Q := by
  refine wp_complete hw hfit fun r ha hc => ?_
  obtain ⟨l, rfl, hlen⟩ := Option.map_eq_some_iff.mp hc
  obtain ⟨k, -, rfl⟩ := ha l rfl
  have hk : k = n := (length_chunk σ.flash σ.pos k).symm.trans hlen
  rw [hk]
  show Q (some (chunk σ.flash σ.pos n)) { σ with pos := σ.pos + (chunk σ.flash σ.pos n).length }
  rwa [length_chunk]

theorem wp_readFile {Q : Option (List Byte) → Nor → Prop} (hfit : full → σ.filePos + n ≤ m.file.length)
    (h : Q (some ((m.file.drop σ.filePos).take n)) { σ with filePos := σ.filePos + n }) :
    WP w lim (.perform (QspiOp.read .file n)) σ Q := by
  refine wp_complete hw hfit fun r ha hc => ?_
  obtain ⟨l, rfl, hlen⟩ := Option.map_eq_some_iff.mp hc
  obtain ⟨k, hkn, rfl⟩ := ha l rfl
  have hk : k = n := Nat.le_antisymm hkn (hlen ▸ List.length_take_le k _)
  rw [hk] at hlen ⊢
  show Q (some ((m.file.drop σ.filePos).take n))
    { σ with filePos := σ.filePos + ((m.file.drop σ.filePos).take n).length }
  rwa [hlen]

end FpgaV3.Proof.Qspi
