import FpgaV3.Spec.DriveGpio

/-!
# The calls of the gpiod driver

The rules of the calls in any world, and what each does to the lines: a bulk
only changes its own lines (`reqBus_setLines` and the like), and no call on
the lines changes the direction of the data lines but the two that set it.
-/

namespace FpgaV3.Proof.Gpiod

open FpgaV3.Spec FpgaV3.Impl FpgaV3.Impl.Gpiod

section
variable {S : Type} {w : World GpioOp GpioOp.Ans S} {lim : Prop} {σ : S}

theorem wp_setValue {g : Lines} {values : List Int} {Q : Int → S → Prop} :
    WP w lim (setValue g values) σ Q ↔ ∀ rc σ', w.step σ (.setValue g values) rc σ' → Q rc σ' := Iff.rfl

theorem wp_getValueBulk {g : Lines} {Q : Int × List Int → S → Prop} :
    WP w lim (getValueBulk g) σ Q ↔ ∀ r σ', w.step σ (.getValueBulk g) r σ' → Q r σ' := Iff.rfl

theorem wp_load {q : Nat} {Q : BitVec 32 → S → Prop} :
    WP w lim (load q) σ Q ↔ ∀ v σ', w.step σ (.load q) v σ' → Q v σ' := Iff.rfl

end

/-! ## What the parts call -/

section
variable {P : GpioOp → Prop}

theorem all_timestamp (s : Interface) (n : Nat) (ht : P .getCurTime) : (timestamp s n).All P := by
  unfold timestamp
  split
  · exact Prog.all_bind (Prog.all_perform.mpr ht) fun _ => trivial
  · trivial

theorem all_poll {timeout : Int} {t : Timespec} (hv : P (.getValue .opDone)) (ht : P .getCurTime) :
    ∀ (fuel : Nat) (val dt : Int), (pollLoop timeout t fuel val dt).All P
  | 0, _, _ => trivial
  | fuel + 1, val, dt => by
    unfold pollLoop
    split
    · refine Prog.all_bind (Prog.all_perform.mpr hv) fun v => ?_
      exact Prog.all_bind (Prog.all_perform.mpr ht) fun t => all_poll hv ht fuel _ _
    · trivial

theorem all_wait (fuel : Nat) (s : Interface) (hw : P (.eventWait .opDone s.timeout)) (hr : P (.eventRead .opDone))
    (hv : P (.getValue .opDone)) (ht : P .getCurTime) : (waitOpDone fuel s).All P := by
  unfold waitOpDone
  split
  · refine Prog.all_bind (Prog.all_perform.mpr hw) fun rc => ?_
    split
    · exact Prog.all_bind (Prog.all_perform.mpr hr) fun _ => trivial
    · trivial
  · refine Prog.all_bind (Prog.all_perform.mpr hv) fun val => ?_
    split
    · refine Prog.all_bind (Prog.all_perform.mpr ht) fun t => ?_
      exact Prog.all_bind (all_poll hv ht fuel _ _) fun _ => trivial
    · trivial

theorem all_set {g : Lines} {values : List Int} (h : P (.setValue g values)) : (setValue g values).All P :=
  Prog.all_perform.mpr h

theorem all_lower (hr : P (.setValue .reqBus [0])) (hc : P (.setValue .ctrl ctrl_zero)) : lower.All P :=
  Prog.all_bind (all_set hr) fun _ => Prog.all_bind (all_set hc) fun _ => trivial

theorem all_setInput (s : Interface) (h : P (.setDirectionInput .regData)) : (setInput s).All P := by
  unfold setInput
  split
  · trivial
  · refine Prog.all_bind (Prog.all_perform.mpr h) fun rc => ?_
    split <;> trivial

theorem all_setOutput (s : Interface) (values : List Int) (h : P (.setDirectionOutput .regData values)) :
    (setOutput s values).All P := by
  unfold setOutput
  split
  · refine Prog.all_bind (Prog.all_perform.mpr h) fun rc => ?_
    split <;> trivial
  · trivial

end

/-! ## What a bulk changes -/

variable {l : Emio} {g : Lines} {values : List Int}

@[simp] theorem dir_setLine {k : Nat} {b : Bool} : (l.setLine k b).dir = l.dir := by
  unfold Emio.setLine; split <;> rfl

@[simp] theorem en_setLine {k : Nat} {b : Bool} : (l.setLine k b).en = l.en := by
  unfold Emio.setLine; split <;> rfl

theorem getLsbD_setLine {k j : Nat} {b : Bool} (hk : k < 64) :
    (l.setLine k b).upper.getLsbD j = if k = j + 32 then b else l.upper.getLsbD j := by
  unfold Emio.setLine
  by_cases h : k < 32
  · rw [if_pos h, if_neg (by omega)]
  · rw [if_neg h, getLsbD_setBit _ (by omega)]
    by_cases hj : k = j + 32
    · rw [if_pos hj, if_pos (by omega)]
    · rw [if_neg hj, if_neg (by omega)]

@[simp] theorem dir_setLines : (l.setLines g values).dir = l.dir := by
  unfold Emio.setLines
  induction g.offsets.zip values generalizing l with
  | nil => rfl
  | cons x xs ih => rw [List.foldl_cons, ih, dir_setLine]

@[simp] theorem en_setLines : (l.setLines g values).en = l.en := by
  unfold Emio.setLines
  induction g.offsets.zip values generalizing l with
  | nil => rfl
  | cons x xs ih => rw [List.foldl_cons, ih, en_setLine]

/-- A bulk leaves the lines of others alone. -/
theorem getLsbD_setLines {j : Nat}
    (h : ∀ k ∈ g.offsets, k - INDEX_EMIO_START < 64 ∧ k - INDEX_EMIO_START ≠ j + 32) :
    (l.setLines g values).upper.getLsbD j = l.upper.getLsbD j := by
  have hz : ∀ x ∈ g.offsets.zip values, x.1 - INDEX_EMIO_START < 64 ∧ x.1 - INDEX_EMIO_START ≠ j + 32 :=
    fun x hx => h _ (List.of_mem_zip hx).1
  unfold Emio.setLines
  generalize g.offsets.zip values = xs at hz ⊢
  induction xs generalizing l with
  | nil => rfl
  | cons x xs ih =>
    rw [List.forall_mem_cons] at hz
    rw [List.foldl_cons, ih hz.2, getLsbD_setLine hz.1.1, if_neg hz.1.2]

theorem reqBus_setLines (h : g ≠ .reqBus) : (l.setLines g values).reqBus = l.reqBus := by
  refine getLsbD_setLines ?_
  cases g <;> first | exact absurd rfl h | decide

theorem addrLsb_setLines (h : g ≠ .addrLsb) : (l.setLines g values).addrLsb = l.addrLsb := by
  refine getLsbD_setLines ?_
  cases g <;> first | exact absurd rfl h | decide

theorem regWen_setLines (h : g ≠ .ctrl) : (l.setLines g values).regWen = l.regWen := by
  refine getLsbD_setLines ?_
  cases g <;> first | exact absurd rfl h | decide

theorem blkStart_setLines (h : g ≠ .ctrl) : (l.setLines g values).blkStart = l.blkStart := by
  refine getLsbD_setLines ?_
  cases g <;> first | exact absurd rfl h | decide

theorem blkEnd_setLines (h : g ≠ .ctrl) : (l.setLines g values).blkEnd = l.blkEnd := by
  refine getLsbD_setLines ?_
  cases g <;> first | exact absurd rfl h | decide

theorem reqBus_set (v : Int) : (l.setLines .reqBus [v]).reqBus = (v != 0) := by
  rw [Emio.reqBus, show l.setLines .reqBus [v] = l.setLine 48 (v != 0) from rfl, getLsbD_setLine (by omega)]
  rfl

theorem addrLsb_set (v : Int) : (l.setLines .addrLsb [v]).addrLsb = (v != 0) := by
  rw [Emio.addrLsb, show l.setLines .addrLsb [v] = l.setLine 55 (v != 0) from rfl, getLsbD_setLine (by omega)]
  rfl

/-- The control lines after the three of them were set. -/
theorem ctrl_set (x y z : Int) : (l.setLines .ctrl [x, y, z]).regWen = (x != 0) ∧
    (l.setLines .ctrl [x, y, z]).blkStart = (y != 0) ∧ (l.setLines .ctrl [x, y, z]).blkEnd = (z != 0) := by
  have h : l.setLines .ctrl [x, y, z] = ((l.setLine 50 (x != 0)).setLine 51 (y != 0)).setLine 52 (z != 0) := rfl
  simp only [Emio.regWen, Emio.blkStart, Emio.blkEnd, h]
  refine ⟨?_, ?_, ?_⟩
  · rw [getLsbD_setLine (by omega), if_neg (by omega), getLsbD_setLine (by omega), if_neg (by omega),
      getLsbD_setLine (by omega), if_pos rfl]
  · rw [getLsbD_setLine (by omega), if_neg (by omega), getLsbD_setLine (by omega), if_pos rfl]
  · rw [getLsbD_setLine (by omega), if_pos rfl]

/-! ## What a call changes -/

/-- The lines that a call sets. -/
def sets : GpioOp → Lines → Prop
  | .setValue g _, g' | .requestOutput g _, g' => g' = g
  | .setDirectionOutput _ _, g' => g' = .regData
  | _, _ => False

/-- What depends on the levels of other lines only, a call leaves as it is. -/
theorem call_keeps {β : Type} {f : Emio → β} {e : GpioOp} {r : e.Ans}
    (hs : ∀ g values, sets e g → f (l.setLines g values) = f l)
    (hd : ∀ (l : Emio) (d en : BitVec 32), f { l with dir := d, en := en } = f l) : f (l.call ⟨e, r⟩) = f l := by
  have hite {p : Prop} [Decidable p] {x : Emio} (hx : f x = f l) : f (if p then x else l) = f l := by
    split
    · exact hx
    · rfl
  cases e with
  | setValue g values => exact hite (hs g values rfl)
  | requestOutput g values => exact hite (hs g values rfl)
  | requestInput g => cases g with
    | regData => exact hite (hd l 0 l.en)
    | _ => rfl
  | setDirectionInput g => cases g with
    | regData => exact hite (hd l 0 l.en)
    | _ => rfl
  | setDirectionOutput g values => cases g with
    | regData => exact hite ((hd _ _ _).trans (hs .regData values rfl))
    | _ => rfl
  | _ => rfl

end FpgaV3.Proof.Gpiod
