import FpgaV3.Proof.Board.Switch
import FpgaV3.Spec.Reads

/-!
# Failed reads of the switch

A position is reported with the first sample after which it was held (`trace_check`),
so what the test does is decided by which positions were held, and when. This does not
depend on the samples that could not be read if and only if no position needs them
(`testBoardID_same_iff`).
-/

namespace FpgaV3.Proof.Board

open FpgaV3.Spec FpgaV3.Spec.Board FpgaV3.Impl FpgaV3.Impl.Board

variable {xs xs' : List Nat} {s s' : Switch} {a k n i fuel : Nat} {status : Nat → Option (BitVec 32)}
  {f f' status_reg status_reg' : Nat → BitVec 32}

/-! ## When a position was held -/

theorem getElem?_ids : (ids f n)[i]? = some k ↔ i < n ∧ boardId (f i) = k := by
  simp only [ids, List.getElem?_eq_some_iff, List.length_map, List.length_range, List.getElem_map, List.getElem_range,
    exists_prop]

theorem held_ids_iff : Held k (ids f n) ↔ ∃ m, m + 11 ≤ n ∧ ∀ i, m ≤ i → i < m + 11 → boardId (f i) = k := by
  have hlength : (ids f n).length = n := by rw [ids, List.length_map, List.length_range]
  rw [Held, List.infix_iff_getElem?]
  simp only [List.length_replicate, List.getElem_replicate, getElem?_ids, hlength]
  refine exists_congr fun m => ⟨fun h => ⟨by omega, fun i hmi hi => ?_⟩, fun h => ⟨by omega, fun i hi => ?_⟩⟩
  · have hread := (h.2 (i - m) (by omega)).2
    rwa [Nat.sub_add_cancel hmi] at hread
  · exact ⟨by omega, h.2 (i + m) (by omega) (by omega)⟩

theorem counted_zero (f : Nat → BitVec 32) : Counted (ids f 0) {} := counted_nil

theorem held_mono (h : Held k (ids f i)) (hle : i ≤ n) : Held k (ids f n) := by
  obtain ⟨m, hm, hread⟩ := held_ids_iff.mp h
  exact held_ids_iff.mpr ⟨m, by omega, hread⟩

theorem held_new (hnew : ¬ Held k (ids f i) ∧ Held k (ids f (i + 1))) : k = boardId (f i) := by
  have hheld := hnew.2
  rw [ids_succ, held_concat] at hheld
  exact (hheld.resolve_left hnew.1).1

/-! ## What is reported -/

/-- A position is reported. -/
def found (k : Nat) : BoardEvent := ⟨.printf "  Found %d\r\n" [.word (BitVec.ofNat 32 k)], ()⟩

theorem found_inj (ha : a < 16) (hk : k < 16) : found a = found k ↔ a = k := by
  refine ⟨fun h => ?_, congrArg found⟩
  have hargs := List.head_eq_of_cons_eq (BoardOp.printf.inj (congrArg Sigma.fst h)).2
  have hnat := congrArg BitVec.toNat (Arg.word.inj hargs)
  rw [BitVec.toNat_ofNat, BitVec.toNat_ofNat] at hnat
  omega

theorem count_switchOK : (s.count a).switchOK = s.switchOK := by
  rw [Switch.count]
  split
  · rfl
  · rfl

/-- A position is accepted that was not marked: this is the first sample after which it was held. -/
theorem marked_iff (h : Counted xs s) (ha : a < 16) :
    (a ≠ (s.count a).last_id ∧ (s.count a).debounce.toInt ≥ 10) ∧ (s.count a).switchOK &&& 1#32 <<< a = 0 ↔
      ¬ Held a xs ∧ Held a (xs ++ [a]) := by
  rw [and_mask_eq_zero ha, ← h.bits, ← (h.next ha).bits, next, count_switchOK, Bool.not_eq_true]
  split
  · rename_i haccept
    exact ⟨fun hmark => ⟨hmark.2, (getLsbD_mark _ ha).mpr (Or.inr rfl)⟩, fun hnew => ⟨haccept, hnew.1⟩⟩
  · rename_i haccept
    rw [count_switchOK]
    exact ⟨fun hmark => absurd hmark.1 haccept, fun hnew => absurd hnew.2 (Bool.eq_false_iff.mp hnew.1)⟩

/-- A position is reported with the first sample after which it was held. -/
theorem trace_check (h : Counted xs s) (ha : a < 16) :
    (source status).trace (check a s) n =
      ⟨.usleep 10000, ()⟩ :: if ¬ Held a xs ∧ Held a (xs ++ [a]) then [found a] else [] := by
  have hmarked := marked_iff h ha
  rw [check]
  refine congrArg (List.cons _) ?_
  show (source status).trace (ite _ (ite _ _ _) _) n = _
  split
  · rename_i haccept
    split
    · rename_i hzero
      rw [if_pos (hmarked.mp ⟨haccept, hzero⟩)]
      rfl
    · rename_i hset
      rw [if_neg fun hnew => hset (hmarked.mpr hnew).2]
      rfl
  · rename_i haccept
    rw [if_neg fun hnew => haccept (hmarked.mpr hnew).1]
    rfl

theorem trace_sample (h : Counted (ids (readAs status status_reg) i) s) :
    (source status).trace (sample (status_reg i) s) i = ⟨.readQuadlet 0, status i⟩ :: ⟨.usleep 10000, ()⟩ ::
      if ¬ Held (boardId (readAs status status_reg i)) (ids (readAs status status_reg) i) ∧
          Held (boardId (readAs status status_reg i)) (ids (readAs status status_reg) (i + 1))
        then [found (boardId (readAs status status_reg i))] else [] := by
  rw [ids_succ]
  exact congrArg (List.cons _) (trace_check h (boardId_lt _))

/-! ## Two runs -/

theorem switchOK_congr (h : Counted xs s) (h' : Counted xs' s') (hheld : ∀ k, Held k xs ↔ Held k xs') :
    s.switchOK = s'.switchOK := by
  refine BitVec.eq_of_getLsbD_eq fun k _ => Bool.eq_iff_iff.mpr ?_
  rw [h.bits, h'.bits, hheld]

/-- The samples differ, but the same position, if any, is held with them for the first time. -/
theorem trace_sample_congr (hheld : ∀ n k, Held k (ids (readAs status status_reg) n) ↔
    Held k (ids (readAs status status_reg') n)) (h : Counted (ids (readAs status status_reg) i) s)
    (h' : Counted (ids (readAs status status_reg') i) s') :
    (source status).trace (sample (status_reg i) s) i = (source status).trace (sample (status_reg' i) s') i := by
  rw [trace_sample h, trace_sample h']
  by_cases hnew : ¬ Held (boardId (readAs status status_reg i)) (ids (readAs status status_reg) i) ∧
      Held (boardId (readAs status status_reg i)) (ids (readAs status status_reg) (i + 1))
  · have hnew' := hnew
    rw [hheld, hheld] at hnew'
    rw [if_pos hnew, ← held_new hnew', if_pos hnew']
  · rw [if_neg hnew, if_neg]
    intro hnew'
    rw [← hheld, ← hheld] at hnew'
    rw [← held_new hnew'] at hnew
    exact hnew hnew'

theorem same_samples (hheld : ∀ n k, Held k (ids (readAs status status_reg) n) ↔
    Held k (ids (readAs status status_reg') n)) (h : Counted (ids (readAs status status_reg) i) s)
    (h' : Counted (ids (readAs status status_reg') i) s') :
    Same (source status) (samples status_reg fuel i s) (samples status_reg' fuel i s') i := by
  induction fuel generalizing i s s' with
  | zero => exact Same.refl _ _ _
  | succ fuel ih =>
    rw [samples, samples, switchOK_congr h h' (hheld i)]
    split
    · refine Same.seq (trace_sample_congr hheld h h') (run_sample _ _) (run_sample _ _) (ih ?_ ?_)
      · exact ids_succ _ _ ▸ h.next (boardId_lt _)
      · exact ids_succ _ _ ▸ h'.next (boardId_lt _)
    · exact Same.refl _ _ _

/-! ## The reports of a run -/

theorem mem_trace_sample (hk : k < 16) (h : Counted (ids (readAs status status_reg) i) s) :
    found k ∈ (source status).trace (sample (status_reg i) s) i ↔
      ¬ Held k (ids (readAs status status_reg) i) ∧ Held k (ids (readAs status status_reg) (i + 1)) := by
  have hread (x : Option (BitVec 32)) : found k ≠ ⟨.readQuadlet 0, x⟩ := fun h => BoardOp.noConfusion (congrArg Sigma.fst h)
  have hsleep : found k ≠ ⟨.usleep 10000, ()⟩ := fun h => BoardOp.noConfusion (congrArg Sigma.fst h)
  rw [trace_sample h, List.mem_cons, List.mem_cons, or_iff_right (hread _), or_iff_right hsleep]
  constructor
  · intro hmem
    split at hmem
    · rename_i hnew
      have heq := (found_inj hk (boardId_lt _)).mp (List.mem_singleton.mp hmem)
      rw [heq]
      exact hnew
    · exact absurd hmem List.not_mem_nil
  · intro hnew
    rw [← held_new hnew, if_pos hnew]
    exact List.mem_singleton.mpr rfl

/-- The positions that were not held before, and are during the run. -/
theorem mem_trace_samples (hk : k < 16) (h : Counted (ids (readAs status status_reg) i) s) :
    found k ∈ (source status).trace (samples status_reg fuel i s) i ↔
      ¬ Held k (ids (readAs status status_reg) i) ∧ Held k (ids (readAs status status_reg) (i + fuel)) := by
  induction fuel generalizing i s with
  | zero => exact ⟨fun hmem => absurd hmem List.not_mem_nil, fun hnew => absurd hnew.2 hnew.1⟩
  | succ fuel ih =>
    have hfull := h.full_iff (ids_lt _ i)
    have hnext : Counted (ids (readAs status status_reg) (i + 1)) (next s (boardId (readAs status status_reg i))) :=
      ids_succ _ _ ▸ h.next (boardId_lt _)
    have hbefore : Held k (ids (readAs status status_reg) i) → Held k (ids (readAs status status_reg) (i + 1)) :=
      fun hheld => held_mono hheld (by omega)
    have hafter : Held k (ids (readAs status status_reg) (i + 1)) →
        Held k (ids (readAs status status_reg) (i + 1 + fuel)) := fun hheld => held_mono hheld (by omega)
    rw [samples, show i + (fuel + 1) = i + 1 + fuel by omega]
    split
    · rw [Env.trace_bind, run_sample, List.mem_append, mem_trace_sample hk h]
      show _ ∨ found k ∈ (source status).trace (samples status_reg fuel (i + 1) _) (i + 1) ↔ _
      rw [ih hnext]
      by_cases hheld : Held k (ids (readAs status status_reg) (i + 1))
      · simp only [hheld, hafter hheld, and_true, not_true_eq_false, or_false]
      · simp only [hheld, mt hbefore hheld, and_false, not_false_eq_true, true_and, false_or]
    · rename_i hclosed
      have hall := hfull.mp (Decidable.not_not.mp hclosed)
      exact ⟨fun hmem => absurd hmem List.not_mem_nil, fun hnew => absurd (hall k hk) hnew.1⟩

theorem found_ne {fmt : String} {args : List Arg} (h : fmt ≠ "  Found %d\r\n") : found k ≠ ⟨.printf fmt args, ()⟩ :=
  fun heq => h (BoardOp.printf.inj (congrArg Sigma.fst heq)).1.symm

theorem mem_trace_testBoardID (hk : k < 16) :
    found k ∈ (source status).trace (testBoardID fuel status_reg) 0 ↔ Held k (ids (readAs status status_reg) fuel) := by
  have hnil : ¬ Held k (ids (readAs status status_reg) 0) := fun h => List.cons_ne_nil _ _ (List.infix_nil.mp h)
  show found k ∈ _ :: (source status).trace (samples status_reg fuel 0 {} >>= _) 0 ↔ _
  rw [List.mem_cons, or_iff_right (found_ne (by decide)), Env.trace_bind, List.mem_append,
    mem_trace_samples hk (counted_zero _), Nat.zero_add, and_iff_right hnil, or_iff_left]
  cases (source status).run (samples status_reg fuel 0 {}) 0 with
  | none => exact List.not_mem_nil
  | some x => exact fun hmem => found_ne (by decide) (List.mem_singleton.mp hmem)

/-! ## The samples that could not be read -/

theorem held_settled (hsettled : Settled status) (h : Held k (ids (readAs status status_reg) n)) :
    Held k (ids (readAs status status_reg') n) := by
  obtain ⟨m, hm, hread⟩ := held_ids_iff.mp h
  obtain ⟨m', hle, hall⟩ := hsettled k (held_lt (ids_lt _ n) h) m fun i hmi hi w hw => by
    have hid := hread i hmi hi
    rwa [readAs, hw] at hid
  refine held_ids_iff.mpr ⟨m', by omega, fun i hmi hi => ?_⟩
  obtain ⟨w, hw, hid⟩ := hall i hmi hi
  rwa [readAs, hw]

/-- A status with the position `k`. -/
def ofId (k : Nat) : BitVec 32 := BitVec.ofNat 32 k <<< 24

theorem boardId_ofId : ∀ k < 16, boardId (ofId k) = k := by decide

/-- A position that is held with what the variable held, and with nothing else. -/
theorem settled_of_held (hheld : ∀ status_reg status_reg' n, ∀ k < 16,
    Held k (ids (readAs status status_reg) n) → Held k (ids (readAs status status_reg') n)) : Settled status := by
  intro k hk n hread
  have hk' : (k + 1) % 16 < 16 := Nat.mod_lt _ (by decide)
  have hfirst : Held k (ids (readAs status fun _ => ofId k) (n + 11)) := by
    refine held_ids_iff.mpr ⟨n, Nat.le_refl _, fun i hni hi => ?_⟩
    rw [readAs]
    cases hstatus : status i with
    | none => exact boardId_ofId k hk
    | some w => exact hread i hni hi w hstatus
  have hsecond := hheld _ (fun _ => ofId ((k + 1) % 16)) _ k hk hfirst
  obtain ⟨m, hm, hall⟩ := held_ids_iff.mp hsecond
  refine ⟨m, by omega, fun i hmi hi => ?_⟩
  have hid := hall i hmi hi
  rw [readAs] at hid
  cases hstatus : status i with
  | none =>
    rw [hstatus] at hid
    have hother : (k + 1) % 16 = k := (boardId_ofId _ hk').symm.trans hid
    omega
  | some w =>
    rw [hstatus] at hid
    exact ⟨w, rfl, hid⟩

theorem testBoardID_same_iff (status : Nat → Option (BitVec 32)) :
    (∀ status_reg status_reg' fuel,
      Same (source status) (testBoardID fuel status_reg) (testBoardID fuel status_reg') 0) ↔ Settled status := by
  constructor
  · intro h
    refine settled_of_held fun status_reg status_reg' n k hk hheld => ?_
    rw [← mem_trace_testBoardID hk, ← (h status_reg status_reg' n).trace]
    exact (mem_trace_testBoardID hk).mpr hheld
  · intro hsettled status_reg status_reg' fuel
    have hheld : ∀ n k, Held k (ids (readAs status status_reg) n) ↔ Held k (ids (readAs status status_reg') n) :=
      fun _ _ => ⟨held_settled hsettled, held_settled hsettled⟩
    exact same_perform.mpr ((same_samples hheld (counted_zero _) (counted_zero _)).bind _)

end FpgaV3.Proof.Board
