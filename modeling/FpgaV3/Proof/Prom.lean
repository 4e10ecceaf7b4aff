import FpgaV3.Framework.Env
import FpgaV3.Spec.Copied

/-!
# Copies to the PROM registers

When a copy that returns true is complete (`copied_iff`). `WritePromData`
stops at a `WriteQuadlet` that fails, but narrows the number of quadlets and
the addresses to 16 bits. `CopyQspiToFpga` narrows the number of bytes, and
does not look at the result of `WritePromData`.
-/

namespace FpgaV3.Proof.Prom

open FpgaV3.Spec FpgaV3.Impl FpgaV3.Impl.Prom

variable {data : Nat → BitVec 8} {t : Trace PromOp PromOp.Ans}

theorem bswap32_wordAt (data : Nat → BitVec 8) (i : Nat) : bswap32 (wordAt data i) = bigEndian data i :=
  bswap32_append ..

/-- The register that the loop writes quadlet `i` to. -/
def register (i : Nat) : Nat := (0x2000 + i) % 65536

/-- The write of quadlet `i`. -/
def promWrite (data : Nat → BitVec 8) (ok : Bool) (i : Nat) : Nat × BitVec 32 × Bool := (register i, bigEndian data i, ok)

theorem toNat_register (i : Nat) : (0x2000 + BitVec.ofNat 16 i : BitVec 16).toNat = register i := by
  rw [BitVec.toNat_add, BitVec.toNat_ofNat, register]
  show (0x2000 + i % 2 ^ 16) % 2 ^ 16 = (0x2000 + i) % 65536
  omega

/-- The loop writes its quadlets in order, up to the first failure. -/
theorem promLoop_writes (n : Nat) {i : Nat} {r : Bool × Unit}
    (hr : (promLoop (fun i => return wordAt data i) writeQuadlet n i ()).Runs t r) :
    ∃ k, (r.1 = true → k = n) ∧ quadletWrites t = (List.range' i k).map (promWrite data true) ++
      if r.1 then [] else [promWrite data false (i + k)] := by
  induction n generalizing i t with
  | zero =>
    obtain ⟨rfl, rfl⟩ := hr
    exact ⟨0, fun _ => rfl, rfl⟩
  | succ n ih =>
    obtain ⟨ok, t', rfl, hr⟩ := hr
    have hwrite : quadletWrite ⟨.writeQuadlet (0x2000 + BitVec.ofNat 16 i) (bswap32 (wordAt data i)), ok⟩ =
        some (promWrite data ok i) := by
      rw [quadletWrite, toNat_register, bswap32_wordAt]
      rfl
    have hcons : quadletWrites (⟨.writeQuadlet (0x2000 + BitVec.ofNat 16 i) (bswap32 (wordAt data i)), ok⟩ :: t') =
        promWrite data ok i :: quadletWrites t' := List.filterMap_cons_some hwrite
    cases ok with
    | false =>
      obtain ⟨rfl, rfl⟩ := hr
      exact ⟨0, absurd_false, hcons⟩
    | true =>
      obtain ⟨k, hk, hw⟩ := ih hr
      refine ⟨k + 1, fun h => by rw [hk h], ?_⟩
      rw [show i + (k + 1) = i + 1 + k by omega, List.range'_succ, List.map_cons, List.cons_append, ← hw]
      exact hcons

theorem writePromData_writes {nBytes : BitVec 32} {ok : Bool} (hr : (writePromData data nBytes).Runs t ok) :
    ∃ k, (ok = true → k = promQuads nBytes) ∧ quadletWrites t = (List.range k).map (promWrite data true) ++
      if ok then [] else [promWrite data false k] := by
  obtain ⟨t₁, t₂, r, rfl, hloop, rfl, rfl⟩ := Prog.runs_bind.mp hr
  obtain ⟨k, hk, hw⟩ := promLoop_writes _ hloop
  rw [Nat.zero_add] at hw
  exact ⟨k, hk, by rw [List.append_nil, hw, List.range_eq_range']⟩

/-- The writes of `k` quadlets are those of a complete copy of `n`. -/
theorem writes_copied_iff {k n : Nat} (hw : quadletWrites t = (List.range k).map (promWrite data true)) :
    Copied data n t ↔ k = n ∧ n ≤ 0xE000 := by
  rw [Copied, hw]
  constructor
  · intro h
    have hlen := congrArg List.length h
    rw [List.length_map, List.length_map, List.length_range, List.length_range] at hlen
    refine ⟨hlen, ?_⟩
    rcases Nat.lt_or_ge 0xE000 n with hn | hn
    · have hreg := List.map_inj_left.mp (hlen ▸ h) 0xE000 (List.mem_range.mpr hn)
      exact absurd (show register 0xE000 = 0x2000 + 0xE000 from congrArg Prod.fst hreg) (by decide)
    · exact hn
  · rintro ⟨rfl, hn⟩
    refine List.map_congr_left fun i hi => ?_
    have hlt := List.mem_range.mp hi
    rw [promWrite, register, Nat.mod_eq_of_lt (by omega)]

/-- The sum wraps around in 32 bits, and the quotient in 16. -/
theorem promQuads_eq (nBytes : BitVec 32) : promQuads nBytes = (nBytes.toNat + 3) % 2 ^ 32 / 4 % 2 ^ 16 := by
  rw [promQuads, BitVec.toNat_setWidth, BitVec.toNat_udiv, BitVec.toNat_add]
  rfl

theorem writePromData_copied_iff {nBytes : BitVec 32} (hr : (writePromData data nBytes).Runs t true) :
    Copied data (promWords nBytes.toNat) t ↔ promWords nBytes.toNat ≤ 0xE000 := by
  obtain ⟨k, hk, hw⟩ := writePromData_writes hr
  rw [if_pos rfl, List.append_nil] at hw
  rw [writes_copied_iff hw, hk rfl, promQuads_eq]
  have hlt := nBytes.isLt
  have hwords : promWords nBytes.toNat = (nBytes.toNat + 3) / 4 := rfl
  omega

/-- The calls of a `CopyQspiToFpga` that returns true. -/
theorem copyQspiToFpga_runs {nbytes : BitVec 16} (hr : (copyQspiToFpga nbytes).Runs t true) :
    ∃ (m : BitVec 16) (fd : Int) (data : Nat → BitVec 8) (t' : Trace PromOp PromOp.Ans) (ok : Bool),
      m = 4 * BitVec.ofNat 16 ((nbytes.toNat + 3) / 4) ∧
      t = ⟨.openDev, fd⟩ :: ⟨.read m, ((m.toNat : Int), data)⟩ :: ⟨.close, ()⟩ :: t' ∧
      (writePromData data (m.setWidth 32)).Runs t' ok := by
  obtain ⟨fd, t₁, rfl, hr⟩ := hr
  change (if fd < 0 then (pure false : PromProg Bool) else _).Runs t₁ true at hr
  by_cases hfd : fd < 0
  · rw [if_pos hfd] at hr
    exact Bool.noConfusion hr.2
  rw [if_neg hfd] at hr
  obtain ⟨x, t₂, rfl, u, t₃, rfl, hr⟩ := hr
  obtain ⟨n, data⟩ := x
  generalize 4 * BitVec.ofNat 16 ((nbytes.toNat + 3) / 4) = m at hr
  change (if n ≠ (m.toNat : Int) then (pure false : PromProg Bool) else _).Runs t₃ true at hr
  by_cases hn : n = m.toNat
  · rw [if_neg (not_not_intro hn)] at hr
    obtain ⟨t', t₄, ok, rfl, hcopy, rfl, -⟩ := Prog.runs_bind.mp hr
    exact ⟨m, fd, data, t', ok, rfl, by rw [hn, List.append_nil], hcopy⟩
  · rw [if_pos hn] at hr
    exact Bool.noConfusion hr.2

/-- `CopyQspiToFpga` copies all words if the number of bytes fits in 16 bits when
rounded up, and no `WriteQuadlet` fails. -/
theorem copyQspiToFpga_copied_iff {nbytes : BitVec 16} (hr : (copyQspiToFpga nbytes).Runs t true) :
    ∃ data, Filled data t ∧ (Copied data (promWords nbytes.toNat) t ↔
      nbytes.toNat ≤ 65532 ∧ ∀ w ∈ quadletWrites t, w.2.2 = true) := by
  obtain ⟨m, fd, data, t', ok, hm, rfl, hcopy⟩ := copyQspiToFpga_runs hr
  obtain ⟨k, hk, hw⟩ := writePromData_writes hcopy
  have hlt := nbytes.isLt
  have hwords : promWords nbytes.toNat = (nbytes.toNat + 3) / 4 := rfl
  refine ⟨data, ⟨_, _, List.mem_cons_of_mem _ List.mem_cons_self⟩, ?_⟩
  change quadletWrites t' = _ ↔ _ ∧ ∀ w ∈ quadletWrites t', _
  cases ok with
  | false =>
    have hmem : promWrite data false k ∈ quadletWrites t' := by
      rw [hw, if_neg Bool.false_ne_true]
      exact List.mem_append_right _ List.mem_cons_self
    refine iff_of_false (fun h => ?_) fun h => Bool.noConfusion (h.2 _ hmem)
    rw [h] at hmem
    obtain ⟨i, -, hi⟩ := List.mem_map.mp hmem
    exact Bool.noConfusion (congrArg (fun w => w.2.2) hi)
  | true =>
    rw [if_pos rfl, List.append_nil] at hw
    have hbytes : m.toNat = 4 * ((nbytes.toNat + 3) / 4 % 2 ^ 16) % 2 ^ 16 := by
      rw [hm, BitVec.toNat_mul, BitVec.toNat_ofNat]
      rfl
    have hquads : k = (m.toNat % 2 ^ 32 + 3) % 2 ^ 32 / 4 % 2 ^ 16 := by
      rw [hk rfl, promQuads_eq, BitVec.toNat_setWidth]
    refine (writes_copied_iff hw).trans ⟨fun h => ⟨?_, fun w hmem => ?_⟩, fun h => ?_⟩
    · omega
    · rw [hw] at hmem
      obtain ⟨i, -, rfl⟩ := List.mem_map.mp hmem
      rfl
    · omega

/-- When a copy that returns true is complete: with `WritePromData`, with
`EMIO_WritePromData` and with `CopyQspiToFpga`. -/
theorem copied_iff (data : Nat → BitVec 8) (nBytes : BitVec 32) (nbytes : BitVec 16) (t : Trace PromOp PromOp.Ans) :
    ((writePromData data nBytes).Runs t true →
      (Copied data (promWords nBytes.toNat) t ↔ promWords nBytes.toNat ≤ 0xE000)) ∧
    ((emioWritePromData data nBytes).Runs t true →
      (Copied data (promWords nBytes.toNat) t ↔ promWords nBytes.toNat ≤ 0xE000)) ∧
    ((copyQspiToFpga nbytes).Runs t true → ∃ data, Filled data t ∧
      (Copied data (promWords nbytes.toNat) t ↔ nbytes.toNat ≤ 65532 ∧ ∀ w ∈ quadletWrites t, w.2.2 = true)) :=
  ⟨fun hr => writePromData_copied_iff hr, fun hr => writePromData_copied_iff hr,
    fun hr => copyQspiToFpga_copied_iff hr⟩

/-- A flash device of zeros, and a `WriteQuadlet` that returns `ok`. -/
def blank (ok : Bool) : Env PromOp PromOp.Ans Unit where
  step _
    | .openDev => (3, ())
    | .read nbytes => ((nbytes.toNat, fun _ => 0), ())
    | .close => ((), ())
    | .writeQuadlet _ _ => (ok, ())

/-- Five bytes are two words, sixteen are four. -/
theorem copied_iff_words : ∃ t t' data, (writePromData (fun _ => 0) 5).Runs t true ∧ Copied (fun _ => 0) 2 t ∧
    (copyQspiToFpga 16).Runs t' true ∧ Filled data t' ∧ Copied data 4 t' := by
  have hwrite := (Env.runs_of_run (show (blank true).run (writePromData (fun _ => 0) 5) () = some (true, ()) from rfl)).1
  have hcopy := (Env.runs_of_run (show (blank true).run (copyQspiToFpga 16) () = some (true, ()) from rfl)).1
  obtain ⟨data, hdata, hiff⟩ := (copied_iff (fun _ => 0) 5 16 _).2.2 hcopy
  have hok : ∀ w ∈ quadletWrites ((blank true).trace (copyQspiToFpga 16) ()), w.2.2 = true := by decide
  exact ⟨_, _, data, hwrite, ((copied_iff (fun _ => 0) 5 16 _).1 hwrite).mpr (by decide), hcopy, hdata, hiff.mpr ⟨by decide, hok⟩⟩

/-- A buffer of 2^18 bytes is 2^16 words, of which none is written; and a
`WriteQuadlet` that fails goes unnoticed. -/
theorem incomplete_copies : ((writePromData (fun _ => 0) 262144).Runs [] true ∧
      ¬ Copied (fun _ => 0) (promWords (262144 : BitVec 32).toNat) []) ∧
    ∃ t, (copyQspiToFpga 16).Runs t true ∧ ∀ data, ¬ Copied data (promWords (16 : BitVec 16).toNat) t := by
  constructor
  · refine ⟨⟨rfl, rfl⟩, fun h => ?_⟩
    have hlen := congrArg List.length h
    rw [List.length_map, List.length_range] at hlen
    exact absurd hlen (by decide)
  · have hcopy := (Env.runs_of_run (show (blank false).run (copyQspiToFpga 16) () = some (true, ()) from rfl)).1
    refine ⟨_, hcopy, fun data h => ?_⟩
    exact absurd (show 1 = 4 from congrArg List.length h) (by decide)

end FpgaV3.Proof.Prom
