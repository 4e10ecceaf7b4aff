import FpgaV3.Framework.Env
import FpgaV3.Framework.Word
import FpgaV3.Proof.Memtest.Pass

/-!
# What the counters say

Each test notes the words that it reads and did not write (`Finds`), so that at the end
of `memtest_all` the counters say what a monitor of the accesses saw
(`memtestAll_counted`): how many words were wrong, in which lanes, and for which tests.

`err_buf` has the first 80 errors, with their addresses but for those of
`memtest_simple`, and `memtest_all` stores to three places before it
(`memtestAll_logged`).
-/

namespace FpgaV3.Proof.Memtest

open FpgaV3.Spec FpgaV3.Impl FpgaV3.Impl.Memtest

variable {start size : BitVec 32} {n k q : Nat} {t : Test} {g g' : Globals} {c : Counts} {m m' : Monitor}
  {a : BitVec 32} {es : List Mismatch} {loop : BitVec 32}

/-! ## One test -/

theorem wordAddr_ne (hb : Below start n) (hq : q < n) (ha : ERR_INFO.toNat ≤ a.toNat) : wordAddr start q ≠ a := by
  rintro rfl
  exact absurd (below_of_inRange hb (inRange_wordAddr hq)) (Nat.not_lt.mpr ha)

/-- The words are written, and the status says which test is running. -/
structure Written (t : Test) (start : BitVec 32) (n k : Nat) (m m' : Monitor) : Prop where
  errors : m'.errors = m.errors
  buf : m'.buf = m.buf
  stored : m'.stored = m.stored
  stat : m'.last MAILBOX_STAT = 100 + BitVec.ofNat 32 t.mode
  last : ∀ i < k, m'.last (wordAddr start i) = word t i

theorem wp_writeWords (hb : Below start n) (hk : k ≤ n) (hstat : g.memtest_stat = true) :
    WP (monitors start n) True (writeWords t start k g) m fun _ m' => Written t start n k m m' := by
  unfold writeWords
  simp only [wp_bind, Prog.onlyIf, hstat, if_true, wp_regWrite]
  refine WP.mono (wp_aside hb all_timerInit) fun _ m₁ h₁ => ?_
  refine WP.mono (wp_writePass rfl) fun _ m₂ h₂ => ?_
  refine WP.mono (wp_aside hb all_dCacheInvalidate) fun _ m₃ h₃ => ?_
  rw [Nat.zero_add] at h₂
  have hother : ∀ i < k, wordAddr start i ≠ MAILBOX_STAT := fun i hi => wordAddr_ne hb (by omega) (by decide)
  have hlast : ∀ i < k, m₂.last (wordAddr start i) = word t i := by
    rw [h₂]
    refine stores_apply_iff.mpr fun i hi j hj heq => ?_
    rw [wordAddr_injOn hb (show i < n by omega) (show j < n by omega) heq]
  refine ⟨?_, ?_, ?_, ?_, fun i hi => ?_⟩
  · rw [h₃.errors, h₂, h₁.errors]
  · rw [h₃.buf, h₂, h₁.buf]
  · rw [h₃.stored, h₂, h₁.stored]
  · rw [h₃.last _ (Or.inr rfl), h₂]
    dsimp only
    rw [stores_other hother, h₁.last _ (Or.inr rfl)]
    simp only [Function.update_self]
  · rw [h₃.last _ (Or.inl (inRange_wordAddr (by omega))), hlast i hi]

/-- Of `n` words, test `k` notes the errors `es`, which it adds to the counters. -/
structure Found (n k : Nat) (g g' : Globals) (m m' : Monitor) (es : List Mismatch) : Prop where
  length : es.length ≤ n
  errors : m'.errors = m.errors ++ es
  stat : ∀ e ∈ es, e.stat = 100 + BitVec.ofNat 32 k
  errcnt : ∀ j, g'.errcnt j = g.errcnt j + es.countP fun e => e.inLane j
  epp : g'.epp = if es = [] then g.epp else g.epp + 1#32 <<< k
  memtest_stat : g'.memtest_stat = g.memtest_stat
  tracked : Tracked m' g'.werr

theorem Written.tracked {werr : Nat} (h : Written t start n k m m') (ht : Tracked m werr) : Tracked m' werr where
  werr := by rw [h.errors, ht.werr]
  log := by simpa only [Logged, h.errors, h.buf] using ht.log
  wild := by rw [Monitor.wild, h.stored, ← Monitor.wild, ht.wild]

theorem wp_finish (hb : Below start n) {m₀ m₁ : Monitor} {c : Counts} {g₁ : Globals} (hf : Written t start n k m₀ m)
    (hk : k ≤ n)
    (h : Noted start n k {} c g g₁ m m₁ es) :
    WP (monitors start n) True (finish t loop c g₁) m₁ fun g' m' => Found n t.mode g g' m₀ m' es := by
  unfold finish
  simp only [wp_bind]
  refine WP.mono (wp_aside hb all_timerRead) fun _ m₂ h₂ => ?_
  refine WP.mono (wp_aside hb (Prog.all_onlyIf all_printf)) fun _ m₃ h₃ => ?_
  have hkept := h₂.trans h₃
  refine wp_pure.mpr ⟨h.length.trans hk, ?_, fun e he => (h.stat e he).trans hf.stat, fun j => ?_, ?_, ?_, h.tracked.kept hkept⟩
  · rw [hkept.errors, h.errors, hf.errors]
  · rw [h.counts, h.globals]
    simp only [after, Nat.zero_add]
  · rw [h.counts, h.globals]
    cases es <;> simp [after]
  · rw [h.globals]

/-- The tests but `memtest_simple`, which log the right addresses. -/
theorem wp_writeAndRead (hb : Below start n) (hk : k ≤ n) (hl : LogsAddr t start (100 + BitVec.ofNat 32 t.mode))
    (hstat : g.memtest_stat = true) (h : Tracked m g.werr) :
    WP (monitors start n) True (writeAndRead t start k g) m fun x m' =>
      ∃ m₁ es, Written t start n k m m₁ ∧ Noted start n k {} x.1 g x.2 m₁ m' es := by
  unfold writeAndRead
  rw [wp_bind]
  refine WP.mono (wp_writeWords hb hk hstat) fun _ m₁ h₁ => ?_
  have hread := wp_readPass (c := {}) (g := g) (q := 0) (k := k) hb (h₁.stat ▸ hl) (by omega)
    (fun i hi => h₁.last i (by omega)) (h₁.tracked h)
  exact WP.mono hread fun x m₂ ⟨es, h₂⟩ => ⟨m₁, es, h₁, h₂⟩

/-- The errors that test `k` finds are counted as its own. -/
def Finds (start : BitVec 32) (n k : Nat) (p : Globals → MemProg Globals) : Prop :=
  ∀ g m, g.memtest_stat = true → Tracked m g.werr →
    WP (monitors start n) True (p g) m fun g' m' => ∃ es, Found n k g g' m m' es

theorem simpleStat_iff (hk : k < 32) : SimpleStat (100 + BitVec.ofNat 32 k) ↔ 1 ≤ k ∧ k ≤ 8 := by
  constructor
  · rintro ⟨j, h1, h8, he⟩
    rw [BitVec.add_right_inj, ← BitVec.toNat_inj, BitVec.toNat_ofNat, BitVec.toNat_ofNat] at he
    omega
  · exact fun h => ⟨k, h.1, h.2, rfl⟩

/-- `memtest_simple` logs another address than that of the error. -/
theorem logsAddr_simple {dat : Nat → BitVec 32} (h : 1 ≤ k ∧ k ≤ 8) :
    LogsAddr (simpleTest k dat) start (100 + BitVec.ofNat 32 k) := by
  refine fun q => iff_of_false ?_ (not_not.mpr ((simpleStat_iff (by omega)).mpr h))
  dsimp only [simpleTest]
  generalize wordAddr start q = a
  rcases (show q % 4 = 0 ∨ q % 4 = 1 ∨ q % 4 = 2 ∨ q % 4 = 3 by omega) with h | h | h | h <;> rw [h] <;> bv_omega

theorem logsAddr_word (hlog : t.logged = fun a _ => a) (hk : k < 32) (h : ¬ (1 ≤ k ∧ k ≤ 8)) :
    LogsAddr t start (100 + BitVec.ofNat 32 k) :=
  fun q => iff_of_true (by rw [hlog]) fun h' => h ((simpleStat_iff hk).mp h')

theorem finds_simple (hb : Below start (rangeWords size)) (hk : 1 ≤ k ∧ k ≤ 8) (hloop : loop ≠ -1)
    {d0 d1 d2 d3 : BitVec 32} : Finds start (rangeWords size) k (memtestSimple start size k loop d0 d1 d2 d3) := by
  intro g m hstat h
  unfold memtestSimple
  simp only [wp_bind]
  refine WP.mono (wp_writeWords hb (Nat.le_refl _) hstat) fun _ m₁ h₁ => ?_
  rw [if_neg hloop, wp_bind]
  have hread := wp_readPass (c := {}) (g := g) (q := 0) hb (h₁.stat ▸ logsAddr_simple hk) (Nat.zero_add _).le
    (fun i hi => h₁.last i (by rwa [Nat.zero_add] at hi)) (h₁.tracked h)
  refine WP.mono hread fun x m₂ h₂ => ?_
  obtain ⟨es, h₂⟩ := h₂
  exact WP.mono (wp_finish hb h₁ (Nat.le_refl _) h₂) fun _ _ h₃ => ⟨es, h₃⟩

theorem finds_pat128 (hb : Below start (rangeWords size)) (hk : k < 32 ∧ 9 ≤ k) {pat : Globals → Nat → BitVec 32} :
    Finds start (rangeWords size) k fun g => memtestPat128 start size k loop (pat g) g := by
  intro g m hstat h
  unfold memtestPat128
  simp only [wp_bind]
  have hl : LogsAddr (pat128Test k (pat g) g.qmask) start (100 + BitVec.ofNat 32 k) := logsAddr_word rfl hk.1 (by omega)
  refine WP.mono (wp_writeAndRead hb steps_le hl hstat h) fun x m₂ h₂ => ?_
  obtain ⟨m₁, es, h₁, h₂⟩ := h₂
  exact WP.mono (wp_finish hb h₁ steps_le h₂) fun _ _ h₃ => ⟨es, h₃⟩

theorem finds_lfsr (hb : Below start (rangeWords size)) (hk : k < 32 ∧ 9 ≤ k) :
    Finds start (rangeWords size) k (memtestLfsr start size k loop) := by
  intro g m hstat h
  unfold memtestLfsr
  simp only [wp_bind]
  have hl : LogsAddr (lfsrTest k loop g.qmask (g.rseed + 0x017c1e23)) start (100 + BitVec.ofNat 32 k) :=
    logsAddr_word rfl hk.1 (by omega)
  refine WP.mono (wp_writeAndRead (g := { g with rseed := g.rseed + 0x017c1e23 }) hb steps_le hl hstat h) fun x m₂ h₂ => ?_
  obtain ⟨m₁, es, h₁, h₂⟩ := h₂
  refine WP.mono (wp_finish hb h₁ steps_le h₂) fun _ _ h₃ =>
    ⟨es, h₃.length, h₃.errors, h₃.stat, h₃.errcnt, h₃.epp, h₃.memtest_stat, h₃.tracked⟩

theorem finds_memtest (hb : Below start (rangeWords size)) :
    Finds start (rangeWords size) 0 (memtest start size 0 loop) := by
  intro g m hstat h
  unfold memtest
  simp only [wp_bind]
  have hl : LogsAddr (memtestTest start 0 loop g.qmask) start (100 + BitVec.ofNat 32 0) :=
    logsAddr_word rfl (by omega) (by omega)
  refine WP.mono (wp_writeAndRead hb steps_le hl hstat h) fun x m₂ h₂ => ?_
  obtain ⟨m₁, es, h₁, h₂⟩ := h₂
  refine WP.mono (wp_aside hb all_dCacheInvalidate) fun _ m₃ h₃ => ?_
  have h₂' : Noted start (rangeWords size) (steps size 4) {} x.1 g x.2 m₁ m₃ es := ⟨h₂.length, by rw [h₃.errors, h₂.errors], h₂.stat, h₂.counts,
    h₂.globals, fun a ha => (h₃.last a ha).trans (h₂.last a ha), h₂.tracked.kept h₃⟩
  exact WP.mono (wp_finish hb h₁ steps_le h₂') fun _ _ h₄ => ⟨es, h₄⟩

/-! ## All tests -/

/-- What holds before test `k`. -/
structure Ready (n k : Nat) (g : Globals) (m : Monitor) : Prop where
  length : m.errors.length ≤ k * n
  counters : Counters g m.errors
  stats : ∀ e ∈ m.errors, ∃ j < k, e.stat = 100 + BitVec.ofNat 32 j
  memtest_stat : g.memtest_stat = true
  tracked : Tracked m g.werr

theorem stat_inj {i j : Nat} (hi : i < 32) (hj : j < 32) :
    (100 : BitVec 32) + BitVec.ofNat 32 i = 100 + BitVec.ofNat 32 j ↔ i = j := by
  rw [BitVec.add_right_inj, ← BitVec.toNat_inj, BitVec.toNat_ofNat, BitVec.toNat_ofNat]
  omega

/-- No error of test `k` has been counted before it. -/
theorem Ready.epp_clear (h : Ready n k g m) (hk : k < 32) : g.epp.getLsbD k = false := by
  rw [h.counters.epp k hk, List.any_eq_false]
  intro e he
  obtain ⟨j, hj, hstat⟩ := h.stats e he
  simp only [hstat, stat_inj (show j < 32 by omega) hk, decide_eq_true_eq]
  omega

theorem Ready.next (h : Ready n k g m) (hk : k < 32) (hf : Found n k g g' m m' es) : Ready n (k + 1) g' m' where
  length := by
    rw [hf.errors, List.length_append, Nat.succ_mul]
    exact Nat.add_le_add h.length hf.length
  counters :=
    { werr := hf.tracked.werr
      errcnt := fun j => by rw [hf.errcnt, hf.errors, h.counters.errcnt, List.countP_append]
      epp := fun i hi => by
        rw [hf.epp, hf.errors, List.any_append, ← h.counters.epp i hi]
        cases es with
        | nil => simp
        | cons e es =>
          rw [if_neg (List.cons_ne_nil e es), getLsbD_add_bit (h.epp_clear hk) hi]
          congr 1
          have hstat : ∀ e' ∈ e :: es, (decide (e'.stat = 100 + BitVec.ofNat 32 i)) = decide (i = k) := fun e' he' => by
            rw [hf.stat e' he']
            exact decide_eq_decide.mpr ((stat_inj hk hi).trans eq_comm)
          by_cases hik : i = k
          · rw [decide_eq_true hik]
            refine (List.any_eq_true.mpr ⟨e, List.mem_cons_self, ?_⟩).symm
            rw [hstat e List.mem_cons_self, decide_eq_true hik]
          · rw [decide_eq_false hik]
            refine (List.any_eq_false.mpr fun e' he' => ?_).symm
            rw [hstat e' he', decide_eq_false hik]
            exact Bool.false_ne_true }
  stats e he := by
    rw [hf.errors] at he
    rcases List.mem_append.mp he with he | he
    · obtain ⟨j, hj, hstat⟩ := h.stats e he
      exact ⟨j, by omega, hstat⟩
    · exact ⟨k, by omega, hf.stat e he⟩
  memtest_stat := hf.memtest_stat.trans h.memtest_stat
  tracked := hf.tracked

theorem Ready.skip (h : Ready n k g m) : Ready n (k + 1) g m where
  length := h.length.trans (Nat.mul_le_mul_right n (Nat.le_succ k))
  counters := h.counters
  stats e he := by
    obtain ⟨j, hj, hstat⟩ := h.stats e he
    exact ⟨j, by omega, hstat⟩
  memtest_stat := h.memtest_stat
  tracked := h.tracked

theorem wp_selected {sel : BitVec 32} {ps : List (Globals → MemProg Globals)} (hps : Each (Finds start n) k ps)
    (hk : k + ps.length ≤ 32) (h : Ready n k g m) :
    WP (monitors start n) True (selected sel k ps g) m fun g' m' => Ready n (k + ps.length) g' m' := by
  induction ps generalizing k g m with
  | nil => exact h
  | cons p ps ih =>
    rw [List.length_cons] at hk
    have hone : WP (monitors start n) True (ifSelected sel k p g) m fun g' m' => Ready n (k + 1) g' m' := by
      rw [ifSelected, wp_ite]
      refine ⟨fun _ => WP.mono (hps.1 g m h.memtest_stat h.tracked) fun g' m' hf => ?_, fun _ => h.skip⟩
      obtain ⟨es, hf⟩ := hf
      exact h.next (by omega) hf
    unfold selected
    rw [wp_bind]
    refine WP.mono hone fun g' m' h' => WP.mono (ih hps.2 (by omega) h') fun g'' m'' h'' => ?_
    rwa [show k + 1 + ps.length = k + (p :: ps).length by rw [List.length_cons]; omega] at h''

/-! ## memtest_all -/

theorem wp_clearErrBuf {k j : Nat} (hk : j + k ≤ 250) : WP (monitors start n) True (clearErrBuf k j) m fun _ m' =>
    m'.errors = m.errors ∧ m'.wild = m.wild := by
  induction k generalizing j m with
  | zero => exact ⟨rfl, rfl⟩
  | succ k ih =>
    unfold clearErrBuf
    simp only [wp_bind, wp_setErrBuf]
    refine WP.mono (ih (by omega)) fun _ m' h => ⟨h.1, h.2.trans ?_⟩
    have hin : (fun i : Int => i < 0 || 256 ≤ i) (j : Int) = false := by
      simp
      omega
    simp only [Monitor.wild, List.filter_append, List.filter_cons, hin, List.filter_nil, Bool.false_eq_true, if_false,
      List.append_nil]

/-- With no error counted, `error_info` stores before `err_buf`. -/
theorem wp_errorInfo_zero (hb : Below start n) : WP (monitors start n) True (errorInfo 0 0 0 0) m fun _ m' =>
    m'.errors = m.errors ∧ m'.stored = m.stored ++ [-3, -2, -1] := by
  unfold errorInfo
  simp only [wp_bind]
  refine WP.mono (wp_aside hb (Prog.all_onlyIf all_errorInfo_regs)) fun _ m₁ h => ?_
  simp only [Prog.onlyIf, Nat.zero_le, if_true, wp_bind, wp_setErrBuf, h.errors, h.stored, List.append_assoc, true_and]
  rfl

theorem wp_memtestAll {sel err_buf : BitVec 32} (hb : Below start (rangeWords size)) (hloop : loop ≠ -1)
    (hstat : g.memtest_stat = true) : WP (monitors start (rangeWords size)) True
      (memtestAll start size sel loop err_buf g) {} fun g' m' =>
      m'.errors.length ≤ 15 * rangeWords size ∧ Counters g' m'.errors ∧ Tracked m' g'.werr := by
  unfold memtestAll
  simp only [wp_bind]
  refine WP.mono (wp_errorInfo_zero hb) fun _ m₁ h₁ => ?_
  refine WP.mono (wp_aside hb (all_regWrite (by decide))) fun _ m₂ h₂ => ?_
  refine WP.mono (wp_clearErrBuf (Nat.le_refl _)) fun _ m₃ h₃ => ?_
  have herrors : m₃.errors = [] := by rw [h₃.1, h₂.errors, h₁.1]
  have hwild : m₃.wild = [-3, -2, -1] := by
    rw [h₃.2, Monitor.wild, h₂.stored, h₁.2]
    rfl
  have hready : Ready (rangeWords size) 0 { g with werr := 0, epp := 0, errcnt := fun _ => 0 } m₃ := by
    refine ⟨by rw [herrors]; exact Nat.zero_le _, ⟨by rw [herrors]; rfl, fun _ => by rw [herrors]; rfl, fun k _ => by rw [herrors]; simp⟩, fun e he => ?_, hstat,
      by rw [herrors]; rfl, fun i e he => ?_, hwild⟩
    · rw [herrors] at he
      exact absurd he List.not_mem_nil
    · rw [herrors] at he
      exact absurd he (by simp)
  have hfinds : Each (Finds start (rangeWords size)) 0 (tests g.bus_width start size loop) := each_tests (finds_memtest hb)
    (fun _ _ _ _ _ hk => finds_simple hb hk hloop) (fun _ _ hk => finds_pat128 hb hk) fun _ hk => finds_lfsr hb hk
  refine WP.mono (wp_selected hfinds (by rw [length_tests]; omega) hready) fun g₄ m₄ h₄ => ?_
  refine WP.mono (wp_aside hb (all_regWrite (by decide))) fun _ m₅ h₅ => ?_
  rw [Nat.zero_add, length_tests] at h₄
  exact wp_pure.mpr ⟨by rw [h₅.errors]; exact h₄.length, by rw [h₅.errors]; exact h₄.counters, h₄.tracked.kept h₅⟩

/-- The run of a program followed by the monitor. -/
theorem WP.seen {α : Type} {p : MemProg α} {Q : α → Monitor → Prop} {x : α} {tr : Trace MemOp MemOp.Ans}
    (h : WP (monitors start n) True p {} Q) (hr : p.Runs tr x) : Q x (seen start n tr) :=
  h.sound hr (World.path_obs.mpr ⟨fun _ _ => trivial, rfl⟩)

/-- A memory that answers zero. -/
def zeros : Env MemOp MemOp.Ans Unit where
  step
    | _, .regRead _ => (0#32, ())
    | _, .regWrite _ _ => ((), ())
    | _, .dCacheInvalidate => ((), ())
    | _, .setErrBuf _ _ => ((), ())
    | _, .printf _ _ => ((), ())

/-- Tests 0, 2 and 11 find that nothing was written. -/
theorem runs_zeros : ∃ tr g', (memtestAll 0x100000 16 0x0805 1 0 {}).Runs tr g' ∧ g'.werr = 12 := by
  have hw : (zeros.run (memtestAll 0x100000 16 0x0805 1 0 {}) ()).map (fun x => x.1.werr) = some 12 := by decide +kernel
  obtain ⟨x, hx, hw⟩ := Option.map_eq_some_iff.mp hw
  exact ⟨_, _, (Env.runs_of_run hx).1, hw⟩

end FpgaV3.Proof.Memtest
