import FpgaV3.Framework.Env
import FpgaV3.Proof.Memtest.Pass

/-!
# Which faults the memory test finds

In a memory with faults, what a test says (`Verdict`): in a lane where it counts no error,
every word that it read was the one written, and if no other word can be read it counts
no error. `memtest_all` runs the tests in a row (`wp_selected_faults`).

So tests 1 and 2 find a bit that is stuck, whatever else is wrong
(`memtestAll_stuck`), and where each cell keeps what it is given, test 0 finds no error if
and only if no two words share one (`memtestAll_addressing`).
-/

namespace FpgaV3.Proof.Memtest

open FpgaV3.Spec FpgaV3.Impl FpgaV3.Impl.Memtest

variable {κ : Type} [DecidableEq κ] {start size loop : BitVec 32} {n k q : Nat} {t : Test} {g g' g'' : Globals}
  {c c' c'' : Counts} {a : BitVec 32} {decode : BitVec 32 → κ} {may : BitVec 32 → BitVec 32 → BitVec 32 → Prop}
  {s : κ → BitVec 32}

/-! ## Accesses -/

/-- The accesses to registers. -/
def Outside : MemOp → Prop
  | .regRead a | .regWrite a _ => ERR_INFO.toNat ≤ a.toNat
  | _ => True

theorem wp_outside {α : Type} {p : MemProg α} (hb : Below start n) (hp : p.All Outside) :
    WP (memory start n decode may) True p s fun _ s' => s' = s := by
  refine wp_invariant (I := fun s' => s' = s) (fun s₁ e r s₂ he hs h => ?_) hp rfl
  cases e with
  | regWrite a v =>
    have hout : ¬ InRange start n a := fun h => absurd (below_of_inRange hb h) (Nat.not_lt.mpr he)
    rw [show s₂ = _ from hs, if_neg hout, h]
  | regRead a => exact hs.2.trans h
  | dCacheInvalidate => exact (show s₂ = s₁ from hs).trans h
  | setErrBuf i v => exact (show s₂ = s₁ from hs).trans h
  | printf fmt args => exact (show s₂ = s₁ from hs).trans h

theorem wp_store {v : BitVec 32} {Q : Unit → (κ → BitVec 32) → Prop} (ha : InRange start n a) :
    WP (memory start n decode may) True (regWrite a v) s Q ↔ Q () (Function.update s (decode a) v) := by
  constructor
  · exact fun h => h () _ (by simp only [memory, if_pos ha])
  · intro h r s' hs
    rw [show s' = _ from hs, if_pos ha]
    exact h

theorem wp_load {Q : BitVec 32 → (κ → BitVec 32) → Prop} (ha : InRange start n a) :
    WP (memory start n decode may) True (regRead a) s Q ↔ ∀ v, may a (s (decode a)) v → Q v s := by
  constructor
  · exact fun h v hv => h v s ⟨fun _ => hv, rfl⟩
  · rintro h v s' ⟨hv, rfl⟩
    exact h v (hv ha)

theorem outside_regWrite {v : BitVec 32} (h : ERR_INFO.toNat ≤ a.toNat) : (regWrite a v).All Outside := ⟨h, fun _ => trivial⟩

theorem outside_regRead (h : ERR_INFO.toNat ≤ a.toNat) : (regRead a).All Outside := ⟨h, fun _ => trivial⟩

theorem outside_setErrBuf {i : Int} {v : BitVec 32} : (setErrBuf i v).All Outside := ⟨trivial, fun _ => trivial⟩

theorem outside_printf {fmt : String} {args : List Arg} : (printf fmt args).All Outside := ⟨trivial, fun _ => trivial⟩

theorem outside_dCacheInvalidate : dCacheInvalidate.All Outside := ⟨trivial, fun _ => trivial⟩

theorem outside_timerInit : timerInit.All Outside :=
  Prog.all_bind (outside_regWrite (by decide)) fun _ => outside_regWrite (by decide)

theorem outside_errorInfo {werr : Nat} {addr wrdat rddat : BitVec 32} :
    (errorInfo werr addr wrdat rddat).All Outside := by
  refine Prog.all_bind (Prog.all_onlyIf ?_) fun _ => Prog.all_onlyIf ?_
  · exact Prog.all_bind (outside_regWrite (by decide)) fun _ =>
      Prog.all_bind (outside_regWrite (by decide)) fun _ => outside_regWrite (by decide)
  · exact Prog.all_bind outside_setErrBuf fun _ => Prog.all_bind outside_setErrBuf fun _ => outside_setErrBuf

theorem outside_clearErrBuf {j : Nat} : (clearErrBuf k j).All Outside := by
  induction k generalizing j with
  | zero => trivial
  | succ k ih => exact Prog.all_bind outside_setErrBuf fun _ => ih

/-! ## The passes -/

/-- The cell of the `q`-th word. -/
def cell (decode : BitVec 32 → κ) (start : BitVec 32) (q : Nat) : κ := decode (wordAddr start q)

theorem wp_writePass_faults {f : κ → BitVec 32} (hn : q + k ≤ n) (h : s = stores f (cell decode start) (word t) q) :
    WP (memory start n decode may) True (writePass t start k q (rand t q)) s fun _ s' =>
      s' = stores f (cell decode start) (word t) (q + k) := by
  induction k generalizing q s with
  | zero =>
    rw [Nat.add_zero, ← h]
    rfl
  | succ k ih =>
    rw [writePass_succ, wp_bind, wp_store (inRange_wordAddr (by omega))]
    refine WP.mono (ih (by omega) (by rw [h]; rfl)) fun _ s' h' => ?_
    rw [h', show q + 1 + k = q + (k + 1) by omega]

/-- What the counts say of the `k` words from the `q`-th on, the cells being `s`. -/
structure Compared (may : BitVec 32 → BitVec 32 → BitVec 32 → Prop) (start : BitVec 32) (t : Test)
    (f : Nat → BitVec 32) (q k : Nat) (c c' : Counts) (g g' : Globals) : Prop where
  globals : g' = { g with werr := g'.werr }
  lerrcnt : ∀ j, c.lerrcnt j ≤ c'.lerrcnt j
  werr : ∀ j, c'.lerrcnt j + g.werr ≤ c.lerrcnt j + g'.werr
  passed : ∀ j, c'.lerrcnt j = 0 → ∀ i, q ≤ i → i < q + k →
    ∃ data, may (wordAddr start i) (f i) data ∧ data &&& laneMask j = word t i &&& laneMask j
  clean : (∀ i, q ≤ i → i < q + k → ∀ data, may (wordAddr start i) (f i) data → data = word t i) →
    c' = c ∧ g' = g

variable {f : Nat → BitVec 32}

theorem Compared.refl : Compared may start t f q 0 c c g g where
  globals := rfl
  lerrcnt _ := Nat.le_refl _
  werr _ := Nat.le_refl _
  passed _ _ i hi hi' := absurd hi' (by omega)
  clean _ := ⟨rfl, rfl⟩

theorem Compared.trans {k' : Nat} (h : Compared may start t f q k c c' g g')
    (h' : Compared may start t f (q + k) k' c' c'' g' g'') : Compared may start t f q (k + k') c c'' g g'' where
  globals := by rw [h'.globals, h.globals]
  lerrcnt j := (h.lerrcnt j).trans (h'.lerrcnt j)
  werr j := by
    have h1 := h.werr j
    have h2 := h'.werr j
    omega
  passed j hj i hi hi' := by
    have hle := h'.lerrcnt j
    rcases Nat.lt_or_ge i (q + k) with hlt | hge
    · exact h.passed j (by omega) i hi hlt
    · exact h'.passed j hj i hge (by omega)
  clean hc := by
    obtain ⟨rfl, rfl⟩ := h.clean fun i hi hi' => hc i hi (by omega)
    exact h'.clean fun i hi hi' => hc i (by omega) (by omega)

/-- Once there are lots of errors, the words that are left are not looked at. -/
theorem Compared.exhausted {k' : Nat} (h : Compared may start t f q k c c' g g') (he : c'.exhausted = true) :
    Compared may start t f q (k + k') c c' g g' where
  globals := h.globals
  lerrcnt := h.lerrcnt
  werr := h.werr
  passed j hj := by
    have hmany := of_decide_eq_true he j
    omega
  clean hc := h.clean fun i hi hi' => hc i hi (by omega)

theorem Counts.count_zero {data ref : BitVec 32} {j : Fin 4} (h : (c.count data ref).lerrcnt j = 0) :
    data &&& laneMask j = ref &&& laneMask j := by
  by_contra hne
  simp only [Counts.count, if_pos hne] at h
  omega

theorem wp_compareWord_faults (hb : Below start n) {data : BitVec 32}
    (hmay : may (wordAddr start q) (f q) data) :
    WP (memory start n decode may) True (compareWord t (wordAddr start q) q data (word t q) c g) s fun x s' =>
      Compared may start t f q 1 c x.1 g x.2 ∧ s' = s := by
  rw [compareWord, wp_ite]
  refine ⟨fun hne => ?_, fun heq => ?_⟩
  · unfold mismatch
    simp only [wp_bind]
    refine WP.mono (wp_outside hb (Prog.all_onlyIf outside_printf)) fun _ s₁ h₁ => ?_
    refine WP.mono (wp_outside hb outside_errorInfo) fun _ s₂ h₂ => wp_pure.mpr ⟨?_, h₂.trans h₁⟩
    refine ⟨rfl, fun j => ?_, fun j => ?_, fun j hj i hi hi' => ?_, fun hc => ?_⟩
    · simp only [Counts.count]
      split <;> omega
    · simp only [Counts.count]
      split <;> omega
    · rw [show i = q by omega]
      exact ⟨data, hmay, Counts.count_zero hj⟩
    · exact absurd (hc q (Nat.le_refl q) (by omega) data hmay) hne
  · refine ⟨⟨rfl, fun _ => Nat.le_refl _, fun _ => Nat.le_refl _, fun j _ i hi hi' => ?_, fun _ => ⟨rfl, rfl⟩⟩, rfl⟩
    rw [show i = q by omega]
    exact ⟨data, hmay, by rw [not_not.mp heq]⟩

theorem wp_readPass_faults (hb : Below start n) (hn : q + k ≤ n) :
    WP (memory start n decode may) True (readPass t start k q (rand t q) c g) s fun x s' =>
      Compared may start t (fun i => s (cell decode start i)) q k c x.1 g x.2 ∧ s' = s := by
  induction k generalizing q c g with
  | zero => exact ⟨.refl, rfl⟩
  | succ k ih =>
    rw [readPass_succ, wp_bind, wp_load (inRange_wordAddr (by omega))]
    intro data hmay
    rw [wp_bind]
    refine WP.mono (wp_compareWord_faults (f := fun i => s (cell decode start i)) hb hmay) fun x s₁ h₁ => ?_
    obtain ⟨h₁, rfl⟩ := h₁
    rw [Nat.add_comm k 1, wp_ite]
    refine ⟨fun he => ⟨h₁.exhausted (Bool.and_eq_true_iff.mp he).2, rfl⟩, fun _ => ?_⟩
    exact WP.mono (ih (by omega)) fun y s₂ h₂ => ⟨h₁.trans h₂.1, h₂.2⟩

/-! ## One test -/

/-- The words in the cells after the writes. -/
def written (decode : BitVec 32 → κ) (start : BitVec 32) (t : Test) (s : κ → BitVec 32) (k : Nat) : κ → BitVec 32 :=
  stores s (cell decode start) (word t) k

/-- The counters only grow, an error being counted once in a lane. -/
structure Grown (g g' : Globals) : Prop where
  qmask : g'.qmask = g.qmask
  errcnt : ∀ j, g.errcnt j ≤ g'.errcnt j
  werr : ∀ j, g'.errcnt j + g.werr ≤ g.errcnt j + g'.werr

theorem Grown.refl (g : Globals) : Grown g g := ⟨rfl, fun _ => Nat.le_refl _, fun _ => Nat.le_refl _⟩

theorem Grown.le (h : Grown g g') : g.werr ≤ g'.werr := by
  have hlane := h.errcnt 0
  have hwerr := h.werr 0
  omega

theorem Grown.trans (h : Grown g g') (h' : Grown g' g'') : Grown g g'' where
  qmask := h'.qmask.trans h.qmask
  errcnt j := (h.errcnt j).trans (h'.errcnt j)
  werr j := by
    have h1 := h.werr j
    have h2 := h'.werr j
    omega

/-- What test `t` of `k` words says of the memory. -/
structure Verdict (decode : BitVec 32 → κ) (may : BitVec 32 → BitVec 32 → BitVec 32 → Prop) (start : BitVec 32)
    (t : Test) (k : Nat) (s : κ → BitVec 32) (g g' : Globals) : Prop extends Grown g g' where
  passed : ∀ j, g'.errcnt j = g.errcnt j → ∀ i < k, ∃ data,
    may (wordAddr start i) (written decode start t s k (cell decode start i)) data ∧
      data &&& laneMask j = word t i &&& laneMask j
  clean : (∀ i < k, ∀ data, may (wordAddr start i) (written decode start t s k (cell decode start i)) data →
    data = word t i) → g'.werr = g.werr

theorem wp_writeWords_faults (hb : Below start n) (hk : k ≤ n) :
    WP (memory start n decode may) True (writeWords t start k g) s fun _ s' => s' = written decode start t s k := by
  unfold writeWords
  simp only [wp_bind]
  refine WP.mono (wp_outside hb (Prog.all_onlyIf (outside_regWrite (by decide)))) fun _ s₁ h₁ => ?_
  refine WP.mono (wp_outside hb outside_timerInit) fun _ s₂ h₂ => ?_
  refine WP.mono (wp_writePass_faults (f := s) (by omega) (h₂.trans h₁)) fun _ s₃ h₃ => ?_
  refine WP.mono (wp_outside hb outside_dCacheInvalidate) fun _ s₄ h₄ => ?_
  rw [h₄, h₃, Nat.zero_add]
  rfl

theorem wp_finish_faults (hb : Below start n) {s₁ : κ → BitVec 32} {g₁ : Globals}
    (h : Compared may start t (fun i => written decode start t s k (cell decode start i)) 0 k {} c g g₁) :
    WP (memory start n decode may) True (finish t loop c g₁) s₁ fun g' _ => Verdict decode may start t k s g g' := by
  unfold finish
  simp only [wp_bind]
  refine WP.mono (wp_outside hb (outside_regRead (by decide))) fun _ s₂ _ => ?_
  refine WP.mono (wp_outside hb (Prog.all_onlyIf outside_printf)) fun _ s₃ _ => wp_pure.mpr ?_
  have hg := h.globals
  have herr : g₁.errcnt = g.errcnt := by rw [hg]
  refine ⟨⟨by rw [hg], fun j => ?_, fun j => ?_⟩, fun j hj i hi => ?_, fun hc => ?_⟩
  · dsimp only
    rw [herr]
    exact Nat.le_add_right _ _
  · have hle := h.werr j
    dsimp only at hle ⊢
    rw [herr]
    omega
  · dsimp only at hj
    rw [herr] at hj
    exact h.passed j (by omega) i (Nat.zero_le i) (by omega)
  · rw [(h.clean fun i _ hi => hc i (by omega)).2]

theorem wp_writeAndRead_faults (hb : Below start n) (hk : k ≤ n) :
    WP (memory start n decode may) True (writeAndRead t start k g) s fun x _ =>
      Compared may start t (fun i => written decode start t s k (cell decode start i)) 0 k {} x.1 g x.2 := by
  unfold writeAndRead
  rw [wp_bind]
  refine WP.mono (wp_writeWords_faults hb hk) fun _ s₁ h₁ => ?_
  subst h₁
  exact WP.mono (wp_readPass_faults (q := 0) hb (by omega)) fun x s₂ h₂ => h₂.1

/-- The program says what test `t` of `k` words does. -/
def Says (decode : BitVec 32 → κ) (may : BitVec 32 → BitVec 32 → BitVec 32 → Prop) (start : BitVec 32) (n : Nat)
    (t : Globals → Test) (k : Nat) (p : Globals → MemProg Globals) : Prop :=
  ∀ g s, WP (memory start n decode may) True (p g) s fun g' _ => Verdict decode may start (t g) k s g g'

theorem says_simple (hb : Below start (rangeWords size)) (hloop : loop ≠ -1) {d0 d1 d2 d3 : BitVec 32} :
    Says decode may start (rangeWords size)
      (fun g => simpleTest k fun j => [d0 &&& g.qmask, d1 &&& g.qmask, d2 &&& g.qmask, d3 &&& g.qmask].getD j 0)
      (rangeWords size) (memtestSimple start size k loop d0 d1 d2 d3) := by
  intro g s
  unfold memtestSimple
  simp only [wp_bind]
  refine WP.mono (wp_writeWords_faults hb (Nat.le_refl _)) fun _ s₁ h₁ => ?_
  subst h₁
  rw [if_neg hloop, wp_bind]
  refine WP.mono (wp_readPass_faults (q := 0) hb (Nat.zero_add _).le) fun x s₂ h₂ => ?_
  exact wp_finish_faults hb h₂.1

theorem says_pat128 (hb : Below start (rangeWords size)) {pat : Globals → Nat → BitVec 32} :
    Says decode may start (rangeWords size) (fun g => pat128Test k (pat g) g.qmask) (steps size 4)
      fun g => memtestPat128 start size k loop (pat g) g := by
  intro g s
  unfold memtestPat128
  rw [wp_bind]
  exact WP.mono (wp_writeAndRead_faults hb steps_le) fun x s₁ h₁ => wp_finish_faults hb h₁

theorem says_lfsr (hb : Below start (rangeWords size)) :
    Says decode may start (rangeWords size) (fun g => lfsrTest k loop g.qmask (g.rseed + 0x017c1e23)) (steps size 4)
      (memtestLfsr start size k loop) := by
  intro g s
  unfold memtestLfsr
  rw [wp_bind]
  refine WP.mono (wp_writeAndRead_faults hb steps_le) fun x s₁ h₁ => ?_
  exact WP.mono (wp_finish_faults hb h₁) fun _ _ h => ⟨⟨h.qmask, h.errcnt, h.werr⟩, h.passed, h.clean⟩

theorem says_memtest (hb : Below start (rangeWords size)) :
    Says decode may start (rangeWords size) (fun g => memtestTest start k loop g.qmask) (steps size 4)
      (memtest start size k loop) := by
  intro g s
  unfold memtest
  simp only [wp_bind]
  refine WP.mono (wp_writeAndRead_faults hb steps_le) fun x s₁ h₁ => ?_
  exact WP.mono (wp_outside hb outside_dCacheInvalidate) fun _ s₂ _ => wp_finish_faults hb h₁

/-! ## All tests -/

/-- The program is one of the tests. -/
def SaysTest (decode : BitVec 32 → κ) (may : BitVec 32 → BitVec 32 → BitVec 32 → Prop) (start : BitVec 32) (n : Nat)
    (_ : Nat) (p : Globals → MemProg Globals) : Prop :=
  ∃ t k, k ≤ n ∧ Says decode may start n t k p

theorem says_tests {bus_width : Nat} (hb : Below start (rangeWords size)) (hloop : loop ≠ -1) :
    Each (SaysTest decode may start (rangeWords size)) 0 (tests bus_width start size loop) :=
  each_tests ⟨_, _, steps_le, says_memtest hb⟩ (fun _ _ _ _ _ _ => ⟨_, _, Nat.le_refl _, says_simple hb hloop⟩)
    (fun _ _ _ => ⟨_, _, steps_le, says_pat128 hb⟩) fun _ _ => ⟨_, _, steps_le, says_lfsr hb⟩

/-- Each word that is read is the one written. -/
def Faultless (decode : BitVec 32 → κ) (may : BitVec 32 → BitVec 32 → BitVec 32 → Prop) (start : BitVec 32) (n : Nat) :
    Prop :=
  ∀ t s, ∀ k ≤ n, ∀ i < k, ∀ data, may (wordAddr start i) (written decode start t s k (cell decode start i)) data →
    data = word t i

variable {sel : BitVec 32} {ps : List (Globals → MemProg Globals)}

theorem wp_ifSelected_faults {p : Globals → MemProg Globals} (hp : SaysTest decode may start n k p) :
    WP (memory start n decode may) True (ifSelected sel k p g) s fun g' _ =>
      Grown g g' ∧ (Faultless decode may start n → g'.werr = g.werr) := by
  obtain ⟨t, m, hm, hp⟩ := hp
  rw [ifSelected, wp_ite]
  refine ⟨fun _ => WP.mono (hp g s) fun g' _ h => ⟨h.toGrown, fun hf => h.clean fun i hi data hd => ?_⟩, fun _ => ?_⟩
  · exact hf (t g) s m hm i hi data hd
  · exact ⟨.refl g, fun _ => rfl⟩

theorem wp_selected_faults (hps : Each (SaysTest decode may start n) k ps) :
    WP (memory start n decode may) True (selected sel k ps g) s fun g' _ =>
      Grown g g' ∧ (Faultless decode may start n → g'.werr = g.werr) := by
  induction ps generalizing k g s with
  | nil => exact ⟨.refl g, fun _ => rfl⟩
  | cons p ps ih =>
    unfold selected
    rw [wp_bind]
    refine WP.mono (wp_ifSelected_faults hps.1) fun g₁ s₁ h₁ => WP.mono (ih hps.2) fun g₂ s₂ h₂ => ?_
    exact ⟨h₁.1.trans h₂.1, fun hf => (h₂.2 hf).trans (h₁.2 hf)⟩

/-- What one of the tests says is not taken back. -/
theorem wp_selected_one (hps : Each (SaysTest decode may start n) k ps) {i : Nat} {p : Globals → MemProg Globals}
    (hp : ps[i]? = some p) (hsel : sel.getLsbD (k + i) = true) {V : Globals → Globals → Prop}
    (hV : ∀ g s, WP (memory start n decode may) True (p g) s fun g' _ => V g g') :
    WP (memory start n decode may) True (selected sel k ps g) s fun g' _ =>
      ∃ g₁ g₂, Grown g g₁ ∧ V g₁ g₂ ∧ Grown g₂ g' := by
  induction ps generalizing k i g s with
  | nil => exact absurd hp (by simp)
  | cons p' ps ih =>
    unfold selected
    rw [wp_bind]
    cases i with
    | zero =>
      rw [List.getElem?_cons_zero, Option.some.injEq] at hp
      subst hp
      rw [ifSelected, if_pos (show sel.getLsbD k = true from hsel)]
      exact WP.mono (hV g s) fun g₁ s₁ h₁ => WP.mono (wp_selected_faults hps.2) fun g₂ s₂ h₂ => ⟨g, g₁, .refl g, h₁, h₂.1⟩
    | succ i =>
      rw [List.getElem?_cons_succ] at hp
      refine WP.mono (wp_ifSelected_faults hps.1) fun g₁ s₁ h₁ => ?_
      refine WP.mono (ih hps.2 hp (by rw [← hsel, Nat.add_right_comm]; rfl)) fun g₄ s₄ h => ?_
      obtain ⟨g₂, g₃, h₂, h₃, h₄⟩ := h
      exact ⟨g₂, g₃, h₁.1.trans h₂, h₃, h₄⟩

/-- The counters when the first test starts. -/
def cleared (g : Globals) : Globals := { g with werr := 0, epp := 0, errcnt := fun _ => 0 }

theorem wp_memtestAll_faults {err_buf : BitVec 32} {Q : Globals → Prop} (hb : Below start (rangeWords size))
    (h : WP (memory start (rangeWords size) decode may) True
      (selected sel 0 (tests g.bus_width start size loop) (cleared g)) s fun g' _ => Q g') :
    WP (memory start (rangeWords size) decode may) True (memtestAll start size sel loop err_buf g) s fun g' _ => Q g' := by
  unfold memtestAll
  simp only [wp_bind]
  refine WP.mono (wp_outside hb outside_errorInfo) fun _ s₁ h₁ => ?_
  refine WP.mono (wp_outside hb (outside_regWrite (by decide))) fun _ s₂ h₂ => ?_
  refine WP.mono (wp_outside hb outside_clearErrBuf) fun _ s₃ h₃ => ?_
  rw [h₃, h₂, h₁]
  refine WP.mono h fun g' s₄ hQ => ?_
  exact WP.mono (wp_outside hb (outside_regWrite (by decide))) fun _ s₅ _ => hQ

/-! ## Stuck bits -/

theorem getLsbD_laneMask : ∀ b : Fin 32, (laneMask (lane b)).getLsbD b = true := by decide

theorem getLsbD_lane {b : Fin 32} {x y : BitVec 32} (h : x &&& laneMask (lane b) = y &&& laneMask (lane b)) :
    x.getLsbD b = y.getLsbD b := by
  have hb := congrArg (fun z => z.getLsbD b) h
  simpa only [BitVec.getLsbD_and, getLsbD_laneMask, Bool.and_true] using hb

theorem word_simple {d : BitVec 32} {i : Nat} : word (simpleTest k fun j => [d, d, d, d].getD j 0) i = d := by
  show [d, d, d, d].getD (i % 4) 0 = d
  rcases (show i % 4 = 0 ∨ i % 4 = 1 ∨ i % 4 = 2 ∨ i % 4 = 3 by omega) with h | h | h | h <;> rw [h] <;> rfl

/-- Where a test that writes `d` everywhere counts no error in the lane of a bit, the bit of each word can be read
as it is in `d`. -/
theorem wp_memtestAll_simple {b : Fin 32} {err_buf d : BitVec 32} (hb : Below start (rangeWords size))
    (hloop : loop ≠ -1) (hk : sel.getLsbD k = true) (ha : InRange start (rangeWords size) a)
    (htest : (tests g.bus_width start size loop)[k]? = some (memtestSimple start size k loop d d d d)) :
    WP (memory start (rangeWords size) decode may) True (memtestAll start size sel loop err_buf g) s fun g' _ =>
      g'.errcnt (lane b) = 0 → ∃ c data, may a c data ∧ data.getLsbD b = (d &&& g.qmask).getLsbD b := by
  obtain ⟨q, hq, rfl⟩ := ha
  refine wp_memtestAll_faults (Q := fun g' => g'.errcnt (lane b) = 0 → ∃ c data, may (wordAddr start q) c data ∧
    data.getLsbD b = (d &&& g.qmask).getLsbD b) hb ?_
  refine WP.mono (wp_selected_one (says_tests hb hloop) htest (by rwa [Nat.zero_add])
    (V := fun g₁ g₂ => Grown g₁ g₂ ∧ (g₂.errcnt (lane b) = g₁.errcnt (lane b) → ∃ c data,
      may (wordAddr start q) c data ∧ data.getLsbD b = (d &&& g₁.qmask).getLsbD b)) ?_) fun g' s' h hzero => ?_
  · refine fun g₁ s₁ => WP.mono (says_simple hb hloop g₁ s₁) fun g₂ s₂ h => ⟨h.toGrown, fun heq => ?_⟩
    obtain ⟨data, hmay, hdata⟩ := h.passed (lane b) heq q hq
    rw [word_simple] at hdata
    exact ⟨_, data, hmay, getLsbD_lane hdata⟩
  · obtain ⟨g₁, g₂, h₁, ⟨h₂, hV⟩, h₃⟩ := h
    have hle := h₂.errcnt (lane b)
    have hle' := h₃.errcnt (lane b)
    obtain ⟨c, data, hmay, hdata⟩ := hV (by omega)
    exact ⟨c, data, hmay, by rw [hdata, h₁.qmask]; rfl⟩

/-- A memory that answers a read with what the fault makes of the cell. -/
def faulty (start : BitVec 32) (n : Nat) (decode : BitVec 32 → κ) (fault : BitVec 32 → BitVec 32 → BitVec 32) :
    Env MemOp MemOp.Ans (κ → BitVec 32) where
  step
    | s, .regRead a => (fault a (s (decode a)), s)
    | s, .regWrite a v => ((), if InRange start n a then Function.update s (decode a) v else s)
    | s, .dCacheInvalidate => ((), s)
    | s, .setErrBuf _ _ => ((), s)
    | s, .printf _ _ => ((), s)

theorem faulty_run {κ : Type} [DecidableEq κ] (start : BitVec 32) (n : Nat) (decode : BitVec 32 → κ)
    (fault : BitVec 32 → BitVec 32 → BitVec 32) {α : Type} (p : MemProg α) (s : κ → BitVec 32)
    (h : ((faulty start n decode fault).run p s).isSome = true) : ∃ tr x s', p.Runs tr x ∧
      (memory start n decode fun a c data => data = fault a c).Path s tr s' := by
  obtain ⟨x, hx⟩ := Option.isSome_iff_exists.mp h
  refine ⟨_, x.1, x.2, (Env.runs_of_run hx).1, Env.path_of_run (f := id) (fun s e => ?_) hx⟩
  cases e with
  | regRead a => exact ⟨fun _ => rfl, rfl⟩
  | regWrite a v => exact rfl
  | dCacheInvalidate => exact rfl
  | setErrBuf i v => exact rfl
  | printf fmt args => exact rfl

theorem eq_of_lanes {x y : BitVec 32} (h : ∀ j, x &&& laneMask j = y &&& laneMask j) : x = y := by
  apply BitVec.eq_of_getLsbD_eq
  exact fun i hi => getLsbD_lane (b := ⟨i, hi⟩) (h _)

/-- The cells of the words are different. -/
theorem injOn_cell {κ : Type} {decode : BitVec 32 → κ} (hb : Below start n) (hk : k ≤ n) :
    Set.InjOn decode {a | InRange start k a} ↔ Set.InjOn (cell decode start) (Set.Iio k) := by
  have hinj : Set.InjOn (wordAddr start) (Set.Iio k) := (wordAddr_injOn hb).mono fun i hi => Nat.lt_of_lt_of_le hi hk
  constructor
  · intro h i hi j hj heq
    exact hinj hi hj (h (inRange_wordAddr hi) (inRange_wordAddr hj) heq)
  · rintro h _ ⟨i, hi, rfl⟩ _ ⟨j, hj, rfl⟩ heq
    rw [h hi hj heq]

theorem faultless_plain (h : Set.InjOn (cell decode start) (Set.Iio n)) : Faultless decode plain start n := by
  intro t s k hk i hi data hdata
  rw [show data = _ from hdata]
  refine stores_apply_iff.mpr (fun i hi j hj heq => ?_) i hi
  rw [h (show i < n by omega) (show j < n by omega) heq]

/-- A test of different words that counts no error. -/
theorem Verdict.injOn (h : Verdict decode plain start t k s g g') (hword : Set.InjOn (word t) (Set.Iio k))
    (herr : g'.werr = g.werr) : Set.InjOn (cell decode start) (Set.Iio k) := by
  refine (stores_injOn (f := s) hword).mp fun i hi => eq_of_lanes fun j => ?_
  have hle := h.werr j
  have hge := h.errcnt j
  obtain ⟨data, hdata, heq⟩ := h.passed j (by omega) i hi
  rw [← heq, show data = _ from hdata]
  rfl

theorem injOn_word_memtest (hb : Below start n) (hk : k ≤ n) {qmask : BitVec 32} (hq : qmask = 0xffffffff) :
    Set.InjOn (word (memtestTest start 0 loop qmask)) (Set.Iio k) := by
  have hword : ∀ i, word (memtestTest start 0 loop qmask) i = wordAddr start i := fun i => by
    show wordAddr start i &&& qmask = wordAddr start i
    rw [hq]
    exact BitVec.and_allOnes
  intro i hi j hj heq
  rw [hword, hword] at heq
  exact wordAddr_injOn hb (Nat.lt_of_lt_of_le hi hk) (Nat.lt_of_lt_of_le hj hk) heq

theorem steps_eq (h : size.toNat % 16 = 0) : steps size 4 = rangeWords size := by
  unfold rangeWords steps
  rw [BitVec.toInt_eq_toNat_cond]
  split <;> omega

/-- In a memory without other faults, test 0 finds that two words share a cell, and without that no test finds
an error. -/
theorem memtestAll_addressing {err_buf : BitVec 32} {tr : Trace MemOp MemOp.Ans}
    {s' : κ → BitVec 32} (hb : Below start (rangeWords size)) (h16 : size.toNat % 16 = 0) (hloop : loop ≠ -1)
    (h0 : sel.getLsbD 0 = true) (hmask : g.qmask = 0xffffffff)
    (hr : (memtestAll start size sel loop err_buf g).Runs tr g')
    (hp : (memory start (rangeWords size) decode plain).Path s tr s') :
    g'.werr = 0 ↔ Set.InjOn decode {a | InRange start (rangeWords size) a} := by
  rw [injOn_cell hb (Nat.le_refl _)]
  constructor
  · intro hzero
    refine (wp_memtestAll_faults (Q := fun g' => g'.werr = 0 →
      Set.InjOn (cell decode start) (Set.Iio (rangeWords size))) hb ?_).sound hr hp hzero
    refine WP.mono (wp_selected_one (says_tests hb hloop) (i := 0) rfl h0
      (V := fun g₁ g₂ => g₁.qmask = g.qmask → Grown g₁ g₂ ∧ (g₂.werr = g₁.werr →
        Set.InjOn (cell decode start) (Set.Iio (rangeWords size)))) ?_) fun g' s' h hzero => ?_
    · refine fun g₁ s₁ => WP.mono (says_memtest hb g₁ s₁) fun g₂ s₂ h hq => ⟨h.toGrown, fun herr => ?_⟩
      rw [steps_eq h16] at h
      exact h.injOn (injOn_word_memtest hb (Nat.le_refl _) (hq.trans hmask)) herr
    · obtain ⟨g₁, g₂, h₁, hV, h₃⟩ := h
      obtain ⟨h₂, hV⟩ := hV h₁.qmask
      have hle₂ := h₂.le
      have hle₃ := h₃.le
      exact hV (by omega)
  · intro hinj
    refine (wp_memtestAll_faults (Q := fun g' => g'.werr = 0) hb ?_).sound hr hp
    exact WP.mono (wp_selected_faults (says_tests hb hloop)) fun g' s' h => h.2 (faultless_plain hinj)

/-- One address line is dead. -/
theorem memtestAll_addressing_line :
    ∃ tr g', (memtestAll 0x100000 16 1 1 0 {}).Runs tr g' ∧ ¬ g'.werr = 0 := by
  obtain ⟨tr, g', s', hr, hp⟩ := faulty_run 0x100000 4 (fun a => a &&& ~~~8) (fun _ c => c)
    (memtestAll 0x100000 16 1 1 0 {}) (fun _ => 0) (by decide +kernel)
  have h := memtestAll_addressing (by unfold Below; decide) (by decide) (by decide) (by decide) rfl hr hp
  refine ⟨tr, g', hr, fun hzero => ?_⟩
  have heq := h.mp hzero (show InRange 0x100000 4 0x100000 by decide) (show InRange 0x100000 4 0x100008 by decide) rfl
  exact absurd heq (by decide)

end FpgaV3.Proof.Memtest
