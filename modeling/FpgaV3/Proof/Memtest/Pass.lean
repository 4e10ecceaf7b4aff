import FpgaV3.Spec.Memtest

/-!
# The passes of a test

The words of a test have different addresses (`wordAddr_injOn`), below those of all
registers (`below_of_inRange`). So after the write pass each holds its word
(`wp_writePass`), and the accesses to registers change none of them (`Kept`).

The read pass notes an error for each word that is not what was written
(`wp_readPass`), whatever the memory answers, and `error_info` keeps the first 80
(`Logged`).
-/

namespace FpgaV3.Proof.Memtest

open FpgaV3.Spec FpgaV3.Impl FpgaV3.Impl.Memtest

variable {start : BitVec 32} {n k q : Nat} {t : Test} {g : Globals} {c : Counts} {m m' m'' : Monitor} {a : BitVec 32}

/-! ## Addresses -/

theorem toNat_wordAddr (hb : Below start n) (hq : q < n) : (wordAddr start q).toNat = start.toNat + 4 * q := by
  have hlt : ERR_INFO.toNat < 2 ^ 32 := ERR_INFO.isLt
  unfold Below at hb
  rw [wordAddr, BitVec.toNat_add, BitVec.toNat_ofNat, Nat.mod_eq_of_lt (a := 4 * q) (by omega), Nat.mod_eq_of_lt (by omega)]

theorem wordAddr_injOn (hb : Below start n) : Set.InjOn (wordAddr start) (Set.Iio n) := by
  intro i hi j hj h
  have htoNat := congrArg BitVec.toNat h
  rw [toNat_wordAddr hb hi, toNat_wordAddr hb hj] at htoNat
  omega

theorem below_of_inRange (hb : Below start n) (h : InRange start n a) : a.toNat < ERR_INFO.toNat := by
  obtain ⟨q, hq, rfl⟩ := h
  rw [toNat_wordAddr hb hq]
  unfold Below at hb
  omega

theorem inRange_wordAddr (hq : q < n) : InRange start n (wordAddr start q) := ⟨q, hq, rfl⟩

theorem steps_le {size : BitVec 32} : steps size 4 ≤ rangeWords size := by
  unfold rangeWords steps
  omega

/-! ## Registers -/

/-- The accesses to registers other than the status in the mailbox. -/
def Aside : MemOp → Prop
  | .regRead a => ERR_INFO.toNat ≤ a.toNat
  | .regWrite a _ => ERR_INFO.toNat ≤ a.toNat ∧ a ≠ MAILBOX_STAT
  | .setErrBuf _ _ => False
  | _ => True

/-- The words under test and the status are as they were. -/
structure Kept (start : BitVec 32) (n : Nat) (m m' : Monitor) : Prop where
  errors : m'.errors = m.errors
  last : ∀ a, InRange start n a ∨ a = MAILBOX_STAT → m'.last a = m.last a
  buf : m'.buf = m.buf
  stored : m'.stored = m.stored

theorem Kept.refl (m : Monitor) : Kept start n m m := ⟨rfl, fun _ _ => rfl, rfl, rfl⟩

theorem Kept.trans (h : Kept start n m m') (h' : Kept start n m' m'') : Kept start n m m'' where
  errors := h'.errors.trans h.errors
  last a ha := (h'.last a ha).trans (h.last a ha)
  buf := h'.buf.trans h.buf
  stored := h'.stored.trans h.stored

theorem kept_call (hb : Below start n) {x : MemEvent} (hx : Aside x.1) : Kept start n m (m.call start n x) := by
  obtain ⟨e, r⟩ := x
  cases e with
  | regRead a =>
    have hout : ¬ InRange start n a := fun h => absurd (below_of_inRange hb h) (Nat.not_lt.mpr hx)
    rw [Monitor.call, if_neg fun h => hout h.1]
    exact .refl m
  | regWrite a v =>
    refine ⟨rfl, fun b h => ?_, rfl, rfl⟩
    have hne : b ≠ a := by
      rintro rfl
      rcases h with h | h
      · exact absurd (below_of_inRange hb h) (Nat.not_lt.mpr hx.1)
      · exact hx.2 h
    exact Function.update_of_ne hne v m.last
  | setErrBuf i v => exact hx.elim
  | dCacheInvalidate => exact .refl m
  | printf fmt args => exact .refl m

theorem wp_aside {α : Type} {p : MemProg α} (hb : Below start n) (hp : p.All Aside) :
    WP (monitors start n) True p m fun _ => Kept start n m := by
  refine wp_invariant (fun s e r s' he hs h => ?_) hp (.refl m)
  rw [hs.2]
  exact h.trans (kept_call hb he)

theorem all_printf {fmt : String} {args : List Arg} : (printf fmt args).All Aside := ⟨trivial, fun _ => trivial⟩

theorem all_regWrite {v : BitVec 32} (h : ERR_INFO.toNat ≤ a.toNat ∧ a ≠ MAILBOX_STAT) : (regWrite a v).All Aside :=
  ⟨h, fun _ => trivial⟩

theorem all_timerInit : timerInit.All Aside :=
  Prog.all_bind (all_regWrite (by decide)) fun _ => all_regWrite (by decide)

theorem all_regRead (h : ERR_INFO.toNat ≤ a.toNat) : (regRead a).All Aside := ⟨h, fun _ => trivial⟩

theorem all_timerRead : timerRead.All Aside := all_regRead (by decide)

theorem all_dCacheInvalidate : dCacheInvalidate.All Aside := ⟨trivial, fun _ => trivial⟩

/-! ## The write pass -/

@[simp] theorem wp_regWrite {lim : Prop} {v : BitVec 32} {Q : Unit → Monitor → Prop} :
    WP (monitors start n) lim (regWrite a v) m Q ↔ Q () { m with last := Function.update m.last a v } :=
  ⟨fun h => h () _ ⟨trivial, rfl⟩, fun h _ _ hs => hs.2 ▸ h⟩

@[simp] theorem wp_regRead {lim : Prop} {Q : BitVec 32 → Monitor → Prop} :
    WP (monitors start n) lim (regRead a) m Q ↔ ∀ v, Q v (m.call start n ⟨.regRead a, v⟩) :=
  ⟨fun h v => h v _ ⟨trivial, rfl⟩, fun h v _ hs => hs.2 ▸ h v⟩

@[simp] theorem wp_setErrBuf {lim : Prop} {i : Int} {v : BitVec 32} {Q : Unit → Monitor → Prop} :
    WP (monitors start n) lim (setErrBuf i v) m Q ↔
      Q () { m with buf := Function.update m.buf i v, stored := m.stored ++ [i] } :=
  ⟨fun h => h () _ ⟨trivial, rfl⟩, fun h _ _ hs => hs.2 ▸ h⟩

theorem writePass_succ : writePass t start (k + 1) q (rand t q) = (do
    regWrite (wordAddr start q) (word t q)
    writePass t start k (q + 1) (rand t (q + 1))) := rfl

theorem wp_writePass {f : BitVec 32 → BitVec 32} (h : m.last = stores f (wordAddr start) (word t) q) :
    WP (monitors start n) True (writePass t start k q (rand t q)) m fun _ m' =>
      m' = { m with last := stores f (wordAddr start) (word t) (q + k) } := by
  induction k generalizing q m with
  | zero =>
    rw [Nat.add_zero, ← h]
    rfl
  | succ k ih =>
    simp only [writePass_succ, wp_bind, wp_regWrite]
    refine WP.mono (ih (by rw [h]; rfl)) fun _ m' h' => ?_
    rw [h', show q + 1 + k = q + (k + 1) by omega]

/-! ## Errors -/

/-- `err_buf` after the error with index `i`. -/
def logBuf (buf : Int → BitVec 32) (i : Nat) (addr wrdat rddat : BitVec 32) : Int → BitVec 32 :=
  if i < 80 then
    Function.update (Function.update (Function.update buf (3 * i) addr) (3 * i + 1) wrdat) (3 * i + 2) rddat
  else buf

theorem logBuf_below {buf : Int → BitVec 32} {i : Nat} {addr wrdat rddat : BitVec 32} {j : Int} (h : j < 3 * i) :
    logBuf buf i addr wrdat rddat j = buf j := by
  unfold logBuf
  split
  · rw [Function.update_of_ne (by omega), Function.update_of_ne (by omega), Function.update_of_ne (by omega)]
  · rfl

/-- The places in `err_buf` for the error with index `i`. -/
def places (i : Nat) : List Int := if i < 80 then [3 * (i : Int), 3 * i + 1, 3 * i + 2] else []

theorem all_errorInfo_regs {addr wrdat rddat : BitVec 32} : (do
    regWrite ERR_INFO addr
    regWrite (ERR_INFO + 4) wrdat
    regWrite (ERR_INFO + 8) rddat).All Aside :=
  Prog.all_bind (all_regWrite (by decide)) fun _ =>
    Prog.all_bind (all_regWrite (by decide)) fun _ => all_regWrite (by decide)

theorem wp_errorInfo (hb : Below start n) {i : Nat} {addr wrdat rddat : BitVec 32} :
    WP (monitors start n) True (errorInfo (i + 1) addr wrdat rddat) m fun _ =>
      Kept start n { m with buf := logBuf m.buf i addr wrdat rddat, stored := m.stored ++ places i } := by
  unfold errorInfo
  simp only [wp_bind]
  refine WP.mono (wp_aside hb (Prog.all_onlyIf all_errorInfo_regs)) fun _ m₁ h => ?_
  simp only [wp_onlyIf, wp_bind, wp_setErrBuf]
  have hi : ((i + 1 : Nat) : Int) - 1 = i := by omega
  rw [hi]
  refine ⟨fun hlt => ⟨h.errors, h.last, ?_, ?_⟩, fun hge => ⟨h.errors, h.last, ?_, ?_⟩⟩
  · simp only [logBuf, h.buf, if_pos (show i < 80 by omega)]
  · simp only [places, h.stored, if_pos (show i < 80 by omega), List.append_assoc, List.cons_append, List.nil_append]
  · simp only [logBuf, h.buf, if_neg (show ¬ i < 80 by omega)]
  · simp only [places, h.stored, if_neg (show ¬ i < 80 by omega), List.append_nil]

/-- What the counters and `err_buf` say of the errors so far. -/
structure Tracked (m : Monitor) (werr : Nat) : Prop where
  werr : werr = m.errors.length
  log : Logged m
  wild : m.wild = [-3, -2, -1]

theorem Tracked.kept {werr : Nat} (h : Tracked m werr) (hk : Kept start n m m') : Tracked m' werr where
  werr := by rw [hk.errors, h.werr]
  log := by simpa only [Logged, hk.errors, hk.buf] using h.log
  wild := by rw [Monitor.wild, hk.stored, ← Monitor.wild, h.wild]

/-- An error is noted and logged. -/
theorem Tracked.note {werr : Nat} (h : Tracked m werr) {e : Mismatch} {logged : BitVec 32}
    (hl : logged = e.addr ↔ ¬ SimpleStat e.stat) : Tracked
      { m with
        errors := m.errors ++ [e]
        buf := logBuf m.buf werr logged e.ref e.data
        stored := m.stored ++ places werr } (werr + 1) where
  werr := by rw [List.length_append, ← h.werr]; rfl
  log := by
    intro i e' hget hi
    have hlen := h.werr
    rcases Nat.lt_or_ge i werr with hlt | hge
    · rw [List.getElem?_append_left (by omega)] at hget
      dsimp only
      rw [logBuf_below (by omega), logBuf_below (by omega), logBuf_below (by omega)]
      exact h.log i e' hget hi
    · rw [List.getElem?_append_right (by omega)] at hget
      have hi' : i = werr := by
        rcases Nat.lt_or_ge werr i with hlt | hle
        · rw [show i - m.errors.length = i - werr - 1 + 1 by omega, List.getElem?_cons_succ] at hget
          exact absurd hget (by simp)
        · omega
      rw [hi', hlen, Nat.sub_self, List.getElem?_cons_zero, Option.some.injEq] at hget
      subst hget
      subst hi'
      simp only [logBuf, if_pos hi]
      refine ⟨?_, by rw [Function.update_self], ?_⟩
      · rw [Function.update_of_ne (by omega), Function.update_self]
      · rw [Function.update_of_ne (by omega), Function.update_of_ne (by omega), Function.update_self]
        exact hl
  wild := by
    have hout : (places werr).filter (fun i => i < 0 || 256 ≤ i) = [] := by
      rw [List.filter_eq_nil_iff]
      intro i hi
      unfold places at hi
      split at hi
      · simp only [List.mem_cons, List.not_mem_nil, or_false] at hi
        simp
        omega
      · exact absurd hi List.not_mem_nil
    have hold := h.wild
    unfold Monitor.wild at hold ⊢
    rw [List.filter_append, hout, List.append_nil, hold]

/-! ## The read pass -/

/-- The counters after the errors `es`. -/
def after (c : Counts) (es : List Mismatch) : Counts :=
  ⟨c.merr + es.length, fun j => c.lerrcnt j + es.countP fun e => e.inLane j⟩

/-- Of `k` words the errors `es` are noted, of the test with the status that is in the mailbox. -/
structure Noted (start : BitVec 32) (n k : Nat) (c c' : Counts) (g g' : Globals) (m m' : Monitor) (es : List Mismatch) :
    Prop where
  length : es.length ≤ k
  errors : m'.errors = m.errors ++ es
  stat : ∀ e ∈ es, e.stat = m.last MAILBOX_STAT
  counts : c' = after c es
  globals : g' = { g with werr := g.werr + es.length }
  last : ∀ a, InRange start n a ∨ a = MAILBOX_STAT → m'.last a = m.last a
  tracked : Tracked m' g'.werr

variable {c' c'' : Counts} {g' g'' : Globals} {es es' : List Mismatch}

theorem Noted.refl (h : Tracked m g.werr) : Noted start n k c c g g m m [] where
  length := Nat.zero_le _
  errors := (List.append_nil _).symm
  stat _ he := absurd he List.not_mem_nil
  counts := rfl
  globals := rfl
  last _ _ := rfl
  tracked := h

theorem Noted.trans {k' : Nat} (h : Noted start n k c c' g g' m m' es) (h' : Noted start n k' c' c'' g' g'' m' m'' es') :
    Noted start n (k + k') c c'' g g'' m m'' (es ++ es') where
  length := by
    rw [List.length_append]
    exact Nat.add_le_add h.length h'.length
  errors := by rw [h'.errors, h.errors, List.append_assoc]
  stat e he := by
    rcases List.mem_append.mp he with he | he
    · exact h.stat e he
    · rw [h'.stat e he, h.last _ (Or.inr rfl)]
  counts := by
    rw [h'.counts, h.counts]
    simp only [after, List.length_append, List.countP_append, Nat.add_assoc]
  globals := by
    rw [h'.globals, h.globals]
    simp only [List.length_append, Nat.add_assoc]
  last a ha := (h'.last a ha).trans (h.last a ha)
  tracked := h'.tracked

/-- The address of an error is the one that is logged, but for `memtest_simple`. -/
def LogsAddr (t : Test) (start stat : BitVec 32) : Prop :=
  ∀ q, t.logged (wordAddr start q) q = wordAddr start q ↔ ¬ SimpleStat stat

theorem wp_mismatch (hb : Below start n) (hl : LogsAddr t start (m.last MAILBOX_STAT)) (hq : q < n) {data : BitVec 32}
    (hlast : m.last (wordAddr start q) = word t q) (hne : data ≠ word t q) (h : Tracked m g.werr) :
    WP (monitors start n) True (mismatch t (wordAddr start q) q data (word t q) c g)
      (m.call start n ⟨.regRead (wordAddr start q), data⟩) fun x m' => ∃ es, Noted start n 1 c x.1 g x.2 m m' es := by
  unfold mismatch
  simp only [wp_bind]
  refine WP.mono (wp_aside hb (Prog.all_onlyIf all_printf)) fun _ m₁ h₁ => ?_
  refine WP.mono (wp_errorInfo hb) fun _ m₂ h₂ => ?_
  rw [Monitor.call, if_pos ⟨inRange_wordAddr hq, by rwa [hlast]⟩, hlast] at h₁
  have hnote := h.note (e := ⟨m.last MAILBOX_STAT, wordAddr start q, word t q, data⟩) (hl q)
  refine wp_pure.mpr ⟨[⟨m.last MAILBOX_STAT, wordAddr start q, word t q, data⟩], Nat.le_refl 1, ?_, ?_, ?_, rfl, ?_, ?_⟩
  · rw [h₂.errors, h₁.errors]
  · simp only [List.mem_singleton, forall_eq]
  · simp only [after, Counts.count, Mismatch.inLane, List.length_singleton, List.countP_singleton]
    congr 1
    funext j
    split <;> simp_all
  · exact fun a ha => (h₂.last a ha).trans (h₁.last a ha)
  · refine hnote.kept (⟨?_, fun a ha => ?_, ?_, ?_⟩ : Kept start n _ _)
    · rw [h₂.errors, h₁.errors]
    · exact (h₂.last a ha).trans (h₁.last a ha)
    · rw [h₂.buf, h₁.buf]
    · rw [h₂.stored, h₁.stored]

theorem wp_compareWord (hb : Below start n) (hl : LogsAddr t start (m.last MAILBOX_STAT)) (hq : q < n)
    {data : BitVec 32} (hlast : m.last (wordAddr start q) = word t q) (h : Tracked m g.werr) :
    WP (monitors start n) True (compareWord t (wordAddr start q) q data (word t q) c g)
      (m.call start n ⟨.regRead (wordAddr start q), data⟩) fun x m' => ∃ es, Noted start n 1 c x.1 g x.2 m m' es := by
  rw [compareWord, wp_ite]
  refine ⟨fun hne => wp_mismatch hb hl hq hlast hne h, fun heq => ?_⟩
  rw [Monitor.call, if_neg fun h' => heq (by rw [← hlast]; exact h'.2)]
  exact ⟨[], .refl h⟩

theorem readPass_succ : readPass t start (k + 1) q (rand t q) c g = (do
    let data ← regRead (wordAddr start q)
    let x ← compareWord t (wordAddr start q) q data (word t q) c g
    if t.checked q && x.1.exhausted then return x
    else readPass t start k (q + 1) (rand t (q + 1)) x.1 x.2) := rfl

/-- Every word read that is not the one written is noted. -/
theorem wp_readPass (hb : Below start n) (hl : LogsAddr t start (m.last MAILBOX_STAT)) (hn : q + k ≤ n)
    (hlast : ∀ i < q + k, m.last (wordAddr start i) = word t i) (h : Tracked m g.werr) :
    WP (monitors start n) True (readPass t start k q (rand t q) c g) m fun x m' =>
      ∃ es, Noted start n k c x.1 g x.2 m m' es := by
  induction k generalizing q c g m with
  | zero => exact ⟨[], .refl h⟩
  | succ k ih =>
    simp only [readPass_succ, wp_bind, wp_regRead]
    intro data
    refine WP.mono (wp_compareWord hb hl (by omega) (hlast q (by omega)) h) fun x m₁ h₁ => ?_
    obtain ⟨es, h₁⟩ := h₁
    rw [wp_ite]
    refine ⟨fun _ => ⟨es, { h₁ with length := h₁.length.trans (by omega) }⟩, fun _ => ?_⟩
    have hstat := h₁.last MAILBOX_STAT (Or.inr rfl)
    refine WP.mono (ih (hstat ▸ hl) (by omega) (fun i hi => ?_) h₁.tracked) fun y m₂ h₂ => ?_
    · rw [h₁.last _ (Or.inl (inRange_wordAddr (by omega))), hlast i (by omega)]
    · obtain ⟨es', h₂⟩ := h₂
      exact ⟨es ++ es', Nat.add_comm 1 k ▸ h₁.trans h₂⟩

/-! ## All tests -/

/-- The programs, from the `k`-th on, are all `P`. -/
def Each (P : Nat → (Globals → MemProg Globals) → Prop) : (k : Nat) → List (Globals → MemProg Globals) → Prop
  | _, [] => True
  | k, p :: ps => P k p ∧ Each P (k + 1) ps

theorem each_tests {P : Nat → (Globals → MemProg Globals) → Prop} {bus_width : Nat} {size loop : BitVec 32}
    (hmemtest : P 0 (memtest start size 0 loop))
    (hsimple : ∀ k d0 d1 d2 d3, 1 ≤ k ∧ k ≤ 8 → P k (memtestSimple start size k loop d0 d1 d2 d3))
    (hpat128 : ∀ k (pat : Globals → Nat → BitVec 32), k < 32 ∧ 9 ≤ k →
      P k fun g => memtestPat128 start size k loop (pat g) g)
    (hlfsr : ∀ k, k < 32 ∧ 9 ≤ k → P k (memtestLfsr start size k loop)) :
    Each P 0 (tests bus_width start size loop) := by
  unfold tests busTests
  split <;>
  · simp only [List.cons_append, List.nil_append, Each, Nat.zero_add, Nat.reduceAdd, and_true]
    refine ⟨hmemtest, hsimple _ _ _ _ _ ?_, hsimple _ _ _ _ _ ?_, hsimple _ _ _ _ _ ?_, hsimple _ _ _ _ _ ?_,
      hsimple _ _ _ _ _ ?_, hsimple _ _ _ _ _ ?_, hsimple _ _ _ _ _ ?_, hsimple _ _ _ _ _ ?_,
      hpat128 _ (fun g => g.pat1) ?_, hpat128 _ (fun g => g.pat2) ?_, hlfsr _ ?_, hlfsr _ ?_, hlfsr _ ?_, hlfsr _ ?_⟩ <;>
    omega

theorem length_tests {bus_width : Nat} {size loop : BitVec 32} : (tests bus_width start size loop).length = 15 := by
  unfold tests busTests
  split <;> rfl

end FpgaV3.Proof.Memtest
