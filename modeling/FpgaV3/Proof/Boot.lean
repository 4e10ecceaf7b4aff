import FpgaV3.Framework.Env
import FpgaV3.Spec.Chip

/-!
# Quad Enable

A run of `FpgaV3_Init_SD` that writes makes six calls, of which the write is the last
(`runs_cases`). In it the byte that is written was received with the register, the
transfer in between being one byte long (`allowed_write`); so every run is safe, and
none writes once Quad Enable is set (`boots_safe`).
-/

namespace FpgaV3.Proof.Boot

open FpgaV3.Spec FpgaV3.Impl FpgaV3.Impl.Boot

variable {W : Byte} {c c' : Chip} {t t₁ t₂ : Trace BootOp BootOp.Ans} {r : Bool} {buf : Mem}

/-! ## The calls of a run -/

/-- The calls from the identification on, up to the write. -/
def beforeWrite (ids sr we : List Byte) : Trace BootOp BootOp.Ans :=
  [⟨.polledTransfer [READ_ID_CMD, 0, 0, 0], some ids⟩, ⟨.polledTransfer [READ_STATUS_REG2, 0], some sr⟩,
    ⟨.polledTransfer [WRITE_ENABLE_CMD], some we⟩]

/-- The calls of a run that writes. -/
structure Writes (W : Byte) (buf : Mem) (t : Trace BootOp BootOp.Ans) (ids sr we : List Byte) : Prop where
  id : identified W (overlay buf 0 ids) = true
  clear : overlay (overlay buf 0 ids) 0 sr 1 &&& QE_BIT_MASK = 0
  trace : ∃ r', t = beforeWrite ids sr we ++
    [⟨.polledTransfer [WRITE_STATUS_REG2, overlay (overlay (overlay buf 0 ids) 0 sr) 0 we 1 ||| QE_BIT_MASK], r'⟩]

theorem runs_polledTransfer {data : List Byte} {o : Option Mem} (h : (polledTransfer data buf).Runs t o) :
    ∃ bytes : Option (List Byte), t = [⟨.polledTransfer data, bytes⟩] ∧ o = bytes.map (overlay buf 0) := by
  obtain ⟨bytes, t', rfl, ht, ho⟩ := h
  exact ⟨bytes, by rw [ht], ho⟩

/-- No call is a write. -/
def Quiet (t : Trace BootOp BootOp.Ans) : Prop := ∀ x ∈ t, ¬ IsWrite x

theorem quiet_nil : Quiet [] := fun _ h => absurd h List.not_mem_nil

theorem quiet_cons {x : BootEvent} (hx : ¬ IsWrite x) (ht : Quiet t) : Quiet (x :: t) :=
  List.forall_mem_cons.mpr ⟨hx, ht⟩

/-- A function that returns without a call. -/
theorem quiet_pure {a : Bool} (h : (pure a : BootProg Bool).Runs t r) : Quiet t := h.1 ▸ quiet_nil

theorem runs_programQE (h : (programQE buf).Runs t r) :
    Quiet t ∨ buf 1 &&& QE_BIT_MASK = 0 ∧ ∃ we r', t = [⟨.polledTransfer [WRITE_ENABLE_CMD], some we⟩,
      ⟨.polledTransfer [WRITE_STATUS_REG2, overlay buf 0 we 1 ||| QE_BIT_MASK], r'⟩] := by
  rw [programQE] at h
  by_cases hclear : buf 1 &&& QE_BIT_MASK = 0
  · rw [if_neg (not_not_intro hclear)] at h
    obtain ⟨t₁, t₂, o, rfl, h₁, h⟩ := Prog.runs_bind.mp h
    obtain ⟨bytes, rfl, rfl⟩ := runs_polledTransfer h₁
    have henable : ¬ IsWrite ⟨.polledTransfer [WRITE_ENABLE_CMD], bytes⟩ := by
      show ¬ WRITE_ENABLE_CMD = WRITE_STATUS_REG2
      decide
    cases bytes with
    | none => exact Or.inl (quiet_cons henable (quiet_pure h))
    | some we =>
      obtain ⟨t₃, t₄, o, rfl, h₃, h⟩ := Prog.runs_bind.mp h
      obtain ⟨r', rfl, rfl⟩ := runs_polledTransfer h₃
      refine Or.inr ⟨hclear, we, r', ?_⟩
      cases r' with
      | none => rw [h.1]; rfl
      | some bytes => rw [h.1]; rfl
  · rw [if_pos hclear] at h
    exact Or.inl (quiet_pure h)

theorem runs_checkQE (h : (checkQE W buf).Runs t r) : Quiet t ∨ ∃ ids sr we, Writes W buf t ids sr we := by
  rw [checkQE] at h
  obtain ⟨t₁, t, o, rfl, h₁, h⟩ := Prog.runs_bind.mp h
  obtain ⟨bytes, rfl, rfl⟩ := runs_polledTransfer h₁
  have hread : ¬ IsWrite ⟨.polledTransfer [READ_ID_CMD, 0, 0, 0], bytes⟩ := by
    show ¬ READ_ID_CMD = WRITE_STATUS_REG2
    decide
  cases bytes with
  | none => exact Or.inl (quiet_cons hread (quiet_pure h))
  | some ids =>
  replace h : (if (!identified W (overlay buf 0 ids)) = true then pure false else _ : BootProg Bool).Runs t r := h
  cases hid : identified W (overlay buf 0 ids) with
  | false =>
    rw [hid, Bool.not_false, if_pos rfl] at h
    exact Or.inl (quiet_cons hread (quiet_pure h))
  | true =>
  rw [hid, Bool.not_true, if_neg Bool.false_ne_true] at h
  obtain ⟨t₂, t, o, rfl, h₂, h⟩ := Prog.runs_bind.mp h
  obtain ⟨bytes, rfl, rfl⟩ := runs_polledTransfer h₂
  have hread' : ¬ IsWrite ⟨.polledTransfer [READ_STATUS_REG2, 0], bytes⟩ := by
    show ¬ READ_STATUS_REG2 = WRITE_STATUS_REG2
    decide
  cases bytes with
  | none => exact Or.inl (quiet_cons hread (quiet_cons hread' (quiet_pure h)))
  | some sr =>
  rcases runs_programQE h with hquiet | ⟨hclear, we, r', rfl⟩
  · exact Or.inl (quiet_cons hread (quiet_cons hread' hquiet))
  · exact Or.inr ⟨ids, sr, we, hid, hclear, r', rfl⟩

theorem runs_cases (h : (fpgaV3_Init_SD W buf).Runs t r) :
    Quiet t ∨ ∃ t' ids sr we, t = ⟨.lookupConfig, true⟩ :: ⟨.cfgInitialize, true⟩ :: t' ∧ Writes W buf t' ids sr we := by
  rw [fpgaV3_Init_SD] at h
  obtain ⟨found, t, rfl, h⟩ := h
  have hfound : ¬ IsWrite ⟨.lookupConfig, found⟩ := id
  cases found with
  | false => exact Or.inl (quiet_cons hfound (quiet_pure h))
  | true =>
  obtain ⟨ready, t, rfl, h⟩ := h
  have hready : ¬ IsWrite ⟨.cfgInitialize, ready⟩ := id
  cases ready with
  | false => exact Or.inl (quiet_cons hfound (quiet_cons hready (quiet_pure h)))
  | true =>
  rcases runs_checkQE h with hquiet | ⟨ids, sr, we, hwrites⟩
  · exact Or.inl (quiet_cons hfound (quiet_cons hready hquiet))
  · exact Or.inr ⟨t, ids, sr, we, rfl, hwrites⟩

/-! ## The chip -/

theorem obey_quiet {data : List Byte} {o : Option (List Byte)} (h : ¬ IsWrite ⟨.polledTransfer data, o⟩) :
    (c.obey data).sr2 = c.sr2 := by
  rw [Chip.obey.eq_def]
  split
  · split <;> rfl
  · rename_i cmd value
    have hcmd : ¬ cmd = WRITE_STATUS_REG2 := h
    rw [if_neg fun hwrite => hcmd hwrite.1]
  · rfl

/-- Without a write the register stays. -/
theorem path_quiet (hquiet : Quiet t) (hp : chip.Path c t c') : c'.sr2 = c.sr2 := by
  induction t generalizing c with
  | nil => exact congrArg Chip.sr2 hp
  | cons x t ih =>
    obtain ⟨e, r⟩ := x
    obtain ⟨c₁, hstep, hp⟩ := hp
    obtain ⟨hx, ht⟩ := List.forall_mem_cons.mp hquiet
    rw [ih ht hp]
    cases e with
    | lookupConfig => exact congrArg Chip.sr2 hstep
    | cfgInitialize => exact congrArg Chip.sr2 hstep
    | polledTransfer data =>
      have hobey := obey_quiet (c := c) hx
      cases r with
      | none => exact hstep.elim (congrArg Chip.sr2) fun h => (congrArg Chip.sr2 h).trans hobey
      | some bytes => exact (congrArg Chip.sr2 hstep.2).trans hobey

/-- What is known before a write. -/
structure Prepared (c : Chip) (ids sr we : List Byte) (c₁ : Chip) : Prop where
  ids : c.Sends [READ_ID_CMD, 0, 0, 0] ids
  sr : c.Sends [READ_STATUS_REG2, 0] sr
  we : we.length = 1
  chip : c₁ = { c with wel := true }

theorem path_beforeWrite {ids sr we : List Byte} {rest : Trace BootOp BootOp.Ans}
    (hp : chip.Path c (⟨.lookupConfig, true⟩ :: ⟨.cfgInitialize, true⟩ :: (beforeWrite ids sr we ++ rest)) c') :
    ∃ c₁, Prepared c ids sr we c₁ ∧ chip.Path c₁ rest c' := by
  obtain ⟨c₁, hc₁, c₂, hc₂, c₃, hid, c₄, hsr, c₅, hwe, hrest⟩ := hp
  have h₁ : c₁ = c := hc₁
  have h₂ : c₂ = c₁ := hc₂
  have h₃ : c₃ = c₂ := hid.2
  have h₄ : c₄ = c₃ := hsr.2
  subst h₁ h₂ h₃ h₄
  exact ⟨c₅, ⟨hid.1, hsr.1, hwe.1.length, hwe.2⟩, hrest⟩

namespace Prepared

variable {ids sr we : List Byte} {c₁ : Chip}

/-- The register was received, and the next transfer leaves it in the buffer. -/
theorem received (h : Prepared c ids sr we c₁) (buf : Mem) : overlay buf 0 sr 1 = c.sr2 := by
  have hlen : sr.length = 2 := h.sr.length
  have hget : sr[1]? = some sr[1] := List.getElem?_eq_getElem (by omega)
  rw [← h.sr.sr2 rfl _ hget]
  exact overlay_get (k := 1) hget

theorem kept (h : Prepared c ids sr we c₁) (buf : Mem) : overlay (overlay buf 0 sr) 0 we 1 = c.sr2 := by
  rw [overlay_after (by have hlen := h.we; omega), h.received]

theorem id_get (h : Prepared c ids sr we c₁) {k : Nat} (hk : k < 3) : ids[k + 1]? = some (c.id k) := by
  have hlen : ids.length = 4 := h.ids.length
  have hget : ids[k + 1]? = some ids[k + 1] := List.getElem?_eq_getElem (by omega)
  rw [← h.ids.id rfl k _ hget]
  exact hget

theorem id_byte (h : Prepared c ids sr we c₁) (buf : Mem) {k : Nat} (hk : k < 3) :
    overlay buf 0 ids (k + 1) = c.id k := by
  have hoverlay := overlay_get (f := buf) (a := 0) (h.id_get hk)
  rwa [Nat.zero_add] at hoverlay

theorem ids_eq (h : Prepared c ids sr we c₁) : ∃ b, ids = [b, c.id 0, c.id 1, c.id 2] := by
  have hlen : ids.length = 4 := h.ids.length
  cases ids with
  | nil => exact absurd hlen (by decide)
  | cons b rest =>
    refine ⟨b, congrArg (b :: ·) (List.ext_getElem? fun k => ?_)⟩
    rw [List.length_cons] at hlen
    rcases Nat.lt_or_ge k 3 with hlt | hge
    · have hget : rest[k]? = some (c.id k) := h.id_get hlt
      have hk : k = 0 ∨ k = 1 ∨ k = 2 := by omega
      rw [hget]
      rcases hk with rfl | rfl | rfl <;> rfl
    · rw [List.getElem?_eq_none (by omega)]
      exact (List.getElem?_eq_none hge).symm

theorem known (h : Prepared c ids sr we c₁) (hid : identified W (overlay buf 0 ids) = true) :
    Chip.Known W (c.id 0) (c.id 1) (c.id 2) := by
  have hid' := of_decide_eq_true hid
  rw [h.id_byte buf (k := 0) (by decide), h.id_byte buf (k := 1) (by decide), h.id_byte buf (k := 2) (by decide)] at hid'
  exact hid'

end Prepared

/-- The only write of a trace is its last call. -/
theorem last_write {x y : BootEvent} (h : t ++ [x] = t₁ ++ y :: t₂) (hquiet : Quiet t) (hy : IsWrite y) :
    t₁ = t ∧ y = x := by
  rcases List.append_eq_append_iff.mp h with ⟨u, hu, hx⟩ | ⟨u, hu, hx⟩
  · cases u with
    | nil => exact ⟨hu.trans (List.append_nil t), (List.head_eq_of_cons_eq hx).symm⟩
    | cons a u => exact absurd (List.tail_eq_of_cons_eq hx).symm (List.append_ne_nil_of_right_ne_nil u (List.cons_ne_nil y t₂))
  · cases u with
    | nil => exact ⟨(hu.trans (List.append_nil t₁)).symm, List.head_eq_of_cons_eq hx⟩
    | cons a u =>
      have hmem : y ∈ t := by
        rw [hu, List.head_eq_of_cons_eq hx]
        exact List.mem_append_right _ List.mem_cons_self
      exact absurd hy (hquiet y hmem)

/-! ## Runs -/

theorem quiet_beforeWrite (ids sr we : List Byte) :
    Quiet (⟨.lookupConfig, true⟩ :: ⟨.cfgInitialize, true⟩ :: beforeWrite ids sr we) := by
  refine quiet_cons id (quiet_cons id (quiet_cons ?_ (quiet_cons ?_ (quiet_cons ?_ quiet_nil))))
  · show ¬ READ_ID_CMD = WRITE_STATUS_REG2
    decide
  · show ¬ READ_STATUS_REG2 = WRITE_STATUS_REG2
    decide
  · show ¬ WRITE_ENABLE_CMD = WRITE_STATUS_REG2
    decide

/-- What is written, and to what. -/
theorem allowed_write {ids sr we data : List Byte} {c₁ : Chip} {o o' : Option (List Byte)} {value : Byte}
    (h : Prepared c ids sr we c₁) (hid : identified W (overlay buf 0 ids) = true) (hvalue : value = c.sr2 ||| QE_BIT_MASK)
    (ht : ⟨.lookupConfig, true⟩ :: ⟨.cfgInitialize, true⟩ ::
        (beforeWrite ids sr we ++ [⟨.polledTransfer [WRITE_STATUS_REG2, value], o⟩]) =
      t₁ ++ ⟨.polledTransfer (WRITE_STATUS_REG2 :: data), o'⟩ :: t₂) : Allowed W c t₁ data := by
  have hwrite : IsWrite ⟨.polledTransfer (WRITE_STATUS_REG2 :: data), o'⟩ := rfl
  obtain ⟨hbefore, hsame⟩ := last_write ht (quiet_beforeWrite ids sr we) hwrite
  have hdata : data = [value] := List.tail_eq_of_cons_eq (BootOp.polledTransfer.inj (Sigma.mk.inj hsame).1)
  obtain ⟨b, hids⟩ := h.ids_eq
  subst hbefore
  refine ⟨h.known hid, ⟨b, ?_⟩, ⟨[_, _, _, _], we, rfl⟩, fun c' hp => ?_⟩
  · rw [← hids]
    exact List.mem_cons_of_mem _ (List.mem_cons_of_mem _ List.mem_cons_self)
  · rw [← List.append_nil (beforeWrite ids sr we)] at hp
    obtain ⟨c₂, hprepared, hend⟩ := path_beforeWrite hp
    have hc' : c' = c₂ := hend
    rw [hdata, hvalue, hc', hprepared.chip]

theorem runs_safe (h : (fpgaV3_Init_SD W buf).Runs t r) (hp : chip.Path c t c') : SafeRun W ⟨c, t, c'⟩ := by
  rcases runs_cases h with hquiet | ⟨t', ids, sr, we, rfl, hid, hclear, r', rfl⟩
  · refine ⟨fun t₁ data r' t₂ ht => ?_, fun _ => hquiet, Or.inl (path_quiet hquiet hp)⟩
    have hwrite : IsWrite ⟨.polledTransfer (WRITE_STATUS_REG2 :: data), r'⟩ := rfl
    have ht' : t = t₁ ++ ⟨.polledTransfer (WRITE_STATUS_REG2 :: data), r'⟩ :: t₂ := ht
    exact absurd hwrite (hquiet _ (ht' ▸ List.mem_append_right t₁ List.mem_cons_self))
  · obtain ⟨c₁, hprepared, c₂, hwrite, hlast⟩ := path_beforeWrite hp
    have hc' : c' = c₂ := hlast
    have hkept := hprepared.kept (overlay buf 0 ids)
    rw [hprepared.received] at hclear
    rw [hkept] at hwrite
    refine ⟨fun t₁ data o t₂ ht => ?_, fun henabled => absurd hclear henabled, ?_⟩
    · exact allowed_write hprepared hid (congrArg (· ||| QE_BIT_MASK) hkept) ht
    · have hobey : (c₁.obey [WRITE_STATUS_REG2, c.sr2 ||| QE_BIT_MASK]).sr2 = c.sr2 ||| QE_BIT_MASK := by
        rw [hprepared.chip]
        rfl
      have hsr2 : c₁.sr2 = c.sr2 := by rw [hprepared.chip]
      show c'.sr2 = c.sr2 ∨ c'.sr2 = c.sr2 ||| QE_BIT_MASK
      rw [hc']
      cases r' with
      | none =>
        exact hwrite.imp (fun h => (congrArg Chip.sr2 h).trans hsr2) fun h => (congrArg Chip.sr2 h).trans hobey
      | some bytes => exact Or.inr ((congrArg Chip.sr2 hwrite.2).trans hobey)

/-! ## Boots -/

theorem or_QE (x : Byte) : (x ||| QE_BIT_MASK) &&& QE_BIT_MASK = QE_BIT_MASK := by
  refine BitVec.eq_of_getLsbD_eq fun i _ => ?_
  rw [BitVec.getLsbD_and, BitVec.getLsbD_or]
  cases BitVec.getLsbD QE_BIT_MASK i with
  | false => exact Bool.and_false _
  | true => rw [Bool.or_true, Bool.and_true]

/-- Quad Enable stays set. -/
theorem enabled_after {b : BootRun} (h : SafeRun W b) (henabled : b.pre.QuadEnabled) : b.post.QuadEnabled := by
  rw [Chip.QuadEnabled]
  rcases h.register with heq | heq
  · rw [heq]
    exact henabled
  · rw [heq, or_QE]
    decide

/-- With Quad Enable set, no run writes. -/
theorem boots_enabled {bs : List BootRun} (h : Boots W c bs) (henabled : c.QuadEnabled) :
    ∀ b ∈ bs, ∀ x ∈ b.trace, ¬ IsWrite x := by
  induction h with
  | nil => exact fun _ hb => absurd hb List.not_mem_nil
  | cons _ hr hp _ ih =>
    have hsafe := runs_safe hr hp
    exact List.forall_mem_cons.mpr ⟨hsafe.none henabled, ih (enabled_after hsafe henabled)⟩

/-- In every sequence of boots every write is one that is allowed, and none follows
once Quad Enable is set. -/
theorem boots_safe (W : Byte) (c : Chip) (bs : List BootRun) (h : Boots W c bs) :
    (∀ b ∈ bs, SafeRun W b) ∧ bs.Pairwise fun b b' => b.post.QuadEnabled → ∀ x ∈ b'.trace, ¬ IsWrite x := by
  induction h with
  | nil => exact ⟨fun _ hb => absurd hb List.not_mem_nil, List.Pairwise.nil⟩
  | cons _ hr hp hrest ih =>
    refine ⟨List.forall_mem_cons.mpr ⟨runs_safe hr hp, ih.1⟩, List.Pairwise.cons (fun b hb henabled => ?_) ih.2⟩
    exact boots_enabled hrest henabled b hb

/-- Byte `i` of what the chip sends. -/
def reply (c : Chip) (data : List Byte) (i : Nat) : Byte :=
  if i = 0 then 0xff else if data.head? = some READ_ID_CMD then c.id (i - 1) else c.sr2

/-- All transfers succeed. -/
def answering : Env BootOp BootOp.Ans Chip where
  step c
    | .polledTransfer data => (some (chunk (reply c data) 0 data.length), c.obey data)
    | .lookupConfig | .cfgInitialize => (true, c)

theorem step_answering (c : Chip) (e : BootOp) : chip.step c e (answering.step c e).1 (answering.step c e).2 := by
  cases e with
  | lookupConfig => rfl
  | cfgInitialize => rfl
  | polledTransfer data =>
    have hbyte (i : Nat) (b : Byte) (hb : (chunk (reply c data) 0 data.length)[i]? = some b) : b = reply c data i := by
      have hlt := (List.getElem?_eq_some_iff.mp hb).1
      rw [length_chunk] at hlt
      rw [getElem?_chunk hlt, Nat.zero_add] at hb
      exact (Option.some.inj hb).symm
    refine ⟨⟨length_chunk _ _ _, fun hcmd k b hb => ?_, fun hcmd b hb => ?_⟩, rfl⟩
    · rw [hbyte _ b hb, reply, if_neg (Nat.succ_ne_zero k), if_pos hcmd]
      rfl
    · have hne : ¬ data.head? = some READ_ID_CMD := fun hid => absurd (Option.some.inj (hid.symm.trans hcmd)) (by decide)
      rw [hbyte 1 b hb, reply, if_neg (by decide), if_neg hne]

/-- A W25Q128JV-M as it comes from the factory, and after its first boot. -/
def factory : Chip := ⟨fun k => if k = 0 then 0xef else if k = 1 then 0x70 else 0x18, 0, false⟩
def programmed : Chip := { factory with sr2 := 0x02 }

def twoBoots : List BootRun :=
  [⟨factory, answering.trace (fpgaV3_Init_SD 0xef fun _ => 0) factory, programmed⟩,
    ⟨programmed, answering.trace (fpgaV3_Init_SD 0xef fun _ => 0) programmed, programmed⟩]

theorem boots_twice : Boots 0xef factory twoBoots := by
  have hfirst : answering.run (fpgaV3_Init_SD 0xef fun _ => 0) factory = some (true, programmed) := rfl
  have hsecond : answering.run (fpgaV3_Init_SD 0xef fun _ => 0) programmed = some (true, programmed) := rfl
  refine .cons false (Env.runs_of_run hfirst).1 (Env.path_of_run (f := id) step_answering hfirst) ?_
  exact .cons false (Env.runs_of_run hsecond).1 (Env.path_of_run (f := id) step_answering hsecond) .nil

theorem boots_safe_twice : (∀ b ∈ twoBoots, SafeRun 0xef b) ∧
    twoBoots.Pairwise fun b b' => b.post.QuadEnabled → ∀ x ∈ b'.trace, ¬ IsWrite x :=
  boots_safe 0xef factory twoBoots boots_twice

end FpgaV3.Proof.Boot
