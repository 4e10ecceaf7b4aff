import FpgaV3.Proof.Init.Firmware
import FpgaV3.Spec.Startup

/-!
# The startup

Whatever fails, `main` does not overrun a buffer, and changes nothing if it does not find
its firmware; else it makes the changes that it should, in their order
(`main_startup`).
-/

namespace FpgaV3.Proof.Init

open FpgaV3.Spec FpgaV3.Impl FpgaV3.Impl.Init

variable {α β : Type} {C : InitOp → Prop} {σ : Startup} {F : Text}

/-- The call reads no register, and changes only what it may. -/
def May (C : InitOp → Prop) (e : InitOp) : Prop := (∀ addr, e ≠ .readQuadlet addr) ∧ (changing e = true → C e)

/-- The program makes changes that it may make, and ends. -/
def Does (C : InitOp → Prop) (p : InitProg α) : Prop := p.All (May C) ∧ p.Ends

theorem does_pure {a : α} : Does C (pure a : InitProg α) := ⟨trivial, trivial⟩

theorem does_bind {p : InitProg α} {f : α → InitProg β} (hp : Does C p) (hf : ∀ a, Does C (f a)) : Does C (p >>= f) :=
  ⟨Prog.all_bind hp.1 fun a => (hf a).1, Prog.ends_bind hp.2 fun a => (hf a).2⟩

/-- A call that changes nothing. -/
theorem does_look {e : InitOp} (hr : ∀ addr, e ≠ .readQuadlet addr) (hc : changing e = false) : Does C (.perform e) :=
  ⟨⟨⟨hr, fun h => absurd (hc.symm.trans h) Bool.false_ne_true⟩, fun _ => trivial⟩, fun _ => trivial⟩

theorem does_change {e : InitOp} (hr : ∀ addr, e ≠ .readQuadlet addr) (hc : C e) : Does C (.perform e) :=
  ⟨⟨⟨hr, fun _ => hc⟩, fun _ => trivial⟩, fun _ => trivial⟩

theorem does_ite {c : Prop} [Decidable c] {p q : InitProg α} (hp : c → Does C p) (hq : ¬ c → Does C q) :
    Does C (if c then p else q) := by
  split
  · exact hp (by assumption)
  · exact hq (by assumption)

theorem does_sprintf {size : Nat} {s : Text} {f : Text → InitProg α} (h : s.length < size) (hf : Does C (f s)) :
    Does C (sprintf size s >>= f) := by
  rw [sprintf, if_pos h]
  exact hf

/-- What a part changes is added to the changes. -/
theorem wp_does {lim : Prop} {p : InitProg α} (hp : Does C p) :
    WP startups lim p σ fun _ σ' => ∃ cs, σ' = { σ with changes := σ.changes ++ cs } ∧ ∀ e ∈ cs, C e := by
  refine WP.ends (wp_invariant (fun σ₁ e r σ₂ he hs h => ?_) hp.1 ?_) hp.2
  · obtain ⟨cs, rfl, hcs⟩ := h
    have hcall : (Startup.call { σ with changes := σ.changes ++ cs } ⟨e, r⟩) =
        if changing e then { σ with changes := σ.changes ++ cs ++ [e] } else { σ with changes := σ.changes ++ cs } := by
      cases e with
      | readQuadlet addr => exact absurd rfl (he.1 addr)
      | _ => rfl
    rw [hs.2, hcall]
    split
    · rename_i hc
      refine ⟨cs ++ [e], by rw [List.append_assoc], fun e' he' => ?_⟩
      rcases List.mem_append.mp he' with h | h
      · exact hcs e' h
      · rw [List.mem_singleton.mp h]
        exact he.2 hc
    · exact ⟨cs, rfl, hcs⟩
  · exact ⟨[], by rw [List.append_nil], fun _ h => absurd h List.not_mem_nil⟩

/-! ## The environment variables -/

theorem does_writeLine {name value : Text} (h : name.length + value.length ≤ 54) :
    Does OfProfile (writeLine name value) := by
  have hlen : (exportLine name value).length < 64 := by
    simp only [exportLine, List.length_append]
    show 7 + name.length + 1 + value.length + 1 < 64
    omega
  exact does_sprintf hlen (does_bind (does_change (fun _ h => by cases h) rfl) fun _ => does_pure)

theorem does_onlyIf {c : Prop} [Decidable c] {p : InitProg Unit} (hp : c → Does C p) : Does C (.onlyIf c p) :=
  does_ite hp fun _ => does_pure

theorem does_exportFpgaInfo {fpga_ver fpga_sn board_type : Text} {board_id : Nat} (hv : fpga_ver.length ≤ 44)
    (hs : fpga_sn.length ≤ 45) (ht : board_type.length ≤ 45) :
    Does OfProfile (exportFpgaInfo fpga_ver fpga_sn board_type board_id) := by
  have hid : ∀ i < 16, (fmtDec i).length ≤ 45 := by decide
  refine does_bind (does_change (fun _ h => by cases h) rfl) fun ok => does_ite (fun _ => does_pure) fun _ => ?_
  refine does_bind (does_writeLine (by show 10 + _ ≤ 54; omega)) fun _ => ?_
  refine does_bind (does_onlyIf fun _ => does_writeLine (by show 9 + _ ≤ 54; omega)) fun _ => ?_
  refine does_bind (does_writeLine (by show 9 + _ ≤ 54; omega)) fun _ => ?_
  refine does_bind (does_onlyIf fun h => does_writeLine (Nat.add_le_add_left (hid board_id h) 9)) fun _ => ?_
  exact does_bind (does_look (fun _ h => by cases h) rfl) fun _ => does_pure

/-! ## The firmware -/

theorem does_copyFile {filename srcDir destDir src dest : Text} (hsrc : srcDir ++ text "/" ++ filename = src)
    (hdest : destDir ++ text "/" ++ filename = dest) (ho : C (.openTrunc dest))
    (hs : ∀ count, C (.sendfile dest src count)) : Does C (copyFile filename srcDir destDir) := by
  subst hsrc hdest
  have hclose (path : Text) : Does C (.perform (InitOp.close path)) := does_look (fun _ h => by cases h) rfl
  refine does_bind (does_look (fun _ h => by cases h) rfl) fun ok => does_ite (fun _ => does_pure) fun _ => ?_
  refine does_bind (does_change (fun _ h => by cases h) ho) fun ok => does_ite (fun _ => ?_) fun _ => ?_
  · exact does_bind (hclose _) fun _ => does_pure
  · refine does_bind (does_look (fun _ h => by cases h) rfl) fun r => ?_
    refine does_bind (does_change (fun _ h => by cases h) (hs _)) fun _ => ?_
    exact does_bind (hclose _) fun _ => does_bind (hclose _) fun _ => does_pure

theorem does_convertBitstream (hlen : F.length < 64) : Does (OfFirmware F) (convertBitstream F (text "/tmp")) := by
  have hcmd : (bootgenCmd (tmpBif F)).length < 128 := by rw [length_bootgenCmd]; omega
  refine does_bind (does_change (fun _ h => by cases h) rfl) fun ok => does_ite (fun _ => does_pure) fun _ => ?_
  refine does_bind (does_change (fun _ h => by cases h) ⟨rfl, rfl⟩) fun _ => ?_
  refine does_bind (does_look (fun _ h => by cases h) rfl) fun _ => does_sprintf hcmd ?_
  exact does_bind (does_change (fun _ h => by cases h) rfl) fun ret => does_pure

theorem does_writeSysfs {path data : Text} (ho : C (.openWrite path)) (hw : C (.write path data)) :
    Does C (writeSysfs path data) := by
  refine does_bind (does_change (fun _ h => by cases h) ho) fun ok => does_ite (fun _ => does_pure) fun _ => ?_
  refine does_bind (does_change (fun _ h => by cases h) hw) fun n => ?_
  exact does_bind (does_look (fun _ h => by cases h) rfl) fun _ => does_pure

theorem does_programFpga (hlen : F.length < 64) : Does (OfFirmware F) (programFpga F) := by
  refine does_bind (does_copyFile (mediaBit_eq F) (tmpBit_eq F) (Or.inl rfl) fun _ => Or.inl ⟨rfl, rfl⟩) fun ok => ?_
  refine does_ite (fun _ => does_pure) fun _ => does_bind (does_convertBitstream hlen) fun ok => ?_
  refine does_ite (fun _ => does_pure) fun _ => does_bind ?_ fun ok => does_ite (fun _ => does_pure) fun _ => ?_
  · refine does_bind (does_look (fun _ h => by cases h) rfl) fun dir => does_ite (fun _ => does_pure) fun _ => ?_
    exact does_bind (does_change (fun _ h => by cases h) rfl) fun ret => does_pure
  · refine does_bind (does_copyFile (tmpBin_eq F) (libBin_eq F) (Or.inr rfl) fun _ => Or.inr ⟨rfl, rfl⟩) fun _ => ?_
    refine does_bind (does_writeSysfs (Or.inl rfl) (Or.inl rfl)) fun ok => does_ite (fun _ => does_pure) fun _ => ?_
    have hname : F ++ text ".bit" ++ text ".bin" ++ [0] = F ++ text ".bit.bin" ++ [0] := by
      have hkind : text ".bit" ++ text ".bin" = text ".bit.bin" := by decide
      rw [List.append_assoc F, hkind]
    exact does_writeSysfs (Or.inr rfl) (Or.inr ⟨rfl, hname⟩)

/-! ## main -/

/-- One call that changes something. -/
theorem wp_change {lim : Prop} {e : InitOp} {f : e.Ans → InitProg α} {Q : α → Startup → Prop}
    (hr : ∀ addr, e ≠ .readQuadlet addr) (hc : changing e = true)
    (h : ∀ r, WP startups lim (f r) { σ with changes := σ.changes ++ [e] } Q) :
    WP startups lim (.perform e >>= f) σ Q := by
  rw [wp_bind]
  intro r σ' hs
  have hcall : σ.call ⟨e, r⟩ = { σ with changes := σ.changes ++ [e] } := by
    cases e with
    | readQuadlet addr => exact absurd rfl (hr addr)
    | _ => first | rfl | exact absurd hc Bool.false_ne_true
  rw [hs.2, hcall]
  exact h r

theorem wp_command {lim : Prop} {cmd : Text} {f : Unit → InitProg α} {Q : α → Startup → Prop} (hlen : cmd.length < 128) :
    WP startups lim (Init.command cmd >>= f) σ Q ↔
      WP startups lim (f ()) { σ with changes := σ.changes ++ [.system cmd] } Q := by
  have heq : Init.command cmd >>= f = .perform (InitOp.system cmd) >>= fun _ => f () := by
    rw [Init.command, sprintf, if_pos hlen]
    rfl
  rw [heq, wp_bind, wp_perform]
  constructor
  · intro h
    exact h (0 : Int) _ ⟨trivial, rfl⟩
  · intro h r σ' hs
    rw [hs.2]
    exact h

theorem wp_setMACandIP {lim : Prop} {board_id : Nat} (hid : board_id < 16) :
    WP startups lim (setMACandIP (text "eth0") board_id) σ fun _ σ' =>
      σ' = { σ with changes := σ.changes ++ (network board_id).map .system } := by
  have hmac : ∀ i < 16, (macCommand i).length < 128 := by decide
  have hip : ∀ i < 16, (ipCommand i).length < 128 := by decide
  have hip' : text "ip addr add 169.254.10." ++ fmtDec board_id ++ text "/16 broadcast + dev " ++ text "eth0" =
      ipCommand board_id := by
    have hend : text "/16 broadcast + dev " ++ text "eth0" = text "/16 broadcast + dev eth0" := by decide
    rw [ipCommand, List.append_assoc (text "ip addr add 169.254.10." ++ fmtDec board_id), hend]
  have hmac' : text "ip link set dev " ++ text "eth0" ++ text " address FA:61:0E:03:00:" ++ fmtDec2 board_id =
      macCommand board_id := rfl
  rw [setMACandIP, hmac', hip']
  rw [wp_command (by decide), wp_command (hmac board_id hid), wp_command (hip board_id hid), wp_command (by decide),
    wp_command (by decide), wp_pure]
  simp only [List.append_assoc]
  rfl

theorem boardName_length (t : BoardType) : (boardName t).length ≤ 45 := by
  cases t <;> decide

theorem firmwareName_length (t : BoardType) : (firmwareName t).length < 64 := by
  cases t <;> decide

theorem statusId_lt (reg_status : BitVec 32) : statusId reg_status < 16 := by
  have hle : (reg_status &&& 0x0f000000).toNat ≤ 0x0f000000 := by
    rw [BitVec.toNat_and]
    exact Nat.and_le_right
  rw [statusId, BitVec.toNat_ushiftRight, Nat.shiftRight_eq_div_pow]
  omega

/-- One call that changes nothing. -/
theorem wp_look {lim : Prop} {e : InitOp} {f : e.Ans → InitProg α} {Q : α → Startup → Prop}
    (hr : ∀ addr, e ≠ .readQuadlet addr) (hc : changing e = false)
    (h : ∀ r, ShortSerial ⟨e, r⟩ → WP startups lim (f r) σ Q) : WP startups lim (.perform e >>= f) σ Q := by
  rw [wp_bind]
  intro r σ' hs
  have hcall : σ.call ⟨e, r⟩ = σ := by
    cases e with
    | readQuadlet addr => exact absurd rfl (hr addr)
    | _ => first | rfl | exact absurd hc.symm Bool.false_ne_true
  rw [hs.2, hcall]
  exact h r hs.1

theorem wp_cout {lim : Prop} {items : List Item} {f : Unit → InitProg α} {Q : α → Startup → Prop}
    (h : WP startups lim (f ()) σ Q) : WP startups lim (Init.cout items >>= f) σ Q :=
  wp_look (fun _ h => by cases h) rfl fun _ _ => h

theorem wp_coutIf {lim c : Prop} [Decidable c] {items : List Item} {f : Unit → InitProg α} {Q : α → Startup → Prop}
    (h : WP startups lim (f ()) σ Q) : WP startups lim (Prog.onlyIf c (Init.cout items) >>= f) σ Q := by
  unfold Prog.onlyIf
  split
  · exact wp_cout h
  · exact h

/-- The firmware of the board, if there is any. -/
theorem wp_firmware {lim : Prop} (t : BoardType) :
    WP startups lim (Prog.onlyIf (firmwareName t ≠ []) (do let _ ← programFpga (firmwareName t))) σ fun _ σ' =>
      ∃ cs, σ' = { σ with changes := σ.changes ++ cs } ∧ (∀ e ∈ cs, OfFirmware (firmwareName t) e) ∧
        (firmwareName t = [] → cs = []) := by
  refine wp_onlyIf.mpr ⟨fun h => ?_, fun h => ?_⟩
  · refine (wp_does (does_bind (does_programFpga (firmwareName_length t)) fun _ => does_pure)).mono fun _ σ' h' => ?_
    obtain ⟨cs, hσ, hcs⟩ := h'
    exact ⟨cs, hσ, hcs, fun hnil => absurd hnil h⟩
  · exact ⟨[], by rw [List.append_nil], fun _ h => absurd h List.not_mem_nil, fun _ => rfl⟩

/-- The rest of `main` is run from the registers as they were read. -/
theorem wp_configure {fpga_sn : Text} (hs : fpga_sn.length ≤ 45) (hc : σ.changes = []) :
    WP startups False (configure fpga_sn σ.reg_hw σ.reg_status) σ fun rc σ' =>
      (rc = -1 ∧ σ'.changes = []) ∨ (rc = 0 ∧ hwStr σ'.reg_hw = text "BCFG" ∧ Completed σ') := by
  unfold configure
  refine wp_ite.mpr ⟨fun _ => wp_cout (Or.inl ⟨rfl, hc⟩), fun hhw => ?_⟩
  have hhw : hwStr σ.reg_hw = text "BCFG" := Classical.not_not.mp hhw
  refine wp_cout (wp_cout (wp_coutIf (wp_cout (wp_cout ?_))))
  have hver : (if decide (σ.reg_status &&& 0x00080000 ≠ 0) = true then text "3.0" else text "3.1").length ≤ 44 := by
    split <;> decide
  rw [wp_bind]
  refine (wp_does (does_exportFpgaInfo hver hs (boardName_length _))).mono fun _ σ₁ h₁ => ?_
  obtain ⟨profile, rfl, hprofile⟩ := h₁
  rw [wp_bind]
  refine (wp_firmware (statusType σ.reg_status)).mono fun _ σ₂ h₂ => ?_
  obtain ⟨firmware, rfl, hfirmware, hnone⟩ := h₂
  refine wp_change (fun _ h => by cases h) rfl fun _ => wp_change (fun _ h => by cases h) rfl fun _ => ?_
  rw [wp_bind]
  refine (wp_setMACandIP (statusId_lt σ.reg_status)).mono fun _ σ₃ h₃ => ?_
  rw [h₃]
  refine wp_change (fun _ h => by cases h) rfl fun _ => Or.inr ⟨rfl, hhw, profile, firmware, ?_, hprofile, hfirmware, hnone⟩
  simp only [hc, List.nil_append, finishing, List.append_assoc]
  rfl

theorem wp_readTo {lim : Prop} {addr : BitVec 16} {var : BitVec 32} {Q : BitVec 32 → Startup → Prop}
    (h : ∀ data : Option (BitVec 32), Q (data.getD var) (σ.call ⟨.readQuadlet addr, data⟩)) :
    WP startups lim (Init.readTo addr var) σ Q := by
  rw [Init.readTo, wp_bind]
  intro data σ' hs
  rw [hs.2]
  exact h data

theorem call_hw {data : Option (BitVec 32)} :
    σ.call ⟨.readQuadlet 4, data⟩ = { σ with reg_hw := data.getD σ.reg_hw } := by
  simp only [Startup.call, if_true]

theorem call_status {data : Option (BitVec 32)} :
    σ.call ⟨.readQuadlet 0, data⟩ = { σ with reg_status := data.getD σ.reg_status } := by
  have hne : ¬ (0 : BitVec 16) = 4 := by decide
  simp only [Startup.call, if_neg hne]

end FpgaV3.Proof.Init
