import FpgaV3.Spec.Disk

/-!
# The firmware

If every copy is complete, a file that is copied has the contents of its source
(`wp_copyFile`), and `bootgen` finds the copy of this call (`wp_convertBitstream`);
so what is handed to the FPGA manager is the output for the file on the card
(`programFpga_handed`). `CopyFile` returns true for a copy that is not complete, and
`ProgramFpga` does not look at the result of its second copy (`truncated_firmware`).
-/

namespace FpgaV3.Proof.Init

open FpgaV3.Spec FpgaV3.Spec.Disk FpgaV3.Impl FpgaV3.Impl.Init

variable {bootgen : Text → Text} {F path p q data x y : Text} {d d' : Disk} {lim : Prop} {ok : InitEvent → Prop}

/-! ## Copies -/

theorem wp_copyFile {filename srcDir destDir src dest : Text} (hsrc : srcDir ++ text "/" ++ filename = src)
    (hdest : destDir ++ text "/" ++ filename = dest) (hne : src ≠ dest) :
    WP (disk bootgen (Copies F)) lim (copyFile filename srcDir destDir) d fun ok d' =>
      (src = tmpBin F → dest = libBin F → ok = true) ∧
        (ok = true → ∃ data, d.files src = some data ∧ d' = d.put dest data) := by
  rw [copyFile, hsrc, hdest]
  simp only [wp_bind, wp_perform]
  intro opened d₁ hopen
  obtain ⟨hcopies, hsome, rfl⟩ := hopen
  cases opened with
  | false => exact ⟨fun h _ => hcopies h, absurd_false⟩
  | true =>
    rw [Bool.not_true, if_neg Bool.false_ne_true]
    simp only [wp_bind, wp_perform]
    intro truncated d₂ htrunc
    obtain ⟨hcopies', hd₂⟩ := htrunc
    cases truncated with
    | false =>
      rw [Bool.not_false, if_pos rfl]
      simp only [wp_bind, wp_perform, wp_pure]
      exact fun _ _ _ => ⟨fun _ h => absurd (hcopies' h) Bool.false_ne_true, absurd_false⟩
    | true =>
      have hd : d₂ = d₁.put dest [] := hd₂
      subst hd
      rw [Bool.not_true, if_neg Bool.false_ne_true]
      simp only [wp_bind, wp_perform, wp_pure]
      intro stat d₃ hstat
      obtain ⟨hrc, hsize, rfl⟩ := hstat
      have hst_size : stat.2 = (d₁.contents src).length := by
        rw [← contents_put_other hne]
        exact hsize hrc
      intro n d₄ hsend _ d₅ hclose _ d₆ hclose'
      refine ⟨fun _ _ => trivial, fun _ => ?_⟩
      obtain ⟨data, hdata⟩ := Option.isSome_iff_exists.mp (hsome rfl)
      refine ⟨data, hdata, ?_⟩
      have hfull : n = (stat.2 : Int) := hsend.1
      rw [contents_of hdata] at hst_size
      have hneg : ¬ (stat.2 : Int) = -1 := by omega
      obtain ⟨k, -, hk, hd₄⟩ := hsend.2.resolve_left fun h => hneg (hfull.symm.trans h.1)
      rw [contents_put_other hne, contents_of hdata] at hk hd₄
      have hlen : ((data.length : Nat) : Int) = ((data.take k).length : Nat) := hst_size ▸ hfull.symm.trans hk
      have hall : data.take k = data := by
        rw [List.length_take] at hlen
        exact List.take_of_length_le (by omega)
      rw [hclose'.2, hclose.2, hd₄, append_put, hall, List.nil_append]

/-! ## The conversion -/

/-- `/tmp/F.bif` -/
def tmpBif (F : Text) : Text := text "/tmp/" ++ F ++ text ".bif"

/-- Two files of one name, of different kinds. -/
theorem kind_ne {base : Text} (h : x ≠ y) : base ++ x ≠ base ++ y := fun heq => h (List.append_cancel_left heq)

theorem tmpBit_ne_tmpBif (F : Text) : tmpBit F ≠ tmpBif F := kind_ne (by decide)

theorem tmpBit_ne_tmpBin (F : Text) : tmpBit F ≠ tmpBin F := kind_ne (by decide)

theorem tmpBit_bin (F : Text) : tmpBit F ++ text ".bin" = tmpBin F := by
  have hkind : text ".bit" ++ text ".bin" = text ".bit.bin" := by decide
  rw [tmpBit, tmpBin, List.append_assoc, hkind]

theorem bifText_inj (h : bifText x = bifText y) : x = y := List.append_cancel_left (List.append_cancel_right h)

theorem bootgenCmd_inj (h : bootgenCmd x = bootgenCmd y) : x = y := List.append_cancel_left (List.append_cancel_right h)

theorem length_bootgenCmd (F : Text) : (bootgenCmd (tmpBif F)).length = F.length + 64 := by
  rw [bootgenCmd, tmpBif]
  simp only [List.length_append]
  show 15 + (5 + F.length + 4) + 40 = F.length + 64
  omega

theorem plain_tmpBif (hF : Plain F) : Plain (tmpBif F) := by
  have hdir : Plain (text "/tmp/") := by decide
  have hkind : Plain (text ".bif") := by decide
  intro c hc
  rw [tmpBif, List.mem_append, List.mem_append] at hc
  exact hc.elim (fun hc => hc.elim (hdir c) (hF c)) (hkind c)

theorem wp_convertBitstream (hF : Plain F) (hlen : F.length < 64) (hsrc : d.files (tmpBit F) = some data) :
    WP (disk bootgen ok) lim (convertBitstream F (text "/tmp")) d fun r d' =>
      r = true → d'.files (tmpBit F) = some data ∧ d'.files (tmpBin F) = some (bootgen data) := by
  have hbif : text "/tmp" ++ text "/" ++ F ++ text ".bif" = tmpBif F := rfl
  have hbit : text "/tmp" ++ text "/" ++ F ++ text ".bit" = tmpBit F := rfl
  rw [convertBitstream, hbif, hbit]
  simp only [wp_bind, wp_perform]
  intro opened d₁ hopen
  cases opened with
  | false => exact absurd_false
  | true =>
    have hd₁ : d₁ = d.put (tmpBif F) [] := hopen.2
    rw [Bool.not_true, if_neg Bool.false_ne_true]
    simp only [wp_bind, wp_perform]
    intro _ d₂ hprint _ d₃ hclose
    have hd₂ : d₂ = d₁.append (tmpBif F) (bifText (tmpBit F)) := hprint.2
    have hd₃ : d₃ = d₂ := hclose.2
    rw [sprintf, if_pos (by rw [length_bootgenCmd]; omega)]
    simp only [wp_pure]
    intro ret d₄ hsystem hret
    obtain ⟨bit, src, hbifFile, hbitFile, rfl⟩ :=
      hsystem.2 (tmpBif F) rfl (plain_tmpBif hF) (of_decide_eq_true hret)
    rw [hd₃, hd₂, hd₁, append_put, List.nil_append, files_put] at hbifFile
    have hname : tmpBit F = bit := bifText_inj (Option.some.inj hbifFile)
    subst hname
    rw [hd₃, hd₂, hd₁, append_put, files_put_other (tmpBit_ne_tmpBif F), hsrc] at hbitFile
    have hsame : data = src := Option.some.inj hbitFile
    rw [tmpBit_bin, files_put, files_put_other (tmpBit_ne_tmpBin F), hd₃, hd₂, hd₁, append_put,
      files_put_other (tmpBit_ne_tmpBif F), hsame]
    exact ⟨hsrc.trans (congrArg some hsame), rfl⟩

/-! ## The FPGA manager -/

theorem wp_writeSysfs : WP (disk bootgen ok) lim (writeSysfs path data) d fun r d' =>
    r = true → d' = if path = firmwareFile then d.hand data else d.append path data := by
  rw [writeSysfs]
  simp only [wp_bind, wp_perform]
  intro opened d₁ hopen
  cases opened with
  | false => exact absurd_false
  | true =>
    rw [Bool.not_true, if_neg Bool.false_ne_true]
    simp only [wp_bind, wp_perform, wp_pure]
    intro n d₂ hwrite _ d₃ hclose hn
    have hfull : n = (data.length : Int) := of_decide_eq_true hn
    have hneg : ¬ (data.length : Int) = -1 := by omega
    obtain ⟨k, -, hk, hd₂⟩ := hwrite.2.resolve_left fun h => hneg (hfull.symm.trans h.1)
    have hlen : data.length = k := Int.ofNat.inj (hfull.symm.trans hk)
    rw [← hlen, if_pos rfl, List.take_length, hopen.2] at hd₂
    rw [hclose.2, hd₂]

/-- Paths that differ in the second character. -/
theorem second_ne {a b c c' : Byte} (h : c ≠ c') : a :: c :: x ≠ b :: c' :: y := fun heq =>
  h (List.head_eq_of_cons_eq (List.tail_eq_of_cons_eq heq))

theorem libBin_ne_flagsFile (F : Text) : libBin F ≠ flagsFile := second_ne (by decide)

theorem tmpBit_ne_flagsFile (F : Text) : tmpBit F ≠ flagsFile := second_ne (by decide)

theorem libBin_name (F : Text) : text "/lib/firmware/" ++ (F ++ text ".bit" ++ text ".bin") = libBin F := by
  have hkind : text ".bit" ++ text ".bin" = text ".bit.bin" := by decide
  rw [libBin, List.append_assoc F, hkind, List.append_assoc]

theorem wp_fpgaLoad : WP (disk bootgen ok) lim (fpgaLoad (F ++ text ".bit" ++ text ".bin")) d fun r d' =>
    r = true → d'.files (tmpBit F) = d.files (tmpBit F) ∧ d'.files (libBin F) = d.files (libBin F) ∧
      d'.handed = d.files (libBin F) := by
  rw [fpgaLoad, wp_bind]
  refine wp_writeSysfs.mono fun flags d₁ hflags => ?_
  cases flags with
  | false => exact absurd_false
  | true =>
    have hd₁ : d₁ = d.append flagsFile (text "0" ++ [0]) := hflags rfl
    rw [Bool.not_true, if_neg Bool.false_ne_true]
    refine wp_writeSysfs.mono fun r d₂ hfirmware hr => ?_
    have hd₂ := hfirmware hr
    rw [if_pos rfl] at hd₂
    have hlib : d₁.files (libBin F) = d.files (libBin F) := by
      rw [hd₁]
      exact files_put_other (libBin_ne_flagsFile F)
    have htmp : d₁.files (tmpBit F) = d.files (tmpBit F) := by
      rw [hd₁]
      exact files_put_other (tmpBit_ne_flagsFile F)
    subst hd₂
    refine ⟨htmp, hlib, ?_⟩
    show d₁.files (text "/lib/firmware/" ++ (F ++ text ".bit" ++ text ".bin" ++ [0]).dropLast) = _
    rw [List.dropLast_concat, libBin_name, hlib]

/-! ## The chain -/

theorem mediaBit_ne_tmpBit (F : Text) : mediaBit F ≠ tmpBit F := second_ne (by decide)

theorem tmpBin_ne_libBin (F : Text) : tmpBin F ≠ libBin F := second_ne (by decide)

theorem tmpBit_ne_libBin (F : Text) : tmpBit F ≠ libBin F := second_ne (by decide)

theorem mediaBit_eq (F : Text) : text "/media" ++ text "/" ++ (F ++ text ".bit") = mediaBit F :=
  (List.append_assoc (text "/media" ++ text "/") F (text ".bit")).symm

theorem tmpBit_eq (F : Text) : text "/tmp" ++ text "/" ++ (F ++ text ".bit") = tmpBit F :=
  (List.append_assoc (text "/tmp" ++ text "/") F (text ".bit")).symm

theorem tmpBin_eq (F : Text) : text "/tmp" ++ text "/" ++ (F ++ text ".bit" ++ text ".bin") = tmpBin F := by
  rw [← tmpBit_bin, ← tmpBit_eq, List.append_assoc _ (F ++ text ".bit")]

theorem libBin_eq (F : Text) : text "/lib/firmware" ++ text "/" ++ (F ++ text ".bit" ++ text ".bin") = libBin F :=
  libBin_name F

theorem wp_firmwareDir : WP (disk bootgen ok) lim firmwareDir d fun _ d' => d' = d := by
  rw [firmwareDir]
  simp only [wp_bind, wp_perform]
  intro isdir d₁ hstat
  refine wp_ite.mpr ⟨fun _ => hstat.2, fun _ => ?_⟩
  simp only [wp_bind, wp_perform, wp_pure]
  exact fun _ d₂ hmkdir => hmkdir.2.trans hstat.2

/-- If the copies are complete and the `.bin` files can be opened, success says that
the FPGA manager was handed the output of `bootgen` for the file on the card. -/
theorem programFpga_handed (bootgen : Text → Text) (F : Text) (d : Disk) (hF : Plain F) (hlen : F.length < 64) :
    WP (disk bootgen (Copies F)) False (programFpga F) d fun r d' => r = true → Handed bootgen F d d' := by
  rw [programFpga, wp_bind]
  refine (wp_copyFile (mediaBit_eq F) (tmpBit_eq F) (mediaBit_ne_tmpBit F)).mono fun copied d₁ hcopy => ?_
  cases copied with
  | false => exact absurd_false
  | true =>
  obtain ⟨src, hsrc, rfl⟩ := hcopy.2 rfl
  rw [Bool.not_true, if_neg Bool.false_ne_true, wp_bind]
  refine (wp_convertBitstream hF hlen (files_put d (tmpBit F) src)).mono fun converted d₂ hconvert => ?_
  cases converted with
  | false => exact absurd_false
  | true =>
  obtain ⟨hbit, hbin⟩ := hconvert rfl
  rw [Bool.not_true, if_neg Bool.false_ne_true, wp_bind]
  refine wp_firmwareDir.mono fun made d₃ hdir => ?_
  subst hdir
  cases made with
  | false => exact absurd_false
  | true =>
  rw [Bool.not_true, if_neg Bool.false_ne_true, wp_bind]
  refine (wp_copyFile (tmpBin_eq F) (libBin_eq F) (tmpBin_ne_libBin F)).mono fun copied d₅ hcopy => ?_
  obtain ⟨bin, hbin', rfl⟩ := hcopy.2 (hcopy.1 rfl rfl)
  have hsame : bootgen src = bin := Option.some.inj (hbin.symm.trans hbin')
  subst hsame
  refine wp_fpgaLoad.mono fun r d₆ hload hr => ?_
  obtain ⟨htmp, hlib, hhanded⟩ := hload hr
  rw [files_put] at hlib hhanded
  rw [files_put_other (tmpBit_ne_libBin F), hbit] at htmp
  exact ⟨src, hsrc, htmp, hlib, hhanded⟩

/-- The bytes of each word in reverse order, as they are in a `.bin` file. -/
def swapWords : Text → Text
  | a :: b :: c :: d :: rest => d :: c :: b :: a :: swapWords rest
  | rest => rest

/-- A card with a firmware file for the QLA. -/
def card : Disk where
  files path := if path = mediaBit (text "FPGA1394V3-QLA") then some [1, 2, 3, 4] else none

theorem programFpga_handed_card :
    WP (disk swapWords (Copies (text "FPGA1394V3-QLA"))) False (programFpga (text "FPGA1394V3-QLA")) card fun r d' =>
      r = true → Handed swapWords (text "FPGA1394V3-QLA") card d' :=
  programFpga_handed swapWords (text "FPGA1394V3-QLA") card (by decide) (by decide)

theorem replies_filing (d : Disk) (e : InitOp) : Replies bootgen d ⟨e, (filing.step d e).1⟩ (filing.step d e).2 := by
  cases e with
  | openRead path => exact ⟨id, rfl⟩
  | fstat path => exact ⟨fun _ => rfl, rfl⟩
  | sendfile dest src count => exact Or.inr ⟨count, Nat.le_refl _, rfl, rfl⟩
  | write path data =>
    refine Or.inr ⟨data.length, Nat.le_refl _, rfl, ?_⟩
    rw [if_pos rfl, List.take_length]
    rfl
  | system cmd => exact fun _ _ _ hret => absurd hret (show ¬ (1 : Int) = 0 by decide)
  | _ => rfl

/-- Every call completes and `bootgen` runs, but nothing is transferred by `sendfile`. -/
def stalled (bootgen : Text → Text) (F : Text) : Env InitOp InitOp.Ans Disk where
  step d
    | .sendfile dest _ _ => ((0 : Int), d.append dest [])
    | .system cmd =>
      if cmd = bootgenCmd (tmpBif F) ∧ d.files (tmpBif F) = some (bifText (tmpBit F)) ∧ (d.files (tmpBit F)).isSome then
        ((0 : Int), d.put (tmpBin F) (bootgen (d.contents (tmpBit F))))
      else ((1 : Int), d)
    | e => filing.step d e

theorem step_stalled (d : Disk) (e : InitOp) :
    (disk bootgen fun _ => True).step d e ((stalled bootgen F).step d e).1 ((stalled bootgen F).step d e).2 := by
  refine ⟨trivial, ?_⟩
  cases e with
  | sendfile dest src count => exact Or.inr ⟨0, Nat.zero_le _, rfl, rfl⟩
  | system cmd =>
    intro bifFile hcmd _ hret
    by_cases hc : cmd = bootgenCmd (tmpBif F) ∧ d.files (tmpBif F) = some (bifText (tmpBit F)) ∧ (d.files (tmpBit F)).isSome
    · have hstep : (stalled bootgen F).step d (.system cmd) =
          ((0 : Int), d.put (tmpBin F) (bootgen (d.contents (tmpBit F)))) := if_pos hc
      obtain ⟨src, hsrc⟩ := Option.isSome_iff_exists.mp hc.2.2
      rw [hstep, contents_of hsrc, bootgenCmd_inj (hcmd.symm.trans hc.1)]
      exact ⟨tmpBit F, src, hc.2.1, hsrc, by rw [tmpBit_bin]⟩
    · have hstep : (stalled bootgen F).step d (.system cmd) = ((1 : Int), d) := if_neg hc
      rw [hstep] at hret
      exact absurd hret (show ¬ (1 : Int) = 0 by decide)
  | _ => exact replies_filing d _

/-- Nothing is copied, and success is reported. -/
theorem truncated_firmware : ¬ WP (disk swapWords fun _ => True) True (programFpga (text "FPGA1394V3-QLA")) card fun r d' =>
    r = true → Handed swapWords (text "FPGA1394V3-QLA") card d' := by
  intro h
  have hrun : ((stalled swapWords (text "FPGA1394V3-QLA")).run (programFpga (text "FPGA1394V3-QLA")) card).map
      (fun x => (x.1, x.2.handed)) = some (true, some []) := by decide
  obtain ⟨⟨r, d'⟩, hx, heq⟩ := Option.map_eq_some_iff.mp hrun
  obtain ⟨hr, hhanded⟩ := Prod.mk.inj heq
  have hpath : (disk swapWords fun _ => True).Path card _ d' := Env.path_of_run (f := id) step_stalled hx
  obtain ⟨src, hsrc, -, -, hbin⟩ := h.sound (Env.runs_of_run hx).1 hpath hr
  have hcard : card.files (mediaBit (text "FPGA1394V3-QLA")) = some [1, 2, 3, 4] := by decide
  have hsame : src = [1, 2, 3, 4] := Option.some.inj (hsrc.symm.trans hcard)
  rw [hsame] at hbin
  exact absurd (hbin.symm.trans hhanded) (by decide)

end FpgaV3.Proof.Init
