import Mathlib.Tactic.ByContra
import FpgaV3.Proof.Qspi.Calls

/-!
# The serial number

After `ProgramFpgaSerialNumber` the partition begins with the tag, the serial
number and an erased byte (`run_program`, `flash_record`). A search for 0xff ends at
that byte, if it is read: `GetFpgaSerialNumber` reads 8 bytes, so the search for
the end of 8 digits goes on with the caller's own bytes (`serial_iff`).
-/

namespace FpgaV3.Proof.Qspi

open FpgaV3.Spec FpgaV3.Impl FpgaV3.Impl.Qspi

variable {m : Media} {σ : Nor} {sn : List Byte} {fuel : Nat} {mem : Mem} {lim : Prop}

/-- The partition after the serial number is programmed. -/
def programmed (flash : Mem) (erasesize : Nat) (sn : List Byte) : Mem :=
  program (program (erase flash 0 erasesize) 0 tag) 5 sn

/-- The tag, the serial number, and the erased byte after it. -/
def record (sn : List Byte) : List Byte := tag ++ (sn ++ [0xff])

theorem wp_program (hlen : sn.length < FPGA_SN_SIZE) (hsize : 16 ≤ m.size) :
    WP (nor m).world False (programFpgaSerialNumber sn) σ fun ok σ' =>
      ok = true ∧ σ'.flash = programmed σ.flash m.erasesize sn := by
  have hsn : sn.length < 9 := hlen
  have htag : tag.length = 5 := rfl
  rw [programFpgaSerialNumber, if_neg (Nat.not_le.mpr hlen)]
  simp only [wp_bind]
  refine wp_openFlash (complete_nor m) ?_ (absurd trivial)
  rw [Bool.not_true, if_neg Bool.false_ne_true]
  simp only [wp_bind]
  apply wp_memGetInfo (complete_nor m)
  apply wp_memUnlock (complete_nor m)
  intro _
  apply wp_memErase (complete_nor m)
  refine wp_write (complete_nor m) (fun _ => by show 0 + tag.length ≤ m.size; omega) ?_
  rw [if_neg (by rw [htag]; decide)]
  simp only [wp_bind]
  refine wp_write (complete_nor m) (fun _ => by show 0 + tag.length + sn.length ≤ m.size; omega) ?_
  apply wp_closeFd (complete_nor m)
  exact ⟨decide_eq_true rfl, rfl⟩

/-- The record, if the sector holds it. -/
theorem flash_record {flash : Mem} {e k : Nat} {c : Byte} (he : 5 + sn.length < e) (hk : (record sn)[k]? = some c) :
    programmed flash e sn k = c := by
  have htag : tag.length = 5 := rfl
  rw [programmed]
  rcases Nat.lt_or_ge k 5 with hlt | hge
  · rw [record, List.getElem?_append_left (by omega)] at hk
    rw [program_out (Or.inl hlt), show k = 0 + k by omega]
    exact program_in hk (erase_in (by omega))
  · rw [record, List.getElem?_append_right (by omega), htag] at hk
    have herased (i : Nat) (h₁ : 5 ≤ i) (h₂ : i < e) : program (erase flash 0 e) 0 tag i = 0xff := by
      rw [program_out (Or.inr (by omega))]
      exact erase_in (by omega)
    rcases Nat.lt_or_ge (k - 5) sn.length with hlt | hlast
    · rw [List.getElem?_append_left hlt] at hk
      rw [show k = 5 + (k - 5) by omega]
      exact program_in hk (herased _ (by omega) (by omega))
    · rw [List.getElem?_append_right hlast] at hk
      obtain ⟨hk0, hc⟩ := List.getElem?_eq_some_iff.mp hk
      rw [List.length_singleton] at hk0
      rw [program_out (Or.inr (by omega)), herased k hge (by omega)]
      rw [List.getElem_singleton] at hc
      exact hc

/-! ## The search -/

theorem length_record (sn : List Byte) : (record sn).length = 5 + sn.length + 1 := by
  rw [record, List.length_append, List.length_append]
  show 5 + (sn.length + 1) = 5 + sn.length + 1
  omega

/-- The bytes of the serial number in the record. -/
theorem record_sn {k : Nat} (hk : k < sn.length) : (record sn)[5 + k]? = sn[k]? := by
  rw [record, List.getElem?_append_right (by show 5 ≤ 5 + k; omega), List.getElem?_append_left (by show 5 + k - 5 < sn.length; omega)]
  show sn[5 + k - 5]? = sn[k]?
  rw [Nat.add_sub_cancel_left]

theorem record_end (sn : List Byte) : (record sn)[5 + sn.length]? = some 0xff := by
  rw [record, List.getElem?_append_right (by show 5 ≤ 5 + sn.length; omega)]
  show (sn ++ [0xff])[5 + sn.length - 5]? = some 0xff
  rw [Nat.add_sub_cancel_left, List.getElem?_concat_length]

/-- The string is at `a`, if its bytes are and its NUL. -/
theorem cString_of (h : Accepted sn) {a : Nat} (hsn : ∀ k c, sn[k]? = some c → mem (a + k) = c)
    (hend : mem (a + sn.length) = 0) : CString mem a sn := by
  refine ⟨fun h0 => (h.bytes 0 h0).2 rfl, fun k c hk => ?_⟩
  rcases Nat.lt_or_ge k sn.length with hlt | hge
  · rw [List.getElem?_append_left hlt] at hk
    exact hsn k c hk
  · have hlen := (List.getElem?_eq_some_iff.mp hk).1
    rw [List.length_append, List.length_singleton] at hlen
    rw [List.getElem?_append_right hge, show k - sn.length = 0 by omega] at hk
    rw [show k = sn.length by omega, hend]
    exact Option.some.inj hk

/-- What `GetFpgaSerialNumber` has in memory before it searches. -/
def received (flash mem : Mem) : Mem := overlay (overlay mem 0 [0]) 0 (chunk flash 5 8)

theorem received_lt (flash mem : Mem) {i : Nat} (h : i < 8) : received flash mem i = flash (5 + i) := by
  have hget := overlay_get (f := overlay mem 0 [0]) (a := 0) (getElem?_chunk (f := flash) (a := 5) h)
  rwa [Nat.zero_add] at hget

theorem received_ge (flash mem : Mem) {i : Nat} (h : 8 ≤ i) : received flash mem i = mem i := by
  rw [received, overlay_after (by rw [length_chunk]; omega), overlay_after (by show 0 + 1 ≤ i; omega)]

theorem wp_get (hsize : 16 ≤ m.size) (htag : chunk σ.flash 0 5 = tag)
    (hnone : terminate fuel (received σ.flash mem) 8 = none → lim) :
    WP (nor m).world lim (getFpgaSerialNumber fuel mem) σ fun r _ => terminate fuel (received σ.flash mem) 8 = some r := by
  rw [getFpgaSerialNumber]
  simp only [wp_bind]
  refine wp_openFlash (complete_nor m) ?_ (absurd trivial)
  rw [Bool.not_true, if_neg Bool.false_ne_true]
  simp only [wp_bind]
  refine wp_readFlash (complete_nor m) (fun _ => by show 0 + 5 ≤ m.size; omega) ?_
  rw [if_pos (congrArg some htag), readTo]
  simp only [wp_bind, wp_pure]
  refine wp_readFlash (complete_nor m) (fun _ => by show 0 + 5 + 8 ≤ m.size; omega) ?_
  generalize hread : terminate fuel _ _ = found
  have hend : terminate fuel (received σ.flash mem) 8 = found := hread
  cases found with
  | none => exact hnone hend
  | some r =>
    simp only [wp_bind, wp_pure]
    exact wp_closeFd (complete_nor m) .flash hend

/-- Where a search ends, the string is ended. -/
theorem terminate_eq {n : Nat} (last : Nat) (hn : n < fuel) (hpass : ∀ k < n, mem k ≠ 0xff ∧ mem k ≠ 0)
    (hend : mem n = 0xff ∨ mem n = 0) :
    terminate fuel mem last = some ⟨overlay mem (if mem n = 0xff then n else last) [0], n + 1⟩ := by
  rw [terminate, strchr_end hn hpass hend]
  by_cases hc : mem n = 0xff
  · rw [decide_eq_true hc, if_pos hc]
  · rw [decide_eq_false hc, if_neg hc]

theorem terminate_some {last : Nat} {r : Terminated} (h : terminate fuel mem last = some r) :
    ∃ n, r.examined = n + 1 ∧ (mem n = 0xff ∨ mem n = 0) := by
  rw [terminate] at h
  cases hs : strchr mem 0xff fuel 0 with
  | none =>
    rw [hs] at h
    exact absurd_none h
  | some x =>
    obtain ⟨n, b⟩ := x
    obtain ⟨-, -, hend⟩ := strchr_some hs
    rw [hs] at h
    cases b with
    | false => exact ⟨n, congrArg Terminated.examined (Option.some.inj h).symm, Or.inr hend⟩
    | true => exact ⟨n, congrArg Terminated.examined (Option.some.inj h).symm, Or.inl hend⟩

variable {flash : Mem}

/-- The bytes of the partition that hold the serial number. -/
theorem sn_byte (hflash : ∀ k c, (record sn)[k]? = some c → flash k = c) {k : Nat} {c : Byte} (hk : sn[k]? = some c) :
    flash (5 + k) = c := by
  have hlt := (List.getElem?_eq_some_iff.mp hk).1
  exact hflash (5 + k) c (by rw [record_sn hlt, hk])

theorem tag_byte (hflash : ∀ k c, (record sn)[k]? = some c → flash k = c) {k : Nat} {c : Byte} (hk : tag[k]? = some c) :
    flash k = c := by
  refine hflash k c ?_
  rw [record, List.getElem?_append_left (List.getElem?_eq_some_iff.mp hk).1, hk]

theorem chunk_tag (hflash : ∀ k c, (record sn)[k]? = some c → flash k = c) : chunk flash 0 5 = tag := by
  have hchunk : chunk flash 0 tag.length = tag := by
    apply chunk_of
    intro k c hk
    rw [Nat.zero_add]
    exact tag_byte hflash hk
  exact hchunk

theorem sn_passed (h : Accepted sn) (hflash : ∀ k c, (record sn)[k]? = some c → flash k = c) {k : Nat} (hk : k < sn.length) :
    flash (5 + k) ≠ 0xff ∧ flash (5 + k) ≠ 0 := by
  rw [sn_byte hflash (List.getElem?_eq_getElem hk)]
  exact h.bytes _ (List.getElem_mem hk)

/-- The search of `GetFpgaSerialNumber` ends in the caller's buffer if and only if
the serial number is short, or the last byte of the buffer ends it. -/
theorem got_iff (h : Accepted sn) (hflash : ∀ k c, (record sn)[k]? = some c → flash k = c) (hfuel : 9 ≤ fuel) :
    (∃ r, terminate fuel (received flash mem) 8 = some r ∧ Got sn mem r) ↔ sn.length < 8 ∨ mem 8 = 0 ∨ mem 8 = 0xff := by
  have hlen : sn.length < 9 := h.length
  have hpass : ∀ k < sn.length, received flash mem k ≠ 0xff ∧ received flash mem k ≠ 0 := by
    intro k hk
    rw [received_lt flash mem (by omega)]
    exact sn_passed h hflash hk
  constructor
  · rintro ⟨r, hr, hgot⟩
    by_contra hcond
    obtain ⟨n, hexamined, hend⟩ := terminate_some hr
    have hn : n + 1 ≤ 9 := hexamined ▸ hgot.examined
    rcases Nat.lt_or_ge n sn.length with hlt | hge
    · exact hend.elim (hpass n hlt).1 (hpass n hlt).2
    · rw [received_ge flash mem (by omega), show n = 8 by omega] at hend
      exact hcond (Or.inr hend.symm)
  · intro hcond
    have hend : received flash mem sn.length = 0xff ∨ received flash mem sn.length = 0 := by
      rcases Nat.lt_or_ge sn.length 8 with hlt | hge
      · rw [received_lt flash mem hlt]
        exact Or.inl (hflash _ _ (record_end sn))
      · rw [received_ge flash mem hge, show sn.length = 8 by omega]
        exact (hcond.resolve_left (by omega)).symm
    -- for 8 digits the search ends at the byte that is set otherwise
    have hat : (if received flash mem sn.length = 0xff then sn.length else 8) = sn.length := by
      split
      · rfl
      · rename_i hne
        by_contra hlast
        rw [received_lt flash mem (by omega)] at hne
        exact hne (hflash _ _ (record_end sn))
    have hr := terminate_eq 8 (show sn.length < fuel by omega) hpass hend
    rw [hat] at hr
    refine ⟨_, hr, ?_, hlen, ?_⟩
    · refine cString_of h (fun k c hk => ?_) ?_
      · have hlt := (List.getElem?_eq_some_iff.mp hk).1
        show overlay (received flash mem) sn.length [0] (0 + k) = c
        rw [Nat.zero_add, overlay_before hlt, received_lt flash mem (by omega)]
        exact sn_byte hflash hk
      · rw [Nat.zero_add]
        exact overlay_get (k := 0) rfl
    · intro i hi
      have hi9 : 9 ≤ i := hi
      show overlay (received flash mem) sn.length [0] i = mem i
      rw [overlay_after (by show sn.length + 1 ≤ i; omega), received_ge flash mem (by omega)]

/-- Both decoders print the serial number. -/
theorem prints_decode (h : Accepted sn) (hflash : ∀ k c, (record sn)[k]? = some c → flash k = c) (hfuel : 16 ≤ fuel) :
    Prints decode fuel flash sn := by
  intro buf hbuf
  have hlen : sn.length < 9 := h.length
  have hbyte : ∀ k < 16, buf k = flash k := by
    intro k hk
    have hget := congrArg (·[k]?) hbuf
    simp only [getElem?_chunk hk, Nat.zero_add] at hget
    exact Option.some.inj hget
  have hrecord : ∀ k c, (record sn)[k]? = some c → buf k = c := by
    intro k c hk
    have hlt := (List.getElem?_eq_some_iff.mp hk).1
    rw [length_record] at hlt
    rw [hbyte k (by omega)]
    exact hflash k c hk
  rw [decode, if_pos (chunk_tag hrecord)]
  have hpass : ∀ k < 5 + sn.length, buf k ≠ 0xff ∧ buf k ≠ 0 := by
    intro k hk
    rcases Nat.lt_or_ge k 5 with hlt | hge
    · have hbytes : ∀ c ∈ tag, c ≠ 0xff ∧ c ≠ 0 := by decide
      have hk5 : k < tag.length := hlt
      rw [tag_byte hrecord (List.getElem?_eq_getElem hk5)]
      exact hbytes _ (List.getElem_mem hk5)
    · rw [show k = 5 + (k - 5) by omega]
      exact sn_passed h hrecord (by omega)
  have hend : buf (5 + sn.length) = 0xff := hrecord _ _ (record_end sn)
  have hr := terminate_eq 13 (show 5 + sn.length < fuel by omega) hpass (Or.inl hend)
  rw [if_pos hend] at hr
  refine ⟨_, hr, cString_of h (fun k c hk => ?_) ?_⟩
  · have hlt := (List.getElem?_eq_some_iff.mp hk).1
    show overlay buf (5 + sn.length) [0] (5 + k) = c
    rw [overlay_before (by omega)]
    exact sn_byte hrecord hk
  · exact overlay_get (k := 0) rfl

/-! ## The round trip -/

/-- After the serial number is programmed, `GetFpgaSerialNumber` returns it within
the caller's buffer, and the decoders print it, if and only if it has less than 8
characters or the last byte of the buffer was 0 or 0xff. -/
theorem serial_iff (m : Media) (σ : Nor) (sn : List Byte) (mem : Mem) (fuel : Nat) (h : Accepted sn)
    (hsector : 5 + sn.length < m.erasesize) (hsize : 16 ≤ m.size) (hfuel : 16 ≤ fuel) :
    (∃ σ₁, (nor m).run (programFpgaSerialNumber sn) σ = some (true, σ₁) ∧
      (∃ r σ₂, (nor m).run (getFpgaSerialNumber fuel mem) σ₁ = some (r, σ₂) ∧ Got sn mem r) ∧
      Prints fpgaV3_Init_QSPI fuel σ₁.flash sn ∧ Prints menu fuel σ₁.flash sn) ↔
    sn.length < 8 ∨ mem 8 = 0 ∨ mem 8 = 0xff := by
  obtain ⟨ok, σ₁, hrun, rfl, hflash⟩ := Env.run_of_wp (wp_program (σ := σ) h.length hsize)
  have hrecord : ∀ k c, (record sn)[k]? = some c → σ₁.flash k = c := by
    intro k c hk
    rw [hflash]
    exact flash_record hsector hk
  have hprints := prints_decode h hrecord hfuel
  have htag : chunk σ₁.flash 0 5 = tag := chunk_tag hrecord
  rw [← got_iff h hrecord (show 9 ≤ fuel by omega)]
  constructor
  · rintro ⟨σ₁', hrun', ⟨r, σ₂, hget, hgot⟩, -⟩
    obtain rfl : σ₁ = σ₁' := (Prod.mk.inj (Option.some.inj (hrun.symm.trans hrun'))).2
    have hpath := Env.runs_of_run hget
    exact ⟨r, WP.sound (wp_get hsize htag fun _ => trivial) hpath.1 hpath.2, hgot⟩
  · rintro ⟨r, hr, hgot⟩
    have hsome : terminate fuel (received σ₁.flash mem) 8 = none → False := by
      intro hnone
      rw [hr] at hnone
      exact absurd hnone (Option.some_ne_none r)
    obtain ⟨r', σ₂, hget, hr'⟩ := Env.run_of_wp (wp_get hsize htag hsome)
    obtain rfl : r = r' := Option.some.inj (hr.symm.trans hr')
    exact ⟨σ₁, hrun, ⟨r, σ₂, hget, hgot⟩, hprints, hprints⟩

/-- A partition of one sector. -/
def partition : Media := ⟨65536, 65536, []⟩

def blank : Nor := { flash := fun _ => 0 }

/-- `1234-56` and `1234-567`. -/
def short : List Byte := [0x31, 0x32, 0x33, 0x34, 0x2d, 0x35, 0x36]
def long : List Byte := [0x31, 0x32, 0x33, 0x34, 0x2d, 0x35, 0x36, 0x37]

theorem serial_iff_short : ∃ σ₁, (nor partition).run (programFpgaSerialNumber short) blank = some (true, σ₁) ∧
    (∃ r σ₂, (nor partition).run (getFpgaSerialNumber 16 fun _ => 0x41) σ₁ = some (r, σ₂) ∧ Got short (fun _ => 0x41) r) ∧
    Prints fpgaV3_Init_QSPI 16 σ₁.flash short ∧ Prints menu 16 σ₁.flash short :=
  (serial_iff partition blank short (fun _ => 0x41) 16 ⟨by decide, by decide⟩ (by decide) (by decide) (by decide)).mpr
    (Or.inl (by decide))

/-- Memory that holds letters, but for a byte 0xff after the buffer. -/
def letters : Mem := fun i => if i = 9 then 0xff else 0x41

/-- The search for the end of `1234-567` goes on to the byte after the buffer. -/
theorem serial_overrun : ¬ ∃ σ₁, (nor partition).run (programFpgaSerialNumber long) blank = some (true, σ₁) ∧
    (∃ r σ₂, (nor partition).run (getFpgaSerialNumber 16 letters) σ₁ = some (r, σ₂) ∧ Got long letters r) ∧
    Prints fpgaV3_Init_QSPI 16 σ₁.flash long ∧ Prints menu 16 σ₁.flash long := by
  rintro ⟨σ₁, hrun, ⟨r, σ₂, hget, hgot⟩, -⟩
  have hboth : (((nor partition).run (programFpgaSerialNumber long) blank).bind fun x =>
      ((nor partition).run (getFpgaSerialNumber 16 letters) x.2).map fun x => x.1.examined) = some 10 := by decide
  rw [hrun, Option.bind_some, hget] at hboth
  have hten : r.examined = 10 := Option.some.inj hboth
  have hnine := hgot.examined
  rw [hten] at hnine
  exact absurd hnine (by decide)

end FpgaV3.Proof.Qspi
