import FpgaV3.Proof.Block.Arguments
import FpgaV3.Proof.Mmap.Refine

/-!
# The accesses of fpgav3block

The program's calls of the driver end as they do against the device alone (`wp_ofMmap`).
So a write of `n` words fills the registers from the address on, with words that the
driver swaps back (`wp_writeWords`) unless there is only one (`wp_writeWord`); and a read
prints the registers (`wp_read`).
-/

namespace FpgaV3.Proof.Block

open FpgaV3.Spec FpgaV3.Impl FpgaV3.Impl.Block FpgaV3.Proof.Mmap

variable {L fuel : Nat} {lim : Prop} {α : Type} {τ : Host} {σ σ' : Device} {p : RegProg α} {Q : α → Device → Prop}
  {Q' : α → Host → Prop}

/-! ## The driver -/

theorem accessed_eq {op : RegOp} (h : Within τ.len op) : τ.accessed op = τ := by
  cases op with
  | load q => exact touch_eq (h q (List.mem_singleton.mpr rfl))
  | store q v => exact touch_eq (h q (List.mem_singleton.mpr rfl))
  | _ => rfl

/-- The device, where the memory can be mapped and the bus has version 1. -/
def granted (L : Nat) : World RegOp RegOp.Ans Device where
  step σ op r σ' := Granted op r ∧ (devices 250000 L).step σ op r σ'

theorem wp_granted (h : WP (devices 250000 L) lim p σ Q) : WP (granted L) lim p σ Q := by
  induction p generalizing σ with
  | ret a => exact h
  | call e k ih => exact fun r σ' hs => ih r (h r σ' hs.2)
  | stop => exact h

theorem wp_ofMmap (hp : p.All (Within τ.len)) (h : WP (granted L) lim p τ.dev Q)
    (hQ : ∀ a σ, Q a σ → Q' a { τ with dev := σ }) : WP (boards L) lim (ofMmap p) τ Q' := by
  have hembed : WP (boards L) lim (ofMmap p) { τ with dev := τ.dev } fun a τ' => ∃ σ, τ' = { τ with dev := σ } ∧ Q a σ :=
    wp_embed (c := fun σ => { τ with dev := σ }) (fun σ op r τ' hwithin hs => by
      obtain ⟨hgranted, σ', hstep, rfl⟩ := hs
      rw [accessed_eq (show Within ({ τ with dev := σ } : Host).len op from hwithin)]
      exact ⟨σ', rfl, hgranted, hstep⟩) hp h
  refine WP.mono hembed fun a τ' ha => ?_
  obtain ⟨σ, rfl, ha⟩ := ha
  exact hQ a σ ha

/-! ## Initialisation -/

theorem wp_openMem {Q : Bool → Device → Prop} (hQ : Q true σ) : WP (granted L) lim (.perform RegOp.openMem) σ Q := by
  intro ok σ' hs
  obtain ⟨hok, rfl⟩ := hs
  rw [show ok = true from hok]
  exact hQ

theorem wp_mmapInit {base : BitVec 32} {size : BitVec 16} {Q : Bool → Device → Prop} (hQ : Q true σ) :
    WP (granted L) lim (.perform (RegOp.mmapInit base size)) σ Q := by
  intro ok σ' hs
  obtain ⟨hok, rfl⟩ := hs
  rw [show ok = true from hok]
  exact hQ

theorem wp_munmap {size : BitVec 16} {Q : Unit → Device → Prop} (hQ : Q () σ) :
    WP (granted L) lim (.perform (RegOp.munmap size)) σ Q := by
  intro u σ' hs
  rw [show σ' = σ from hs.2]
  exact hQ

/-- A register other than those of the lines. -/
theorem wp_control {r : Reg} {x : BitVec 32} {Q : Unit → Device → Prop} (hr : r ≠ .outputUpper)
    (hlines : ∀ l : Emio, l.write r x = l) (hQ : ∀ σ', view σ' = view σ → Q () σ') :
    WP (granted L) False (registerWrite r x) σ Q := by
  refine wp_granted (other_view hr rfl fun σ' h => hQ σ' ?_)
  rw [h, hlines]

theorem wp_setClock {Q : Unit → Device → Prop} (hQ : ∀ σ', view σ' = view σ → Q () σ') :
    WP (granted L) False Mmap.setClock σ Q := by
  unfold Mmap.setClock
  rw [wp_bind]
  intro v σ₁ hread
  rw [show σ₁ = σ from hread.2, wp_ret]
  split
  · exact wp_control (by decide) (fun _ => rfl) hQ
  · exact hQ σ rfl

/-- The version is read, which takes a sample. -/
theorem wp_version {Q : BitVec 32 → Device → Prop} (h : Dormant σ)
    (hQ : ∀ x σ', (x &&& Bits.version) >>> 28 = 1 → Dormant σ' → view σ' = { view σ with wait := σ'.wait } → Q x σ') :
    WP (granted L) lim (registerRead .inputUpper) σ Q := by
  intro x σ' hs
  obtain ⟨hversion, hstep⟩ := hs
  refine hQ x σ' hversion (dormant_step hstep h) ?_
  rw [hstep.2]
  unfold Device.sample
  split
  · rfl
  · split
    · rfl
    · rfl

theorem wp_init (h : Dormant σ) : WP (granted L) False (Mmap.init {}) σ fun x σ' =>
    x = (true, { version := 1 }) ∧ Device.Resting x.2 σ' ∧ σ'.regs = σ.regs ∧ σ'.mem = σ.mem := by
  simp only [Mmap.init, wp_bind]
  refine wp_openMem ?_
  rw [Bool.not_true, if_neg Bool.false_ne_true, wp_bind]
  refine wp_mmapInit ?_
  rw [Bool.not_true, if_neg Bool.false_ne_true]
  simp only [wp_bind]
  refine wp_setClock fun σ₁ h₁ => wp_munmap (wp_mmapInit ?_)
  rw [Bool.not_true, if_neg Bool.false_ne_true]
  simp only [wp_bind]
  refine wp_control (by decide) (fun _ => rfl) fun σ₂ h₂ => ?_
  have hdormant : Dormant σ₂ := by
    show (view σ₂).lines.reqBus = false → (view σ₂).wait = .idle
    rw [h₂, h₁]
    exact h
  refine wp_version hdormant fun x σ₃ hversion hdormant h₃ => ?_
  rw [hversion, if_neg (by decide)]
  simp only [wp_bind]
  refine wp_granted (other_view (by decide) rfl fun σ₄ h₄ => ?_)
  refine wp_control (by decide) (fun _ => rfl) fun σ₅ h₅ => ?_
  have hrequest : (view σ₅).lines.reqBus = true ∨ (view σ₅).wait = .idle := by
    rw [h₅, h₄]
    cases hreq : σ₃.bus.lines.reqBus with
    | false => exact Or.inr (hdormant hreq)
    | true => exact Or.inl hreq
  refine wp_granted (lower_view hrequest rfl fun σ₆ h₆ => ?_)
  refine wp_control (by decide) (fun _ => rfl) fun σ₇ h₇ => ?_
  have hend : view σ₇ = ⟨{ σ.bus.lines with dir := 0, upper := 0 }, σ.regs, σ.mem, .idle, σ.addr, σ.data⟩ := by
    rw [h₇, h₆, h₅, h₄, h₃, h₂, h₁]
    rfl
  refine ⟨rfl, resting_input rfl ?_ ?_ ?_, congrArg View.regs hend, congrArg View.mem hend⟩
  · rw [hend]
  · rw [hend]
  · rw [hend]

/-! ## The requests -/

variable {s : Interface} {a : BitVec 16} {n : Nat}

theorem within_init : (Mmap.init s).All (Within n) := by
  have hcall (e : RegOp) (he : touches e = []) : (Prog.perform e : RegProg e.Ans).All (Within n) :=
    Prog.all_perform.mpr (within_none he)
  have hclock : Mmap.setClock.All (Within n) := by
    refine Prog.all_bind (hcall _ rfl) fun r => ?_
    split
    · exact hcall _ rfl
    · trivial
  refine Prog.all_bind (hcall _ rfl) fun ok => ?_
  split
  · trivial
  refine Prog.all_bind (hcall _ rfl) fun ok => ?_
  split
  · trivial
  refine Prog.all_bind hclock fun _ => Prog.all_bind (hcall _ rfl) fun _ => Prog.all_bind (hcall _ rfl) fun ok => ?_
  split
  · trivial
  refine Prog.all_bind (hcall _ rfl) fun _ => Prog.all_bind (hcall _ rfl) fun upper => ?_
  dsimp only
  split
  · trivial
  refine Prog.all_bind (hcall _ rfl) fun _ => Prog.all_bind (hcall _ rfl) fun _ => ?_
  exact Prog.all_bind (hcall _ rfl) fun _ => Prog.all_bind (hcall _ rfl) fun _ => trivial

theorem within_readQuadlet : (Mmap.readQuadlet fuel s a).All (Within n) := by
  have htime (s : Interface) (k : Nat) := all_timestamp (P := Within n) s k (within_none rfl)
  have hwait (s : Interface) (state : Bool) :=
    all_wait (P := Within n) fuel s state (within_none rfl) (within_none rfl)
  have hupper (v : BitVec 32) : (registerWrite .outputUpper v).All (Within n) := Prog.all_perform.mpr (within_none rfl)
  refine Prog.all_bind (htime s 0) fun _ => Prog.all_bind (all_setInput s (within_none rfl)) fun s => ?_
  refine Prog.all_bind (hupper _) fun _ => Prog.all_bind (htime s 1) fun _ => Prog.all_bind (hwait s true) fun ok => ?_
  split
  · refine Prog.all_bind (htime s 1) fun _ => Prog.all_bind (Prog.all_perform.mpr (within_none rfl)) fun _ => ?_
    refine Prog.all_bind (hupper _) fun _ => Prog.all_bind (hwait s false) fun _ => ?_
    exact Prog.all_bind (htime s 0) fun _ => trivial
  · exact Prog.all_bind (hupper _) fun _ => trivial

theorem within_writeQuadlet {x : BitVec 32} : (Mmap.writeQuadlet fuel s a x).All (Within n) := by
  have htime (s : Interface) (k : Nat) := all_timestamp (P := Within n) s k (within_none rfl)
  have hwait (s : Interface) (state : Bool) :=
    all_wait (P := Within n) fuel s state (within_none rfl) (within_none rfl)
  have hwrite (r : Reg) (v : BitVec 32) : (registerWrite r v).All (Within n) := Prog.all_perform.mpr (within_none rfl)
  refine Prog.all_bind (htime s 0) fun _ => ?_
  refine Prog.all_bind (all_setOutput s (within_none rfl) (within_none rfl)) fun s => ?_
  refine Prog.all_bind (hwrite _ _) fun _ => Prog.all_bind (hwrite _ _) fun _ => ?_
  refine Prog.all_bind (htime s 1) fun _ => Prog.all_bind (hwait s true) fun ok => ?_
  have hlast (p : RegProg (Bool × Interface)) (hp : p.All (Within n)) : (registerWrite .outputUpper 0 >>= fun _ =>
      Mmap.waitOpDone fuel s false >>= fun _ => p).All (Within n) :=
    Prog.all_bind (hwrite _ _) fun _ => Prog.all_bind (hwait s false) fun _ => hp
  cases ok with
  | false => exact hlast _ trivial
  | true => exact Prog.all_bind (htime s 1) fun _ => hlast _ (Prog.all_bind (htime s 0) fun _ => trivial)

/-! ## The program -/

variable {isQuad : Bool} {v : Vars}

/-- The driver is initialised, and closed at the end. -/
theorem wp_access {Q : Int → Host → Prop} (hdormant : Dormant τ.dev) (hevent : v.eventMode = 2) (htiming : v.timingMode = 0)
    (h : ∀ σ, Device.Resting { version := 1 } σ → σ.regs = τ.dev.regs → σ.mem = τ.dev.mem →
      WP (boards L) False (if (isQuad ∧ v.args_found = 1) ∨ (!isQuad ∧ v.args_found ≤ 2) then
        readData (mmapMethods fuel) v { version := 1 } else writeData (mmapMethods fuel) isQuad v { version := 1 })
        { τ with dev := σ } fun _ => Q 0) : WP (boards L) False (access (mmapMethods fuel) isQuad v) τ Q := by
  have hdestroy {τ : Host} (hQ : Q 0 τ) : WP (boards L) False (mmapMethods fuel).destroy τ fun _ => Q 0 := by
    intro u τ' hs
    obtain ⟨-, σ, hσ, rfl⟩ := hs
    rw [show σ = τ.dev from hσ]
    exact hQ
  simp only [access, wp_bind]
  refine wp_ofMmap within_init (wp_init hdormant) fun x σ hx => ?_
  obtain ⟨rfl, hresting, hregs, hmem⟩ := hx
  have hrest := h σ hresting hregs hmem
  rw [Bool.not_true, if_neg Bool.false_ne_true, wp_bind, setMode, hevent, if_neg (by decide), if_neg (by decide), wp_pure,
    wp_bind, setTimingMode, htiming, wp_bind, Prog.onlyIf, if_neg (by decide)]
  show WP (boards L) False (ite _ _ _) _ Q
  split
  · rename_i hread
    rw [if_pos hread] at hrest
    rw [wp_bind]
    refine WP.mono hrest fun _ τ' hQ => ?_
    rw [wp_bind]
    exact hdestroy hQ
  · rename_i hwrite
    rw [if_neg hwrite] at hrest
    rw [wp_bind]
    refine WP.mono hrest fun _ τ' hQ => ?_
    rw [wp_bind]
    exact hdestroy hQ

theorem quads_nBytes (hn : n < 2 ^ 29) : nQuads (nBytes n) = n := by
  have hnat : (nBytes n).toNat = 4 * n := by
    rw [nBytes, show (4 * (n : Int)) = ((4 * n : Nat) : Int) by omega, BitVec.ofInt_natCast, BitVec.toNat_ofNat]
    exact Nat.mod_eq_of_lt (by omega)
  rw [nQuads_eq (by omega), quads, hnat]
  omega

theorem within_exec {req : Request} (hblock : req.isBlock = true) (hquads : req.quads = n) :
    (Mmap.exec fuel req s).All (Within n) := hquads ▸ all_block hblock

theorem wp_coutWord {Q : Unit → Host → Prop} {x : BitVec 32}
    (h : Q () { τ with out := τ.out ++ [[.text (text "0x"), .hex x]] }) : WP (boards L) lim (coutWord x) τ Q := by
  intro u τ' hs
  rw [show τ' = _ from hs]
  exact h

/-- The words of the array are printed. -/
theorem wp_coutData {j : Nat} (hlen : j + n ≤ τ.len) : WP (boards L) False (coutData n j) τ fun _ τ' =>
    τ' = { τ with out := τ.out ++ (List.range n).map fun i => [.text (text "0x"), .hex (bswap32 (τ.dev.mem (j + i)))] } := by
  induction n generalizing j τ with
  | zero => exact congrArg (fun out => { τ with out := out }) (List.append_nil _).symm
  | succ n ih =>
    simp only [coutData, wp_bind]
    refine wp_load (by omega) (wp_coutWord (WP.mono (ih (by show j + 1 + n ≤ τ.len; omega)) fun _ τ' h => ?_))
    have hshift : (fun i => [Item.text (text "0x"), .hex (bswap32 (τ.dev.mem (j + 1 + i)))]) =
        (fun i => [Item.text (text "0x"), .hex (bswap32 (τ.dev.mem (j + i)))]) ∘ Nat.succ :=
      funext fun i => by rw [Nat.add_right_comm]; rfl
    rw [h, List.range_succ_eq_map, List.map_cons, List.map_map, ← hshift, List.append_assoc]
    rfl

theorem wp_written {ret : Bool} {Q : Unit → Host → Prop} (hret : ret = true) (hQ : Q () τ) :
    WP (boards L) False (.onlyIf (!ret) (cout [.text (text "Write failed")])) τ Q := by
  rw [hret]
  exact hQ

/-- A word is written as it is. -/
theorem wp_writeWord {x : BitVec 32} (hfuel : L < fuel) (hresting : Device.Resting { version := 1 } τ.dev)
    (hnum : v.num = 1) (haddr : v.addr = a) (hword : WP (boards L) False (wordData isQuad v) τ fun y τ' => y = x ∧ τ' = τ) :
    WP (boards L) False (writeData (mmapMethods fuel) isQuad v { version := 1 }) τ fun _ τ' =>
      ∃ σ, τ' = { τ with dev := σ } ∧ Dormant σ ∧ σ.regs = put τ.dev.regs a x := by
  rw [writeData, transfer, hnum, haddr, if_pos rfl]
  simp only [wp_bind]
  refine WP.mono hword fun y τ' h => ?_
  obtain ⟨rfl, rfl⟩ := h
  refine wp_ofMmap within_writeQuadlet (wp_granted (writeQuadlet_device hfuel hresting)) fun z σ hz => ?_
  obtain ⟨hret, -, hrest, hregs, -⟩ := hz
  exact wp_written hret ⟨σ, rfl, fun _ => hrest.wait, hregs⟩

/-- More words are swapped by the driver. -/
theorem wp_writeWords (hfuel : L < fuel) (hn : 1 < n) (hn' : n < 2 ^ 29) (hlen : τ.len = n)
    (hresting : Device.Resting { version := 1 } τ.dev) (hnum : v.num = n) (haddr : v.addr = a) :
    WP (boards L) False (writeData (mmapMethods fuel) isQuad v { version := 1 }) τ fun _ τ' =>
      ∃ σ, τ' = { τ with dev := σ } ∧ Dormant σ ∧ σ.regs = fill τ.dev.regs a (fun i => bswap32 (τ.dev.mem i)) n := by
  rw [writeData, transfer, hnum, haddr, if_neg (by omega), if_pos (by omega)]
  simp only [wp_bind]
  have hwithin : (Mmap.exec fuel (.writeBlock a (nBytes n)) { version := 1 }).All (Within τ.len) :=
    within_exec rfl ((quads_nBytes hn').trans hlen.symm)
  refine wp_ofMmap hwithin (wp_granted (writeBlock_device hfuel (by decide) hresting)) fun x σ hx => ?_
  obtain ⟨rfl, hrest, hregs, -⟩ := hx
  rw [quads_nBytes hn'] at hregs
  exact wp_written rfl ⟨σ, rfl, fun _ => hrest.wait, hregs⟩

/-- The registers are printed. -/
theorem wp_read (hfuel : L < fuel) (hn : 1 ≤ n) (hn' : n < 2 ^ 29) (hlen : τ.len = n)
    (hresting : Device.Resting { version := 1 } τ.dev) (hnum : v.num = n) (haddr : v.addr = a) :
    WP (boards L) False (readData (mmapMethods fuel) v { version := 1 }) τ fun _ τ' =>
      τ'.inside = τ.inside ∧ τ'.out = τ.out ++
        (List.range n).map fun i => [.text (text "0x"), .hex (τ.dev.regs (a + BitVec.ofNat 16 i))] := by
  rw [readData, hnum, haddr]
  by_cases hone : n = 1
  · rw [if_pos (by omega), wp_bind]
    refine wp_ofMmap within_readQuadlet (wp_granted (readQuadlet_device hfuel hresting)) fun x σ hx => ?_
    obtain ⟨data1, s⟩ := x
    obtain ⟨hdata, -⟩ := hx
    rw [show data1 = some (τ.dev.regs a) from hdata]
    refine wp_coutWord ⟨rfl, ?_⟩
    rw [hone]
    show τ.out ++ [[_, .hex (τ.dev.regs a)]] = τ.out ++ [[_, .hex (τ.dev.regs (a + 0#16))]]
    rw [BitVec.add_zero]
  · rw [if_neg (by omega), if_pos (by omega), wp_bind]
    have hwithin : (Mmap.exec fuel (.readBlock a (nBytes n)) { version := 1 }).All (Within τ.len) :=
      within_exec rfl ((quads_nBytes hn').trans hlen.symm)
    refine wp_ofMmap hwithin (wp_granted (readBlock_device hfuel (by decide) hresting)) fun x σ hx => ?_
    obtain ⟨rfl, -, hregs, hmem⟩ := hx
    rw [quads_nBytes hn'] at hmem
    show WP (boards L) False (if true = true then coutData (n : Int).toNat 0 else _) _ _
    rw [if_pos rfl, Int.toNat_natCast]
    refine WP.mono (wp_coutData (by show 0 + n ≤ τ.len; omega)) fun _ τ' h => ?_
    subst h
    refine ⟨rfl, congrArg _ (List.map_congr_left fun i hi => ?_)⟩
    have hlt : i < n := List.mem_range.mp hi
    show [_, Item.hex (bswap32 (σ.mem (0 + i)))] = _
    rw [hmem, stored, if_pos (by omega), bswap32_bswap32, Nat.zero_add, Nat.sub_zero]

end FpgaV3.Proof.Block
