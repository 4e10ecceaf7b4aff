import FpgaV3.Proof.Block.Access
import FpgaV3.Spec.Healthy

/-!
# fpgav3block

A block of words is stored in the registers, and read back, unless it is a single word:
that is written as it is in the array, byte-swapped (`wp_main_write`). The addresses of
more than 2¹⁶ words wrap around (`fpgav3block_iff`).
-/

namespace FpgaV3.Proof.Block

open FpgaV3.Spec FpgaV3.Impl FpgaV3.Impl.Block FpgaV3.Proof.Mmap

variable {L fuel n : Nat} {τ : Host} {σ : Device} {name addr num arg : List Char} {args : List (List Char)}
  {ws : List (BitVec 32)} {a : BitVec 16} {isQuad : Bool} {v : Vars}

/-- The arguments, and what is done with them. -/
theorem wp_main {Q : Option Int → Host → Prop} (hname : strstr name "fpgav3quad".toList = isQuad)
    (hargs : WP (boards L) False (arguments isQuad args {}) τ fun r τ' => ∃ v, r = some v ∧ 1 ≤ v.args_found ∧
      v.useGpiod = false ∧ WP (boards L) False (access (mmapMethods fuel) isQuad v) τ' fun ret τ' => Q (some ret) τ') :
    WP (boards L) False (main fuel name args) τ Q := by
  rw [main, hname, wp_bind]
  refine WP.mono hargs fun r τ' h => ?_
  obtain ⟨v, rfl, hfound, hmmap, haccess⟩ := h
  show WP (boards L) False (ite _ _ _) _ _
  rw [if_neg (by omega), hmmap, if_neg Bool.false_ne_true, wp_bind]
  exact haccess

/-- The registers after a block of one word, or of more. -/
def written (n : Nat) (a : BitVec 16) (ws : List (BitVec 32)) (regs : BitVec 16 → BitVec 32) : BitVec 16 → BitVec 32 :=
  if n = 1 then put regs a (bswap32 (ws.getD 0 0)) else fill regs a (fun i => ws.getD i 0) n

theorem wp_main_write (hfuel : L < fuel) (hname : strstr name "fpgav3quad".toList = false) (haddr : Hex addr a.toNat)
    (hnum : Numeral 10 num n) (hn : 1 ≤ n ∧ n < 2 ^ 29) (hargs : List.Forall₂ (fun arg w => Hex arg w.toNat) args ws)
    (hlen : 1 ≤ args.length ∧ args.length ≤ n) (hdormant : Dormant τ.dev) :
    WP (boards L) False (main fuel name (addr :: num :: args)) τ fun _ τ' =>
      τ'.inside = τ.inside ∧ Dormant τ'.dev ∧ τ'.dev.regs = written n a ws τ.dev.regs := by
  refine wp_main hname (WP.mono (wp_blockArguments haddr hnum hn.2 hargs hlen.2) fun r τ₁ h => ?_)
  obtain ⟨rfl, mem, rfl, hmem⟩ := h
  refine ⟨_, rfl, by show 1 ≤ 2 + args.length; omega, rfl, ?_⟩
  refine wp_access hdormant rfl rfl fun σ hresting hregs hsame => ?_
  rw [if_neg (by rw [Bool.not_false]; simp only [Bool.false_eq_true, false_and, true_and, false_or]; omega)]
  rw [written, ← show σ.regs = τ.dev.regs from hregs]
  by_cases hone : n = 1
  · rw [if_pos hone]
    have hword : WP (boards L) False (wordData false { j := args.length, args_found := 2 + args.length, addr := a, num := n })
        { (τ.withMem mem) with len := n, dev := σ } fun y τ' =>
        y = bswap32 (ws.getD 0 0) ∧ τ' = { (τ.withMem mem) with len := n, dev := σ } :=
      wp_load hn.1 ⟨(congrFun hsame 0).trans (hmem 0 hn.1), rfl⟩
    refine WP.mono (wp_writeWord hfuel hresting (congrArg Nat.cast hone) rfl hword) fun _ τ₂ h => ?_
    obtain ⟨σ₂, rfl, hdormant, hregs₂⟩ := h
    exact ⟨rfl, hdormant, hregs₂⟩
  · rw [if_neg hone]
    refine WP.mono (wp_writeWords hfuel (by omega) hn.2 rfl hresting rfl rfl) fun _ τ₂ h => ?_
    obtain ⟨σ₂, rfl, hdormant, hregs₂⟩ := h
    refine ⟨rfl, hdormant, hregs₂.trans ?_⟩
    refine fill_congr fun i hi => ?_
    rw [show σ.mem = mem from hsame, hmem i hi, bswap32_bswap32]

theorem wp_main_read (hfuel : L < fuel) (hname : strstr name "fpgav3quad".toList = false) (haddr : Hex addr a.toNat)
    (hnum : Numeral 10 num n) (hn : 1 ≤ n ∧ n < 2 ^ 29) (hdormant : Dormant τ.dev) :
    WP (boards L) False (main fuel name [addr, num]) τ fun _ τ' =>
      τ'.inside = τ.inside ∧ τ'.out = τ.out ++
        (List.range n).map fun i => [.text (text "0x"), .hex (τ.dev.regs (a + BitVec.ofNat 16 i))] := by
  refine wp_main hname (wp_addr_num haddr hnum hn.2 fun mem _ => ?_)
  refine ⟨_, rfl, (by decide : 1 ≤ 2), rfl, ?_⟩
  refine wp_access hdormant rfl rfl fun σ hresting hregs _ => ?_
  rw [if_pos (Or.inr ⟨rfl, Nat.le_refl 2⟩)]
  refine WP.mono (wp_read hfuel hn.1 hn.2 rfl hresting rfl rfl) fun _ τ₂ h => ?_
  rw [← show σ.regs = τ.dev.regs from hregs]
  exact h

/-- `fpgav3quad` writes the word itself. -/
theorem wp_main_quad {x : BitVec 32} (hfuel : L < fuel) (hname : strstr name "fpgav3quad".toList = true)
    (haddr : Hex addr a.toNat) (harg : Hex arg x.toNat) (hdormant : Dormant τ.dev) :
    WP (boards L) False (main fuel name [addr, arg]) τ fun _ τ' => τ'.dev.regs = put τ.dev.regs a x := by
  refine wp_main hname (WP.mono (wp_quadArguments haddr harg) fun r τ₁ h => ?_)
  obtain ⟨rfl, rfl⟩ := h
  refine ⟨_, rfl, (by decide : 1 ≤ 2), rfl, ?_⟩
  refine wp_access hdormant rfl rfl fun σ hresting hregs _ => ?_
  rw [if_neg (show ¬ (true = true ∧ 2 = 1 ∨ (!true) = true ∧ 2 ≤ 2) by decide)]
  refine WP.mono (wp_writeWord hfuel hresting rfl rfl ⟨rfl, rfl⟩) fun _ τ₂ h => ?_
  obtain ⟨σ₂, rfl, -, hregs₂⟩ := h
  rw [← show σ.regs = _ from hregs]
  exact hregs₂

/-! ## Blocks -/

/-- Words at one address are equal, and a single word is its own byte swap. -/
def Unmixed (n : Nat) (ws : List (BitVec 32)) : Prop :=
  (n = 1 → bswap32 (ws.getD 0 0) = ws.getD 0 0) ∧
    ∀ i < n, ∀ j < n, i % 2 ^ 16 = j % 2 ^ 16 → ws.getD i 0 = ws.getD j 0

theorem stored_written {regs : BitVec 16 → BitVec 32} : Stored n a ws (written n a ws regs) ↔ Unmixed n ws := by
  rw [Stored, written, Unmixed]
  by_cases hone : n = 1
  · subst hone
    rw [if_pos rfl]
    constructor
    · intro h
      have hzero := h 0 Nat.one_pos
      rw [BitVec.add_zero, put_same] at hzero
      exact ⟨fun _ => hzero, fun i hi j hj _ => by rw [Nat.lt_one_iff.mp hi, Nat.lt_one_iff.mp hj]⟩
    · intro h i hi
      rw [Nat.lt_one_iff.mp hi, BitVec.add_zero, put_same]
      exact h.1 rfl
  · rw [if_neg hone]
    exact fill_apply_iff.trans ⟨fun h => ⟨fun heq => absurd heq hone, h⟩, And.right⟩

/-- A block is stored and read back, and as a quadlet if it is one word, if and only if it
is `Unmixed`. Only the array is accessed. -/
theorem fpgav3block_iff {quad : List Char} (hfuel : L < fuel) (hname : strstr name "fpgav3quad".toList = false)
    (hquad : strstr quad "fpgav3quad".toList = true) (haddr : Hex addr a.toNat) (hnum : Numeral 10 num n)
    (hn : 1 ≤ n ∧ n < 2 ^ 29) (hargs : List.Forall₂ (fun arg w => Hex arg w.toNat) args ws)
    (hlen : 1 ≤ args.length ∧ args.length ≤ n) (hdormant : Dormant σ) :
    WP (boards L) False (main fuel name (addr :: num :: args)) { dev := σ } fun _ τ =>
      (τ.inside = true ∧ Stored n a ws τ.dev.regs ∧
        (∀ mem, WP (boards L) False (main fuel name [addr, num]) (τ.restart mem) fun _ τ' =>
          τ'.inside = true ∧ τ'.out = printed n ws) ∧
        ∀ arg ∈ args, n = 1 → WP (boards L) False (main fuel quad [addr, arg]) { dev := σ } fun _ τ' =>
          τ'.dev.regs = τ.dev.regs) ↔ Unmixed n ws := by
  refine WP.mono (wp_main_write hfuel hname haddr hnum hn hargs hlen hdormant) fun _ τ h => ?_
  obtain ⟨hinside, hdormant', hregs⟩ := h
  have hstored : Stored n a ws τ.dev.regs ↔ Unmixed n ws := hregs ▸ stored_written
  refine ⟨fun h => hstored.mp h.2.1, fun hunmixed => ⟨hinside, hstored.mpr hunmixed, fun mem => ?_, fun arg harg hone => ?_⟩⟩
  · refine WP.mono (wp_main_read hfuel hname haddr hnum hn hdormant') fun _ τ' h => ?_
    obtain ⟨hinside', hout⟩ := h
    refine ⟨hinside', hout.trans (List.map_congr_left fun i hi => ?_)⟩
    rw [← hstored.mpr hunmixed i (List.mem_range.mp hi)]
    rfl
  · obtain ⟨x, rfl⟩ := List.length_eq_one_iff.mp (show args.length = 1 by omega)
    obtain ⟨w, ws', hw, -, rfl⟩ := List.forall₂_cons_left_iff.mp hargs
    rw [← List.mem_singleton.mp harg] at hw
    refine WP.mono (wp_main_quad hfuel hquad haddr hw hdormant) fun _ τ' h => ?_
    rw [h, hregs, written, if_pos hone, hunmixed.1 hone]
    rfl

theorem fpgav3block_two : WP (boards 0) False (main 1 "fpgav3block".toList ["0x10".toList, "2".toList, "12345678".toList])
    { dev := unused } fun _ τ => Stored 2 0x10 [0x12345678] τ.dev.regs := by
  have haddr : Hex "0x10".toList (0x10 : BitVec 16).toNat := Or.inr ⟨"10".toList, rfl, by decide⟩
  have hnum : Numeral 10 "2".toList 2 := by decide
  have hword : Numeral 16 "12345678".toList (0x12345678 : BitVec 32).toNat := by decide
  have hargs : List.Forall₂ (fun arg (w : BitVec 32) => Hex arg w.toNat) ["12345678".toList] [0x12345678] :=
    .cons (Or.inl hword) .nil
  have hquad : strstr "fpgav3quad".toList "fpgav3quad".toList = true := by decide
  have hunmixed : Unmixed 2 [0x12345678] := by
    unfold Unmixed
    decide
  exact WP.mono (fpgav3block_iff Nat.one_pos (by decide) hquad haddr hnum (by decide) hargs (by decide) fun _ => rfl)
    fun _ τ h => (h.mpr hunmixed).2.1

/-! ## A single word -/

theorem boards_live (τ : Host) (op : BlockOp) : ∃ r τ', (boards L).step τ op r τ' := by
  cases op with
  | mmap op =>
    refine ⟨_, _, ?_, _, prompt_step τ.dev op, rfl⟩
    cases op with
    | regRead r =>
      cases r with
      | inputUpper =>
        show (ite (τ.dev.left = 0) 0x10020000 0x10000000 &&& Bits.version) >>> 28 = 1
        split
        · decide
        · decide
      | _ => trivial
    | openMem | mmapInit _ _ => rfl
    | _ => trivial
  | gpiod op => exact ⟨(obliging.step () op).1, τ, trivial⟩
  | new num => exact ⟨_, _, rfl, fun _ => 0, rfl⟩
  | load q => exact ⟨_, _, rfl, rfl⟩
  | memset num | store q v | cout items => exact ⟨(), _, rfl⟩

/-- `fpgav3block 10 1 12345678` writes 0x78563412. -/
theorem one_word_swapped : ¬ WP (boards 0) False (main 1 "fpgav3block".toList ["10".toList, "1".toList, "12345678".toList])
    { dev := unused } fun _ τ => Stored 1 0x10 [0x12345678] τ.dev.regs := by
  intro h
  have haddr : Hex "10".toList (0x10 : BitVec 16).toNat := Or.inl (show Numeral 16 "10".toList 16 by decide)
  have hnum : Numeral 10 "1".toList 1 := by decide
  have hword : Numeral 16 "12345678".toList (0x12345678 : BitVec 32).toNat := by decide
  have hargs : List.Forall₂ (fun arg (w : BitVec 32) => Hex arg w.toNat) ["12345678".toList] [0x12345678] :=
    .cons (Or.inl hword) .nil
  have hname : strstr "fpgav3block".toList "fpgav3quad".toList = false := by decide
  have hwrite := wp_main_write (τ := { dev := unused }) Nat.one_pos hname haddr hnum (by decide) hargs (by decide) fun _ => rfl
  obtain ⟨r, τ, hstored, -, -, hregs⟩ := (h.and hwrite).exists boards_live
  have hword := hstored 0 Nat.one_pos
  rw [hregs] at hword
  exact absurd hword (by decide)

end FpgaV3.Proof.Block
