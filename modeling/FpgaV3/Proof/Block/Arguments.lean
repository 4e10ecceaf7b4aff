import Mathlib.Data.List.Forall2
import Mathlib.Data.List.TakeWhile
import FpgaV3.Spec.Block

/-!
# The arguments of fpgav3block

`strtoul` computes the number that the digits stand for (`strtoul_numeral`, `strtoul_hex`), so
the arguments of a block are its address, its length and its words, which the array holds
byte-swapped (`wp_blockArguments`).
-/

namespace FpgaV3.Proof.Block

open FpgaV3.Spec FpgaV3.Impl FpgaV3.Impl.Block

variable {base n : Nat} {c : Char} {arg digits : List Char}

/-! ## Numbers -/

theorem digit_le (h : digitValue c < 36) : 48 ≤ c.toNat := by
  unfold digitValue at h
  split at h
  · omega
  · split at h
    · omega
    · split at h
      · omega
      · omega

/-- An argument that begins with a digit. -/
def Begins (arg : List Char) : Prop := ∃ c cs, arg = c :: cs ∧ 48 ≤ c.toNat

theorem Begins.not_space (h : Begins arg) : arg.dropWhile isspace = arg := by
  obtain ⟨c, cs, rfl, hc⟩ := h
  refine List.dropWhile_cons_of_neg ?_
  have hne : c ≠ ' ' := fun heq => absurd (heq ▸ hc) (by decide)
  simp only [isspace, hne, decide_false, Bool.false_or, Bool.and_eq_true, decide_eq_true_eq]
  omega

theorem Begins.not_sign (h : Begins arg) : sign arg = (false, arg) := by
  obtain ⟨c, cs, rfl, hc⟩ := h
  unfold sign
  split
  · rename_i heq
    exact absurd (List.head_eq_of_cons_eq heq ▸ hc) (by decide)
  · rename_i heq
    exact absurd (List.head_eq_of_cons_eq heq ▸ hc) (by decide)
  · rfl

theorem Begins.not_option (h : Begins arg) (rest : List Char) : arg ≠ '-' :: rest := by
  obtain ⟨c, cs, rfl, hc⟩ := h
  exact fun heq => absurd (List.head_eq_of_cons_eq heq ▸ hc) (by decide)

theorem begins_numeral (h : Numeral base arg n) (hbase : base ≤ 36) : Begins arg := by
  obtain ⟨c, cs, rfl⟩ := List.exists_cons_of_ne_nil h.nonempty
  exact ⟨c, cs, rfl, digit_le (Nat.lt_of_lt_of_le (h.digits c List.mem_cons_self) hbase)⟩

/-- Only what is written in digits counts. -/
theorem strtoul_digits (hspace : arg.dropWhile isspace = arg) (hsign : sign arg = (false, arg))
    (hdigits : (if base = 16 then hexPrefix arg else arg) = digits) (h : Numeral base digits n) (hn : n < 2 ^ 32) :
    strtoul arg base = BitVec.ofNat 32 n := by
  have htake : digits.takeWhile (fun c => decide (digitValue c < base)) = digits :=
    List.takeWhile_eq_self_iff.mpr fun c hc => decide_eq_true (h.digits c hc)
  rw [strtoul, hspace, hsign]
  simp only [hdigits, htake, h.value, Nat.not_le.mpr hn, if_false, Bool.false_eq_true]

/-- Digits alone have no prefix. -/
theorem hexPrefix_digits (h : ∀ c ∈ arg, digitValue c < 16) : hexPrefix arg = arg := by
  unfold hexPrefix
  split
  · exact absurd (h 'x' (List.mem_cons_of_mem _ List.mem_cons_self)) (by decide)
  · exact absurd (h 'X' (List.mem_cons_of_mem _ List.mem_cons_self)) (by decide)
  · rfl

theorem strtoul_numeral (h : Numeral base arg n) (hbase : base ≤ 16) (hn : n < 2 ^ 32) :
    strtoul arg base = BitVec.ofNat 32 n := by
  have hbegins := begins_numeral h (by omega)
  refine strtoul_digits hbegins.not_space hbegins.not_sign ?_ h hn
  split
  · rename_i h16
    exact hexPrefix_digits (h16 ▸ h.digits)
  · rfl

theorem strtoul_hex (h : Hex arg n) (hn : n < 2 ^ 32) : strtoul arg 16 = BitVec.ofNat 32 n := by
  rcases h with h | ⟨digits, rfl, h⟩
  · exact strtoul_numeral h (Nat.le_refl _) hn
  · exact strtoul_digits rfl rfl rfl h hn

theorem begins_hex (h : Hex arg n) : Begins arg := by
  rcases h with h | ⟨digits, rfl, -⟩
  · exact begins_numeral h (by omega)
  · exact ⟨'0', _, rfl, by decide⟩

theorem strtoul_word {w : BitVec 32} (h : Hex arg w.toNat) : strtoul arg 16 = w := by
  rw [strtoul_hex h w.isLt]
  exact (BitVec.ofNat_toNat 32 w).trans (BitVec.setWidth_eq w)

theorem strtoul_addr {a : BitVec 16} (h : Hex arg a.toNat) : (strtoul arg 16).setWidth 16 = a := by
  have ha := a.isLt
  rw [strtoul_hex h (by omega)]
  exact BitVec.eq_of_toNat_eq (by rw [BitVec.toNat_setWidth, BitVec.toNat_ofNat]; omega)

/-! ## The loop -/

variable {L : Nat} {lim : Prop} {w : World BlockOp BlockOp.Ans Host} {isQuad : Bool} {args : List (List Char)} {v v' : Vars}
  {τ : Host} {ws : List (BitVec 32)} {a : BitVec 16} {addr num : List Char}

/-- An argument that is no option. -/
theorem wp_argument_cons {Q : Option Vars → Host → Prop} (hbegins : Begins arg)
    (h : WP w lim (argument isQuad arg v) τ fun r τ' => ∃ v', r = some v' ∧ WP w lim (arguments isQuad args v') τ' Q) :
    WP w lim (arguments isQuad (arg :: args) v) τ Q := by
  rw [arguments]
  · rw [wp_bind]
    refine WP.mono h fun r τ' hr => ?_
    obtain ⟨v', rfl, hrest⟩ := hr
    exact hrest
  · exact fun rest heq => hbegins.not_option rest heq

theorem touch_eq {q : Nat} (h : q < τ.len) : τ.touch q = τ := by
  rw [Host.touch, decide_eq_true h, Bool.and_true]

theorem wp_store {q : Nat} {x : BitVec 32} {Q : Unit → Host → Prop} (hq : q < τ.len)
    (h : Q () (τ.withMem fun i => if i = q then x else τ.dev.mem i)) :
    WP (boards L) lim (.perform (BlockOp.store q x)) τ Q := by
  intro u τ' hstep
  have heq : τ' = (τ.withMem fun i => if i = q then x else τ.dev.mem i).touch q := hstep
  rw [touch_eq (show q < (τ.withMem fun i => if i = q then x else τ.dev.mem i).len from hq)] at heq
  rw [heq]
  exact h

theorem wp_load {q : Nat} {Q : BitVec 32 → Host → Prop} (hq : q < τ.len) (h : Q (τ.dev.mem q) τ) :
    WP (boards L) lim (.perform (BlockOp.load q)) τ Q := by
  intro x τ' hstep
  have heq : x = τ.dev.mem q ∧ τ' = τ.touch q := hstep
  rw [heq.1, heq.2, touch_eq hq]
  exact h

/-- The words are stored in the array, one after the other. -/
theorem wp_data (hargs : List.Forall₂ (fun arg w => Hex arg w.toNat) args ws) (hfound : 2 ≤ v.args_found)
    (hfit : (v.j + args.length : Nat) ≤ v.num) (hlen : v.num ≤ τ.len) :
    WP (boards L) False (arguments false args v) τ fun r τ' =>
      r = some { v with j := v.j + args.length, args_found := v.args_found + args.length } ∧
        τ' = τ.withMem fun q =>
          if v.j ≤ q ∧ q < v.j + args.length then bswap32 (ws.getD (q - v.j) 0) else τ.dev.mem q := by
  induction hargs generalizing v τ with
  | nil =>
    refine ⟨rfl, ?_⟩
    have hsame : (fun q => if v.j ≤ q ∧ q < v.j + 0 then bswap32 (([] : List (BitVec 32)).getD (q - v.j) 0)
        else τ.dev.mem q) = τ.dev.mem := funext fun q => if_neg (by omega)
    exact congrArg τ.withMem hsame.symm
  | @cons arg x args ws hx hargs ih =>
    rw [List.length_cons] at hfit
    apply wp_argument_cons (begins_hex hx)
    rw [argument, if_neg (by omega), if_neg (by omega), if_neg (by omega), if_pos ⟨rfl, by omega⟩, strtoul_word hx, wp_bind]
    refine wp_store (by omega) ?_
    have hrest := ih (v := { v with j := v.j + 1, args_found := v.args_found + 1 })
      (τ := τ.withMem fun i => if i = v.j then bswap32 x else τ.dev.mem i) (by show 2 ≤ v.args_found + 1; omega)
      (by show ((v.j + 1 + args.length : Nat) : Int) ≤ v.num; omega) hlen
    refine ⟨_, rfl, WP.mono hrest fun r τ' h => ?_⟩
    obtain ⟨rfl, rfl⟩ := h
    refine ⟨?_, congrArg τ.withMem (funext fun q => ?_)⟩
    · show some { v with j := v.j + 1 + args.length, args_found := v.args_found + 1 + args.length } =
        some { v with j := v.j + (args.length + 1), args_found := v.args_found + (args.length + 1) }
      rw [Nat.add_assoc, Nat.add_assoc, Nat.add_comm 1]
    · show (if v.j + 1 ≤ q ∧ q < v.j + 1 + args.length then bswap32 (ws.getD (q - (v.j + 1)) 0)
          else if q = v.j then bswap32 x else τ.dev.mem q) =
        if v.j ≤ q ∧ q < v.j + (args.length + 1) then bswap32 ((x :: ws).getD (q - v.j) 0) else τ.dev.mem q
      by_cases hq : q = v.j
      · rw [if_neg (by omega), if_pos hq, if_pos (by omega), hq, Nat.sub_self, List.getD_cons_zero]
      · rw [if_neg hq]
        by_cases hlater : v.j + 1 ≤ q ∧ q < v.j + 1 + args.length
        · rw [if_pos hlater, if_pos (by omega), show q - v.j = q - (v.j + 1) + 1 by omega, List.getD_cons_succ]
        · rw [if_neg hlater, if_neg (by omega)]

theorem strtoul_num (h : Numeral 10 num n) (hn : n < 2 ^ 29) : (strtoul num 10).toInt = n := by
  have hnat : (BitVec.ofNat 32 n).toNat = n := by
    rw [BitVec.toNat_ofNat]
    exact Nat.mod_eq_of_lt (by omega)
  rw [strtoul_numeral h (by decide) (by omega), BitVec.toInt_eq_toNat_of_lt (by omega), hnat]

/-- The address, and the length of the array. -/
theorem wp_addr_num {Q : Option Vars → Host → Prop} (haddr : Hex addr a.toNat) (hnum : Numeral 10 num n)
    (hn : n < 2 ^ 29) (h : ∀ mem, (∀ q < n, mem q = 0) →
      WP (boards L) lim (arguments false args { addr := a, num := n, args_found := 2 }) { τ.withMem mem with len := n } Q) :
    WP (boards L) lim (arguments false (addr :: num :: args) {}) τ Q := by
  apply wp_argument_cons (begins_hex haddr)
  rw [argument, if_pos rfl, strtoul_addr haddr]
  refine ⟨_, rfl, ?_⟩
  apply wp_argument_cons (begins_numeral hnum (by decide))
  rw [argument, if_neg (show ¬ 0 + 1 = 0 by decide), if_neg (show ¬ (0 + 1 = 1 ∧ false = true) by decide),
    if_pos (show 0 + 1 = 1 from rfl), strtoul_num hnum hn]
  intro ok τ₁ hnew
  obtain ⟨rfl, mem, rfl⟩ := hnew
  rw [decide_eq_true (show (0 : Int) ≤ n by omega)]
  intro u τ₂ hset
  have heq : τ₂ = { τ.withMem fun q => if (q : Int) < n then 0 else mem q with len := n } := by
    refine Eq.trans (show τ₂ = _ from hset) ?_
    simp only [Host.withMem, Int.toNat_natCast, Int.le_refl, decide_true, Bool.and_true]
  rw [heq]
  exact ⟨_, rfl, h _ fun q hq => if_pos (by omega)⟩

/-- The words of a block, and zeros for those that are left out. -/
theorem wp_blockArguments (haddr : Hex addr a.toNat) (hnum : Numeral 10 num n) (hn : n < 2 ^ 29)
    (hargs : List.Forall₂ (fun arg w => Hex arg w.toNat) args ws) (hfit : args.length ≤ n) :
    WP (boards L) False (arguments false (addr :: num :: args) {}) τ fun r τ' =>
      r = some { j := args.length, args_found := 2 + args.length, addr := a, num := n } ∧
        ∃ mem, τ' = { τ.withMem mem with len := n } ∧ ∀ q < n, mem q = bswap32 (ws.getD q 0) := by
  refine wp_addr_num haddr hnum hn fun mem hmem => ?_
  have hdata := wp_data (L := L) (v := { addr := a, num := n, args_found := 2 }) (τ := { τ.withMem mem with len := n })
    hargs (Nat.le_refl 2) (by show ((0 + args.length : Nat) : Int) ≤ n; omega) (Int.le_refl _)
  refine WP.mono hdata fun r τ' h => ?_
  obtain ⟨rfl, rfl⟩ := h
  refine ⟨by rw [Nat.zero_add], _, rfl, fun q hq => ?_⟩
  show (if 0 ≤ q ∧ q < 0 + args.length then bswap32 (ws.getD (q - 0) 0) else mem q) = bswap32 (ws.getD q 0)
  by_cases hlt : q < args.length
  · rw [if_pos (by omega), Nat.sub_zero]
  · rw [if_neg (by omega), hmem q hq, List.getD_eq_getElem?_getD,
      List.getElem?_eq_none (by rw [← hargs.length_eq]; omega)]
    rfl

/-- The address and the word of a quadlet. -/
theorem wp_quadArguments {x : BitVec 32} (haddr : Hex addr a.toNat) (harg : Hex arg x.toNat) :
    WP (boards L) False (arguments true [addr, arg] {}) τ fun r τ' =>
      r = some { args_found := 2, addr := a, data1 := x } ∧ τ' = τ := by
  apply wp_argument_cons (begins_hex haddr)
  rw [argument, if_pos rfl, strtoul_addr haddr]
  refine ⟨_, rfl, ?_⟩
  apply wp_argument_cons (begins_hex harg)
  rw [argument, if_neg (show ¬ 0 + 1 = 0 by decide), if_pos (show 0 + 1 = 1 ∧ true = true by decide), strtoul_word harg]
  exact ⟨_, rfl, rfl, rfl⟩

end FpgaV3.Proof.Block
