/-!
# Bytes in memory

Memory is a function from addresses. `overlay f a bs` stores `bs` from `a` on,
and `chunk f a n` reads `n` values from there (`chunk_overlay`). A C string is
read up to its NUL (`CString`); `strchr` searches one for a byte, and is stuck
if it uses up its bound.

NOR flash can be erased to all ones, and programmed, which clears bits only:
what is programmed to an erased range is read back (`program_erase`).
-/

namespace FpgaV3

section
variable {β : Type} {f : Nat → β} {a i k n : Nat} {bs : List β} {x : β}

/-- The memory with `bs` from `a` on. -/
def overlay (f : Nat → β) (a : Nat) (bs : List β) : Nat → β :=
  fun i => if a ≤ i then bs[i - a]?.getD (f i) else f i

/-- The `n` values from `a` on. -/
def chunk (f : Nat → β) (a n : Nat) : List β := (List.range n).map fun i => f (a + i)

theorem overlay_get (h : bs[k]? = some x) : overlay f a bs (a + k) = x := by
  rw [overlay, if_pos (Nat.le_add_right a k), Nat.add_sub_cancel_left, h]
  rfl

theorem overlay_before (h : i < a) : overlay f a bs i = f i := if_neg (Nat.not_le.mpr h)

theorem overlay_after (h : a + bs.length ≤ i) : overlay f a bs i = f i := by
  rw [overlay, if_pos (by omega), List.getElem?_eq_none (by omega)]
  rfl

theorem length_chunk (f : Nat → β) (a n : Nat) : (chunk f a n).length = n := by
  rw [chunk, List.length_map, List.length_range]

theorem getElem?_chunk (h : k < n) : (chunk f a n)[k]? = some (f (a + k)) := by
  rw [chunk, List.getElem?_map, List.getElem?_range h]
  rfl

theorem chunk_congr {g : Nat → β} (h : ∀ i, a ≤ i → i < a + n → f i = g i) : chunk f a n = chunk g a n := by
  refine List.map_congr_left fun i hi => h (a + i) (Nat.le_add_right a i) ?_
  rw [List.mem_range] at hi
  omega

theorem chunk_of (h : ∀ k x, bs[k]? = some x → f (a + k) = x) : chunk f a bs.length = bs := by
  refine List.ext_getElem? fun k => ?_
  rcases Nat.lt_or_ge k bs.length with hlt | hge
  · have hget := List.getElem?_eq_getElem hlt
    rw [getElem?_chunk hlt, h k _ hget, hget]
  · rw [List.getElem?_eq_none (by rwa [length_chunk]), List.getElem?_eq_none hge]

/-- What was stored is read back. -/
theorem chunk_overlay (f : Nat → β) (a : Nat) (bs : List β) : chunk (overlay f a bs) a bs.length = bs :=
  chunk_of fun _ _ h => overlay_get h

end

/-! ## C strings -/

/-- The string `s` is at `a`. -/
def CString (mem : Nat → BitVec 8) (a : Nat) (s : List (BitVec 8)) : Prop :=
  0 ∉ s ∧ ∀ k c, (s ++ [0])[k]? = some c → mem (a + k) = c

/-- `strchr`, byte `i` being the next: where the search ends, and whether the byte
was found there. -/
def strchr (mem : Nat → BitVec 8) (c : BitVec 8) : (fuel i : Nat) → Option (Nat × Bool)
  | 0, _ => none
  | fuel + 1, i =>
    if mem i = c then some (i, true)
    else if mem i = 0 then some (i, false)
    else strchr mem c fuel (i + 1)

/-- The search passes the bytes before the first that is `c` or NUL. -/
theorem strchr_skip {mem : Nat → BitVec 8} {c : BitVec 8} {i : Nat} (n fuel : Nat)
    (h : ∀ k < n, mem (i + k) ≠ c ∧ mem (i + k) ≠ 0) : strchr mem c (n + fuel) i = strchr mem c fuel (i + n) := by
  induction n generalizing i with
  | zero => rw [Nat.zero_add, Nat.add_zero]
  | succ n ih =>
    have hzero := h 0 (Nat.succ_pos n)
    rw [Nat.add_zero] at hzero
    have hnext : ∀ k < n, mem (i + 1 + k) ≠ c ∧ mem (i + 1 + k) ≠ 0 := by
      intro k hk
      rw [show i + 1 + k = i + (k + 1) by omega]
      exact h (k + 1) (by omega)
    rw [show n + 1 + fuel = n + fuel + 1 by omega, strchr, if_neg hzero.1, if_neg hzero.2, ih hnext]
    rw [show i + 1 + n = i + (n + 1) by omega]

/-- The search ends at the first byte that is `c` or NUL. -/
theorem strchr_end {mem : Nat → BitVec 8} {c : BitVec 8} {n fuel : Nat} (hn : n < fuel)
    (hpass : ∀ k < n, mem k ≠ c ∧ mem k ≠ 0) (hend : mem n = c ∨ mem n = 0) :
    strchr mem c fuel 0 = some (n, decide (mem n = c)) := by
  have hskip := strchr_skip (i := 0) n (fuel - n) (by simpa only [Nat.zero_add] using hpass)
  rw [show n + (fuel - n) = fuel by omega, Nat.zero_add, show fuel - n = fuel - n - 1 + 1 by omega, strchr] at hskip
  rw [hskip]
  by_cases hc : mem n = c
  · rw [if_pos hc, decide_eq_true hc]
  · rw [if_neg hc, if_pos (hend.resolve_left hc), decide_eq_false hc]

/-- A search that ends has passed no byte that is `c` or NUL. -/
theorem strchr_some {mem : Nat → BitVec 8} {c : BitVec 8} {fuel i j : Nat} {b : Bool}
    (h : strchr mem c fuel i = some (j, b)) :
    i ≤ j ∧ (∀ k, i ≤ k → k < j → mem k ≠ c ∧ mem k ≠ 0) ∧ if b then mem j = c else mem j = 0 := by
  induction fuel generalizing i with
  | zero => exact absurd h.symm (Option.some_ne_none _)
  | succ fuel ih =>
    rw [strchr] at h
    split at h
    · rename_i hc
      obtain ⟨rfl, rfl⟩ := Prod.mk.inj (Option.some.inj h)
      exact ⟨Nat.le_refl _, fun k h₁ h₂ => absurd h₁ (Nat.not_le.mpr h₂), hc⟩
    · rename_i hc
      split at h
      · rename_i hz
        obtain ⟨rfl, rfl⟩ := Prod.mk.inj (Option.some.inj h)
        exact ⟨Nat.le_refl _, fun k h₁ h₂ => absurd h₁ (Nat.not_le.mpr h₂), hz⟩
      · rename_i hz
        obtain ⟨hle, hpass, hend⟩ := ih h
        refine ⟨Nat.le_of_succ_le hle, fun k h₁ h₂ => ?_, hend⟩
        rcases Nat.eq_or_lt_of_le h₁ with heq | hlt
        · rw [← heq]
          exact ⟨hc, hz⟩
        · exact hpass k hlt h₂

/-! ## NOR flash -/

/-- The `n` bytes from `a` on are erased. -/
def erase (flash : Nat → BitVec 8) (a n : Nat) : Nat → BitVec 8 :=
  fun i => if a ≤ i ∧ i < a + n then 0xff else flash i

/-- The bytes are programmed from `a` on. -/
def program (flash : Nat → BitVec 8) (a : Nat) (bs : List (BitVec 8)) : Nat → BitVec 8 :=
  fun i => if a ≤ i then flash i &&& bs[i - a]?.getD 0xff else flash i

variable {flash : Nat → BitVec 8} {a b i n : Nat} {bs : List (BitVec 8)}

theorem erase_in (h : a ≤ i ∧ i < a + n) : erase flash a n i = 0xff := if_pos h

theorem erase_out (h : i < a ∨ a + n ≤ i) : erase flash a n i = flash i := if_neg (by omega)

theorem program_out (h : i < a ∨ a + bs.length ≤ i) : program flash a bs i = flash i := by
  rw [program]
  split
  · rw [List.getElem?_eq_none (by omega)]
    exact BitVec.and_allOnes
  · rfl

/-- What is programmed to erased bytes is read back. -/
theorem program_in {k : Nat} {x : BitVec 8} (h : bs[k]? = some x) (he : flash (a + k) = 0xff) :
    program flash a bs (a + k) = x := by
  rw [program, if_pos (Nat.le_add_right a k), Nat.add_sub_cancel_left, h, he]
  exact BitVec.allOnes_and

end FpgaV3
