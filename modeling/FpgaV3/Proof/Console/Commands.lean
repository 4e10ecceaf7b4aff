import FpgaV3.Spec.Console

/-!
# The `block` command

`get_dec` computes the decimal value modulo 2^32 (`getDec_eq`), which `main`
takes for an `int`: a number that is negative then passes both comparisons, and
no word is set or printed for it. The runs of the command (`block_write_runs`,
`block_read_runs`) transfer what they are to if and only if the number fits
(`transfers_iff`).
-/

namespace FpgaV3.Proof.Console

open FpgaV3.Spec FpgaV3.Impl.Console

variable {argc : Nat} {argv : Nat → List Char} {data data' : Words} {t : Trace ConsoleOp ConsoleOp.Ans}

/-! ## Numbers -/

theorem decDigit_eq (c : Char) : decDigit c = if c.isDigit then some (c.toNat - '0'.toNat) else none := by
  have hdigit : ('0' ≤ c ∧ c ≤ '9') ↔ c.isDigit = true := by
    rw [Char.isDigit, Bool.and_eq_true, decide_eq_true_iff, decide_eq_true_iff]
    exact Iff.rfl
  rw [decDigit]
  exact if_congr hdigit rfl rfl

/-- The digits after the value `v`. -/
theorem digits_eq (str : List Char) (v : Nat) : digits 10 decDigit (BitVec.ofNat 32 v) str =
    BitVec.ofNat 32 ((str.takeWhile Char.isDigit).foldl (fun v c => 10 * v + (c.toNat - '0'.toNat)) v) := by
  induction str generalizing v with
  | nil => rfl
  | cons c str ih =>
    rw [digits, decDigit_eq, List.takeWhile_cons]
    by_cases hc : c.isDigit = true
    · rw [if_pos hc, if_pos hc, List.foldl_cons, ← ih, BitVec.ofNat_add, BitVec.ofNat_mul]
      rfl
    · rw [if_neg hc, if_neg hc]
      rfl

theorem getDec_eq (str : List Char) : getDec str = BitVec.ofNat 32 (decimal str) := digits_eq str 0

/-- The number of quadlets after the comparisons of `main`. -/
def quads (argc : Nat) (str : List Char) : Int :=
  let num : Int := (getDec str).toInt
  let num := if num > MAX_QUADS then (MAX_QUADS : Int) else num
  if argc > 3 then (if num > (argc : Int) - 3 then (argc : Int) - 3 else num) else num

theorem limit_le (argc : Nat) : limit argc ≤ MAX_QUADS := by
  unfold limit
  split
  · exact Nat.min_le_right _ _
  · exact Nat.le_refl _

theorem limit_pos (argc : Nat) : 0 < limit argc := by
  unfold limit
  split
  · rename_i h
    exact Nat.lt_min.mpr ⟨Nat.sub_pos_of_lt h, by decide⟩
  · decide

theorem quads_eq_min {str : List Char} (h : decimal str % 2 ^ 32 < 2 ^ 31) :
    quads argc str = (min (decimal str % 2 ^ 32) (limit argc) : Nat) := by
  have hint : (getDec str).toInt = (decimal str % 2 ^ 32 : Nat) := by
    rw [BitVec.toInt_eq_toNat_cond, getDec_eq, BitVec.toNat_ofNat, if_pos (by omega)]
  unfold quads limit
  rw [hint]
  have hmax : MAX_QUADS = 32 := rfl
  generalize decimal str % 2 ^ 32 = m
  dsimp only
  rw [hmax]
  split <;> omega

/-- With bit 31 set, the number is negative, and no comparison changes it. -/
theorem quads_neg {str : List Char} (h : ¬ decimal str % 2 ^ 32 < 2 ^ 31) : quads argc str < 0 := by
  have hlt : decimal str % 2 ^ 32 < 2 ^ 32 := Nat.mod_lt _ (by decide)
  have hint : (getDec str).toInt < 0 := by
    rw [BitVec.toInt_eq_toNat_cond, getDec_eq, BitVec.toNat_ofNat, if_neg (by omega)]
    omega
  unfold quads
  have hmax : MAX_QUADS = 32 := rfl
  generalize (getDec str).toInt = num at hint
  dsimp only
  rw [hmax]
  split <;> omega

theorem toNat_bytes {n : Nat} (h : n ≤ MAX_QUADS) : (BitVec.ofInt 32 (n : Int) * 4).toNat = 4 * n := by
  have hmax : MAX_QUADS = 32 := rfl
  rw [BitVec.ofInt_natCast, BitVec.toNat_mul, BitVec.toNat_ofNat]
  show n % 2 ^ 32 * 4 % 2 ^ 32 = 4 * n
  omega

/-! ## Runs -/

theorem printWords_runs {n i : Nat} :
    (printWords data n i).Runs t () ↔ t = (List.range' i n).map fun i => ⟨.print (data i), ()⟩ := by
  induction n generalizing i t with
  | zero =>
    rw [printWords, Prog.runs_pure]
    exact and_iff_left rfl
  | succ n ih =>
    rw [printWords, List.range'_succ, List.map_cons]
    constructor
    · rintro ⟨r, t', rfl, hr⟩
      rw [ih.mp hr]
    · intro ht
      exact ⟨(), _, ht, ih.mpr rfl⟩

/-- The words read, after they are printed. -/
theorem print_runs {n : Nat} : (printWords data n 0 >>= fun _ => return data).Runs t data' ↔
    t = ((List.range n).map fun i => ⟨.print (data i), ()⟩) ∧ data' = data := by
  rw [Prog.runs_bind, List.range_eq_range']
  constructor
  · rintro ⟨t₁, t₂, r, rfl, hprint, rfl, rfl⟩
    rw [printWords_runs.mp hprint, List.append_nil]
    exact ⟨rfl, rfl⟩
  · rintro ⟨rfl, rfl⟩
    exact ⟨_, [], (), (List.append_nil _).symm, printWords_runs.mpr rfl, rfl, rfl⟩

theorem block_write_runs (h : argc > 3) : (block argc argv data).Runs t data' ↔
    ∃ ok : Bool, t = [⟨.writeBlock ((getHex (argv 1)).setWidth 16) (setWords argv data (quads argc (argv 2)))
      (BitVec.ofInt 32 (quads argc (argv 2)) * 4), ok⟩] ∧ data' = setWords argv data (quads argc (argv 2)) := by
  unfold block quads
  rw [if_pos h, if_pos h]
  constructor
  · rintro ⟨ok, t', rfl, rfl, rfl⟩
    exact ⟨ok, rfl, rfl⟩
  · rintro ⟨ok, rfl, rfl⟩
    exact ⟨ok, [], rfl, rfl, rfl⟩

theorem block_read_runs (h : ¬ argc > 3) : (block argc argv data).Runs t data' ↔
    ∃ ok : Bool, t = ⟨.readBlock ((getHex (argv 1)).setWidth 16) (BitVec.ofInt 32 (quads argc (argv 2)) * 4), (ok, data')⟩ ::
      if ok then (List.range (quads argc (argv 2)).toNat).map fun i => ⟨.print (data' i), ()⟩ else [] := by
  unfold block quads
  rw [if_neg h, if_neg h]
  constructor
  · rintro ⟨⟨ok, words⟩, t', rfl, hr⟩
    cases ok with
    | false =>
      obtain ⟨rfl, rfl⟩ := hr
      exact ⟨false, rfl⟩
    | true =>
      obtain ⟨rfl, rfl⟩ := print_runs.mp hr
      exact ⟨true, rfl⟩
  · rintro ⟨ok, rfl⟩
    refine ⟨(ok, data'), _, rfl, ?_⟩
    cases ok with
    | false => exact ⟨rfl, rfl⟩
    | true => exact print_runs.mpr ⟨rfl, rfl⟩

theorem command_block (hname : argv 0 = ['b', 'l', 'o', 'c', 'k']) (hargc : argc > 2) :
    command argc argv data = block argc argv data := by
  rw [command, hname, if_neg fun h => absurd h.1 (by decide), if_pos ⟨rfl, hargc⟩]

/-! ## The command -/

theorem fitsInt_iff {str : List Char} : FitsInt argc str ↔ decimal str % 2 ^ 32 < 2 ^ 31 ∧
    min (decimal str % 2 ^ 32) (limit argc) = min (decimal str) (limit argc) := by
  have hle : limit argc ≤ 32 := limit_le argc
  unfold FitsInt
  omega

/-- The words set for a write. -/
theorem setWords_of_lt {n i : Nat} (hi : i < n) : setWords argv data n i = getHex (argv (3 + i)) :=
  if_pos (Int.ofNat_lt.mpr hi)

theorem writesBlock_of_fitsInt (h : argc > 3) (hc : FitsInt argc (argv 2)) (hr : (block argc argv data).Runs t data') :
    WritesBlock argv (min (decimal (argv 2)) (limit argc)) t := by
  obtain ⟨ok, rfl, -⟩ := (block_write_runs h).mp hr
  obtain ⟨hpos, heq⟩ := fitsInt_iff.mp hc
  rw [quads_eq_min hpos, heq]
  have hle : min (decimal (argv 2)) (limit argc) ≤ MAX_QUADS := Nat.le_trans (Nat.min_le_right _ _) (limit_le argc)
  exact ⟨_, _, _, ok, rfl, toNat_bytes hle, fun i hi => setWords_of_lt hi⟩

theorem readsBlock_of_fitsInt (h : ¬ argc > 3) (hc : FitsInt argc (argv 2)) (hr : (block argc argv data).Runs t data') :
    ReadsBlock (min (decimal (argv 2)) (limit argc)) t := by
  obtain ⟨ok, rfl⟩ := (block_read_runs h).mp hr
  obtain ⟨hpos, heq⟩ := fitsInt_iff.mp hc
  rw [quads_eq_min hpos, heq]
  have hle : min (decimal (argv 2)) (limit argc) ≤ MAX_QUADS := Nat.le_trans (Nat.min_le_right _ _) (limit_le argc)
  exact ⟨_, _, data', ok, toNat_bytes hle, rfl⟩

/-- The words wanted of a number whose bit 31 is set. -/
theorem wanted_pos {str : List Char} (h : ¬ decimal str % 2 ^ 32 < 2 ^ 31) : 0 < min (decimal str) (limit argc) := by
  have hle : decimal str % 2 ^ 32 ≤ decimal str := Nat.mod_le _ _
  exact Nat.lt_min.mpr ⟨by omega, limit_pos argc⟩

/-- The number of bytes of a transfer that is right. -/
theorem quads_eq_of_bytes {str : List Char} {n : Nat} (h : decimal str % 2 ^ 32 < 2 ^ 31)
    (hn : (BitVec.ofInt 32 (quads argc str) * 4).toNat = 4 * n) : min (decimal str % 2 ^ 32) (limit argc) = n := by
  rw [quads_eq_min h, toNat_bytes (Nat.le_trans (Nat.min_le_right _ _) (limit_le argc))] at hn
  omega

theorem fitsInt_of_writesBlock (h : argc > 3)
    (hw : ∀ data t data', (block argc argv data).Runs t data' → WritesBlock argv (min (decimal (argv 2)) (limit argc)) t) :
    FitsInt argc (argv 2) := by
  -- a word that is not the first one given
  let old : Words := fun _ => getHex (argv 3) + 1
  obtain ⟨addr, words, nBytes, ok, ht, hbytes, hwords⟩ := hw old _ _ ((block_write_runs h).mpr ⟨true, rfl, rfl⟩)
  injection ht with hcall
  injection hcall with hop
  injection hop with _ hset hnum
  have hpos : decimal (argv 2) % 2 ^ 32 < 2 ^ 31 := by
    by_contra hneg
    have hfirst : setWords argv old (quads argc (argv 2)) 0 = getHex (argv 3) := by
      rw [hset]
      exact hwords 0 (wanted_pos hneg)
    have hold : setWords argv old (quads argc (argv 2)) 0 = getHex (argv 3) + 1 :=
      if_neg (Int.not_lt.mpr (Int.le_of_lt (quads_neg hneg)))
    rw [hfirst] at hold
    exact absurd (BitVec.self_eq_add_right.mp hold) (by decide)
  rw [← hnum] at hbytes
  exact fitsInt_iff.mpr ⟨hpos, quads_eq_of_bytes hpos hbytes⟩

theorem fitsInt_of_readsBlock (h : ¬ argc > 3)
    (hw : ∀ data t data', (block argc argv data).Runs t data' → ReadsBlock (min (decimal (argv 2)) (limit argc)) t) :
    FitsInt argc (argv 2) := by
  obtain ⟨addr, nBytes, words, ok, hbytes, ht⟩ := hw (fun _ => 0) _ (fun _ => 0) ((block_read_runs h).mpr ⟨true, rfl⟩)
  obtain ⟨hcall, hprints⟩ := List.cons.inj ht
  injection hcall with hop hans
  injection hop with _ hnum
  have hpos : decimal (argv 2) % 2 ^ 32 < 2 ^ 31 := by
    by_contra hneg
    have hnone : (quads argc (argv 2)).toNat = 0 := Int.toNat_of_nonpos (Int.le_of_lt (quads_neg hneg))
    obtain ⟨hok, -⟩ := Prod.mk.inj hans
    rw [hnone, ← hok] at hprints
    have hlen := congrArg List.length hprints
    simp only [if_true, List.length_map, List.length_range] at hlen
    exact absurd hlen (Nat.ne_of_lt (wanted_pos hneg))
  rw [← hnum] at hbytes
  exact fitsInt_iff.mpr ⟨hpos, quads_eq_of_bytes hpos hbytes⟩

/-- A `block` command transfers the words it is to if and only if its number
fits. -/
theorem transfers_iff (argc : Nat) (argv : Nat → List Char) (hname : argv 0 = ['b', 'l', 'o', 'c', 'k'])
    (hargc : argc > 2) : Transfers argc argv ↔ FitsInt argc (argv 2) := by
  unfold Transfers
  simp only [command_block hname hargc]
  by_cases h : argc > 3
  · simp only [if_pos h]
    exact ⟨fitsInt_of_writesBlock h, fun hc data t data' hr => writesBlock_of_fitsInt h hc hr⟩
  · simp only [if_neg h]
    exact ⟨fitsInt_of_readsBlock h, fun hc data t data' hr => readsBlock_of_fitsInt h hc hr⟩
/-- The strings of a command line. -/
def strings (ss : List String) (i : Nat) : List Char := (ss.getD i "").toList

/-- `block 10 3 a b` writes two words. -/
theorem transfers_iff_write : Transfers 5 (strings ["block", "10", "3", "a", "b"]) :=
  (transfers_iff 5 (strings ["block", "10", "3", "a", "b"]) (by decide) (by decide)).mpr
    ⟨by decide, Or.inl (by decide)⟩

/-- `block 0 4294967295` reads `2^30` quadlets to the 32 of `data`. -/
theorem negative_number : ¬ Transfers 3 (strings ["block", "0", "4294967295"]) := by
  intro h
  have hrun : (block 3 (strings ["block", "0", "4294967295"]) fun _ => 0).Runs _ fun _ => 0 :=
    (block_read_runs (by decide)).mpr ⟨false, rfl⟩
  rw [← command_block (by decide) (by decide)] at hrun
  obtain ⟨addr, nBytes, words, ok, hbytes, ht⟩ := h _ _ _ hrun
  injection (List.cons.inj ht).1 with hop
  injection hop with _ hnum
  rw [← hnum] at hbytes
  exact absurd hbytes (by decide)

end FpgaV3.Proof.Console
