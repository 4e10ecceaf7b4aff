import FpgaV3.Proof.Blocks
import FpgaV3.Proof.Mmap.Requests

/-!
# The lines in the mmap driver

Every request finds the bus idle and leaves it idle, and makes its accesses
with the data lines in its own direction (`exec_lines`).
-/

namespace FpgaV3.Proof.Mmap

open FpgaV3.Spec FpgaV3.Impl FpgaV3.Impl.Mmap

variable {u d e : BitVec 32} {as : List Emio} {b : Bus}

theorem setInput_bus {s : Interface} (hs : s.isInput = true → d = 0) (h : Around u d e as b) :
    WP buses True (setInput s) b fun s' b' => s' = { s with isInput := true } ∧ Around u 0 e as b' := by
  rw [wp_setInput]
  cases hin : s.isInput
  · rintro x b' ⟨-, rfl⟩
    rw [drive_other (by decide)]
    exact ⟨rfl, h.upper, rfl, h.en, h.accesses⟩
  · refine ⟨?_, h.upper, h.dir.trans (hs hin), h.en, h.accesses⟩
    cases s; cases hin; rfl

theorem setOutput_bus {s : Interface}
    (hs : s.isInput = false → d = BitVec.allOnes 32 ∧ e = BitVec.allOnes 32) (h : Around u d e as b) :
    WP buses True (setOutput s) b fun s' b' => s' = { s with isInput := false } ∧
      Around u (BitVec.allOnes 32) (BitVec.allOnes 32) as b' := by
  rw [wp_setOutput]
  cases hin : s.isInput
  · refine ⟨?_, h.upper, h.dir.trans (hs hin).1, h.en.trans (hs hin).2, h.accesses⟩
    cases s; cases hin; rfl
  · rintro x b₁ ⟨-, rfl⟩ y b₂ ⟨-, rfl⟩
    rw [drive_other (by decide), drive_other (by decide)]
    exact ⟨rfl, h.upper, rfl, rfl, h.accesses⟩

theorem interior_timestamp (s : Interface) (n : Nat) : (timestamp s n).All Interior :=
  all_timestamp s n (by simp [Interior])

theorem interior_wait (fuel : Nat) (s : Interface) (state : Bool) : (waitOpDone fuel s state).All Interior :=
  all_wait fuel s state (by simp [Interior]) (by simp [Interior])

theorem served_read {req : Request} {s : Interface} {acc : List Emio} (hr : req.isRead = true)
    (hs : s.isInput = true) (h : Around 0 0 e (as ++ acc) b) (hd : ∀ l ∈ acc, l.dir = 0 ∧ l.en = e) :
    Served req as s b acc where
  kept := ⟨h.idle, by rw [Synced, if_pos hs]; exact h.dir⟩
  accesses := h.accesses
  directed l hl := by rw [Spec.Directed, if_pos hr]; exact (hd l hl).1

theorem served_write {req : Request} {s : Interface} {acc : List Emio} (hr : req.isRead = false)
    (hs : s.isInput = false) (h : Around 0 (BitVec.allOnes 32) (BitVec.allOnes 32) (as ++ acc) b)
    (hd : ∀ l ∈ acc, l.dir = BitVec.allOnes 32 ∧ l.en = BitVec.allOnes 32) : Served req as s b acc where
  kept := ⟨h.idle, by rw [Synced, if_neg (by simp [hs])]; exact ⟨h.dir, h.en⟩⟩
  accesses := h.accesses
  directed l hl := by rw [Spec.Directed, if_neg (by simp [hr])]; exact hd l hl

/-- The request of a quadlet, and the wait. -/
theorem request_bus {s : Interface} {fuel : Nat} {v : BitVec 32} (hv : v.getLsbD 16 = true)
    (hu : u.getLsbD 16 = false) (h : Around u d e as b) :
    WP buses True (registerWrite .outputUpper v) b fun _ b₁ =>
      WP buses True (timestamp s 1) b₁ fun _ b₂ =>
        WP buses True (waitOpDone fuel s true) b₂ fun ok b₃ => ok = true ∧
          ∃ acc, Around v d e (as ++ acc) b₃ ∧ ∀ l ∈ acc, l.dir = d ∧ l.en = e := by
  rw [wp_registerWrite]
  rintro x b₁ ⟨-, rfl⟩
  obtain ⟨l, -, hd, he, h₁⟩ := write_access h hv (Or.inl hu)
  refine WP.mono (interior_keeps (interior_timestamp s 1) h₁) fun _ b₂ h₂ => ?_
  refine WP.mono (WP.and wait_true (interior_keeps (interior_wait fuel s true) h₂)) fun ok b₃ hpost => ?_
  obtain ⟨hok, h₃⟩ := hpost
  exact ⟨hok, [l], h₃, fun l' hl' => by rw [List.mem_singleton.mp hl']; exact ⟨hd, he⟩⟩

/-- Every request begins with a time stamp and sets the direction. -/
theorem start_input {s : Interface} (h : Kept s b) :
    WP buses True (timestamp s 0) b fun _ b₁ => WP buses True (setInput s) b₁ fun s' b₂ =>
      s' = { s with isInput := true } ∧ Around b.lines.upper 0 b.lines.en b.accesses b₂ :=
  WP.mono (interior_keeps (interior_timestamp s 0) ⟨rfl, rfl, rfl, rfl⟩) fun _ _ h₁ => setInput_bus h.input h₁

theorem start_output {s : Interface} (h : Kept s b) :
    WP buses True (timestamp s 0) b fun _ b₁ => WP buses True (setOutput s) b₁ fun s' b₂ =>
      s' = { s with isInput := false } ∧
        Around b.lines.upper (BitVec.allOnes 32) (BitVec.allOnes 32) b.accesses b₂ :=
  WP.mono (interior_keeps (interior_timestamp s 0) ⟨rfl, rfl, rfl, rfl⟩) fun _ _ h₁ => setOutput_bus h.output h₁

/-- A supported request makes its accesses and leaves the bus idle. -/
theorem exec_lines {s : Interface} {req : Request} {fuel : Nat} (hv : Supported s req) (h : Kept s b) :
    WP buses True (exec fuel req s) b fun x b' => ∃ acc, Served req b.accesses x.2 b' acc ∧
      (req.isBlock = true → acc.map Emio.frame = frames req.quads) := by
  have hlow : b.lines.upper.getLsbD 16 = false := h.idle.reqBus
  cases req with
  | readQuadlet addr =>
    simp only [exec, readQuadlet, wp_bind, wp_pure]
    refine WP.mono (start_input h) fun _ _ h => WP.mono h fun s' _ hpost => ?_
    obtain ⟨hs, h₁⟩ := hpost
    subst hs
    refine WP.mono (request_bus (reqBus_request _) hlow h₁) fun _ _ h => WP.mono h fun _ _ h =>
      WP.mono h fun ok _ hpost => ?_
    obtain ⟨hok, acc, h₂, hacc⟩ := hpost
    simp only [hok, if_true, wp_bind, wp_pure]
    refine WP.mono (interior_keeps (interior_timestamp _ _) h₂) fun _ _ h₃ => ?_
    refine WP.mono (interior_keeps (Prog.all_perform.mpr (by simp [Interior])) h₃) fun _ _ h₃ => ?_
    refine WP.mono (lower_bus h₃) fun _ _ h₃ => WP.mono (interior_keeps (interior_wait ..) h₃) fun _ _ h₃ => ?_
    refine WP.mono (interior_keeps (interior_timestamp _ _) h₃) fun _ _ h₃ => ?_
    exact ⟨acc, served_read rfl rfl h₃ hacc, absurd_false⟩
  | writeQuadlet addr data =>
    simp only [exec, writeQuadlet, wp_bind]
    refine WP.mono (start_output h) fun _ _ h => WP.mono h fun s' _ hpost => ?_
    obtain ⟨hs, h₁⟩ := hpost
    subst hs
    refine WP.mono (interior_keeps (Prog.all_perform.mpr (by simp [Interior])) h₁) fun _ _ h₁ => ?_
    refine WP.mono (request_bus (reqBus_request _) hlow h₁) fun _ _ h => WP.mono h fun _ _ h =>
      WP.mono h fun ok _ hpost => ?_
    obtain ⟨hok, acc, h₂, hacc⟩ := hpost
    simp only [hok, if_true, wp_bind, wp_pure]
    refine WP.mono (interior_keeps (interior_timestamp _ _) h₂) fun _ _ h₃ => ?_
    refine WP.mono (lower_bus h₃) fun _ _ h₃ => WP.mono (interior_keeps (interior_wait ..) h₃) fun _ _ h₃ => ?_
    refine WP.mono (interior_keeps (interior_timestamp _ _) h₃) fun _ _ h₃ => ?_
    exact ⟨acc, served_write rfl rfl h₃ hacc, absurd_false⟩
  | readBlock addr nBytes =>
    simp only [exec, readBlock, if_neg (hv rfl), wp_bind]
    refine WP.mono (start_input h) fun _ _ h => WP.mono h fun s' _ hpost => ?_
    obtain ⟨hs, h₁⟩ := hpost
    subst hs
    refine WP.mono (interior_keeps (interior_timestamp _ _) h₁) fun _ _ h₁ => ?_
    refine WP.mono (blockLoop_bus (fun _ => ?_) (interior_wait ..) (fun q => ?_) (fun _ => wait_true) _ _ _ _
      (Nat.zero_add _) (fun _ => opening addr) (Or.inl hlow) h₁) fun ok _ hpost => ?_
    · trivial
    · exact Prog.all_bind (Prog.all_perform.mpr (by simp [Interior])) fun _ =>
        Prog.all_perform.mpr (by simp [Interior])
    obtain ⟨hok, u', acc, h₂, hf, hacc⟩ := hpost
    simp only [hok, if_true, wp_bind, wp_pure]
    refine WP.mono (interior_keeps (interior_timestamp _ _) h₂) fun _ _ h₃ => ?_
    refine WP.mono (lower_bus h₃) fun _ _ h₃ => WP.mono (interior_keeps (interior_wait ..) h₃) fun _ _ h₃ => ?_
    refine WP.mono (interior_keeps (interior_timestamp _ _) h₃) fun _ _ h₃ => ?_
    exact ⟨acc, served_read rfl rfl h₃ hacc, fun _ => by rw [hf, framesFrom_zero]; rfl⟩
  | writeBlock addr nBytes =>
    simp only [exec, writeBlock, if_neg (hv rfl), wp_bind]
    refine WP.mono (start_output h) fun _ _ h => WP.mono h fun s' _ hpost => ?_
    obtain ⟨hs, h₁⟩ := hpost
    subst hs
    refine WP.mono (interior_keeps (interior_timestamp _ _) h₁) fun _ _ h₁ => ?_
    refine WP.mono (blockLoop_bus (fun q => ?_) (interior_wait ..) (fun _ => ?_) (fun _ => wait_true) _ _ _ _
      (Nat.zero_add _) (fun _ => opening addr) (Or.inl hlow) h₁) fun ok _ hpost => ?_
    · exact Prog.all_bind (Prog.all_perform.mpr (by simp [Interior])) fun _ =>
        Prog.all_perform.mpr (by simp [Interior])
    · trivial
    obtain ⟨hok, u', acc, h₂, hf, hacc⟩ := hpost
    simp only [hok, if_true, wp_bind, wp_pure]
    refine WP.mono (interior_keeps (interior_timestamp _ _) h₂) fun _ _ h₃ => ?_
    refine WP.mono (interior_keeps (interior_wait ..) h₃) fun _ _ h₃ => WP.mono (lower_bus h₃) fun _ _ h₃ => ?_
    refine WP.mono (interior_keeps (interior_timestamp _ _) h₃) fun _ _ h₃ => ?_
    exact ⟨acc, served_write rfl rfl h₃ hacc, fun _ => by rw [hf, framesFrom_zero]; rfl⟩

/-- A request that is not supported changes nothing. -/
theorem refused_lines {s : Interface} {req : Request} {fuel : Nat} (hv : ¬ Supported s req) (h : Kept s b) :
    WP buses True (exec fuel req s) b fun x b' => x.1 = false ∧ Served req b.accesses x.2 b' [] := by
  rw [exec_refused hv]
  exact ⟨rfl, h, (List.append_nil _).symm, fun _ hl => absurd hl List.not_mem_nil⟩

/-- A block transfer touches the data of its quadlets only. -/
theorem all_block {s : Interface} {req : Request} {fuel : Nat} (hr : req.isBlock = true) :
    (exec fuel req s).All (Within req.quads) := by
  have htime (s : Interface) (n : Nat) := all_timestamp (P := Within req.quads) s n (within_none rfl)
  have hwait (s : Interface) (state : Bool) :=
    all_wait (P := Within req.quads) fuel s state (within_none rfl) (within_none rfl)
  have hupper (v : BitVec 32) : (registerWrite .outputUpper v).All (Within req.quads) :=
    Prog.all_perform.mpr (within_none rfl)
  cases req with
  | readQuadlet addr => cases hr
  | writeQuadlet addr data => cases hr
  | readBlock addr nBytes =>
    simp only [exec, readBlock]
    split
    · trivial
    refine Prog.all_bind (htime s 0) fun _ => Prog.all_bind (all_setInput s (within_none rfl)) fun s => ?_
    refine Prog.all_bind (htime s 1) fun _ => Prog.all_bind ?_ fun ok => ?_
    · refine all_blockLoop (fun _ _ => ?_) (hwait s true) (fun q hq => ?_) (fun _ => within_none rfl) _ _ _ _
        (Nat.zero_add _)
      · trivial
      · exact Prog.all_bind (Prog.all_perform.mpr (within_none rfl)) fun _ => Prog.all_perform.mpr (within_one rfl hq)
    · split
      · exact Prog.all_bind (htime s 1) fun _ => Prog.all_bind (hupper 0) fun _ =>
          Prog.all_bind (hwait s false) fun _ => Prog.all_bind (htime s 0) fun _ => trivial
      · trivial
  | writeBlock addr nBytes =>
    simp only [exec, writeBlock]
    split
    · trivial
    refine Prog.all_bind (htime s 0) fun _ => ?_
    refine Prog.all_bind (all_setOutput s (within_none rfl) (within_none rfl)) fun s => ?_
    refine Prog.all_bind (htime s 1) fun _ => Prog.all_bind ?_ fun ok => ?_
    · refine all_blockLoop (fun q hq => ?_) (hwait s true) (fun _ _ => ?_) (fun _ => within_none rfl) _ _ _ _
        (Nat.zero_add _)
      · exact Prog.all_bind (Prog.all_perform.mpr (within_one rfl hq)) fun _ => Prog.all_perform.mpr (within_none rfl)
      · trivial
    · split
      · exact Prog.all_bind (htime s 1) fun _ => Prog.all_bind (hwait s false) fun _ =>
          Prog.all_bind (hupper 0) fun _ => Prog.all_bind (htime s 0) fun _ => trivial
      · trivial

/-! ## Initialisation -/

/-- After a successful `Init` the bus is idle and the data lines are inputs,
whatever the lines were before. -/
theorem init_kept : WP buses True (Mmap.init {}) b fun x b' =>
    x.1 = true → Kept x.2 b' ∧ b'.accesses = b.accesses := by
  have h₀ : Around b.lines.upper b.lines.dir b.lines.en b.accesses b := ⟨rfl, rfl, rfl, rfl⟩
  have hclock : setClock.All Interior := by
    refine Prog.all_bind (Prog.all_perform.mpr (by simp [Interior])) fun r => ?_
    split
    · exact Prog.all_perform.mpr (by simp [Interior])
    · trivial
  simp only [Mmap.init, wp_bind, wp_ite, wp_pure]
  refine WP.mono (interior_keeps (Prog.all_perform.mpr (by simp [Interior])) h₀) fun _ _ h => ?_
  refine ⟨fun _ h => absurd h (by decide), fun _ => ?_⟩
  refine WP.mono (interior_keeps (Prog.all_perform.mpr (by simp [Interior])) h) fun _ _ h => ?_
  refine ⟨fun _ h => absurd h (by decide), fun _ => ?_⟩
  refine WP.mono (interior_keeps hclock h) fun _ _ h => ?_
  refine WP.mono (interior_keeps (Prog.all_perform.mpr (by simp [Interior])) h) fun _ _ h => ?_
  refine WP.mono (interior_keeps (Prog.all_perform.mpr (by simp [Interior])) h) fun _ _ h => ?_
  refine ⟨fun _ h => absurd h (by decide), fun _ => ?_⟩
  refine WP.mono (interior_keeps (Prog.all_perform.mpr (by simp [Interior])) h) fun _ _ h => ?_
  refine WP.mono (interior_keeps (Prog.all_perform.mpr (by simp [Interior])) h) fun v _ h => ?_
  refine ⟨fun _ h => absurd h (by decide), fun _ => ?_⟩
  refine WP.mono (dirLower_bus h) fun _ _ h => ?_
  refine WP.mono (interior_keeps (Prog.all_perform.mpr (by simp [Interior])) h) fun _ _ h => ?_
  refine WP.mono (lower_bus h) fun _ _ h => ?_
  refine WP.mono (interior_keeps (Prog.all_perform.mpr (by simp [Interior])) h) fun _ _ h _ => ?_
  exact ⟨⟨h.idle, h.dir⟩, h.accesses⟩

end FpgaV3.Proof.Mmap
