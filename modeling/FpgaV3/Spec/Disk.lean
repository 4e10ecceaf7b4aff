import FpgaV3.Framework.Env
import FpgaV3.Impl.Init

/-!
# Files

The file system is a map from paths to contents, together with what was handed to
the FPGA manager last (`Disk`). The system calls may fail, and `sendfile` and `write`
may transfer less than is asked for (`Replies`). `bootgen` is a function of the `.bit`
file that its `.bif` file names; a run of it that fails, as any other command, may do
anything to the files.

In `disk bootgen ok` the calls are answered so, and all satisfy `ok`.
-/

namespace FpgaV3.Spec

open FpgaV3.Impl FpgaV3.Impl.Init

structure Disk where
  files : Text → Option Text
  handed : Option Text := none

namespace Disk

def put (d : Disk) (path data : Text) : Disk :=
  { d with files := fun p => if p = path then some data else d.files p }

def contents (d : Disk) (path : Text) : Text := (d.files path).getD []

def append (d : Disk) (path data : Text) : Disk := d.put path (d.contents path ++ data)

/-- The FPGA manager takes a file of `/lib/firmware`, the name being written to it
with a NUL. -/
def hand (d : Disk) (data : Text) : Disk := { d with handed := d.files (text "/lib/firmware/" ++ data.dropLast) }

variable {d : Disk} {p q data : Text}

theorem files_put (d : Disk) (p data : Text) : (d.put p data).files p = some data := if_pos rfl

theorem files_put_other (h : q ≠ p) : (d.put p data).files q = d.files q := if_neg h

theorem contents_put (d : Disk) (p data : Text) : (d.put p data).contents p = data :=
  congrArg (·.getD []) (files_put d p data)

theorem contents_put_other (h : q ≠ p) : (d.put p data).contents q = d.contents q :=
  congrArg (·.getD []) (files_put_other h)

theorem contents_of (h : d.files p = some data) : d.contents p = data := congrArg (·.getD []) h

theorem put_put (d : Disk) (p x y : Text) : (d.put p x).put p y = d.put p y := by
  rw [Disk.put, Disk.put, Disk.put]
  congr 1
  funext q
  show (if q = p then some y else if q = p then some x else d.files q) = if q = p then some y else d.files q
  split <;> rfl

theorem append_put (d : Disk) (p x y : Text) : (d.put p x).append p y = d.put p (x ++ y) := by
  rw [Disk.append, contents_put, put_put]

end Disk

/-- A name without characters that mean anything to a shell. -/
def Plain (s : Text) : Prop :=
  ∀ c ∈ s, c ∈ text "ABCDEFGHIJKLMNOPQRSTUVWXYZabcdefghijklmnopqrstuvwxyz0123456789/._-"

instance (s : Text) : Decidable (Plain s) := inferInstanceAs (Decidable (∀ c ∈ s, _))

/-- `bootgen` ran on the `.bit` file that is named in `bifFile`. -/
def Generated (bootgen : Text → Text) (d : Disk) (bifFile : Text) (d' : Disk) : Prop :=
  ∃ bit src, d.files bifFile = some (bifText bit) ∧ d.files bit = some src ∧ d' = d.put (bit ++ text ".bin") (bootgen src)

/-- What a call may be answered, and the files after it. -/
def Replies (bootgen : Text → Text) (d : Disk) : InitEvent → Disk → Prop
  | ⟨.openRead path, ok⟩, d' => (ok = true → (d.files path).isSome) ∧ d' = d
  | ⟨.openTrunc path, ok⟩, d' => d' = if ok then d.put path [] else d
  | ⟨.fopen path, ok⟩, d' => d' = if ok then d.put path [] else d
  | ⟨.fprintf path data, _⟩, d' => d' = d.append path data
  | ⟨.fstat path, r⟩, d' => (r.1 = 0 → r.2 = (d.contents path).length) ∧ d' = d
  | ⟨.sendfile dest src count, n⟩, d' =>
    n = -1 ∧ d' = d ∨ ∃ k : Nat, k ≤ count ∧ n = ((d.contents src).take k).length ∧
      d' = d.append dest ((d.contents src).take k)
  | ⟨.write path data, n⟩, d' =>
    n = -1 ∧ d' = d ∨ ∃ k : Nat, k ≤ data.length ∧ n = k ∧
      d' = if path = firmwareFile then (if k = data.length then d.hand data else d) else d.append path (data.take k)
  | ⟨.system cmd, ret⟩, d' => ∀ bifFile, cmd = bootgenCmd bifFile → Plain bifFile → ret = 0 → Generated bootgen d bifFile d'
  | _, d' => d' = d

def disk (bootgen : Text → Text) (ok : InitEvent → Prop) : World InitOp InitOp.Ans Disk :=
  ⟨fun d e r d' => ok ⟨e, r⟩ ∧ Replies bootgen d ⟨e, r⟩ d'⟩

/-! ## The firmware -/

/-- `/media/F.bit`, `/tmp/F.bit`, `/tmp/F.bit.bin` and `/lib/firmware/F.bit.bin`. -/
def mediaBit (F : Text) : Text := text "/media/" ++ F ++ text ".bit"
def tmpBit (F : Text) : Text := text "/tmp/" ++ F ++ text ".bit"
def tmpBin (F : Text) : Text := text "/tmp/" ++ F ++ text ".bit.bin"
def libBin (F : Text) : Text := text "/lib/firmware/" ++ F ++ text ".bit.bin"

/-- The size of a file is obtained, all of it is transferred, and the `.bin` files can
be opened. -/
def Copies (F : Text) : InitEvent → Prop
  | ⟨.openRead path, ok⟩ => path = tmpBin F → ok = true
  | ⟨.openTrunc path, ok⟩ => path = libBin F → ok = true
  | ⟨.fstat _, r⟩ => r.1 = 0
  | ⟨.sendfile _ _ count, n⟩ => n = (count : Int)
  | _ => True

/-- The FPGA manager was handed the output of `bootgen` for `/media/F.bit`, which was
copied. -/
def Handed (bootgen : Text → Text) (F : Text) (d d' : Disk) : Prop :=
  ∃ src, d.files (mediaBit F) = some src ∧ d'.files (tmpBit F) = some src ∧
    d'.files (libBin F) = some (bootgen src) ∧ d'.handed = some (bootgen src)

/-! ## The environment variables -/

/-- Every call completes, but for the commands. -/
def filing : Env InitOp InitOp.Ans Disk where
  step d
    | .openRead path => ((d.files path).isSome, d)
    | .openTrunc path | .fopen path => (true, d.put path [])
    | .openWrite _ | .stat _ => (true, d)
    | .close _ | .fclose _ | .cout _ => ((), d)
    | .fstat path => ((0, (d.contents path).length), d)
    | .sendfile dest src count =>
      let data := (d.contents src).take count
      ((data.length : Int), d.append dest data)
    | .write path data => ((data.length : Int), if path = firmwareFile then d.hand data else d.append path data)
    | .fprintf path data => ((), d.append path data)
    | .mkdir _ => ((0 : Int), d)
    | .system _ => ((1 : Int), d)
    | .getFpgaSerialNumber => ([], d)
    | .isOK | .writeQuadlet _ _ | .programFlash _ _ | .copyQspiToFpga _ _ => (true, d)
    | .readQuadlet _ => (none, d)

/-- The variables and their values. -/
def exports (fpga_ver fpga_sn board_type : Text) (board_id : Nat) : List (Text × Text) :=
  [(text "FPGAV3_VER", fpga_ver)] ++ (if fpga_sn = [] then [] else [(text "FPGAV3_SN", fpga_sn)]) ++
    [(text "FPGAV3_HW", board_type)] ++ if board_id < 16 then [(text "FPGAV3_ID", fmtDec board_id)] else []

/-- The lines of a file, each ended by a newline, split at the first `=`. -/
def assignments (file : Text) : List (Text × Text) :=
  (file.splitOn 0x0a).dropLast.map fun line => (line.takeWhile (· ≠ 0x3d), (line.dropWhile (· ≠ 0x3d)).drop 1)

/-- The file consists of the lines for the variables; these are read back, and mean no
other command. -/
structure WellFormed (vars : List (Text × Text)) (file : Text) : Prop where
  lines : file = (vars.map fun v => exportLine v.1 v.2).flatten
  read : assignments file = vars.map fun v => (text "export " ++ v.1, v.2)
  plain : ∀ v ∈ vars, Plain v.2

end FpgaV3.Spec
