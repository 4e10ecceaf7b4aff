import FpgaV3.Spec.Disk

/-!
# What the startup changes

An observer of `fpgav3init` notes the registers as `main` has them in its variables,
and every call that changes something outside the program: a file, the flash, a
register, or what a command does (`Startup`). The calls that `main` should make are
those for the environment variables (`OfProfile`), those for the firmware of the
board (`OfFirmware`), and then `finish`.
-/

namespace FpgaV3.Spec

open FpgaV3.Impl FpgaV3.Impl.Init

/-- Whether the call changes anything. -/
def changing : InitOp → Bool
  | .openTrunc _ | .openWrite _ | .sendfile _ _ _ | .write _ _ | .fopen _ | .fprintf _ _ | .mkdir _ | .system _
  | .writeQuadlet _ _ | .programFlash _ _ | .copyQspiToFpga _ _ => true
  | .openRead _ | .close _ | .fstat _ | .fclose _ | .stat _ | .cout _ | .getFpgaSerialNumber | .isOK
  | .readQuadlet _ => false

structure Startup where
  reg_hw : BitVec 32
  reg_status : BitVec 32
  changes : List InitOp := []

def Startup.call (σ : Startup) : InitEvent → Startup
  | ⟨.readQuadlet addr, data⟩ =>
    if addr = 4 then { σ with reg_hw := data.getD σ.reg_hw } else { σ with reg_status := data.getD σ.reg_status }
  | ⟨e, _⟩ => if changing e then { σ with changes := σ.changes ++ [e] } else σ

/-- The serial number has at most 45 characters: the buffer that it is read to has 9. -/
def ShortSerial : InitEvent → Prop
  | ⟨.getFpgaSerialNumber, fpga_sn⟩ => fpga_sn.length ≤ 45
  | _ => True

def startups : World InitOp InitOp.Ans Startup := World.obs (fun _ => ShortSerial) Startup.call

/-- The file of the environment variables is written. -/
def OfProfile : InitOp → Prop
  | .openTrunc path | .write path _ => path = profileFile
  | _ => False

/-- Firmware `F` is copied from the card, converted, and given to the FPGA manager. -/
def OfFirmware (F : Text) : InitOp → Prop
  | .openTrunc path => path = tmpBit F ∨ path = libBin F
  | .sendfile dest src _ => dest = tmpBit F ∧ src = mediaBit F ∨ dest = libBin F ∧ src = tmpBin F
  | .fopen path => path = text "/tmp/" ++ F ++ text ".bif"
  | .fprintf path data => path = text "/tmp/" ++ F ++ text ".bif" ∧ data = bifText (tmpBit F)
  | .system cmd => cmd = bootgenCmd (text "/tmp/" ++ F ++ text ".bif")
  | .mkdir path => path = text "/lib/firmware"
  | .openWrite path => path = flagsFile ∨ path = firmwareFile
  | .write path data => path = flagsFile ∨ path = firmwareFile ∧ data = F ++ text ".bit.bin" ++ [0]
  | _ => False

/-- The board ID and the type of the board, in the status register. -/
def statusId (reg_status : BitVec 32) : Nat := ((reg_status &&& 0x0f000000) >>> 24).toNat
def statusType (reg_status : BitVec 32) : BoardType := boardType ((reg_status &&& 0x00f00000) >>> 20)

/-- The commands that give `eth0` its MAC and its IP address. -/
def macCommand (board_id : Nat) : Text := text "ip link set dev eth0 address FA:61:0E:03:00:" ++ fmtDec2 board_id
def ipCommand (board_id : Nat) : Text :=
  text "ip addr add 169.254.10." ++ fmtDec board_id ++ text "/16 broadcast + dev eth0"

/-- The commands of the network. -/
def network (board_id : Nat) : List Text :=
  [text "ip link set eth0 down", macCommand board_id, ipCommand board_id, text "ip link set eth0 up",
    text "ip route add 224.0.0.100/32 dev eth0"]

/-- The calls after those for the firmware: the flash is programmed, the PS Ethernet is
enabled and set up, and the serial number is copied. -/
def finishing (board_id : Nat) : List InitOp :=
  [.programFlash (text "/media/qspi-boot.bin") (text "/dev/mtd0"), .writeQuadlet 12 0x02010000] ++
    (network board_id).map .system ++ [.copyQspiToFpga (text "/dev/mtd4ro") 16]

/-- The changes of a startup that was completed. -/
def Completed (σ : Startup) : Prop :=
  ∃ profile firmware, σ.changes = profile ++ firmware ++ finishing (statusId σ.reg_status) ∧
    (∀ e ∈ profile, OfProfile e) ∧ (∀ e ∈ firmware, OfFirmware (firmwareName (statusType σ.reg_status)) e) ∧
    (firmwareName (statusType σ.reg_status) = [] → firmware = [])

end FpgaV3.Spec
