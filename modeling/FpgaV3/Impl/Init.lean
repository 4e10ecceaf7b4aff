import FpgaV3.Impl.Qspi

/-!
# Initialization at startup

`fpgav3init.cpp`: `CopyFile`, `ConvertBitstream`, `FpgaLoad`, `ProgramFpga`,
`ExportFpgaInfo`, `SetMACandIP` and `main`, over the system calls, and over
`GetFpgaSerialNumber`, `ProgramFlash`, `CopyQspiToFpga` and the EMIO object. A file
is named by its path as long as it is open. The messages are left out, but for those
of `main` that tell of the board.

`src_stat` and `dir_stat` are not initialised: if `fstat` or `stat` fails, they hold
anything. `sprintf` is stuck if the text is too long for its buffer.
-/

namespace FpgaV3.Impl

abbrev Text := List Byte

def text (s : String) : Text := s.toList.map fun c => BitVec.ofNat 8 c.toNat

/-- What is inserted into `std::cout`. -/
inductive Item where
  | text (s : Text)
  | dec (n : Nat)
  | hex (w : BitVec 32)
deriving DecidableEq

inductive InitOp where
  | openRead (path : Text)
  | openTrunc (path : Text)
  | openWrite (path : Text)
  | close (path : Text)
  | fstat (path : Text)
  | sendfile (dest src : Text) (count : Nat)
  | write (path data : Text)
  | fopen (path : Text)
  | fprintf (path data : Text)
  | fclose (path : Text)
  | stat (path : Text)
  | mkdir (path : Text)
  | system (cmd : Text)
  | cout (items : List Item)
  | getFpgaSerialNumber
  | isOK
  | readQuadlet (addr : BitVec 16)
  | writeQuadlet (addr : BitVec 16) (data : BitVec 32)
  | programFlash (file dev : Text)
  | copyQspiToFpga (dev : Text) (nbytes : BitVec 16)
deriving DecidableEq

/-- Their answers: whether a file was opened, the return value, for `fstat` with
`st_size` and for `stat` whether `st_mode` is that of a directory after the call, the
serial number, and the word read, if `ReadQuadlet` returned true. -/
@[reducible] def InitOp.Ans : InitOp → Type
  | .openRead _ | .openTrunc _ | .openWrite _ | .fopen _ | .stat _ => Bool
  | .close _ | .fprintf _ _ | .fclose _ | .cout _ => Unit
  | .fstat _ => Int × Nat
  | .sendfile _ _ _ | .write _ _ | .mkdir _ | .system _ => Int
  | .getFpgaSerialNumber => Text
  | .isOK | .writeQuadlet _ _ | .programFlash _ _ | .copyQspiToFpga _ _ => Bool
  | .readQuadlet _ => Option (BitVec 32)

abbrev InitEvent := Event InitOp InitOp.Ans

abbrev InitProg := Prog InitOp InitOp.Ans

namespace Init

inductive BoardType where
  | BOARD_UNKNOWN | BOARD_NONE | BOARD_QLA | BOARD_DQLA | BOARD_DRAC
deriving DecidableEq

def boardName : BoardType → Text
  | .BOARD_UNKNOWN => text "Unknown"
  | .BOARD_NONE => text "None"
  | .BOARD_QLA => text "QLA"
  | .BOARD_DQLA => text "DQLA"
  | .BOARD_DRAC => text "DRAC"

def firmwareName : BoardType → Text
  | .BOARD_UNKNOWN | .BOARD_NONE => []
  | .BOARD_QLA => text "FPGA1394V3-QLA"
  | .BOARD_DQLA => text "FPGA1394V3-DQLA"
  | .BOARD_DRAC => text "FPGA1394V3-DRAC"

/-- `sprintf` to a buffer of `size` bytes. -/
def sprintf (size : Nat) (s : Text) : InitProg Text := if s.length < size then return s else .stop

/-- `%d` -/
def fmtDec (n : Nat) : Text := text (toString n)

/-- `%02d` -/
def fmtDec2 (n : Nat) : Text := if n < 10 then text "0" ++ fmtDec n else fmtDec n

/-! ## The firmware -/

def copyFile (filename srcDir destDir : Text) : InitProg Bool := do
  let srcFile := srcDir ++ text "/" ++ filename
  if !(← .perform (InitOp.openRead srcFile)) then return false
  let destFile := destDir ++ text "/" ++ filename
  if !(← .perform (InitOp.openTrunc destFile)) then
    .perform (InitOp.close srcFile)
    return false
  let (_, st_size) ← .perform (InitOp.fstat srcFile)
  -- only a warning is printed if not all was written
  let _ ← .perform (InitOp.sendfile destFile srcFile st_size)
  .perform (InitOp.close srcFile)
  .perform (InitOp.close destFile)
  return true

/-- The contents of the `.bif` file. -/
def bifText (bitFile : Text) : Text := text "all:\n\x7b\n    " ++ bitFile ++ text "\n\x7d\n"

def bootgenCmd (bifFile : Text) : Text :=
  text "bootgen -image " ++ bifFile ++ text " -arch zynq -w on -process_bitstream bin"

def convertBitstream (firmwareName fileDir : Text) : InitProg Bool := do
  let bifFile := fileDir ++ text "/" ++ firmwareName ++ text ".bif"
  if !(← .perform (InitOp.fopen bifFile)) then return false
  let bitFile := fileDir ++ text "/" ++ firmwareName ++ text ".bit"
  .perform (InitOp.fprintf bifFile (bifText bitFile))
  .perform (InitOp.fclose bifFile)
  let sysCmd ← sprintf 128 (bootgenCmd bifFile)
  let ret ← .perform (InitOp.system sysCmd)
  return ret = 0

/-- A sysfs file is opened, and `data` written to it. -/
def writeSysfs (path data : Text) : InitProg Bool := do
  if !(← .perform (InitOp.openWrite path)) then return false
  let nWrite ← .perform (InitOp.write path data)
  .perform (InitOp.close path)
  return nWrite = data.length

def flagsFile : Text := text "/sys/class/fpga_manager/fpga0/flags"
def firmwareFile : Text := text "/sys/class/fpga_manager/fpga0/firmware"

def fpgaLoad (binFile : Text) : InitProg Bool := do
  if !(← writeSysfs flagsFile (text "0" ++ [0])) then return false
  writeSysfs firmwareFile (binFile ++ [0])

/-- `/lib/firmware` is created if it does not exist. -/
def firmwareDir : InitProg Bool := do
  if ← .perform (InitOp.stat (text "/lib/firmware")) then return true
  let ret ← .perform (InitOp.mkdir (text "/lib/firmware"))
  return ret = 0

def programFpga (firmwareName : Text) : InitProg Bool := do
  let bitFile := firmwareName ++ text ".bit"
  if !(← copyFile bitFile (text "/media") (text "/tmp")) then return false
  if !(← convertBitstream firmwareName (text "/tmp")) then return false
  if !(← firmwareDir) then return false
  let binFile := bitFile ++ text ".bin"
  let _ ← copyFile binFile (text "/tmp") (text "/lib/firmware")
  fpgaLoad binFile

/-! ## The environment variables -/

def profileFile : Text := text "/etc/profile.d/fpgav3.sh"

/-- One line. -/
def exportLine (name value : Text) : Text := text "export " ++ name ++ text "=" ++ value ++ text "\n"

/-- A line is written with the NUL after it. -/
def writeLine (name value : Text) : InitProg Unit := do
  let buf ← sprintf 64 (exportLine name value)
  let _ ← .perform (InitOp.write profileFile (buf ++ [0]))

def exportFpgaInfo (fpga_ver fpga_sn board_type : Text) (board_id : Nat) : InitProg Bool := do
  if !(← .perform (InitOp.openTrunc profileFile)) then return false
  writeLine (text "FPGAV3_VER") fpga_ver
  .onlyIf (fpga_sn ≠ []) (writeLine (text "FPGAV3_SN") fpga_sn)
  writeLine (text "FPGAV3_HW") board_type
  .onlyIf (board_id < 16) (writeLine (text "FPGAV3_ID") (fmtDec board_id))
  .perform (InitOp.close profileFile)
  return true

/-! ## Ethernet -/

/-- A command, of which the return value is only printed. -/
def command (cmd : Text) : InitProg Unit := do
  let buffer ← sprintf 128 cmd
  let _ ← .perform (InitOp.system buffer)

def setMACandIP (ethName : Text) (board_id : Nat) : InitProg Bool := do
  command (text "ip link set " ++ ethName ++ text " down")
  command (text "ip link set dev " ++ ethName ++ text " address FA:61:0E:03:00:" ++ fmtDec2 board_id)
  command (text "ip addr add 169.254.10." ++ fmtDec board_id ++ text "/16 broadcast + dev " ++ ethName)
  command (text "ip link set " ++ ethName ++ text " up")
  command (text "ip route add 224.0.0.100/32 dev " ++ ethName)
  return true

/-! ## main -/

/-- `emio.ReadQuadlet(addr, var)`, the return value being dropped. -/
def readTo (addr : BitVec 16) (var : BitVec 32) : InitProg (BitVec 32) := do
  let data ← .perform (InitOp.readQuadlet addr)
  return data.getD var

def cout (items : List Item) : InitProg Unit := .perform (InitOp.cout items)

/-- `hwStr`, up to the NUL in its last place. -/
def hwStr (reg_hw : BitVec 32) : Text :=
  [reg_hw.extractLsb' 24 8, reg_hw.extractLsb' 16 8, reg_hw.extractLsb' 8 8, reg_hw.extractLsb' 0 8]

def boardType (board_mask : BitVec 32) : BoardType :=
  if board_mask = 8 then .BOARD_NONE
  else if board_mask = 4 then .BOARD_QLA
  else if board_mask = 2 then .BOARD_DQLA
  else if board_mask = 1 then .BOARD_DRAC
  else .BOARD_UNKNOWN

/-- The rest of `main`, after the registers were read. -/
def configure (fpga_sn : Text) (reg_hw reg_status : BitVec 32) : InitProg Int := do
  if hwStr reg_hw ≠ text "BCFG" then
    cout [.text (text "fpgav3init: did not detect BCFG firmware, exiting")]
    return -1
  cout [.text (text "Hardware version: "), .text (hwStr reg_hw)]
  cout [.text (text "Status reg: "), .hex reg_status]
  let board_id := ((reg_status &&& 0x0f000000) >>> 24).toNat
  let board_mask := (reg_status &&& 0x00f00000) >>> 20
  let isV30 : Bool := reg_status &&& 0x00080000 ≠ 0
  .onlyIf isV30 (cout [.text (text "FPGA V3.0 detected!")])
  let board_type := boardType board_mask
  cout [.text (text "Board type: "), .text (boardName board_type)]
  cout [.text (text "Board ID: "), .dec board_id]
  let fpga_ver := if isV30 then text "3.0" else text "3.1"
  let _ ← exportFpgaInfo fpga_ver fpga_sn (boardName board_type) board_id
  .onlyIf (firmwareName board_type ≠ []) (do let _ ← programFpga (firmwareName board_type))
  let _ ← .perform (InitOp.programFlash (text "/media/qspi-boot.bin") (text "/dev/mtd0"))
  let _ ← .perform (InitOp.writeQuadlet 12 0x02010000)
  let _ ← setMACandIP (text "eth0") board_id
  let _ ← .perform (InitOp.copyQspiToFpga (text "/dev/mtd4ro") 16)
  return 0

/-- `main`, with what its variables `reg_hw` and `reg_status` hold before they are
read. -/
def main (reg_hw reg_status : BitVec 32) : InitProg Int := do
  let fpga_sn ← .perform InitOp.getFpgaSerialNumber
  .onlyIf (fpga_sn ≠ []) (cout [.text (text "FPGA S/N: "), .text fpga_sn])
  if !(← .perform InitOp.isOK) then return -1
  let reg_hw ← readTo 4 reg_hw
  let reg_status ← readTo 0 reg_status
  configure fpga_sn reg_hw reg_status

end Init

end FpgaV3.Impl
