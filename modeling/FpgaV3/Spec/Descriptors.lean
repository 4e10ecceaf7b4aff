import FpgaV3.Framework.Handles
import FpgaV3.Impl.Init

/-!
# File descriptors and buffers

The file descriptors are handles: the programs may use and close a file only while it
is open, and have closed it when they return. A file is known by its device or its path.

The bytes that are read, or written, must be in a buffer that was allocated for as many
(`InBuffers`).
-/

namespace FpgaV3.Spec

open FpgaV3.Impl

/-- The files of the flash functions. -/
def qspiFiles : Handles QspiOp QspiOp.Ans Fd where
  acquires
    | .openFd fd => some fd
    | _ => none
  acquired
    | .openFd _, ok => ok
    | _, _ => false
  releases
    | .closeFd fd => some fd
    | _ => none
  uses
    | .memGetInfo | .memUnlock _ _ | .memErase _ _ | .write _ | .lseek _ => [.flash]
    | .fstat => [.file]
    | .read fd _ => [fd]
    | .openFd _ | .closeFd _ | .malloc _ => []

/-- The files of `fpgav3init`. -/
def initFiles : Handles InitOp InitOp.Ans Text where
  acquires
    | .openRead path | .openTrunc path | .openWrite path | .fopen path => some path
    | _ => none
  acquired
    | .openRead _, ok | .openTrunc _, ok | .openWrite _, ok | .fopen _, ok => ok
    | _, _ => false
  releases
    | .close path | .fclose path => some path
    | _ => none
  uses
    | .fstat path | .write path _ | .fprintf path _ => [path]
    | .sendfile dest src _ => [dest, src]
    | _ => []

/-- The sizes of the buffers that were allocated: `fileBuf` and `devBuf`. -/
def allocate (sizes : List Nat) : QspiEvent → List Nat
  | ⟨.malloc size, ok⟩ => if ok then sizes ++ [size] else sizes
  | _ => sizes

def buffers : World QspiOp QspiOp.Ans (List Nat) := World.obs (fun _ _ => True) allocate

/-- Both buffers are there, and what is read or written fits. -/
def InBuffers (sizes : List Nat) : QspiOp → Prop
  | .read _ n => sizes.length = 2 ∧ ∀ size ∈ sizes, n ≤ size
  | .write data => sizes.length = 2 ∧ ∀ size ∈ sizes, data.length ≤ size
  | _ => True

end FpgaV3.Spec
