import FpgaV3.Framework.Prog
import FpgaV3.Framework.Word

/-!
# The base class of the Linux drivers

`EMIO_Interface` (`fpgav3_emio.h`, `fpgav3_emio.cpp`): the fields its methods
read, the clock, and the four requests that both derived classes serve. What
the methods print is left out, and with it the fields only the messages use
(`isVerbose`, `startTime`, `endTime`, `timingOverhead`); the clock readings
taken for the timing messages are kept.
-/

namespace FpgaV3.Impl

/-- `fpgav3_time_t`, a reading of `CLOCK_MONOTONIC`. -/
structure Timespec where
  tv_sec : Int
  tv_nsec : Int
deriving DecidableEq

/-- `TimeDiff_us`, in nanoseconds (the source computes it in microseconds, as
a `double`). -/
def timeDiff (startTime endTime : Timespec) : Int :=
  (endTime.tv_sec - startTime.tv_sec) * 1000000000 + (endTime.tv_nsec - startTime.tv_nsec)

/-- The fields of an `EMIO_Interface` object; `timeout` is `timeout_us` in
nanoseconds. -/
structure Interface where
  isInput : Bool := true
  useEvents : Bool := false
  doTiming : Nat := 0
  version : BitVec 32 := 0
  timeout : Int := 250000
deriving DecidableEq

/-- The number of quadlets of a block, `(nBytes+3)/4` in `unsigned int`. -/
def nQuads (nBytes : BitVec 32) : Nat := ((nBytes + 3) / 4).toNat

/-- A call of one of the virtual methods. The block data are in the caller's
memory. -/
inductive Request where
  | readQuadlet (addr : BitVec 16)
  | writeQuadlet (addr : BitVec 16) (data : BitVec 32)
  | readBlock (addr : BitVec 16) (nBytes : BitVec 32)
  | writeBlock (addr : BitVec 16) (nBytes : BitVec 32)
deriving DecidableEq

/-- Whether the request reads registers. -/
def Request.isRead : Request → Bool
  | .readQuadlet _ | .readBlock _ _ => true
  | .writeQuadlet _ _ | .writeBlock _ _ => false

/-- Whether the request is a block transfer. -/
def Request.isBlock : Request → Bool
  | .readBlock _ _ | .writeBlock _ _ => true
  | .readQuadlet _ | .writeQuadlet _ _ => false

/-- Whether the request is a `WriteBlock`. -/
def Request.isWriteBlock (req : Request) : Bool := req.isBlock && !req.isRead

/-- The number of quadlets the driver transfers for the request. -/
def Request.quads : Request → Nat
  | .readQuadlet _ | .writeQuadlet _ _ => 1
  | .readBlock _ nBytes | .writeBlock _ nBytes => nQuads nBytes

end FpgaV3.Impl
