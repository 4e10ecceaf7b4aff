import FpgaV3.Framework.Bank
import FpgaV3.Framework.Client
import FpgaV3.Framework.Env
import FpgaV3.Framework.Linear
import FpgaV3.Framework.Session
import FpgaV3.Framework.Stores
import FpgaV3.Framework.Words
import FpgaV3.Impl.Gpiod
import FpgaV3.Impl.Memtest
import FpgaV3.Impl.Mmap
import FpgaV3.Impl.Prom
import FpgaV3.Impl.Standalone
import FpgaV3.Spec.Client
import FpgaV3.Spec.Console
import FpgaV3.Spec.Copied
import FpgaV3.Spec.Device
import FpgaV3.Spec.Drive
import FpgaV3.Spec.DriveGpio
import FpgaV3.Spec.Emio
import FpgaV3.Spec.Events
import FpgaV3.Spec.Exchange
import FpgaV3.Spec.Handshake
import FpgaV3.Spec.Healthy
import FpgaV3.Spec.Memtest
import FpgaV3.Spec.Release
import FpgaV3.Spec.Reports
import FpgaV3.Spec.Transcript
import FpgaV3.Proof.Agree
import FpgaV3.Proof.Mmap.Ack
import FpgaV3.Proof.Mmap.Calls
import FpgaV3.Proof.Blocks
import FpgaV3.Proof.Console.Input
import FpgaV3.Proof.Exchange
import FpgaV3.Proof.Framing
import FpgaV3.Proof.Gpiod.Bits
import FpgaV3.Proof.Gpiod.Calls
import FpgaV3.Proof.Gpiod.Events
import FpgaV3.Proof.Gpiod.Frames
import FpgaV3.Proof.Gpiod.Idle
import FpgaV3.Proof.Gpiod.Reports
import FpgaV3.Proof.Gpiod.Present
import FpgaV3.Proof.Quadlets
import FpgaV3.Proof.Idle
import FpgaV3.Proof.Prom
import FpgaV3.Proof.Protocol
import FpgaV3.Proof.Registers
import FpgaV3.Proof.Standalone
import FpgaV3.Proof.Mmap.Device
import FpgaV3.Proof.Mmap.Lines
import FpgaV3.Proof.Mmap.Refine
import FpgaV3.Proof.Mmap.Release
import FpgaV3.Proof.Mmap.Requests
import FpgaV3.Proof.Mmap.Wait
import FpgaV3.Proof.Console.Commands
import FpgaV3.Proof.Console.Lines
import FpgaV3.Proof.Qspi.Program
import FpgaV3.Proof.Qspi.Serial
import FpgaV3.Proof.Block.Main
import FpgaV3.Proof.Board.Switch
import FpgaV3.Proof.Init.Export
import FpgaV3.Proof.Init.Firmware
import FpgaV3.Proof.Boot
import FpgaV3.Proof.Reads
import FpgaV3.Proof.Mmap.Client
import FpgaV3.Proof.Standalone.Client
import FpgaV3.Proof.Gpiod.Client
import FpgaV3.Proof.Memtest.Counts
import FpgaV3.Proof.Memtest.Faults
import FpgaV3.Proof.Memtest.Lfsr
import FpgaV3.Proof.Memtest.Remote
import FpgaV3.Framework.Guard
import FpgaV3.Framework.Handles
import FpgaV3.Framework.Interrupt
import FpgaV3.Proof.Gpiod.Requested
import FpgaV3.Proof.Init.Descriptors
import FpgaV3.Proof.Init.Startup
import FpgaV3.Proof.Mmap.Mapped
import FpgaV3.Proof.Qspi.Descriptors
import FpgaV3.Proof.Qspi.PowerLoss
