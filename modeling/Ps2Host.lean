import Ps2Host.Register.Flags
import Ps2Host.Log.Logger
import Ps2Host.Controller.Request
import Ps2Host.Controller.Lease
import Ps2Host.Keyboard.Request
import Ps2Host.Mouse.Request
import Ps2Host.Chip.Scripted
import Ps2Host.Chip.PortSpace
import Ps2Host.Keyboard.Report
import Ps2Host.Mouse.Report
import Ps2Host.Session.Basic
import Ps2Host.Session.Bench
import Ps2Host.Proofs.Stall
import Ps2Host.Proofs.Lease
import Ps2Host.Proofs.Prompt
import Ps2Host.Proofs.Timing
import Ps2Host.Proofs.Replay
import Ps2Host.Proofs.Patience
import Ps2Host.Proofs.Pending
import Ps2Host.Proofs.Framing
import Ps2Host.Proofs.HalfOpen
import Ps2Host.Proofs.Independence
import Ps2Host.Proofs.Acknowledgement
import Ps2Host.Proofs.Truncation
import Ps2Host.Proofs.Memory
import Ps2Host.Proofs.Ensures
import Ps2Host.Proofs.Failures
import Ps2Host.Proofs.WellFormed
import Ps2Host.Proofs.Accounting
import Ps2Host.Proofs.Parameters
import Ps2Host.Proofs.Handshake
import Ps2Host.Proofs.Reset
import Ps2Host.Proofs.Identification
import Ps2Host.Proofs.Delivery
import Ps2Host.Proofs.Movement
import Ps2Host.Proofs.Settings
import Ps2Host.Proofs.Supply
import Ps2Host.Proofs.Flush
import Ps2Host.Proofs.Payload
import Ps2Host.Proofs.Retry
import Ps2Host.Proofs.Dump
import Ps2Host.Proofs.Bits
import Ps2Host.Proofs.Rounding
import Ps2Host.Proofs.Levels
