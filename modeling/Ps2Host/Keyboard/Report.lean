import Ps2Host.Binary32
import Ps2Host.Controller.Report
import Ps2Host.Device.Codes

/-!
# What can go wrong at the keyboard

A keyboard operation fails because its argument is refused before anything is sent, because of a
reply, or because of the controller. Each error carries the byte or the value that it is about. A
result is reported as a flat record: what kind of error it is, if any, with the byte, the value or
the report on the controller that it is about. What does not apply is zero, or a success.

## Main definitions

* `Keyboard.Error` — why a keyboard operation fails.
* `Keyboard.Report` — the record, with its message.
* `Keyboard.Error.report` — the report of an error; a success has the report `Report.ok`.
-/
namespace Ps2Host.Keyboard

inductive Error
  | resend (reply : UInt8)
  | selfTestFailed (reply : UInt8)
  /-- The keyboard lost keys or could not tell which key was pressed. -/
  | keyDetection (reply : UInt8)
  /-- The reply means nothing here. -/
  | invalidResponse (reply : UInt8)
  /-- The repeat rate is outside the range of the keyboard. -/
  | invalidTypematicRate (rate : Binary32)
  /-- The repeat delay, in milliseconds, is none of those that the keyboard has. -/
  | invalidTypematicDelay (delay : UInt16)
  | invalidScancodeSet (set : UInt8)
  | controller (cause : Controller.Error)
  deriving DecidableEq, Repr

instance : Controller.Fault Error := ⟨.controller⟩

/-! ### Reports -/

namespace Report

inductive Kind
  | none
  | resend
  | selfTestFailed
  | keyDetectionError
  | invalidResponse
  | invalidTypematicRate
  | invalidTypematicDelay
  | invalidScancodeSet
  | controller
  deriving DecidableEq, Repr

def Kind.all : List Kind :=
  [.none, .resend, .selfTestFailed, .keyDetectionError, .invalidResponse, .invalidTypematicRate,
    .invalidTypematicDelay, .invalidScancodeSet, .controller]

end Report

structure Report where
  kind : Report.Kind := .none
  response : UInt8 := 0
  rate : Binary32 := ⟨0⟩
  delay : UInt16 := 0
  controller : Controller.Report := {}
  deriving DecidableEq, Repr

namespace Report

def ok : Report := {}

def of (kind : Kind) (response : UInt8) : Report := { kind, response }

/-- The report whose cause is the controller; without an error there, a success. -/
def ofController (cause : Controller.Report) : Report :=
  if cause.isOk then ok else { kind := .controller, controller := cause }

def isOk (report : Report) : Bool := report.kind == .none

/-- The keyboard lost keys because its buffer was full. -/
def isOverrun (report : Report) : Bool :=
  report.kind == .keyDetectionError && report.response == Reply.overrun

def message (report : Report) : String :=
  match report.kind with
  | .none => "ok"
  | .resend => "resend"
  | .selfTestFailed => "self-test failed"
  | .keyDetectionError => "key detection error"
  | .invalidResponse => "invalid response"
  | .invalidTypematicRate => "invalid typematic rate"
  | .invalidTypematicDelay => "invalid typematic delay"
  | .invalidScancodeSet => "invalid scancode set"
  | .controller => report.controller.message

def messageOf (number : Nat) : String :=
  match Kind.all[number]? with
  | some kind => message { kind }
  | .none => "unknown"

end Report

def Error.report : Error → Report
  | resend reply => .of .resend reply
  | selfTestFailed reply => .of .selfTestFailed reply
  | keyDetection reply => .of .keyDetectionError reply
  | invalidResponse reply => .of .invalidResponse reply
  | invalidTypematicRate rate => { kind := .invalidTypematicRate, rate }
  | invalidTypematicDelay delay => { kind := .invalidTypematicDelay, delay }
  | invalidScancodeSet set => .of .invalidScancodeSet set
  | controller cause => .ofController cause.report

end Ps2Host.Keyboard
