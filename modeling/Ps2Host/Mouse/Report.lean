import Ps2Host.Controller.Report
import Ps2Host.Device.Codes

/-!
# What can go wrong at the mouse

A mouse operation fails because its argument is refused before anything is sent, because of a reply,
or because of the controller. Each error carries the byte that it is about. A result is reported as
a flat record: what kind of error it is, if any, with the byte or the report on the controller that
it is about. What does not apply is zero, or a success.

## Main definitions

* `Mouse.Error` — why a mouse operation fails.
* `Mouse.Report` — the record, with its message.
* `Mouse.Error.report` — the report of an error; a success has the report `Report.ok`.
-/
namespace Ps2Host.Mouse

inductive Error
  | resend (reply : UInt8)
  | selfTestFailed (reply : UInt8)
  /-- The reply means nothing here. -/
  | invalidResponse (reply : UInt8)
  /-- No mouse has this resolution, or there is none of this number. -/
  | invalidResolution (value : UInt8)
  | invalidSampleRate (rate : UInt8)
  | controller (cause : Controller.Error)
  deriving DecidableEq, Repr

instance : Controller.Fault Error := ⟨.controller⟩

/-! ### Reports -/

namespace Report

inductive Kind
  | none
  | resend
  | selfTestFailed
  | invalidResponse
  | invalidResolution
  | invalidSampleRate
  | controller
  deriving DecidableEq, Repr

def Kind.all : List Kind :=
  [.none, .resend, .selfTestFailed, .invalidResponse, .invalidResolution, .invalidSampleRate,
    .controller]

end Report

structure Report where
  kind : Report.Kind := .none
  response : UInt8 := 0
  controller : Controller.Report := {}
  deriving DecidableEq, Repr

namespace Report

def ok : Report := {}

def of (kind : Kind) (response : UInt8) : Report := { kind, response }

/-- The report whose cause is the controller; without an error there, a success. -/
def ofController (cause : Controller.Report) : Report :=
  if cause.isOk then ok else { kind := .controller, controller := cause }

def isOk (report : Report) : Bool := report.kind == .none

def message (report : Report) : String :=
  match report.kind with
  | .none => "ok"
  | .resend => "resend"
  | .selfTestFailed => "self-test failed"
  | .invalidResponse => "invalid response"
  | .invalidResolution => "invalid resolution"
  | .invalidSampleRate => "invalid sample rate"
  | .controller => report.controller.message

def messageOf (number : Nat) : String :=
  match Kind.all[number]? with
  | some kind => message { kind }
  | .none => "unknown"

end Report

def Error.report : Error → Report
  | resend reply => .of .resend reply
  | selfTestFailed reply => .of .selfTestFailed reply
  | invalidResponse reply => .of .invalidResponse reply
  | invalidResolution value => .of .invalidResolution value
  | invalidSampleRate rate => .of .invalidSampleRate rate
  | controller cause => .ofController cause.report

end Ps2Host.Mouse
