/-!
# What can go wrong at the controller

A transfer with the chip can stall, a self-test can fail, and a device operation can find the
controller taken. A result is reported as a flat record: what kind of error it is, if any, and the
byte that it is about. What does not apply is zero.

## Main definitions

* `Stall` — how a wait for the chip can fail.
* `Controller.Error` — why a controller operation can fail.
* `Controller.Fault ε` — the errors `ε` have a controller error as a cause among them.
* `Controller.Report` — the record, with its message.
* `Controller.Error.report` — the report of an error; a success has the report `Report.ok`.
-/
namespace Ps2Host

inductive Stall
  /-- The chip was not ready within the limit. -/
  | timeout
  /-- The chip was not ready at once, and the host does not wait. -/
  | wouldBlock
  deriving DecidableEq, Repr

namespace Controller

inductive Error
  /-- A wait for the chip failed. -/
  | stalled (stall : Stall)
  /-- A self-test gave this byte instead of the one for success. -/
  | testFailed (verdict : UInt8)
  /-- Someone else holds the controller. -/
  | busy
  deriving DecidableEq, Repr

/-- Errors that can have a controller error as their cause. -/
class Fault (ε : Type) where
  /-- The error with this cause. -/
  ofController : Error → ε

instance : Fault Error := ⟨id⟩

/-! ### Reports -/

namespace Report

inductive Kind
  | none
  | timeout
  | wouldBlock
  | testFailed
  | busy
  deriving DecidableEq, Repr

namespace Kind

/-- Every kind, by number. -/
def all : List Kind := [.none, .timeout, .wouldBlock, .testFailed, .busy]

def ofStall : Stall → Kind
  | .timeout => .timeout
  | .wouldBlock => .wouldBlock

def message : Kind → String
  | none => "ok"
  | timeout => "timeout"
  | wouldBlock => "would block"
  | testFailed => "test failed"
  | busy => "busy"

end Kind

end Report

/-- A result as a flat record. -/
structure Report where
  kind : Report.Kind := .none
  response : UInt8 := 0
  deriving DecidableEq, Repr

namespace Report

def ok : Report := {}

def isOk (report : Report) : Bool := report.kind == .none

def message (report : Report) : String := report.kind.message

/-- The text of the report that has the kind of a number and nothing else. -/
def messageOf (number : Nat) : String :=
  match Kind.all[number]? with
  | some kind => message { kind }
  | .none => "unknown"

end Report

def Error.report : Error → Report
  | stalled stall => { kind := .ofStall stall }
  | testFailed verdict => ⟨.testFailed, verdict⟩
  | busy => { kind := .busy }

end Controller

end Ps2Host
