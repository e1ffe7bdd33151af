import Ps2Host.Log.Line

/-!
# Log messages and the logger

What can be logged, the line each message is written as, and the logger that delivers notices to its
sink as lines. Without a sink everything is dropped, and debug notices are dropped unless debugging
is on.

## Main definitions

* `Message` — a text, a key with a value or with a byte, or the verdict of a check.
* `Message.line` — the line that a message is written as.
* `Notice` — a message with its level; debug notices are delivered only on request.
* `Logger.deliver` — the lines of notices that reach the sink.
* `Logger.Command` — a notice to raise or a change of the logger; `Logger.obey` makes the change.
-/
namespace Ps2Host

inductive Message
  | text (text : Text)
  | field (key value : Text)
  | hexField (key : Text) (value : UInt8)
  | verdict (text : Text) (passed : Bool)
  deriving DecidableEq, Repr

namespace Message

/-- The column at which the mark of a verdict stands, unless its text is too long. -/
def verdictColumn : Nat := 70

def mark (passed : Bool) : Text := Text.ofString (if passed then "[ OK ]" else "[FAIL]")

def separator : Text := Text.ofString ": "

def hexMark : Text := Text.ofString "0x"

def line : Message → Line
  | text t => Line.empty.append t
  | field key value => ((Line.empty.append key).append separator).append value
  | hexField key value =>
    (((Line.empty.append key).append separator).append hexMark).append (Text.hex value)
  | verdict t passed => ((Line.empty.append t).spaceTo verdictColumn).append (mark passed)

end Message

inductive Level
  | normal
  | debug
  deriving DecidableEq, Repr

structure Notice where
  level : Level
  message : Message
  deriving DecidableEq, Repr

namespace Notice

/-- A notice that is delivered only when debugging. -/
def debug (message : Message) : Notice := ⟨.debug, message⟩

/-- A notice that is always delivered. -/
def normal (message : Message) : Notice := ⟨.normal, message⟩

end Notice

/-- The logger's settings; at the start it has no sink and does not debug. -/
structure Logger where
  /-- Debug notices are delivered too. -/
  debug : Bool := false
  /-- There is somewhere to deliver to. -/
  sink : Bool := false
  deriving DecidableEq, Repr

namespace Logger

def passes (logger : Logger) : Level → Bool
  | .normal => logger.sink
  | .debug => logger.sink && logger.debug

/-- The lines that reach the sink, in order. -/
def deliver (logger : Logger) (notices : List Notice) : List Text :=
  (notices.filter fun notice => logger.passes notice.level).map fun notice =>
    notice.message.line.bytes

inductive Command
  | emit (notice : Notice)
  | setDebug (on : Bool)
  | setSink (installed : Bool)
  deriving DecidableEq, Repr

def Command.notices : Command → List Notice
  | .emit notice => [notice]
  | .setDebug _ => []
  | .setSink _ => []

def obey (logger : Logger) : Command → Logger
  | .emit _ => logger
  | .setDebug on => { logger with debug := on }
  | .setSink installed => { logger with sink := installed }

@[simp] theorem deliver_nil (logger : Logger) : logger.deliver [] = [] := rfl

theorem deliver_append (logger : Logger) (s t : List Notice) :
    logger.deliver (s ++ t) = logger.deliver s ++ logger.deliver t := by
  simp [deliver]

end Logger

end Ps2Host
