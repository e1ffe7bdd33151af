import Ps2Host.Controller.Command
import Ps2Host.Exchange.Perform

/-!
# Controller operations

What the controller can be asked, as exchanges with it. They need no lease, and none of them looks
at who holds the controller.

## Main definitions

* `Controller.command`, `Controller.query`, `Controller.order` — a command alone, with a reply, with
  a parameter.
* `Controller.selfTest` — a self-test, which fails with the byte that it gave.
* `Controller.Request` — every operation that transfers bytes, and `Request.exchange`, its exchange.
* `Controller.Probe` — the operations below transfers: one status read, the bare waits, the flush.
-/
namespace Ps2Host.Controller

variable {ε : Type}

def command (c : Command) : Exchange ε Unit := .sendCommand c.code

def query (c : Command) : Exchange ε UInt8 := do
  command c
  .receiveByte

def order (c : Command) (parameter : UInt8) : Exchange ε Unit := do
  command c
  .sendData parameter

def queryRegister {l : Layout} (c : Command) : Exchange ε (Register l) := do
  let raw ← query c
  return .ofBits raw

def sendToMouse (byte : UInt8) : Exchange ε Unit := order .toMouse byte

def configAddress : UInt8 := 0

inductive SelfTest
  | controller
  | keyboardPort
  | mousePort
  deriving DecidableEq, Repr

namespace SelfTest

def command : SelfTest → Command
  | controller => .testController
  | keyboardPort => .testKeyboard
  | mousePort => .testMouse

def passed : SelfTest → UInt8
  | controller => 0x55
  | keyboardPort => 0x00
  | mousePort => 0x00

def complaint : SelfTest → Text
  | controller => .ofString "[PS2] controller self-test failed"
  | keyboardPort => .ofString "[PS2] keyboard port test failed"
  | mousePort => .ofString "[PS2] mouse port test failed"

end SelfTest

/-- Runs a self-test; any byte but the one for success is logged and is an error. -/
def selfTest (test : SelfTest) : Exchange Error Unit := do
  let verdict ← query test.command
  if verdict = test.passed then
    return ()
  else
    .emit (.normal (.hexField test.complaint verdict))
    .fail (.testFailed verdict)

/-- Reads the whole internal memory, in the order of addresses. -/
def dump : Exchange ε (List UInt8) := do
  command .dump
  .receiveBytes ramSize

inductive Answer
  | done
  | byte (byte : UInt8)
  | bytes (bytes : List UInt8)
  | status (status : Register .status)
  | config (config : Register .config)
  | inputPort (port : Register .inputPort)
  | outputPort (port : Register .outputPort)
  | testPort (port : Register .testPort)
  /-- How many bytes were dropped. -/
  | dropped (count : Nat)
  deriving DecidableEq

/-- An operation that transfers bytes to or from the controller. -/
inductive Request
  /-- Receives a byte, whoever sent it. -/
  | receive
  /-- Sends a byte, whoever gets it. -/
  | send (byte : UInt8)
  /-- Sends a byte as a command, whether or not there is such a command. -/
  | sendCommand (code : UInt8)
  | readRam (address : UInt8)
  | writeRam (address byte : UInt8)
  | readConfig
  | writeConfig (config : Register .config)
  | disableKeyboard
  | enableKeyboard
  | disableMouse
  | enableMouse
  | selfTest (test : SelfTest)
  | dump
  | readInputPort
  | inputLowToStatus
  | inputHighToStatus
  | readOutputPort
  | writeOutputPort (port : Register .outputPort)
  | readTestPort
  | fillKeyboardBuffer (byte : UInt8)
  | fillMouseBuffer (byte : UInt8)
  | sendToMouse (byte : UInt8)
  | pulse (mask : UInt8)
  deriving DecidableEq

def Request.exchange : Request → Exchange Error Answer
  | receive => .byte <$> .receiveByte
  | send byte => Exchange.sendData byte *> pure .done
  | sendCommand code => Exchange.sendCommand code *> pure .done
  | readRam address => .byte <$> query (.readRam address)
  | writeRam address byte => order (.writeRam address) byte *> pure .done
  | readConfig => .config <$> queryRegister (.readRam configAddress)
  | writeConfig config => order (.writeRam configAddress) config.bits *> pure .done
  | disableKeyboard => command .disableKeyboard *> pure .done
  | enableKeyboard => command .enableKeyboard *> pure .done
  | disableMouse => command .disableMouse *> pure .done
  | enableMouse => command .enableMouse *> pure .done
  | selfTest test => Controller.selfTest test *> pure .done
  | dump => .bytes <$> Controller.dump
  | readInputPort => .inputPort <$> queryRegister .readInputPort
  | inputLowToStatus => command .inputLowToStatus *> pure .done
  | inputHighToStatus => command .inputHighToStatus *> pure .done
  | readOutputPort => .outputPort <$> queryRegister .readOutputPort
  | writeOutputPort port => order .writeOutputPort port.bits *> pure .done
  | readTestPort => .testPort <$> queryRegister .readTestPort
  | fillKeyboardBuffer byte => order .fillKeyboardBuffer byte *> pure .done
  | fillMouseBuffer byte => order .fillMouseBuffer byte *> pure .done
  | sendToMouse byte => Controller.sendToMouse byte *> pure .done
  | pulse mask => command (.pulse mask) *> pure .done

/-- An operation below whole transfers. -/
inductive Probe
  /-- One status read, without a wait. -/
  | status
  /-- The wait before a read, alone. -/
  | awaitByte
  /-- The wait before a write, alone. -/
  | awaitRoom
  | flush
  deriving DecidableEq, Repr

namespace Probe

variable {σ : Type} [Chip σ]

/-- The debug notice of a flush that dropped something. -/
def flushed : Notice := .debug (.text (.ofString "[PS2] flushed stale output"))

def reportFlush (count : Nat) (chip : σ) : Run σ (Except Error Answer) :=
  if count = 0 then .pure (.ok (.dropped 0)) chip
  else (Run.note flushed chip).andThen fun _ chip => .pure (.ok (.dropped count)) chip

def outcome : Except Stall Unit → Except Error Answer
  | .error stall => .error (.stalled stall)
  | .ok _ => .ok .done

def perform (patience : Patience) : Probe → σ → Run σ (Except Error Answer)
  | status, chip => (Run.status chip).map fun status => .ok (.status status)
  | awaitByte, chip => (patience.awaitByte chip).map outcome
  | awaitRoom, chip => (patience.awaitRoom chip).map outcome
  | flush, chip => (Ps2Host.flush patience.limit.toNat chip).andThen reportFlush

end Probe

end Ps2Host.Controller
