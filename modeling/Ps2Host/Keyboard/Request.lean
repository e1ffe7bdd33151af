import Ps2Host.Controller.Lease
import Ps2Host.Device.Codes
import Ps2Host.Keyboard.Model

/-!
# Keyboard operations

What the keyboard can be asked. An operation first looks at its argument, and then holds the
controller while it talks to the keyboard. Most commands, and their parameters, are acknowledged.

## Main definitions

* `Keyboard.command`, `Keyboard.order` — an acknowledged command, alone and with a parameter.
* `Keyboard.echo`, `Keyboard.identify`, `Keyboard.reset`, … — the operations with replies of their
  own.
* `Keyboard.Request` — every operation; `Request.plan` is its exchange or the refusal of its
  argument, and `Request.perform` carries it out.
-/
namespace Ps2Host.Keyboard

/-- Receives the reply to a byte and logs what is unusual about it. Gives the error that the reply
means, or none if it is an acknowledgement. -/
def handshake : Exchange Error (Option Error) := do
  let reply ← .receiveByte
  if reply = Reply.acknowledge then
    return none
  else if reply = Reply.resend then
    .emit (.debug (.text (.ofString "[KBD] device asked for resend")))
    return some (.resend reply)
  else if reply = Reply.overrun ∨ reply = Reply.keyDetectionError then
    return some (.keyDetection reply)
  else
    .emit (.debug (.hexField (.ofString "[KBD] unexpected reply") reply))
    return some (.invalidResponse reply)

def acknowledged : Exchange Error Unit := do
  match ← handshake with
  | none => return ()
  | some e => .fail e

def command (c : Command) : Exchange Error Unit := do
  .sendData c.code
  acknowledged

def order (c : Command) (parameter : UInt8) : Exchange Error Unit := do
  command c
  .sendData parameter
  acknowledged

/-- Asks for an echo, which is not acknowledged: the reply is the echo itself. -/
def echo : Exchange Error Unit := do
  .sendData Command.echo.code
  let reply ← .receiveByte
  if reply = Reply.echo then
    return ()
  else if reply = Reply.resend then
    .fail (.resend reply)
  else
    .fail (.invalidResponse reply)

/-- The parameter that asks for the scan code set instead of choosing one. -/
def scancodeSetQuery : UInt8 := 0

def scancodeSet : Exchange Error UInt8 := do
  order .scancodeSet scancodeSetQuery
  .receiveByte

def found (model : Model) : Exchange Error Model := do
  .emit (.debug (.field (.ofString "[KBD] type") (.ofString model.kind.name)))
  return model

/-- Receives the two bytes of an identification. A keyboard that sends none is an old one whose
replies are translated. -/
def receiveModel : Exchange Error Model := do
  match ← .listenForByte with
  | none => found ⟨.atTranslated, 0, 0⟩
  | some first =>
    let second ← .receiveByte
    found (.ofBytes first second)

/-- Asks the keyboard what it is. The oldest kind never takes the question: it wants it again. -/
def identify : Exchange Error Model := do
  .sendData Command.identify.code
  match ← handshake with
  | none => receiveModel
  | some (.resend _) => found ⟨.xt, 0, 0⟩
  | some e => .fail e

/-- Asks for the last byte again, which is not acknowledged. -/
def resend : Exchange Error UInt8 := do
  .sendData Command.resend.code
  let reply ← .receiveByte
  if reply = Reply.resend then
    .fail (.resend reply)
  else
    return reply

/-- What a verdict of the self-test means; a failure is logged. -/
def judge (verdict : UInt8) : Exchange Error Unit :=
  if verdict = Reply.selfTestPassed then
    return ()
  else if verdict = Reply.selfTestFailed then do
    .emit (.normal (.verdict (.ofString "[KBD] keyboard self-test") false))
    .fail (.selfTestFailed verdict)
  else if verdict = Reply.resend then
    .fail (.resend verdict)
  else
    .fail (.invalidResponse verdict)

def reset : Exchange Error Unit := do
  command .reset
  let verdict ← .receiveByte
  judge verdict

inductive Answer
  | done
  | byte (byte : UInt8)
  | model (model : Model)
  deriving DecidableEq, Repr

inductive Request
  | setLeds (leds : Register .leds)
  | echo
  | scancodeSet
  | setScancodeSet (set : UInt8)
  | identify
  | setTypematic (rate : Binary32) (delay : UInt16)
  | enableScanning
  | disableScanning
  | setDefaults
  | allTypematic
  | allMakeBreak
  | allMakeOnly
  | allTypematicMakeBreak
  | keyTypematic (scancode : UInt8)
  | keyMakeBreak (scancode : UInt8)
  | keyMakeOnly (scancode : UInt8)
  | resend
  | reset
  deriving DecidableEq

namespace Request

def plan : Request → Except Error (Exchange Error Answer)
  | setLeds leds => .ok (order .setLeds leds.bits *> pure .done)
  | echo => .ok (Keyboard.echo *> pure .done)
  | scancodeSet => .ok (.byte <$> Keyboard.scancodeSet)
  | setScancodeSet set =>
    if 1 ≤ set ∧ set ≤ 3 then .ok (order .scancodeSet set *> pure .done)
    else .error (.invalidScancodeSet set)
  | identify => .ok (.model <$> Keyboard.identify)
  | setTypematic rate delay =>
    (Typematic.encode rate delay).map fun encoded => order .setTypematic encoded *> pure .done
  | enableScanning => .ok (command .enableScanning *> pure .done)
  | disableScanning => .ok (command .disableScanning *> pure .done)
  | setDefaults => .ok (command .setDefaults *> pure .done)
  | allTypematic => .ok (command .allTypematic *> pure .done)
  | allMakeBreak => .ok (command .allMakeBreak *> pure .done)
  | allMakeOnly => .ok (command .allMakeOnly *> pure .done)
  | allTypematicMakeBreak => .ok (command .allTypematicMakeBreak *> pure .done)
  | keyTypematic scancode => .ok (order .keyTypematic scancode *> pure .done)
  | keyMakeBreak scancode => .ok (order .keyMakeBreak scancode *> pure .done)
  | keyMakeOnly scancode => .ok (order .keyMakeOnly scancode *> pure .done)
  | resend => .ok (.byte <$> Keyboard.resend)
  | reset => .ok (Keyboard.reset *> pure .done)

/-- Carries an operation out: a refused argument ends it at once, and all else happens while the
controller is held. -/
def perform {σ : Type} [Chip σ] (request : Request) (c : Controller) (chip : σ) :
    Run σ (Except Error Answer) × Controller :=
  c.carryOut request.plan chip

end Request

end Ps2Host.Keyboard
