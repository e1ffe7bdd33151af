import Ps2Host.Controller.Lease
import Ps2Host.Controller.Request
import Ps2Host.Device.Codes
import Ps2Host.Mouse.Report
import Ps2Host.Mouse.Model

/-!
# Mouse operations

What the mouse can be asked. Every byte for the mouse, command or parameter, is announced to the
controller by itself; without that the keyboard would get it. An operation first looks at its
argument, and then holds the controller while it talks to the mouse.

## Main definitions

* `Mouse.command`, `Mouse.order` — an acknowledged command, alone and with a parameter.
* `Mouse.status`, `Mouse.readPacket`, `Mouse.reset`, … — the operations with replies of their own.
* `Mouse.Request` — every operation; `Request.plan` is its exchange or the refusal of its argument,
  and `Request.perform` carries it out.
-/
namespace Ps2Host.Mouse

/-- Receives the reply to a byte, which has to be an acknowledgement; anything else is logged. -/
def acknowledged : Exchange Error Unit := do
  let reply ← .receiveByte
  if reply = Reply.acknowledge then
    return ()
  else if reply = Reply.resend then
    .emit (.debug (.text (.ofString "[MOUSE] device asked for resend")))
    .fail (.resend reply)
  else
    .emit (.debug (.hexField (.ofString "[MOUSE] unexpected reply") reply))
    .fail (.invalidResponse reply)

def command (c : Command) : Exchange Error Unit := do
  Controller.sendToMouse c.code
  acknowledged

def order (c : Command) (parameter : UInt8) : Exchange Error Unit := do
  command c
  Controller.sendToMouse parameter
  acknowledged

structure Status where
  flags : Register .mouseStatus
  /-- In counts per millimetre. -/
  resolution : UInt8
  /-- In reports a second. -/
  sampleRate : UInt8
  deriving DecidableEq

/-- The status that three bytes report. The resolution is looked at before the sample rate. -/
def Status.ofBytes (flags index rate : UInt8) : Except Error Status :=
  match resolution? index with
  | none => .error (.invalidResolution index)
  | some resolution =>
    if isSampleRate rate then .ok ⟨.ofBits flags, resolution, rate⟩
    else .error (.invalidSampleRate rate)

/-- Asks for the status. All of it is received before any of it is looked at. -/
def status : Exchange Error Status := do
  command .requestStatus
  let flags ← .receiveByte
  let index ← .receiveByte
  let rate ← .receiveByte
  match Status.ofBytes flags index rate with
  | .error e => .fail e
  | .ok status => return status

/-- Receives a movement that the mouse reports on its own. -/
def readPacket : Exchange Error Packet := do
  let flags ← .receiveByte
  let x ← .receiveByte
  let y ← .receiveByte
  return .ofBytes flags x y

def requestPacket : Exchange Error Packet := do
  command .requestPacket
  readPacket

def identify : Exchange Error Model := do
  command .requestId
  let id ← .receiveByte
  let model := Model.ofId id
  .emit (.debug (.field (.ofString "[MOUSE] type") (.ofString model.kind.name)))
  return model

/-- Asks for the last packet again, which is not acknowledged. Gives its first byte. -/
def resend : Exchange Error UInt8 := do
  Controller.sendToMouse Command.resend.code
  let reply ← .receiveByte
  if reply = Reply.resend then
    .fail (.resend reply)
  else
    return reply

/-- What a verdict of the self-test means; none is a pass. -/
def objection? (verdict : UInt8) : Option Error :=
  if verdict = Reply.selfTestPassed then none
  else if verdict = Reply.selfTestFailed then some (.selfTestFailed verdict)
  else if verdict = Reply.resend then some (.resend verdict)
  else some (.invalidResponse verdict)

/-- Resets the mouse and waits for its self-test. The mouse sends its identification after the
verdict, whatever that was, so it is received before the verdict counts. -/
def reset : Exchange Error Unit := do
  command .reset
  let verdict ← .receiveByte
  if verdict = Reply.selfTestFailed then
    .emit (.normal (.verdict (.ofString "[MOUSE] mouse self-test") false))
  let _ ← .receiveByte
  match objection? verdict with
  | none => return ()
  | some e => .fail e

inductive Answer
  | done
  | byte (byte : UInt8)
  | model (model : Model)
  | status (status : Status)
  | packet (packet : Packet)
  deriving DecidableEq

inductive Request
  | scalingOneToOne
  | scalingTwoToOne
  | setResolution (countsPerMm : UInt8)
  | setSampleRate (rate : UInt8)
  | status
  | streamMode
  | remoteMode
  | wrapMode
  | leaveWrapMode
  | requestPacket
  | readPacket
  | identify
  | enableReporting
  | disableReporting
  | setDefaults
  | resend
  | reset
  deriving DecidableEq, Repr

namespace Request

def plan : Request → Except Error (Exchange Error Answer)
  | scalingOneToOne => .ok (command .scalingOneToOne *> pure .done)
  | scalingTwoToOne => .ok (command .scalingTwoToOne *> pure .done)
  | setResolution countsPerMm =>
    match resolutionIndex? countsPerMm with
    | none => .error (.invalidResolution countsPerMm)
    | some index => .ok (order .setResolution index *> pure .done)
  | setSampleRate rate =>
    if isSampleRate rate then .ok (order .setSampleRate rate *> pure .done)
    else .error (.invalidSampleRate rate)
  | status => .ok (.status <$> Mouse.status)
  | streamMode => .ok (command .streamMode *> pure .done)
  | remoteMode => .ok (command .remoteMode *> pure .done)
  | wrapMode => .ok (command .wrapMode *> pure .done)
  | leaveWrapMode => .ok (command .leaveWrapMode *> pure .done)
  | requestPacket => .ok (.packet <$> Mouse.requestPacket)
  | readPacket => .ok (.packet <$> Mouse.readPacket)
  | identify => .ok (.model <$> Mouse.identify)
  | enableReporting => .ok (command .enableReporting *> pure .done)
  | disableReporting => .ok (command .disableReporting *> pure .done)
  | setDefaults => .ok (command .setDefaults *> pure .done)
  | resend => .ok (.byte <$> Mouse.resend)
  | reset => .ok (Mouse.reset *> pure .done)

/-- Carries an operation out: a refused argument ends it at once, and all else happens while the
controller is held. -/
def perform {σ : Type} [Chip σ] (request : Request) (c : Controller) (chip : σ) :
    Run σ (Except Error Answer) × Controller :=
  c.carryOut request.plan chip

end Request

end Ps2Host.Mouse
