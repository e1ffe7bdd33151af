import Ps2Host.Proofs.Bounds
import Ps2Host.Proofs.Pending

/-!
# What is sent in one piece

What the host sends without receiving in between is a frame: a data byte, a command, or a command
and at once its parameter. The keyboard is sent single data bytes and the mouse single orders; only
a raw command is not followed by the parameter that it may call for.

## Main definitions

* `Frame`, `Frame.ForKeyboard`, `Frame.ForMouse` — a frame, and those for a device.
* `Exchange.Framed` — an exchange that sends frames of some sort and nothing else.
* `Turn.Framed` — the turns that it can take, with at most the last frame cut off.

## Main results

* `Exchange.Framed.of_course` — every course of a framed exchange is framed.
* `Keyboard.Request.framed_plan`, `Mouse.Request.framed_plan`, `Controller.Request.framed_exchange`
  — the frames of operations.
-/
namespace Ps2Host

/-- What is sent without receiving in between. -/
inductive Frame
  | data (byte : UInt8)
  | command (code : UInt8)
  /-- A command and its parameter. -/
  | order (code byte : UInt8)

namespace Frame

/-- What the keyboard is sent: a data byte. -/
def ForKeyboard : Frame → Prop
  | data _ => True
  | command _ | order _ _ => False

/-- What the mouse is sent: a byte announced to the controller. -/
def ForMouse : Frame → Prop
  | order code _ => code = Controller.Command.toMouse.code
  | data _ | command _ => False

/-- A command that stands alone settles nothing about the next data byte. -/
def Closed : Frame → Prop
  | command code => ({} : ScriptedChip.Pending).settle code = {}
  | data _ | order _ _ => True

instance : DecidablePred Closed
  | command code => inferInstanceAs (Decidable (({} : ScriptedChip.Pending).settle code = {}))
  | data _ | order _ _ => .isTrue trivial

end Frame

/-! ## Framed exchanges -/

namespace Exchange

variable {ε α β : Type} {allowed : Frame → Prop}

/-- The exchange sends allowed frames, one after the other. -/
inductive Framed (allowed : Frame → Prop) : Exchange ε α → Prop
  | done (a : α) : Framed allowed (.done a)
  | fail (e : ε) : Framed allowed (.fail e)
  | note {next} (notice : Notice) (h : Framed allowed next) : Framed allowed (.note notice next)
  | data {byte next} (hframe : allowed (.data byte)) (h : Framed allowed next) :
      Framed allowed (.send .data byte next)
  | command {code next} (hframe : allowed (.command code)) (h : Framed allowed next) :
      Framed allowed (.send .command code next)
  | order {code byte next} (hframe : allowed (.order code byte)) (h : Framed allowed next) :
      Framed allowed (.send .command code (.send .data byte next))
  | receive {next} (h : ∀ byte, Framed allowed (next byte)) : Framed allowed (.receive next)
  | listen {next} (h : ∀ byte?, Framed allowed (next byte?)) : Framed allowed (.listen next)

namespace Framed

variable {x : Exchange ε α}

theorem bind {f : α → Exchange ε β} (hx : x.Framed allowed) (hf : ∀ a, (f a).Framed allowed) :
    (x >>= f).Framed allowed := by
  induction hx with
  | done a => exact hf a
  | fail e => exact .fail e
  | note notice _ ih => exact .note notice ih
  | data hframe _ ih => exact .data hframe ih
  | command hframe _ ih => exact .command hframe ih
  | order hframe _ ih => exact .order hframe ih
  | receive _ ih => exact .receive ih
  | listen _ ih => exact .listen ih

theorem map (f : α → β) (hx : x.Framed allowed) : (f <$> x).Framed allowed := by
  rw [map_eq_pure_bind]
  exact hx.bind fun a => .done (f a)

theorem seqRight_pure (b : β) (hx : x.Framed allowed) : (x *> pure b).Framed allowed := by
  rw [seqRight_eq_bind]
  exact hx.bind fun _ => .done b

end Framed

theorem framed_sendData {byte : UInt8} (hframe : allowed (.data byte)) :
    (sendData byte : Exchange ε Unit).Framed allowed :=
  .data hframe (.done ())

theorem framed_sendCommand {code : UInt8} (hframe : allowed (.command code)) :
    (sendCommand code : Exchange ε Unit).Framed allowed :=
  .command hframe (.done ())

theorem framed_receiveByte : (receiveByte : Exchange ε UInt8).Framed allowed :=
  .receive .done

theorem framed_receiveBytes (n : Nat) :
    (receiveBytes n : Exchange ε (List UInt8)).Framed allowed := by
  induction n with
  | zero => exact .done []
  | succ n ih => exact .receive fun byte => ih.bind fun bytes => .done (byte :: bytes)

end Exchange

/-- The turns of a framed exchange: whole frames, except that the last one can be cut off by a wait
that fails. -/
inductive Turn.Framed (allowed : Frame → Prop) : List Turn → Prop
  | nil : Framed allowed []
  | received {turns} (wait : Trace) (byte : UInt8) (h : Framed allowed turns) :
      Framed allowed (.received wait byte :: turns)
  | noByte {turns} (wait : Trace) (stall : Stall) (h : Framed allowed turns) :
      Framed allowed (.stalled wait .byte stall :: turns)
  | noRoom (wait : Trace) (stall : Stall) : Framed allowed [.stalled wait .room stall]
  | data {turns byte} (wait : Trace) (hframe : allowed (.data byte)) (h : Framed allowed turns) :
      Framed allowed (.sent wait .data byte :: turns)
  | command {turns code} (wait : Trace) (hframe : allowed (.command code))
      (h : Framed allowed turns) : Framed allowed (.sent wait .command code :: turns)
  | order {turns code byte} (first second : Trace) (hframe : allowed (.order code byte))
      (h : Framed allowed turns) :
      Framed allowed (.sent first .command code :: .sent second .data byte :: turns)
  | halfOrder {code byte} (first second : Trace) (stall : Stall)
      (hframe : allowed (.order code byte)) :
      Framed allowed [.sent first .command code, .stalled second .room stall]

theorem Exchange.Framed.of_course {ε α : Type} [Controller.Fault ε] {allowed : Frame → Prop}
    {x : Exchange ε α} (hx : x.Framed allowed) {turns : List Turn} {result : Except ε α}
    (hcourse : Course x turns result) : Turn.Framed allowed turns := by
  induction hx generalizing turns with
  | done a => cases hcourse with | done => exact .nil
  | fail e => cases hcourse with | fail => exact .nil
  | note notice _ ih => cases hcourse with | note rest => exact ih rest
  | data hframe _ ih =>
    cases hcourse with
    | sent wait rest => exact .data wait hframe (ih rest)
    | noRoom wait stall => exact .noRoom wait stall
  | command hframe _ ih =>
    cases hcourse with
    | sent wait rest => exact .command wait hframe (ih rest)
    | noRoom wait stall => exact .noRoom wait stall
  | order hframe _ ih =>
    cases hcourse with
    | noRoom wait stall => exact .noRoom wait stall
    | sent first rest =>
      cases rest with
      | sent second rest => exact .order first second hframe (ih rest)
      | noRoom second stall => exact .halfOrder first second stall hframe
  | receive _ ih =>
    cases hcourse with
    | received wait byte rest => exact .received wait byte (ih byte rest)
    | noByte wait stall => exact .noByte wait stall .nil
  | listen _ ih =>
    cases hcourse with
    | heard wait byte rest => exact .received wait byte (ih (some byte) rest)
    | silence wait rest => exact .noByte wait .timeout (ih none rest)
    | blocked wait => exact .noByte wait .wouldBlock .nil

/-! ## The frames of operations -/

namespace Controller

variable {ε : Type} {allowed : Frame → Prop}

theorem framed_command {c : Command} (hframe : allowed (.command c.code)) :
    (command c : Exchange ε Unit).Framed allowed :=
  Exchange.framed_sendCommand hframe

theorem framed_query {c : Command} (hframe : allowed (.command c.code)) :
    (query c : Exchange ε UInt8).Framed allowed :=
  (framed_command hframe).bind fun _ => Exchange.framed_receiveByte

theorem framed_order {c : Command} {parameter : UInt8}
    (hframe : allowed (.order c.code parameter)) :
    (order c parameter : Exchange ε Unit).Framed allowed :=
  .order hframe (.done ())

theorem framed_queryRegister {l : Layout} {c : Command} (hframe : allowed (.command c.code)) :
    (queryRegister c : Exchange ε (Register l)).Framed allowed :=
  (framed_query hframe).bind fun raw => .done (Register.ofBits raw)

theorem framed_selfTest {test : SelfTest}
    (hframe : allowed (.command test.command.code)) : (selfTest test).Framed allowed := by
  refine (framed_query hframe).bind fun verdict => ?_
  split
  · exact .done ()
  · exact .note _ (.fail _)

theorem framed_dump (hframe : allowed (.command Command.dump.code)) :
    (dump : Exchange ε (List UInt8)).Framed allowed :=
  (framed_command hframe).bind fun _ => Exchange.framed_receiveBytes ramSize

theorem closed_readRam (address : UInt8) :
    Frame.Closed (.command (Command.readRam address).code) := by
  obtain ⟨bits⟩ := address
  revert bits
  decide +kernel

theorem closed_pulse (mask : UInt8) : Frame.Closed (.command (Command.pulse mask).code) := by
  obtain ⟨bits⟩ := mask
  revert bits
  decide +kernel

/-- Every operation but the raw command gives a command its parameter if it calls for one. -/
theorem Request.framed_exchange {request : Request}
    (hraw : ∀ code, request ≠ .sendCommand code) : request.exchange.Framed Frame.Closed := by
  have alone {c : Command} (hframe : Frame.Closed (.command c.code)) :
      (command c *> pure Answer.done : Exchange Error Answer).Framed Frame.Closed :=
    (framed_command hframe).seqRight_pure _
  have ordered (c : Command) (parameter : UInt8) :
      (order c parameter *> pure Answer.done : Exchange Error Answer).Framed Frame.Closed :=
    .seqRight_pure _ (framed_order trivial)
  cases request with
  | receive => exact Exchange.framed_receiveByte.map _
  | send byte => exact .seqRight_pure _ (Exchange.framed_sendData trivial)
  | sendCommand code => exact absurd rfl (hraw code)
  | readRam address => exact (framed_query (closed_readRam address)).map _
  | readConfig => exact (framed_queryRegister (closed_readRam configAddress)).map _
  | readInputPort | readOutputPort | readTestPort =>
    exact .map _ (framed_queryRegister (by decide +kernel))
  | selfTest test => cases test <;> exact .seqRight_pure _ (framed_selfTest (by decide +kernel))
  | dump => exact .map _ (framed_dump (by decide +kernel))
  | writeRam | writeConfig | writeOutputPort | fillKeyboardBuffer | fillMouseBuffer | sendToMouse =>
    exact ordered _ _
  | disableKeyboard | enableKeyboard | disableMouse | enableMouse | inputLowToStatus
  | inputHighToStatus => exact alone (by decide +kernel)
  | pulse mask => exact alone (closed_pulse mask)

end Controller

theorem Exchange.framed_again {ε : Type} {allowed : Frame → Prop} (complain : UInt8 → ε) :
    Exchange.Framed allowed (.receive fun reply =>
      if reply = Reply.resend then .fail (complain reply) else .done reply) := by
  refine .receive fun reply => ?_
  split
  · exact .fail _
  · exact .done reply

namespace Keyboard

/-- What the keyboard is asked is data, and only data. -/
theorem framed_acknowledged : acknowledged.Framed Frame.ForKeyboard := by
  rw [acknowledged_eq]
  refine .receive fun reply => ?_
  repeat' split
  · exact .done ()
  · exact .note _ (.fail _)
  · exact .fail _
  · exact .note _ (.fail _)

theorem framed_command (c : Command) : (command c).Framed Frame.ForKeyboard :=
  (Exchange.framed_sendData trivial).bind fun _ => framed_acknowledged

theorem framed_order (c : Command) (parameter : UInt8) :
    (order c parameter).Framed Frame.ForKeyboard :=
  (framed_command c).bind fun _ =>
    (Exchange.framed_sendData trivial).bind fun _ => framed_acknowledged

theorem framed_echo : echo.Framed Frame.ForKeyboard := by
  refine (Exchange.framed_sendData trivial).bind fun _ => .receive fun reply => ?_
  show Exchange.Framed _ (if reply = Reply.echo then _ else _)
  repeat' split
  · exact .done ()
  · exact .fail _
  · exact .fail _

theorem framed_found (model : Model) : (found model).Framed Frame.ForKeyboard :=
  .note _ (.done model)

theorem framed_identify : identify.Framed Frame.ForKeyboard := by
  have hmodel : receiveModel.Framed Frame.ForKeyboard := by
    rw [receiveModel_eq]
    refine .listen fun first? => ?_
    cases first? with
    | none => exact framed_found _
    | some first => exact .receive fun second => framed_found _
  rw [identify_eq]
  refine .data trivial (.receive fun reply => ?_)
  repeat' split
  · exact hmodel
  · exact .note _ (framed_found _)
  · exact .fail _
  · exact .note _ (.fail _)

theorem framed_resend : resend.Framed Frame.ForKeyboard :=
  (Exchange.framed_sendData trivial).bind fun _ => Exchange.framed_again Error.resend

theorem framed_reset : reset.Framed Frame.ForKeyboard := by
  refine (framed_command .reset).bind fun _ => Exchange.framed_receiveByte.bind fun verdict => ?_
  unfold judge
  repeat' split
  · exact .done ()
  · exact .note _ (.fail _)
  · exact .fail _
  · exact .fail _

/-- Keyboard operations send single data bytes. -/
theorem Request.framed_plan {request : Request} {x : Exchange Error Answer}
    (hplan : request.plan = .ok x) : x.Framed Frame.ForKeyboard := by
  have alone (c : Command) : (command c *> pure Answer.done).Framed Frame.ForKeyboard :=
    (framed_command c).seqRight_pure _
  have ordered (c : Command) (parameter : UInt8) :
      (order c parameter *> pure Answer.done).Framed Frame.ForKeyboard :=
    (framed_order c parameter).seqRight_pure _
  cases request with
  | setLeds | keyTypematic | keyMakeBreak | keyMakeOnly =>
    cases hplan
    exact ordered _ _
  | enableScanning | disableScanning | setDefaults | allTypematic | allMakeBreak | allMakeOnly
  | allTypematicMakeBreak =>
    cases hplan
    exact alone _
  | setScancodeSet set =>
    rw [plan] at hplan
    split at hplan <;> cases hplan
    exact ordered _ _
  | setTypematic rate delay =>
    rw [plan] at hplan
    cases hencode : Typematic.encode rate delay <;> rw [hencode] at hplan <;> cases hplan
    exact ordered _ _
  | echo =>
    cases hplan
    exact framed_echo.seqRight_pure _
  | scancodeSet =>
    cases hplan
    exact .map _ ((framed_order _ _).bind fun _ => Exchange.framed_receiveByte)
  | identify =>
    cases hplan
    exact framed_identify.map _
  | resend =>
    cases hplan
    exact framed_resend.map _
  | reset =>
    cases hplan
    exact framed_reset.seqRight_pure _

end Keyboard

namespace Mouse

theorem framed_sendToMouse (byte : UInt8) :
    (Controller.sendToMouse byte : Exchange Error Unit).Framed Frame.ForMouse :=
  Controller.framed_order rfl

theorem framed_acknowledged : acknowledged.Framed Frame.ForMouse := by
  refine .receive fun reply => ?_
  show Exchange.Framed _ (if reply = Reply.acknowledge then _ else _)
  repeat' split
  · exact .done ()
  · exact .note _ (.fail _)
  · exact .note _ (.fail _)

theorem framed_command (c : Command) : (command c).Framed Frame.ForMouse :=
  (framed_sendToMouse c.code).bind fun _ => framed_acknowledged

theorem framed_order (c : Command) (parameter : UInt8) :
    (order c parameter).Framed Frame.ForMouse :=
  (framed_command c).bind fun _ =>
    (framed_sendToMouse parameter).bind fun _ => framed_acknowledged

theorem framed_status : status.Framed Frame.ForMouse := by
  refine (framed_command _).bind fun _ =>
    .receive fun flags => .receive fun index => .receive fun rate => ?_
  dsimp only [Exchange.bind]
  split
  · exact .fail _
  · exact .done _

theorem framed_readPacket : readPacket.Framed Frame.ForMouse :=
  .receive fun flags => .receive fun x => .receive fun y => .done (Packet.ofBytes flags x y)

theorem framed_identify : identify.Framed Frame.ForMouse := by
  refine (framed_command .requestId).bind fun _ => .receive fun id => ?_
  exact .note _ (.done (Model.ofId id))

theorem framed_resend : resend.Framed Frame.ForMouse :=
  (framed_sendToMouse _).bind fun _ => Exchange.framed_again Error.resend

theorem framed_reset : reset.Framed Frame.ForMouse := by
  refine (framed_command .reset).bind fun _ => .receive fun verdict => ?_
  dsimp only [Exchange.bind]
  cases objection? verdict <;> split
  · exact .note _ (.receive fun _ => .done ())
  · exact .receive fun _ => .done ()
  · exact .note _ (.receive fun _ => .fail _)
  · exact .receive fun _ => .fail _

/-- Mouse operations send single bytes, each announced to the controller. -/
theorem Request.framed_plan {request : Request} {x : Exchange Error Answer}
    (hplan : request.plan = .ok x) : x.Framed Frame.ForMouse := by
  have alone (c : Command) : (command c *> pure Answer.done).Framed Frame.ForMouse :=
    (framed_command c).seqRight_pure _
  have ordered (c : Command) (parameter : UInt8) :
      (order c parameter *> pure Answer.done).Framed Frame.ForMouse :=
    (framed_order c parameter).seqRight_pure _
  cases request with
  | scalingOneToOne | scalingTwoToOne | streamMode | remoteMode | wrapMode | leaveWrapMode
  | enableReporting | disableReporting | setDefaults =>
    cases hplan
    exact alone _
  | setResolution countsPerMm | setSampleRate rate =>
    rw [plan] at hplan
    split at hplan <;> cases hplan
    exact ordered _ _
  | status =>
    cases hplan
    exact framed_status.map _
  | requestPacket =>
    cases hplan
    exact .map _ ((framed_command _).bind fun _ => framed_readPacket)
  | readPacket =>
    cases hplan
    exact framed_readPacket.map _
  | identify =>
    cases hplan
    exact framed_identify.map _
  | resend =>
    cases hplan
    exact framed_resend.map _
  | reset =>
    cases hplan
    exact framed_reset.seqRight_pure _

end Mouse

end Ps2Host
