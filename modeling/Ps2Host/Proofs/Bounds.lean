import Ps2Host.Proofs.Within
import Ps2Host.Keyboard.Request
import Ps2Host.Mouse.Request

/-!
# What operations transfer

Every operation is bounded, and faithful to its waits, with one exception: the identification of the
keyboard takes a timeout after the acknowledgement for an answer.

## Main results

* `Controller.Request.within_exchange`, `Keyboard.Request.course_plan`,
  `Mouse.Request.within_plan` — the bounds, operation by operation.
* `Keyboard.course_identify` — the exception.
-/
namespace Ps2Host

open Controller.Fault (Own own_of_ne)

/-! ## Controller operations -/

namespace Controller

variable {ε : Type} [Fault ε]

theorem own_testFailed (verdict : UInt8) : Own (Error.testFailed verdict) :=
  ⟨nofun, fun _ => nofun⟩

theorem within_command (c : Command) : (command c : Exchange ε Unit).Within 1 :=
  Exchange.within_sendCommand c.code

theorem within_query (c : Command) : (query c : Exchange ε UInt8).Within 2 :=
  (within_command c).bind fun _ => Exchange.within_receiveByte

theorem within_order (c : Command) (parameter : UInt8) :
    (order c parameter : Exchange ε Unit).Within 2 :=
  (within_command c).bind fun _ => Exchange.within_sendData parameter

theorem within_queryRegister {l : Layout} (c : Command) :
    (queryRegister c : Exchange ε (Register l)).Within 2 :=
  (within_query c).bind (n := 0) fun raw => .done (Register.ofBits raw)

theorem within_selfTest (test : SelfTest) : (selfTest test).Within 2 := by
  refine (within_query test.command).bind (n := 0) fun verdict => ?_
  split
  · exact .done ()
  · exact .note _ (.fail (own_testFailed verdict))

theorem within_dump : (dump : Exchange ε (List UInt8)).Within 33 :=
  (within_command .dump).bind fun _ => Exchange.within_receiveBytes ramSize

def Request.transferLimit : Request → Nat
  | dump => 33
  | _ => 2

theorem Request.within_exchange (request : Request) :
    request.exchange.Within request.transferLimit := by
  have one {x : Exchange Error Unit} (h : x.Within 1) : (x *> pure Answer.done).Within 2 :=
    (h.seqRight_pure _).mono (Nat.le_succ 1)
  cases request with
  | receive => exact (Exchange.within_receiveByte.map _).mono (Nat.le_succ 1)
  | send byte => exact one (Exchange.within_sendData byte)
  | sendCommand code => exact one (Exchange.within_sendCommand code)
  | readRam => exact (within_query _).map _
  | readConfig | readInputPort | readOutputPort | readTestPort =>
    exact (within_queryRegister _).map _
  | selfTest test => exact (within_selfTest test).seqRight_pure _
  | dump => exact within_dump.map _
  | writeRam | writeConfig | writeOutputPort | fillKeyboardBuffer | fillMouseBuffer | sendToMouse =>
    exact (within_order _ _).seqRight_pure _
  | disableKeyboard | enableKeyboard | disableMouse | enableMouse | inputLowToStatus
  | inputHighToStatus | pulse => exact one (within_command _)

end Controller

/-! ## Bytes that are sent again -/

theorem Exchange.within_again {ε : Type} [Controller.Fault ε] (complain : UInt8 → ε)
    (hown : ∀ reply, Own (complain reply)) : Exchange.Within 1 (.receive fun reply =>
      if reply = Reply.resend then .fail (complain reply) else .done reply) := by
  refine .receive (n := 0) fun reply => ?_
  split
  · exact .fail (hown reply)
  · exact .done reply

/-! ## Keyboard operations -/

namespace Keyboard

theorem acknowledged_eq : acknowledged = .receive fun reply =>
    if reply = Reply.acknowledge then .done ()
    else if reply = Reply.resend then
      .note (.debug (.text (.ofString "[KBD] device asked for resend"))) (.fail (.resend reply))
    else if reply = Reply.overrun ∨ reply = Reply.keyDetectionError then
      .fail (.keyDetection reply)
    else
      .note (.debug (.hexField (.ofString "[KBD] unexpected reply") reply))
        (.fail (.invalidResponse reply)) := by
  unfold acknowledged handshake
  simp only [Exchange.receiveByte, Exchange.receive_bind, Exchange.done_bind]
  congr 1
  funext reply
  repeat' split
  all_goals rfl

theorem identify_eq : identify = .send .data 0xF2 (.receive fun reply =>
    if reply = Reply.acknowledge then receiveModel
    else if reply = Reply.resend then
      .note (.debug (.text (.ofString "[KBD] device asked for resend"))) (found ⟨.xt, 0, 0⟩)
    else if reply = Reply.overrun ∨ reply = Reply.keyDetectionError then
      .fail (.keyDetection reply)
    else
      .note (.debug (.hexField (.ofString "[KBD] unexpected reply") reply))
        (.fail (.invalidResponse reply))) := by
  unfold identify handshake
  simp only [Exchange.sendData, Exchange.receiveByte, Exchange.send_bind, Exchange.receive_bind,
    Exchange.done_bind]
  congr 2
  funext reply
  repeat' split
  all_goals rfl

theorem within_acknowledged : acknowledged.Within 1 := by
  rw [acknowledged_eq]
  refine .receive (n := 0) fun reply => ?_
  repeat' split
  · exact .done ()
  · exact .note _ (.fail (own_of_ne nofun))
  · exact .fail (own_of_ne nofun)
  · exact .note _ (.fail (own_of_ne nofun))

theorem within_command (c : Command) : (command c).Within 2 :=
  (Exchange.within_sendData c.code).bind fun _ => within_acknowledged

theorem within_order (c : Command) (parameter : UInt8) : (order c parameter).Within 4 :=
  (within_command c).bind fun _ =>
    (Exchange.within_sendData parameter).bind fun _ => within_acknowledged

theorem within_echo : echo.Within 2 := by
  refine (Exchange.within_sendData _).bind (n := 1) fun _ => .receive (n := 0) fun reply => ?_
  show Exchange.Within 0 (if reply = Reply.echo then _ else _)
  repeat' split
  · exact .done ()
  · exact .fail (own_of_ne nofun)
  · exact .fail (own_of_ne nofun)

theorem within_scancodeSet : scancodeSet.Within 5 :=
  (within_order .scancodeSet scancodeSetQuery).bind fun _ => Exchange.within_receiveByte

theorem within_resend : resend.Within 2 :=
  (Exchange.within_sendData _).bind fun _ =>
    Exchange.within_again Error.resend fun _ => own_of_ne nofun

theorem within_judge (verdict : UInt8) : (judge verdict).Within 0 := by
  unfold judge
  repeat' split
  · exact .done ()
  · exact .note _ (.fail (own_of_ne nofun))
  · exact .fail (own_of_ne nofun)
  · exact .fail (own_of_ne nofun)

theorem within_reset : reset.Within 3 :=
  (within_command .reset).bind fun _ => Exchange.within_receiveByte.bind within_judge

theorem within_found (model : Model) : (found model).Within 0 := .note _ (.done model)

theorem receiveModel_eq : receiveModel = .listen fun first? =>
    match first? with
    | none => found ⟨.atTranslated, 0, 0⟩
    | some first => .receive fun second => found (.ofBytes first second) := by
  unfold receiveModel
  simp only [Exchange.listenForByte, Exchange.listen_bind, Exchange.done_bind]
  congr 1

/-- The identification was acknowledged, and then no byte came within the limit. -/
def Silent (turns : List Turn) : Prop :=
  ∃ room reply silence, turns = [.sent room .data Command.identify.code,
    .received reply Reply.acknowledge, .stalled silence .byte .timeout]

/-- Once acknowledged, the identification is faithful to its waits unless the first of them times
out, and that is an answer. -/
theorem course_receiveModel {turns : List Turn} {result : Except Error Model}
    (h : Exchange.Course receiveModel turns result) :
    turns.countP Turn.isTransfer ≤ 2 ∧
      ((∀ silence, turns ≠ [.stalled silence .byte .timeout]) ∧ Turn.Faithful turns result ∨
      ∃ silence, turns = [.stalled silence .byte .timeout] ∧
        result = .ok ⟨.atTranslated, 0, 0⟩) := by
  rw [receiveModel_eq] at h
  cases h with
  | heard wait first rest =>
    obtain ⟨hcount, hfaithful⟩ :=
      Exchange.Within.of_course (.receive (n := 0) fun _ => within_found _) rest
    refine ⟨?_, .inl ⟨by simp, hfaithful.cons rfl⟩⟩
    rw [List.countP_cons_of_pos (Turn.isTransfer_received ..)]
    omega
  | silence wait rest =>
    cases rest with
    | note rest => cases rest with | done => exact ⟨by simp, .inr ⟨wait, rfl, rfl⟩⟩
  | blocked wait => exact ⟨by simp, .inl ⟨by simp, .stalled [] nofun ..⟩⟩

/-- The identification is faithful to its waits, except that a silent keyboard is an old one. -/
theorem course_identify {turns : List Turn} {result : Except Error Model}
    (h : Exchange.Course identify turns result) :
    turns.countP Turn.isTransfer ≤ 4 ∧ (¬ Silent turns ∧ Turn.Faithful turns result ∨
      Silent turns ∧ result = .ok ⟨.atTranslated, 0, 0⟩) := by
  rw [identify_eq] at h
  cases h with
  | noRoom wait stall =>
    exact ⟨by simp, .inl ⟨by simp [Silent], .stalled [] nofun ..⟩⟩
  | sent room rest =>
    cases rest with
    | noByte wait stall =>
      refine ⟨by simp [List.countP_cons], .inl ⟨by simp [Silent], ?_⟩⟩
      exact .stalled [_] (by simp) ..
    | @received _ turns _ reply byte rest =>
      rw [List.countP_cons_of_pos (Turn.isTransfer_sent ..),
        List.countP_cons_of_pos (Turn.isTransfer_received ..)]
      dsimp only at rest
      split at rest
      · rename_i hack
        obtain ⟨hcount, ⟨hnot, hfaithful⟩ | ⟨silence, rfl, rfl⟩⟩ := course_receiveModel rest
        · refine ⟨by omega, .inl ⟨?_, .cons rfl (.cons rfl hfaithful)⟩⟩
          rintro ⟨_, _, silence, heq⟩
          cases heq
          exact hnot silence rfl
        · subst hack
          exact ⟨by simp, .inr ⟨⟨room, reply, silence, rfl⟩, rfl⟩⟩
      · rename_i hack
        suffices hwithin : Exchange.Within 0 (if byte = Reply.resend then _ else _) by
          obtain ⟨hcount, hfaithful⟩ := hwithin.of_course rest
          refine ⟨by omega, .inl ⟨?_, .cons rfl (.cons rfl hfaithful)⟩⟩
          rintro ⟨_, _, silence, heq⟩
          cases heq
          exact hack rfl
        repeat' split
        · exact .note _ (within_found _)
        · exact .fail (own_of_ne nofun)
        · exact .note _ (.fail (own_of_ne nofun))

/-- Every keyboard operation but the identification treats its waits alike. -/
theorem Request.within_plan {request : Request} (hidentify : request ≠ .identify)
    {x : Exchange Error Answer} (hplan : request.plan = .ok x) : x.Within 6 := by
  have alone (c : Command) : (command c *> pure Answer.done).Within 6 :=
    ((within_command c).seqRight_pure _).mono (by omega)
  have ordered (c : Command) (parameter : UInt8) :
      (order c parameter *> pure Answer.done).Within 6 :=
    ((within_order c parameter).seqRight_pure _).mono (by omega)
  cases request with
  | identify => exact absurd rfl hidentify
  | setLeds | keyTypematic | keyMakeBreak | keyMakeOnly =>
    cases hplan
    exact ordered _ _
  | enableScanning | disableScanning | setDefaults | allTypematic | allMakeBreak | allMakeOnly
  | allTypematicMakeBreak =>
    cases hplan
    exact alone _
  | setScancodeSet set =>
    rw [plan] at hplan
    split at hplan <;> cases hplan
    exact ordered _ _
  | setTypematic rate delay =>
    rw [plan] at hplan
    cases hencode : Typematic.encode rate delay <;> rw [hencode] at hplan <;> cases hplan
    exact ordered _ _
  | echo =>
    cases hplan
    exact (within_echo.seqRight_pure _).mono (by omega)
  | scancodeSet =>
    cases hplan
    exact (within_scancodeSet.map _).mono (by omega)
  | resend =>
    cases hplan
    exact (within_resend.map _).mono (by omega)
  | reset =>
    cases hplan
    exact (within_reset.seqRight_pure _).mono (by omega)

/-- Every keyboard operation is faithful to its waits, except for the identification of a silent
keyboard. -/
theorem Request.course_plan {request : Request} {x : Exchange Error Answer}
    (hplan : request.plan = .ok x) {turns : List Turn} {result : Except Error Answer}
    (h : Exchange.Course x turns result) :
    turns.countP Turn.isTransfer ≤ 6 ∧
      (¬ (request = .identify ∧ Silent turns) ∧ Turn.Faithful turns result ∨
      request = .identify ∧ Silent turns ∧ result = .ok (.model ⟨.atTranslated, 0, 0⟩)) := by
  by_cases hidentify : request = .identify
  · subst hidentify
    cases hplan
    obtain ⟨old, hold, rfl⟩ := h.of_map
    obtain ⟨hcount, ⟨hnot, hfaithful⟩ | ⟨hsilent, rfl⟩⟩ := course_identify hold
    · exact ⟨Nat.le_trans hcount (by decide), .inl ⟨fun h => hnot h.2, hfaithful.map _⟩⟩
    · exact ⟨Nat.le_trans hcount (by decide), .inr ⟨rfl, hsilent, rfl⟩⟩
  · obtain ⟨hcount, hfaithful⟩ := (within_plan hidentify hplan).of_course h
    exact ⟨hcount, .inl ⟨fun h => hidentify h.1, hfaithful⟩⟩

theorem Request.own_of_plan {request : Request} {e : Error} (hplan : request.plan = .error e) :
    Own e := by
  cases request with
  | setScancodeSet set =>
    rw [plan] at hplan
    split at hplan <;> cases hplan
    exact own_of_ne nofun
  | setTypematic rate delay =>
    rw [plan, Typematic.encode] at hplan
    repeat' split at hplan
    all_goals cases hplan
    all_goals exact own_of_ne nofun
  | _ => cases hplan

end Keyboard

/-! ## Mouse operations -/

namespace Mouse

theorem within_acknowledged : acknowledged.Within 1 := by
  refine .receive (n := 0) fun reply => ?_
  show Exchange.Within 0 (if reply = Reply.acknowledge then _ else _)
  repeat' split
  · exact .done ()
  · exact .note _ (.fail (own_of_ne nofun))
  · exact .note _ (.fail (own_of_ne nofun))

theorem within_command (c : Command) : (command c).Within 3 :=
  (Controller.within_order .toMouse c.code).bind fun _ => within_acknowledged

theorem within_order (c : Command) (parameter : UInt8) : (order c parameter).Within 6 :=
  (within_command c).bind fun _ =>
    (Controller.within_order .toMouse parameter).bind fun _ => within_acknowledged

theorem own_of_ofBytes {flags index rate : UInt8} {e : Error}
    (h : Status.ofBytes flags index rate = .error e) : Own e := by
  unfold Status.ofBytes at h
  repeat' split at h
  all_goals cases h
  · exact own_of_ne nofun
  · exact own_of_ne nofun

theorem within_status : status.Within 6 := by
  refine (within_command _).bind (n := 3) fun _ =>
    .receive fun flags => .receive fun index => .receive (n := 0) fun rate => ?_
  dsimp only [Exchange.bind]
  split
  · rename_i e h
    exact .fail (own_of_ofBytes h)
  · exact .done _

theorem within_readPacket : readPacket.Within 3 :=
  .receive fun flags => .receive fun x => .receive fun y => .done (Packet.ofBytes flags x y)

theorem within_requestPacket : requestPacket.Within 6 :=
  (within_command .requestPacket).bind fun _ => within_readPacket

theorem within_identify : identify.Within 4 := by
  refine (within_command .requestId).bind (n := 1) fun _ => .receive (n := 0) fun id => ?_
  exact .note _ (.done (Model.ofId id))

theorem within_resend : resend.Within 3 :=
  (Controller.within_order .toMouse _).bind fun _ =>
    Exchange.within_again Error.resend fun _ => own_of_ne nofun

theorem own_of_objection? {verdict : UInt8} {e : Error} (h : objection? verdict = some e) :
    Own e := by
  unfold objection? at h
  repeat' split at h
  all_goals cases h
  all_goals exact own_of_ne nofun

theorem within_reset : reset.Within 5 := by
  refine (within_command .reset).bind (n := 2) fun _ => .receive (n := 1) fun verdict => ?_
  dsimp only [Exchange.bind]
  cases h : objection? verdict with
  | none =>
    split
    · exact .note _ (.receive (n := 0) fun _ => .done ())
    · exact .receive (n := 0) fun _ => .done ()
  | some e =>
    have hown : Own e := own_of_objection? h
    split
    · exact .note _ (.receive (n := 0) fun _ => .fail hown)
    · exact .receive (n := 0) fun _ => .fail hown

/-- Every mouse operation treats its waits alike. -/
theorem Request.within_plan {request : Request} {x : Exchange Error Answer}
    (hplan : request.plan = .ok x) : x.Within 6 := by
  have alone (c : Command) : (command c *> pure Answer.done).Within 6 :=
    ((within_command c).seqRight_pure _).mono (by omega)
  have ordered (c : Command) (parameter : UInt8) :
      (order c parameter *> pure Answer.done).Within 6 :=
    (within_order c parameter).seqRight_pure _
  cases request with
  | scalingOneToOne | scalingTwoToOne | streamMode | remoteMode | wrapMode | leaveWrapMode
  | enableReporting | disableReporting | setDefaults =>
    cases hplan
    exact alone _
  | setResolution countsPerMm =>
    rw [plan] at hplan
    split at hplan <;> cases hplan
    exact ordered _ _
  | setSampleRate rate =>
    rw [plan] at hplan
    split at hplan <;> cases hplan
    exact ordered _ _
  | status =>
    cases hplan
    exact within_status.map _
  | requestPacket =>
    cases hplan
    exact within_requestPacket.map _
  | readPacket =>
    cases hplan
    exact (within_readPacket.map _).mono (by omega)
  | identify =>
    cases hplan
    exact (within_identify.map _).mono (by omega)
  | resend =>
    cases hplan
    exact (within_resend.map _).mono (by omega)
  | reset =>
    cases hplan
    exact (within_reset.seqRight_pure _).mono (by omega)

theorem Request.own_of_plan {request : Request} {e : Error} (hplan : request.plan = .error e) :
    Own e := by
  cases request with
  | setResolution countsPerMm | setSampleRate rate =>
    rw [plan] at hplan
    split at hplan <;> cases hplan
    exact own_of_ne nofun
  | _ => cases hplan

end Mouse

end Ps2Host
