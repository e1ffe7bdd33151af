import Ps2Host.Proofs.Acknowledgement
import Ps2Host.Proofs.Ensures

/-!
# How operations fail

Which errors an operation can end with, given what it received, and which alarms it raises: only the
verdict of a self-test that failed is an alarm, and a reset may have raised one and then end with
something else.

## Main definitions

* `Controller.Request.Admits`, `Keyboard.Request.Admits`, `Mouse.Request.Admits` — an error that an
  operation can end with once some bytes were received.
* `failedVerdict?` — the complaint about a verdict of failure after a reset.
* `Controller.Request.complaint?`, `Keyboard.Request.complaint?`, `Mouse.Request.complaint?` — the
  only alarm that an operation raises.

## Main results

* `Controller.Request.ensures_exchange`, `Keyboard.Request.accords_plan`,
  `Mouse.Request.accords_plan` — operations keep to both on every chip.
-/
namespace Ps2Host

open Exchange (ensures_bind ensures_seqRight_pure answered_send)
open Transcript (Accords AllowsStalls Calm Answered accords_ok accords_error accords_stalled)
open Controller (PlanAccords)

/-! ## Verdicts -/

/-- The complaint about the verdict of a reset, which is the byte after the acknowledgement, if that
is a failure. An operation that is no reset has none. -/
def failedVerdict? (text : Text) (isReset : Bool) (received : List UInt8) : Option Message :=
  if isReset ∧ [Reply.acknowledge, Reply.selfTestFailed] <+: received then
    some (.verdict text false)
  else none

theorem failedVerdict?_false (text : Text) (received : List UInt8) :
    failedVerdict? text false received = none :=
  if_neg fun h => Bool.false_ne_true h.1

/-- One reply is not enough for a complaint. -/
theorem failedVerdict?_of_length_le (text : Text) (isReset : Bool) {received : List UInt8}
    (h : received.length ≤ 1) : failedVerdict? text isReset received = none := by
  refine if_neg fun ⟨_, hfailed⟩ => ?_
  have hlength := hfailed.length_le
  simp only [List.length_cons, List.length_nil] at hlength
  omega

theorem eq_of_failedVerdict? {text : Text} {isReset : Bool} {received : List UInt8}
    {message : Message} (h : failedVerdict? text isReset received = some message) :
    message = .verdict text false := by
  unfold failedVerdict? at h
  split at h <;> cases h
  rfl

/-- What follows the verdict does not matter. -/
theorem failedVerdict?_cons (text : Text) (verdict : UInt8) (rest : List UInt8) :
    failedVerdict? text true (Reply.acknowledge :: verdict :: rest) =
      if verdict = Reply.selfTestFailed then some (.verdict text false) else none := by
  by_cases hfailed : verdict = Reply.selfTestFailed <;>
    simp [failedVerdict?, List.cons_prefix_cons, hfailed, eq_comm]

/-- What is planned for a device accords if only a reset can raise an alarm and does so by its
verdict. -/
theorem Controller.PlanAccords.of_verdict {ε α : Type} [Fault ε] {text : Text} {isReset : Bool}
    {allowed : List UInt8 → ε → Prop} {plan : Except ε (Exchange ε α)} (reset : Exchange ε Unit)
    (done : α)
    (hreset : isReset = true → plan = .ok (reset *> pure done) ∧
      reset.Ensures (Accords (failedVerdict? text isReset) allowed) {})
    (htame : isReset = false → ∀ x, plan = .ok x → x.Tame allowed)
    (hrefused : ∀ e, plan = .error e → allowed [] e)
    (hbusy : allowed [] (Fault.ofController .busy)) :
    PlanAccords (failedVerdict? text isReset) allowed plan where
  refused := hrefused
  busy := hbusy
  quiet := failedVerdict?_of_length_le text isReset (Nat.zero_le 1)
  planned x hplan := by
    cases isReset with
    | true =>
      obtain ⟨rfl, hensures⟩ := hreset rfl
      cases hplan
      exact ensures_seqRight_pure.2 (hensures.mono fun t result h => h.map _)
    | false => exact (htame rfl x hplan).accords (failedVerdict?_false text)

theorem Exchange.tame_again {ε : Type} [Controller.Fault ε] {allowed : List UInt8 → ε → Prop}
    [AllowsStalls allowed] (complain : UInt8 → ε)
    (hallowed : ∀ received reply, reply = Reply.resend →
      allowed (received ++ [reply]) (complain reply)) :
    Exchange.Tame allowed (.receive fun reply =>
      if reply = Reply.resend then .fail (complain reply) else .done reply) := by
  refine fun received => ⟨accords_stalled rfl, fun reply => ?_⟩
  dsimp only
  split
  · exact accords_error rfl (hallowed received reply ‹_›)
  · exact accords_ok rfl reply

/-! ## Controller operations -/

namespace Controller

/-- An error that an operation can end with once some bytes were received: a wait failed, or a
self-test gave the wrong byte. -/
def Request.Admits (request : Request) (received : List UInt8) : Error → Prop
  | .stalled _ => True
  | .testFailed verdict =>
    ∃ test, request = .selfTest test ∧ received = [verdict] ∧ verdict ≠ test.passed
  | .busy => False

def Request.complaint? (request : Request) (result : Except Error Answer) : Option Message :=
  match request, result with
  | .selfTest test, .error (.testFailed verdict) => some (.hexField test.complaint verdict)
  | _, _ => none

variable {ε : Type} [Fault ε] {allowed : List UInt8 → ε → Prop} [AllowsStalls allowed]

theorem tame_command (c : Command) : (command c : Exchange ε Unit).Tame allowed :=
  Exchange.tame_sendCommand c.code

theorem tame_query (c : Command) : (query c : Exchange ε UInt8).Tame allowed :=
  (tame_command c).bind fun _ => Exchange.tame_receiveByte

theorem tame_order (c : Command) (parameter : UInt8) :
    (order c parameter : Exchange ε Unit).Tame allowed :=
  (tame_command c).bind fun _ => Exchange.tame_sendData parameter

theorem tame_queryRegister {l : Layout} (c : Command) :
    (queryRegister c : Exchange ε (Register l)).Tame allowed :=
  (tame_query c).bind fun raw => Exchange.tame_done (Register.ofBits raw)

theorem tame_dump : (dump : Exchange ε (List UInt8)).Tame allowed :=
  (tame_command .dump).bind fun _ => Exchange.tame_receiveBytes ramSize

instance (request : Request) : AllowsStalls request.Admits := ⟨fun _ _ => trivial⟩

/-- Every operation but a self-test fails only when a wait does. -/
theorem Request.tame_exchange {request : Request} (htest : ∀ test, request ≠ .selfTest test) :
    request.exchange.Tame request.Admits := by
  cases request with
  | selfTest test => exact absurd rfl (htest test)
  | receive => exact Exchange.tame_receiveByte.map _
  | send byte => exact (Exchange.tame_sendData byte).seqRight_pure _
  | sendCommand code => exact (Exchange.tame_sendCommand code).seqRight_pure _
  | readRam => exact (tame_query _).map _
  | readConfig | readInputPort | readOutputPort | readTestPort =>
    exact (tame_queryRegister _).map _
  | dump => exact tame_dump.map _
  | writeRam | writeConfig | writeOutputPort | fillKeyboardBuffer | fillMouseBuffer | sendToMouse =>
    exact (tame_order _ _).seqRight_pure _
  | disableKeyboard | enableKeyboard | disableMouse | enableMouse | inputLowToStatus
  | inputHighToStatus | pulse => exact (tame_command _).seqRight_pure _

/-- A self-test that receives a byte passes or fails by it; if it fails, it says so. -/
theorem ensures_selfTest (test : SelfTest) : (selfTest test).Ensures
    (fun t result =>
      t = {} ∧ (∃ stall, result = .error (.stalled stall)) ∨
      t = { received := [test.passed] } ∧ result = .ok () ∨
      ∃ verdict, verdict ≠ test.passed ∧ result = .error (.testFailed verdict) ∧
        t = ⟨[verdict], [.normal (.hexField test.complaint verdict)]⟩) {} := by
  refine ⟨fun stall => .inl ⟨rfl, stall, rfl⟩, fun stall => .inl ⟨rfl, stall, rfl⟩,
    fun verdict => ?_⟩
  show (if verdict = test.passed then _ else _ : Exchange Error Unit).Ensures _ _
  split
  · rename_i hpassed
    exact .inr (.inl ⟨by rw [hpassed]; rfl, rfl⟩)
  · rename_i hfailed
    exact .inr (.inr ⟨verdict, hfailed, rfl, rfl⟩)

/-- What an operation comes to: its complaint, its errors, and that the byte by which a self-test
fails is its error. -/
structure Request.Ends (request : Request) (t : Transcript) (result : Except Error Answer) :
    Prop where
  alarms : t.alarms = (request.complaint? result).toList.map .normal
  admits : ∀ e, result = .error e → request.Admits t.received e
  failed : ∀ test verdict, request = .selfTest test → t.received = [verdict] →
    verdict ≠ test.passed → result = .error (.testFailed verdict)

/-- On every chip an operation ends with an error that it admits and with the complaint about it. -/
theorem Request.ensures_exchange (request : Request) :
    request.exchange.Ensures request.Ends {} := by
  by_cases htest : ∃ test, request = .selfTest test
  · obtain ⟨test, rfl⟩ := htest
    refine ensures_seqRight_pure.2 ((ensures_selfTest test).mono fun t result hcases => ?_)
    obtain ⟨rfl, stall, rfl⟩ | ⟨rfl, rfl⟩ | ⟨verdict, hfailed, rfl, rfl⟩ := hcases
    · exact ⟨rfl, by rintro _ ⟨⟩; trivial, nofun⟩
    · exact ⟨rfl, nofun, by rintro _ _ ⟨⟩ ⟨⟩ hne; exact absurd rfl hne⟩
    · exact ⟨rfl, by rintro _ ⟨⟩; exact ⟨test, rfl, rfl, hfailed⟩, by rintro _ _ ⟨⟩ ⟨⟩ _; rfl⟩
  · have hother : ∀ test, request ≠ .selfTest test := fun test h => htest ⟨test, h⟩
    refine (tame_exchange hother []).mono fun t result hcalm => ⟨?_, hcalm.allowed, ?_⟩
    · rw [hcalm.alarms]
      cases request <;> first | rfl | exact absurd rfl (hother _)
    · exact fun test _ h => absurd h (hother test)

variable {σ : Type} [Chip σ]

theorem Request.ends_perform (request : Request) (patience : Patience) (chip : σ) :
    request.Ends (request.exchange.perform patience chip).transcript
      (request.exchange.perform patience chip).result :=
  Run.keeps_empty.1 (request.ensures_exchange.perform patience chip)

theorem alarms_flush (limit : Nat) (chip : σ) : alarms (flush limit chip).notices = [] := by
  induction limit generalizing chip with
  | zero => rfl
  | succ limit ih =>
    rw [flush_succ]
    cases hready : hasByte (.ofBits (Chip.status chip).1) <;>
      simp [Run.status, Run.read, Run.andThen, Run.map, Run.pure, hready, ih]

/-- What lies below transfers raises no alarm, and fails only when a wait does. -/
theorem Probe.calm_perform (p : Probe) (patience : Patience) (chip : σ) :
    Calm (fun _ e => ∃ stall, e = .stalled stall) (p.perform patience chip).transcript
      (p.perform patience chip).result := by
  have waited (need : Need) : Calm (fun _ e => ∃ stall, e = .stalled stall)
      ((patience.await need chip).map outcome).transcript
      ((patience.await need chip).map outcome).result := by
    have hquiet : ((patience.await need chip).map outcome).transcript = {} :=
      patience.transcript_await need chip
    rw [hquiet]
    show Calm _ _ (outcome (patience.await need chip).result)
    cases (patience.await need chip).result with
    | ok => exact accords_ok rfl _
    | error stall => exact accords_error rfl ⟨stall, rfl⟩
  cases p with
  | status => exact accords_ok rfl _
  | awaitByte => exact waited .byte
  | awaitRoom => exact waited .room
  | flush =>
    have hquiet : alarms (perform patience .flush chip).notices = [] := by
      show alarms (_ ++ _) = []
      rw [alarms_append, alarms_flush, List.nil_append, reportFlush]
      split <;> rfl
    refine ⟨hquiet, fun e he => ?_⟩
    cases (result_reportFlush _ _).symm.trans he

end Controller

/-! ## Keyboard operations -/

namespace Keyboard

/-- The rate is a number within the range of the keyboard. -/
def Typematic.HasRate (rate : Binary32) : Prop :=
  ∃ value, rate.value? = some value ∧ slowest ≤ value ∧ value ≤ fastest

/-- An error that an operation can end with once some bytes were received: each kind of reply has
its own, and an argument that is refused has the one that says so. -/
def Request.Admits (request : Request) (received : List UInt8) : Error → Prop
  | .resend reply => reply = Reply.resend ∧ request ≠ .identify
  | .selfTestFailed reply => reply = Reply.selfTestFailed ∧ request = .reset
  | .keyDetection reply => reply = Reply.overrun ∨ reply = Reply.keyDetectionError
  | .invalidResponse reply => reply ∈ received ∧ reply ≠ Reply.resend
  | .invalidTypematicRate rate => (∃ delay, request = .setTypematic rate delay) ∧
      ¬ Typematic.HasRate rate
  | .invalidTypematicDelay delay => (∃ rate, request = .setTypematic rate delay) ∧
      delay ∉ Typematic.delays
  | .invalidScancodeSet set => request = .setScancodeSet set ∧ ¬ (1 ≤ set ∧ set ≤ 3)
  | .controller cause => cause = .busy ∨ ∃ stall, cause = .stalled stall

def Request.complaint? (request : Request) (received : List UInt8) : Option Message :=
  failedVerdict? (.ofString "[KBD] keyboard self-test") (request = .reset) received

variable {request : Request}

instance : AllowsStalls request.Admits := ⟨fun _ stall => .inr ⟨stall, rfl⟩⟩

theorem Typematic.error_of_encode {rate : Binary32} {delay : UInt16} {e : Error}
    (h : encode rate delay = .error e) :
    e = .invalidTypematicRate rate ∧ ¬ HasRate rate ∨
      e = .invalidTypematicDelay delay ∧ delay ∉ delays := by
  unfold encode at h
  split at h
  · cases h
    exact .inl ⟨rfl, by simp [HasRate, *]⟩
  split at h
  · split at h <;> cases h
    exact .inr ⟨rfl, List.idxOf?_eq_none_iff.1 ‹_›⟩
  · cases h
    exact .inl ⟨rfl, by simp [HasRate, *]⟩

theorem Request.admits_of_refused {e : Error} (hplan : request.plan = .error e) :
    request.Admits [] e := by
  cases request with
  | setScancodeSet set =>
    rw [plan] at hplan
    split at hplan <;> cases hplan
    exact ⟨rfl, ‹_›⟩
  | setTypematic rate delay =>
    rw [plan] at hplan
    cases hencode : Typematic.encode rate delay <;> rw [hencode] at hplan <;> cases hplan
    obtain ⟨rfl, hrate⟩ | ⟨rfl, hdelay⟩ := Typematic.error_of_encode hencode
    · exact ⟨⟨delay, rfl⟩, hrate⟩
    · exact ⟨⟨rate, rfl⟩, hdelay⟩
  | _ => cases hplan

section Tame

variable (hidentify : request ≠ .identify)

include hidentify

theorem admits_refusal (received : List UInt8) (reply : UInt8)
    (_ : reply ≠ Reply.acknowledge) : request.Admits (received ++ [reply]) (refusal reply) := by
  unfold refusal
  repeat' split
  · exact ⟨‹_›, hidentify⟩
  · exact ‹_›
  · exact ⟨List.mem_concat_self, ‹_›⟩

theorem tame_acknowledged : acknowledged.Tame request.Admits :=
  checks_acknowledged.tame (admits_refusal hidentify)

theorem tame_command (c : Command) : (command c).Tame request.Admits :=
  (Exchange.tame_sendData c.code).bind fun _ => tame_acknowledged hidentify

theorem tame_order (c : Command) (parameter : UInt8) : (order c parameter).Tame request.Admits :=
  (tame_command hidentify c).bind fun _ =>
    (Exchange.tame_sendData parameter).bind fun _ => tame_acknowledged hidentify

theorem tame_scancodeSet : scancodeSet.Tame request.Admits :=
  (tame_order hidentify _ _).bind fun _ => Exchange.tame_receiveByte

theorem tame_echo : echo.Tame request.Admits := by
  refine (Exchange.tame_sendData _).bind fun _ received => ?_
  refine ⟨accords_stalled rfl, fun reply => ?_⟩
  show (if reply = Reply.echo then _ else _ : Exchange Error Unit).Ensures _ _
  split
  · exact accords_ok rfl ()
  split
  · exact accords_error rfl ⟨‹_›, hidentify⟩
  · exact accords_error rfl ⟨List.mem_concat_self, ‹_›⟩

theorem tame_resend : resend.Tame request.Admits :=
  (Exchange.tame_sendData _).bind fun _ =>
    Exchange.tame_again Error.resend fun _ _ hagain => ⟨hagain, hidentify⟩

end Tame

theorem tame_found {allowed : List UInt8 → Error → Prop} (model : Model) :
    (found model).Tame allowed :=
  fun _ => accords_ok rfl model

theorem tame_receiveModel : receiveModel.Tame request.Admits := by
  intro received
  rw [receiveModel_eq]
  refine ⟨accords_stalled rfl .wouldBlock, tame_found _ _, fun first => ?_⟩
  exact ⟨accords_stalled rfl, fun second => tame_found _ _⟩

/-- A keyboard that wants the question again is an old one, so that is no error. -/
theorem tame_identify : identify.Tame request.Admits := by
  intro received
  rw [identify_eq]
  refine ⟨accords_stalled rfl,
    accords_stalled rfl, fun reply => ?_⟩
  dsimp only
  split
  · exact tame_receiveModel _
  split
  · exact tame_found _ _
  split
  · exact accords_error rfl ‹_›
  · exact accords_error rfl ⟨List.mem_concat_self, ‹_›⟩

/-- Every operation but the reset raises no alarm. -/
theorem Request.tame_plan (hreset : request ≠ .reset) {x : Exchange Error Answer}
    (hplan : request.plan = .ok x) : x.Tame request.Admits := by
  by_cases hidentify : request = .identify
  · subst hidentify
    cases hplan
    exact tame_identify.map _
  have alone (c : Command) : (command c *> pure Answer.done).Tame request.Admits :=
    (tame_command hidentify c).seqRight_pure _
  have ordered (c : Command) (parameter : UInt8) :
      (order c parameter *> pure Answer.done).Tame request.Admits :=
    (tame_order hidentify c parameter).seqRight_pure _
  cases request with
  | identify => exact absurd rfl hidentify
  | reset => exact absurd rfl hreset
  | setLeds | keyTypematic | keyMakeBreak | keyMakeOnly =>
    cases hplan
    exact ordered _ _
  | enableScanning | disableScanning | setDefaults | allTypematic | allMakeBreak | allMakeOnly
  | allTypematicMakeBreak =>
    cases hplan
    exact alone _
  | setScancodeSet set =>
    rw [plan] at hplan
    split at hplan <;> cases hplan
    exact ordered _ _
  | setTypematic rate delay =>
    rw [plan] at hplan
    cases hencode : Typematic.encode rate delay <;> rw [hencode] at hplan <;> cases hplan
    exact ordered _ _
  | echo =>
    cases hplan
    exact (tame_echo hidentify).seqRight_pure _
  | scancodeSet =>
    cases hplan
    exact (tame_scancodeSet hidentify).map _
  | resend =>
    cases hplan
    exact (tame_resend hidentify).map _

/-- A reset complains if and only if the verdict that follows the acknowledgement is a failure. -/
theorem ensures_reset :
    reset.Ensures (Accords Request.reset.complaint? Request.reset.Admits) {} := by
  have hsent : (command .reset).Ensures (Answered Request.reset.Admits []) {} :=
    answered_send (checks_acknowledged.answered (admits_refusal (by decide))) .data 0xFF
  refine ensures_bind.2 (hsent.mono fun t result hanswered => ?_)
  obtain ⟨rfl, rfl⟩ | ⟨e, rfl, halarms, hlength, hadmits⟩ := hanswered
  · refine ⟨accords_stalled rfl, fun verdict => ?_⟩
    show (judge verdict).Ensures _ { received := [Reply.acknowledge, verdict] }
    have hquiet (hother : verdict ≠ Reply.selfTestFailed) :
        Request.reset.complaint? [Reply.acknowledge, verdict] = none :=
      (failedVerdict?_cons _ verdict []).trans (if_neg hother)
    unfold judge
    split
    · rename_i hpassed
      exact accords_ok (by rw [hquiet (by rw [hpassed]; decide)]; rfl) ()
    split
    · rename_i hfailed
      subst hfailed
      exact accords_error rfl ⟨rfl, rfl⟩
    split
    · exact accords_error (by rw [hquiet ‹_›]; rfl) ⟨‹_›, by decide⟩
    · have hmem : verdict ∈ [Reply.acknowledge, verdict] := by simp
      exact accords_error (by rw [hquiet ‹_›]; rfl) ⟨hmem, ‹_›⟩
  · have hquiet : Request.reset.complaint? t.received = none :=
      failedVerdict?_of_length_le _ _ hlength
    exact accords_error (by rw [halarms, hquiet]; rfl) hadmits

/-- On every chip an operation ends with an error that it admits, and with the complaint that goes
with what it received. -/
theorem Request.accords_plan (request : Request) :
    PlanAccords request.complaint? request.Admits request.plan := by
  refine .of_verdict Keyboard.reset .done (fun hreset => ?_)
    (fun hreset x => tame_plan (of_decide_eq_false hreset)) (fun _ => admits_of_refused) (.inl rfl)
  obtain rfl : request = .reset := of_decide_eq_true hreset
  exact ⟨rfl, ensures_reset⟩

end Keyboard

/-! ## Mouse operations -/

namespace Mouse

/-- An error that an operation can end with once some bytes were received: each kind of reply has
its own, and a value that is refused, given or received, has the one that says so. -/
def Request.Admits (request : Request) (received : List UInt8) : Error → Prop
  | .resend reply => reply = Reply.resend
  | .selfTestFailed reply => reply = Reply.selfTestFailed ∧ request = .reset
  | .invalidResponse reply => reply ∈ received ∧ reply ≠ Reply.resend
  | .invalidResolution value =>
    request = .setResolution value ∧ resolutionIndex? value = none ∨
    request = .status ∧ resolution? value = none ∧ ∃ flags rate, [flags, value, rate] <:+ received
  | .invalidSampleRate rate => isSampleRate rate = false ∧
      (request = .setSampleRate rate ∨
        request = .status ∧ ∃ flags index, [flags, index, rate] <:+ received)
  | .controller cause => cause = .busy ∨ ∃ stall, cause = .stalled stall

def Request.complaint? (request : Request) (received : List UInt8) : Option Message :=
  failedVerdict? (.ofString "[MOUSE] mouse self-test") (request = .reset) received

variable {request : Request}

instance : AllowsStalls request.Admits := ⟨fun _ stall => .inr ⟨stall, rfl⟩⟩

theorem Request.admits_of_refused {e : Error} (hplan : request.plan = .error e) :
    request.Admits [] e := by
  cases request with
  | setResolution countsPerMm =>
    rw [plan] at hplan
    split at hplan <;> cases hplan
    exact .inl ⟨rfl, ‹_›⟩
  | setSampleRate rate =>
    rw [plan] at hplan
    split at hplan <;> cases hplan
    exact ⟨by simpa using ‹¬ isSampleRate rate = true›, .inl rfl⟩
  | _ => cases hplan

theorem admits_refusal (received : List UInt8) (reply : UInt8)
    (_ : reply ≠ Reply.acknowledge) : request.Admits (received ++ [reply]) (refusal reply) := by
  unfold refusal
  split
  · exact ‹_›
  · exact ⟨List.mem_concat_self, ‹_›⟩

theorem tame_sendToMouse (byte : UInt8) :
    (Controller.sendToMouse byte : Exchange Error Unit).Tame request.Admits :=
  Controller.tame_order .toMouse byte

theorem tame_acknowledged : acknowledged.Tame request.Admits :=
  checks_acknowledged.tame admits_refusal

theorem tame_command (c : Command) : (command c).Tame request.Admits :=
  (tame_sendToMouse c.code).bind fun _ => tame_acknowledged

theorem tame_order (c : Command) (parameter : UInt8) : (order c parameter).Tame request.Admits :=
  (tame_command c).bind fun _ => (tame_sendToMouse parameter).bind fun _ => tame_acknowledged

/-- The status is looked at only when all three bytes of it were received. -/
theorem tame_status : status.Tame Request.status.Admits := by
  refine (tame_command _).bind fun _ received => ?_
  refine ⟨accords_stalled rfl, fun flags => ?_⟩
  refine ⟨accords_stalled rfl, fun index => ?_⟩
  refine ⟨accords_stalled rfl, fun rate => ?_⟩
  have hreceived : [flags, index, rate] <:+ received ++ [flags] ++ [index] ++ [rate] := by
    simp
  dsimp only [Exchange.bind]
  unfold Status.ofBytes
  cases hindex : resolution? index with
  | none => exact accords_error rfl (.inr ⟨rfl, hindex, flags, rate, hreceived⟩)
  | some resolution =>
    cases hrate : isSampleRate rate with
    | true => exact accords_ok rfl _
    | false => exact accords_error rfl ⟨hrate, .inr ⟨rfl, flags, index, hreceived⟩⟩

theorem tame_readPacket : readPacket.Tame request.Admits :=
  (Exchange.tame_receiveByte).bind fun flags =>
    (Exchange.tame_receiveByte).bind fun x =>
      (Exchange.tame_receiveByte).bind fun y =>
        Exchange.tame_done (Packet.ofBytes flags x y)

theorem tame_requestPacket : requestPacket.Tame request.Admits :=
  (tame_command _).bind fun _ => tame_readPacket

theorem tame_identify : identify.Tame request.Admits :=
  (tame_command _).bind fun _ => (Exchange.tame_receiveByte).bind fun id _ =>
    accords_ok rfl (Model.ofId id)

theorem tame_resend : resend.Tame request.Admits :=
  (tame_sendToMouse _).bind fun _ => Exchange.tame_again Error.resend fun _ _ hagain => hagain

/-- Every operation but the reset raises no alarm. -/
theorem Request.tame_plan (hreset : request ≠ .reset) {x : Exchange Error Answer}
    (hplan : request.plan = .ok x) : x.Tame request.Admits := by
  cases request with
  | reset => exact absurd rfl hreset
  | scalingOneToOne | scalingTwoToOne | streamMode | remoteMode | wrapMode | leaveWrapMode
  | enableReporting | disableReporting | setDefaults =>
    cases hplan
    exact (tame_command _).seqRight_pure _
  | setResolution countsPerMm =>
    rw [plan] at hplan
    split at hplan <;> cases hplan
    exact (tame_order _ _).seqRight_pure _
  | setSampleRate rate =>
    rw [plan] at hplan
    split at hplan <;> cases hplan
    exact (tame_order _ _).seqRight_pure _
  | status =>
    cases hplan
    exact tame_status.map _
  | requestPacket =>
    cases hplan
    exact tame_requestPacket.map _
  | readPacket =>
    cases hplan
    exact tame_readPacket.map _
  | identify =>
    cases hplan
    exact tame_identify.map _
  | resend =>
    cases hplan
    exact tame_resend.map _

/-- What a reset makes of a verdict, once the identification is received. -/
theorem admits_of_objection? {verdict : UInt8} {e : Error} (h : objection? verdict = some e)
    {received : List UInt8} (hmem : verdict ∈ received) : Request.reset.Admits received e := by
  unfold objection? at h
  repeat' split at h
  all_goals cases h
  · exact ⟨‹_›, rfl⟩
  · exact ‹_›
  · exact ⟨hmem, ‹_›⟩

/-- What is left of a reset after the verdict: the identification is received, then the verdict
counts. -/
def conclude (verdict : UInt8) : Exchange Error Unit :=
  .receive fun _ =>
    match objection? verdict with
    | none => .done ()
    | some e => .fail e

theorem reset_eq : reset = command .reset >>= fun _ => .receive fun verdict =>
    if verdict = Reply.selfTestFailed then
      .note (.normal (.verdict (.ofString "[MOUSE] mouse self-test") false)) (conclude verdict)
    else conclude verdict := rfl

/-- If nothing follows a verdict of failure, a wait that failed is the result. -/
def Cut {α : Type} (t : Transcript) (result : Except Error α) : Prop :=
  t.received = [Reply.acknowledge, Reply.selfTestFailed] →
    ∃ stall : Stall, result = .error stall.fault

/-- What a reset comes to: its complaint, its errors, and that the wait for the identification hides
the verdict if it fails. -/
structure ResetEnds (t : Transcript) (result : Except Error Unit) : Prop extends
    Accords Request.reset.complaint? Request.reset.Admits t result where
  cut : Cut t result

/-- The identification changes nothing about the complaint. -/
theorem ensures_conclude {verdict : UInt8} {raised : List Notice}
    (hraised : raised =
      (Request.reset.complaint? [Reply.acknowledge, verdict]).toList.map .normal) :
    (conclude verdict).Ensures ResetEnds ⟨[Reply.acknowledge, verdict], raised⟩ := by
  refine ⟨fun stall => ⟨accords_stalled hraised stall, fun _ => ⟨stall, rfl⟩⟩, fun id => ?_⟩
  have hsame : Request.reset.complaint? [Reply.acknowledge, verdict] =
      Request.reset.complaint? [Reply.acknowledge, verdict, id] :=
    (failedVerdict?_cons _ verdict []).trans (failedVerdict?_cons _ verdict [id]).symm
  rw [hsame] at hraised
  cases hobjection : objection? verdict with
  | none => exact ⟨accords_ok hraised (), nofun⟩
  | some e =>
    have hmem : verdict ∈ [Reply.acknowledge, verdict, id] := by simp
    exact ⟨accords_error hraised (admits_of_objection? hobjection hmem), nofun⟩

/-- A reset complains if and only if the verdict that follows the acknowledgement is a failure. -/
theorem ensures_reset : reset.Ensures ResetEnds {} := by
  have hsent : (command .reset).Ensures (Answered Request.reset.Admits []) {} :=
    answered_send (answered_send (checks_acknowledged.answered admits_refusal) .data 0xFF)
      .command 0xD4
  rw [reset_eq]
  refine ensures_bind.2 (hsent.mono fun t result hanswered => ?_)
  obtain ⟨rfl, rfl⟩ | ⟨e, rfl, halarms, hlength, hadmits⟩ := hanswered
  · refine ⟨fun stall => ⟨accords_stalled rfl stall, nofun⟩, fun verdict => ?_⟩
    by_cases hfailed : verdict = Reply.selfTestFailed
    · subst hfailed
      exact ensures_conclude rfl
    · have hquiet : Request.reset.complaint? [Reply.acknowledge, verdict] = none :=
        (failedVerdict?_cons _ verdict []).trans (if_neg hfailed)
      dsimp only
      rw [if_neg hfailed]
      exact ensures_conclude (by rw [hquiet]; rfl)
  · have hquiet : Request.reset.complaint? t.received = none :=
      failedVerdict?_of_length_le _ _ hlength
    refine ⟨accords_error (by rw [halarms, hquiet]; rfl) hadmits, fun hreceived => ?_⟩
    rw [hreceived] at hlength
    simp at hlength

/-- On every chip an operation ends with an error that it admits, and with the complaint that goes
with what it received. -/
theorem Request.accords_plan (request : Request) :
    PlanAccords request.complaint? request.Admits request.plan := by
  refine .of_verdict Mouse.reset .done (fun hreset => ?_)
    (fun hreset x => tame_plan (of_decide_eq_false hreset)) (fun _ => admits_of_refused) (.inl rfl)
  obtain rfl : request = .reset := of_decide_eq_true hreset
  exact ⟨rfl, ensures_reset.mono fun t result h => h.toAccords⟩

variable {σ : Type} [Chip σ]

theorem Request.cut_reset (c : Controller) (chip : σ) :
    Cut (Request.reset.perform c chip).1.transcript (Request.reset.perform c chip).1.result := by
  refine c.ensures_carryOut (fun x hplan => ?_) (fun e hplan => nomatch hplan) nofun chip
  cases hplan
  refine ensures_seqRight_pure.2 (ensures_reset.mono fun t result h hreceived => ?_)
  obtain ⟨stall, rfl⟩ := h.cut hreceived
  exact ⟨stall, rfl⟩

end Mouse

end Ps2Host
