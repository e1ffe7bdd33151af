import Ps2Host.Proofs.Dialogue
import Ps2Host.Proofs.Stall

/-!
# Operations that are only acknowledged

Most operations of the keyboard and the mouse give a byte or two and want each acknowledged, and
nothing else. The keyboard gets its bytes as they are; before each byte for the mouse the controller
is told whom it is for. What such an operation does on any chip is a dialogue.

## Main definitions

* `Keyboard.Request.bytes?`, `Mouse.Request.bytes?` — the bytes of such an operation.
* `Keyboard.refusal`, `Mouse.refusal` — what a reply means that is no acknowledgement.
* `Operation.Script` — the bytes, how they are sent, and what comes of the replies.

## Main results

* `Keyboard.Request.plan_of_bytes`, `Mouse.Request.plan_of_bytes` — these operations are cycles.
* `Operation.perform_script` — the replies say what such an operation writes and how it ends.
-/
namespace Ps2Host

open Exchange (cycle)

namespace Keyboard

def Request.bytes? : Request → Option (List UInt8)
  | setLeds leds => some [Command.setLeds.code, leds.bits]
  | setScancodeSet set => if 1 ≤ set ∧ set ≤ 3 then some [Command.scancodeSet.code, set] else none
  | setTypematic rate delay =>
    (Typematic.encode rate delay).toOption.map fun encoded => [Command.setTypematic.code, encoded]
  | enableScanning => some [Command.enableScanning.code]
  | disableScanning => some [Command.disableScanning.code]
  | setDefaults => some [Command.setDefaults.code]
  | allTypematic => some [Command.allTypematic.code]
  | allMakeBreak => some [Command.allMakeBreak.code]
  | allMakeOnly => some [Command.allMakeOnly.code]
  | allTypematicMakeBreak => some [Command.allTypematicMakeBreak.code]
  | keyTypematic scancode => some [Command.keyTypematic.code, scancode]
  | keyMakeBreak scancode => some [Command.keyMakeBreak.code, scancode]
  | keyMakeOnly scancode => some [Command.keyMakeOnly.code, scancode]
  | echo | scancodeSet | identify | resend | reset => none

def refusal (reply : UInt8) : Error :=
  if reply = Reply.resend then .resend reply
  else if reply = Reply.overrun ∨ reply = Reply.keyDetectionError then .keyDetection reply
  else .invalidResponse reply

theorem sends_data (byte : UInt8) :
    (Exchange.sendData byte : Exchange Error Unit).Sends [.write .data byte] :=
  Exchange.sends_done.send .data byte

theorem checks_acknowledged : acknowledged.Checks refusal := by
  refine ⟨_, acknowledged_eq, if_pos rfl, fun reply hreply => ?_⟩
  rw [if_neg hreply, refusal]
  repeat' split
  · exact .inr ⟨_, rfl⟩
  · exact .inl rfl
  · exact .inr ⟨_, rfl⟩

theorem command_eq (c : Command) : command c = cycle .sendData acknowledged [c.code] := by
  simp only [command, cycle, bind_pure_unit]

theorem order_eq (c : Command) (parameter : UInt8) :
    order c parameter = cycle .sendData acknowledged [c.code, parameter] := by
  simp only [order, command, cycle, bind_pure_unit, bind_assoc]

theorem Request.plan_of_bytes {request : Request} {bytes : List UInt8}
    (h : request.bytes? = some bytes) :
    request.plan = .ok (cycle .sendData acknowledged bytes *> pure .done) := by
  cases request with
  | setLeds | keyTypematic | keyMakeBreak | keyMakeOnly =>
    cases h
    rw [plan, order_eq]
  | enableScanning | disableScanning | setDefaults | allTypematic | allMakeBreak | allMakeOnly
  | allTypematicMakeBreak =>
    cases h
    rw [plan, command_eq]
  | setScancodeSet set =>
    rw [bytes?] at h
    split at h <;> cases h
    rw [plan, if_pos ‹_›, order_eq]
  | setTypematic rate delay =>
    rw [bytes?] at h
    rw [plan]
    cases hencode : Typematic.encode rate delay <;> rw [hencode] at h <;> cases h
    rw [← order_eq]
    rfl
  | echo | scancodeSet | identify | resend | reset => cases h

end Keyboard

namespace Mouse

/-- The bytes of an operation that is only acknowledged: a command, and the parameter if it has one
and it is not refused. -/
def Request.bytes? : Request → Option (List UInt8)
  | scalingOneToOne => some [Command.scalingOneToOne.code]
  | scalingTwoToOne => some [Command.scalingTwoToOne.code]
  | setResolution countsPerMm =>
    (resolutionIndex? countsPerMm).map fun index => [Command.setResolution.code, index]
  | setSampleRate rate =>
    if isSampleRate rate then some [Command.setSampleRate.code, rate] else none
  | streamMode => some [Command.streamMode.code]
  | remoteMode => some [Command.remoteMode.code]
  | wrapMode => some [Command.wrapMode.code]
  | leaveWrapMode => some [Command.leaveWrapMode.code]
  | enableReporting => some [Command.enableReporting.code]
  | disableReporting => some [Command.disableReporting.code]
  | setDefaults => some [Command.setDefaults.code]
  | status | requestPacket | readPacket | identify | resend | reset => none

/-- The error that a reply means which is no acknowledgement. -/
def refusal (reply : UInt8) : Error :=
  if reply = Reply.resend then .resend reply else .invalidResponse reply

theorem sends_toMouse (byte : UInt8) : (Controller.sendToMouse byte : Exchange Error Unit).Sends
    [.write .command 0xD4, .write .data byte] :=
  (Exchange.sends_done.send .data byte).send .command 0xD4

theorem acknowledged_eq : acknowledged = .receive fun reply =>
    if reply = Reply.acknowledge then .done ()
    else if reply = Reply.resend then
      .note (.debug (.text (.ofString "[MOUSE] device asked for resend"))) (.fail (.resend reply))
    else
      .note (.debug (.hexField (.ofString "[MOUSE] unexpected reply") reply))
        (.fail (.invalidResponse reply)) := rfl

theorem checks_acknowledged : acknowledged.Checks refusal := by
  refine ⟨_, acknowledged_eq, if_pos rfl, fun reply hreply => ?_⟩
  rw [if_neg hreply, refusal]
  split <;> exact .inr ⟨_, rfl⟩

theorem command_eq (c : Command) :
    command c = cycle Controller.sendToMouse acknowledged [c.code] := by
  simp only [command, cycle, bind_pure_unit]

theorem order_eq (c : Command) (parameter : UInt8) :
    order c parameter = cycle Controller.sendToMouse acknowledged [c.code, parameter] := by
  simp only [order, command, cycle, bind_pure_unit, bind_assoc]

theorem Request.plan_of_bytes {request : Request} {bytes : List UInt8}
    (h : request.bytes? = some bytes) :
    request.plan = .ok (cycle Controller.sendToMouse acknowledged bytes *> pure .done) := by
  cases request with
  | scalingOneToOne | scalingTwoToOne | streamMode | remoteMode | wrapMode | leaveWrapMode
  | enableReporting | disableReporting | setDefaults =>
    cases h
    rw [plan, command_eq]
  | setResolution countsPerMm =>
    rw [bytes?] at h
    rw [plan]
    cases hindex : resolutionIndex? countsPerMm <;> rw [hindex] at h <;> cases h
    rw [← order_eq]
  | setSampleRate rate =>
    rw [bytes?] at h
    split at h <;> cases h
    rw [plan, if_pos ‹_›, order_eq]
  | status | requestPacket | readPacket | identify | resend | reset => cases h

end Mouse

/-! ## Operations -/

namespace Operation

/-- What is given to a device, and what comes of its replies. -/
structure Script where
  bytes : List UInt8
  /-- The writes with which a byte is sent. -/
  frame : UInt8 → Trace
  success : Outcome
  /-- What a reply means that is no acknowledgement. -/
  refused : UInt8 → Outcome

def script? : Operation → Option Script
  | keyboard request => request.bytes?.map fun bytes =>
    { bytes
      frame := fun byte => [.write .data byte]
      success := .keyboard (.ok .done)
      refused := fun reply => .keyboard (.error (Keyboard.refusal reply)) }
  | mouse request => request.bytes?.map fun bytes =>
    { bytes
      frame := fun byte => [.write .command 0xD4, .write .data byte]
      success := .mouse (.ok .done)
      refused := fun reply => .mouse (.error (Mouse.refusal reply)) }
  | probe _ | controller _ => none

def Script.outcome (script : Script) (operation : Operation) : Ending → Outcome
  | .acknowledged => script.success
  | .refused reply => script.refused reply
  | .stalled stall => operation.failure (.stalled stall)

variable {σ : Type} [Chip σ]

/-- What was planned as a cycle is a dialogue, if no one else holds the controller. -/
theorem dialogue_of_plan {ε α : Type} [Controller.Fault ε] {send : UInt8 → Exchange ε Unit}
    {acknowledged : Exchange ε Unit} {frame : UInt8 → Trace} {refuse : UInt8 → ε}
    (hsend : ∀ byte, (send byte).Sends (frame byte))
    (hacknowledged : acknowledged.Acknowledges refuse) {bytes : List UInt8} {a : α}
    {plan : Except ε (Exchange ε α)}
    (hplan : plan = .ok (cycle send acknowledged bytes *> pure a)) {c : Controller}
    (hfree : c.leased = false) (chip : σ) :
    ∃ ending, Dialogue frame bytes (c.carryOut plan chip).1.trace.moves ending ∧
      (c.carryOut plan chip).1.result = (ending.result refuse).map fun _ => a := by
  subst hplan
  have hmap : cycle send acknowledged bytes *> pure a =
      (fun _ => a) <$> cycle send acknowledged bytes := by
    rw [seqRight_eq_bind, map_eq_pure_bind]
  have hcourse := Exchange.course_turns c.patience (cycle send acknowledged bytes *> pure a) chip
  have hregular := Exchange.regular_of_mem_turns c.patience
    (cycle send acknowledged bytes *> pure a) chip
  rw [Controller.carryOut, Controller.hold_eq, hfree, if_neg Bool.false_ne_true,
    Exchange.trace_perform, Turn.moves_flatMap_trace hregular]
  rw [hmap] at hcourse ⊢
  obtain ⟨old, hold, hresult⟩ := hcourse.of_map
  obtain ⟨ending, hdialogue, rfl⟩ := Exchange.dialogue_of_course hsend hacknowledged hold
  exact ⟨ending, hdialogue, hresult⟩

/-- What an operation with a script does is a dialogue. -/
theorem dialogue_perform {operation : Operation} {script : Script}
    (hscript : operation.script? = some script) {c : Controller} (hfree : c.leased = false)
    (chip : σ) :
    ∃ ending, Dialogue script.frame script.bytes (operation.perform c chip).1.trace.moves ending ∧
      (operation.perform c chip).1.result = script.outcome operation ending := by
  cases operation with
  | probe | controller => cases hscript
  | keyboard request =>
    obtain ⟨bytes, hbytes, rfl⟩ := Option.map_eq_some_iff.1 hscript
    obtain ⟨ending, hdialogue, hresult⟩ := dialogue_of_plan Keyboard.sends_data
      Keyboard.checks_acknowledged.acknowledges (Keyboard.Request.plan_of_bytes hbytes) hfree chip
    refine ⟨ending, hdialogue, (congrArg Outcome.keyboard hresult).trans ?_⟩
    cases ending <;> rfl
  | mouse request =>
    obtain ⟨bytes, hbytes, rfl⟩ := Option.map_eq_some_iff.1 hscript
    obtain ⟨ending, hdialogue, hresult⟩ := dialogue_of_plan Mouse.sends_toMouse
      Mouse.checks_acknowledged.acknowledges (Mouse.Request.plan_of_bytes hbytes) hfree chip
    refine ⟨ending, hdialogue, (congrArg Outcome.mouse hresult).trans ?_⟩
    cases ending <;> rfl

section Script

variable {operation : Operation} {script : Script} (hscript : operation.script? = some script)

include hscript

theorem isWrite_frame (byte : UInt8) :
    ∀ access ∈ script.frame byte, access.isWrite = true := by
  cases operation with
  | probe | controller => cases hscript
  | keyboard | mouse =>
    obtain ⟨bytes, -, rfl⟩ := Option.map_eq_some_iff.1 hscript
    simp [Access.isWrite]

theorem outcome_eq_success (ending : Ending) :
    script.outcome operation ending = script.success ↔ ending = .acknowledged := by
  cases operation with
  | probe | controller => cases hscript
  | keyboard | mouse =>
    obtain ⟨bytes, -, rfl⟩ := Option.map_eq_some_iff.1 hscript
    cases ending <;> simp [Script.outcome, failure]

theorem cause?_success : script.success.cause? = none := by
  cases operation with
  | probe | controller => cases hscript
  | keyboard | mouse =>
    obtain ⟨bytes, -, rfl⟩ := Option.map_eq_some_iff.1 hscript
    rfl

/-- A reply is never taken for an error of the controller. -/
theorem cause?_refused (reply : UInt8) : (script.refused reply).cause? = none := by
  cases operation with
  | probe | controller => cases hscript
  | keyboard request =>
    obtain ⟨bytes, -, rfl⟩ := Option.map_eq_some_iff.1 hscript
    simp only [Keyboard.refusal]
    repeat' split
    all_goals rfl
  | mouse request =>
    obtain ⟨bytes, -, rfl⟩ := Option.map_eq_some_iff.1 hscript
    simp only [Mouse.refusal]
    split <;> rfl

theorem cause?_outcome (ending : Ending) (stall : Stall) :
    (script.outcome operation ending).cause? = some (.stalled stall) ↔ ending = .stalled stall := by
  cases ending with
  | acknowledged => simp [Script.outcome, cause?_success hscript]
  | refused reply => simp [Script.outcome, cause?_refused hscript]
  | stalled other => simp [Script.outcome]

end Script

/-- No wait failed if and only if the dialogue does not end with one. -/
theorem moved_iff {operation : Operation} {script : Script}
    (hscript : operation.script? = some script) {c : Controller} {chip : σ} {ending : Ending}
    (hresult : (operation.perform c chip).1.result = script.outcome operation ending) :
    (∀ turn ∈ operation.turns c chip, turn.isTransfer = true) ↔
      ∀ stall, ending ≠ .stalled stall := by
  have haccount := account_perform operation c chip
  constructor
  · rintro hmoved stall rfl
    have hcause := (cause?_outcome hscript _ stall).2 rfl
    obtain ⟨before, wait, need, hturns, -⟩ := haccount.exists_stall (hresult ▸ hcause)
    have hstalled := hmoved (.stalled wait need stall) (by simp [hturns])
    cases hstalled
  · intro hending turn hturn
    cases turn with
    | sent | received => rfl
    | stalled wait need stall =>
      obtain ⟨before, after, hturns⟩ := List.append_of_mem hturn
      have hexcused : ¬ operation.Excused (operation.turns c chip) := by
        rintro ⟨rfl, -⟩
        cases hscript
      have hfailure := (haccount.of_stall hturns).2.2 hexcused
      rw [hresult] at hfailure
      have hcause := (cause?_outcome hscript ending stall).1 (by rw [hfailure, cause?_failure])
      exact absurd hcause (hending stall)

/-- An operation that is only acknowledged sends the bytes of its script one after the other, reads
one reply to each, and goes on only after an acknowledgement. It succeeds if and only if no wait
failed and all replies are acknowledgements; if no wait failed, its error is that of the first reply
which is none. -/
theorem perform_script {operation : Operation} {script : Script}
    (hscript : operation.script? = some script) {c : Controller} (hfree : c.leased = false)
    (chip : σ) :
    let performed := (operation.perform c chip).1
    let replies := performed.trace.replies
    let moved := ∀ turn ∈ operation.turns c chip, turn.isTransfer = true
    performed.trace.writes <+: script.bytes.flatMap script.frame ∧
    (performed.result = script.success →
      performed.trace.writes = script.bytes.flatMap script.frame) ∧
    (∃ cut, performed.trace.moves =
        (script.bytes.zip replies).flatMap (fun sent => script.frame sent.1 ++ [.read sent.2]) ++
          cut ∧
      cut <+: ((script.bytes.drop replies.length).take 1).flatMap script.frame ∧
      (moved → cut = [])) ∧
    (∀ before reply after, performed.trace.moves = before ++ .read reply :: after → after ≠ [] →
      reply = Reply.acknowledge) ∧
    (performed.result = script.success ↔ moved ∧ ∀ reply ∈ replies, reply = Reply.acknowledge) ∧
    (moved → performed.result ≠ script.success → ∃ reply,
      replies.find? (· ≠ Reply.acknowledge) = some reply ∧
        performed.result = script.refused reply) := by
  intro performed replies moved
  obtain ⟨ending, hdialogue, hresult⟩ := dialogue_perform hscript hfree chip
  have hframe := isWrite_frame hscript
  have hmoved : moved ↔ ∀ stall, ending ≠ .stalled stall := moved_iff hscript hresult
  have hsuccess : performed.result = script.success ↔ ending = .acknowledged := by
    rw [hresult, outcome_eq_success hscript]
  have hreplies : performed.trace.moves.replies = replies := Trace.replies_moves _
  rw [← Trace.writes_moves, hsuccess, hmoved, ← hreplies]
  refine ⟨hdialogue.writes_prefix hframe, ?_, hdialogue.moves_eq hframe, ?_,
    hdialogue.acknowledged_iff hframe, ?_⟩
  · rintro rfl
    exact hdialogue.writes_of_acknowledged hframe
  · intro before reply after hsplit hmore
    exact hdialogue.acknowledge_of_more hframe hsplit hmore
  · intro hending hfailed
    cases ending with
    | acknowledged => exact absurd (hsuccess.2 rfl) hfailed
    | stalled stall => exact absurd rfl (hending stall)
    | refused reply => exact ⟨reply, hdialogue.find?_replies hframe, hresult⟩

open ScriptedChip in
/-- A mouse that takes the command for a sample rate, but wants the rate again. -/
theorem perform_script_setSampleRate :
    let operation := Operation.mouse (.setSampleRate 100)
    let chip : ScriptedChip :=
      { rules := [(⟨.mouse, some 0xF3⟩, [⟨0, 0xFA⟩]), (⟨.mouse, some 100⟩, [⟨0, 0xFE⟩])] }
    let performed := (operation.perform {} chip).1
    ∃ script, operation.script? = some script ∧ script.bytes = [0xF3, 100] ∧
      ({} : Controller).leased = false ∧ performed.trace.replies = [0xFA, 0xFE] ∧
      performed.trace.writes <+: script.bytes.flatMap script.frame ∧
      performed.result = script.refused 0xFE := by
  intro operation chip performed
  have hfree : ({} : Controller).leased = false := rfl
  obtain ⟨script, hscript, hbytes⟩ :
      ∃ script, operation.script? = some script ∧ script.bytes = [0xF3, 100] :=
    ⟨_, rfl, rfl⟩
  have hreplies : performed.trace.replies = [0xFA, 0xFE] := by decide +kernel
  have hmoved : ∀ turn ∈ operation.turns {} chip, turn.isTransfer = true := by decide +kernel
  obtain ⟨hwrites, -, -, -, hsuccess, hrefused⟩ := perform_script hscript hfree chip
  refine ⟨script, hscript, hbytes, hfree, hreplies, hwrites, ?_⟩
  have hfailed : performed.result ≠ script.success := fun h => by
    have hreply := (hsuccess.1 h).2 0xFE (by rw [hreplies]; decide)
    cases hreply
  obtain ⟨reply, hfind, hresult⟩ := hrefused hmoved hfailed
  rw [hreplies] at hfind
  obtain rfl : reply = 0xFE := (Option.some.inj hfind).symm
  exact hresult

end Operation

end Ps2Host
