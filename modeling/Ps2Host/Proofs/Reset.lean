import Ps2Host.Proofs.Failures
import Ps2Host.Proofs.Handshake

/-!
# Resets

A device that is reset acknowledges that, tests itself and sends a verdict; a mouse then sends what
it is, whatever the verdict. All of this is received before the verdict counts, so a wait that fails
hides it, and what the mouse is makes no difference.

## Main definitions

* `Device` — the two devices, with the operation that resets each.
* `Device.frame` — what is written to reset each.
* `Device.sequel` — how many bytes follow the acknowledgement.
* `Device.Verdict` — the outcome that a verdict means.

## Main results

* `Device.perform_reset` — the bytes read say how a reset ends.
-/
namespace Ps2Host

inductive Device
  | keyboard
  | mouse
  deriving DecidableEq, Repr

namespace Device

open Operation (Outcome)

def reset : Device → Operation
  | keyboard => .keyboard .reset
  | mouse => .mouse .reset

/-- The writes by which a device is given the command to reset: the controller is told whom it is
for, unless that is the keyboard. -/
def frame : Device → Trace
  | keyboard => [.write .data 0xFF]
  | mouse => [.write .command 0xD4, .write .data 0xFF]

theorem isWrite_frame (device : Device) :
    ∀ access ∈ device.frame, access.isWrite = true := by
  cases device <;> simp [frame, Access.isWrite]

/-- How many bytes a device sends after the acknowledgement: the verdict, and the mouse its
identification too. -/
def sequel : Device → Nat
  | keyboard => 1
  | mouse => 2

def success : Device → Outcome
  | keyboard => .keyboard (.ok .done)
  | mouse => .mouse (.ok .done)

def error (device : Device) (k : Keyboard.Error) (m : Mouse.Error) : Outcome :=
  match device with
  | keyboard => .keyboard (.error k)
  | mouse => .mouse (.error m)

/-- The outcome for a reply to the command that is no acknowledgement. -/
def refused (device : Device) (reply : UInt8) : Outcome :=
  device.error (Keyboard.refusal reply) (Mouse.refusal reply)

/-- The outcome that a verdict means. No byte but these three means anything, not even an
acknowledgement. -/
inductive Verdict (device : Device) : UInt8 → Outcome → Prop
  | passed : Verdict device 0xAA device.success
  | failed : Verdict device 0xFC (device.error (.selfTestFailed 0xFC) (.selfTestFailed 0xFC))
  | resend : Verdict device 0xFE (device.error (.resend 0xFE) (.resend 0xFE))
  | other {verdict} (hpassed : verdict ≠ 0xAA) (hfailed : verdict ≠ 0xFC)
      (hresend : verdict ≠ 0xFE) :
      Verdict device verdict (device.error (.invalidResponse verdict) (.invalidResponse verdict))

/-- The first byte after the acknowledgement is the verdict, and the outcome is what it means. -/
def Judged (device : Device) (bytes : List UInt8) (outcome : Outcome) : Prop :=
  ∀ verdict rest, bytes = verdict :: rest → device.Verdict verdict outcome

theorem judged_cons {device : Device} {verdict : UInt8} {rest : List UInt8} {outcome : Outcome}
    (h : device.Verdict verdict outcome) : device.Judged (verdict :: rest) outcome := by
  rintro _ _ ⟨⟩
  exact h

/-- What a keyboard sends after the acknowledgement is its verdict. -/
theorem collects_judge : Exchange.Collects 1
    (fun bytes result => keyboard.Judged bytes (.keyboard (result.map fun _ => .done)))
    (.receive Keyboard.judge) := by
  refine .receive fun verdict => ?_
  unfold Keyboard.judge
  split
  · rename_i h
    exact .done (judged_cons (h ▸ .passed))
  split
  · rename_i h
    exact .note (.fail (judged_cons (h ▸ .failed)))
  split
  · rename_i h
    exact .fail (judged_cons (h ▸ .resend))
  · exact .fail (judged_cons (.other ‹_› ‹_› ‹_›))

/-- What is left of a reset of the mouse after the verdict objects to it by what it means. -/
theorem collects_conclude (verdict : UInt8) : Exchange.Collects 1
    (fun rest result =>
      mouse.Judged (verdict :: rest) (.mouse (result.map fun _ => Mouse.Answer.done)))
    (Mouse.conclude verdict) := by
  refine .receive fun id => ?_
  cases hobjection : Mouse.objection? verdict with
  | none =>
    refine .done (judged_cons ?_)
    unfold Mouse.objection? at hobjection
    repeat' split at hobjection
    all_goals cases hobjection
    rename_i h
    exact h ▸ .passed
  | some e =>
    refine .fail (judged_cons ?_)
    unfold Mouse.objection? at hobjection
    repeat' split at hobjection
    all_goals cases hobjection
    · rename_i h
      exact h ▸ .failed
    · rename_i h
      exact h ▸ .resend
    · exact .other ‹_› ‹_› ‹_›

/-- What a mouse sends after the acknowledgement is its verdict and then what it is. -/
theorem collects_verdict : Exchange.Collects 2
    (fun bytes result => mouse.Judged bytes (.mouse (result.map fun _ => Mouse.Answer.done)))
    (.receive fun verdict =>
      if verdict = Reply.selfTestFailed then
        .note (.normal (.verdict (.ofString "[MOUSE] mouse self-test") false))
          (Mouse.conclude verdict)
      else Mouse.conclude verdict) := by
  refine .receive fun verdict => ?_
  split
  · exact .note (collects_conclude verdict)
  · exact collects_conclude verdict

/-- A reset that is concluded has the outcome that the bytes received say. -/
theorem of_concluded {ε : Type} [Controller.Fault ε] (device : Device) {refuse : UInt8 → ε}
    {wrap : Except ε Unit → Outcome}
    (hrefuse : ∀ reply, wrap (.error (refuse reply)) = device.refused reply)
    (hstall : ∀ stall : Stall, wrap (.error stall.fault) = device.reset.failure (.stalled stall))
    {turns : List Turn} {result : Except ε Unit}
    (h : Turn.Concluded refuse device.sequel (fun bytes result => device.Judged bytes (wrap result))
      turns result) :
    (Turn.replies turns = [] → ∃ need stall, Turn.Cut turns need stall ∧
      wrap result = device.reset.failure (.stalled stall)) ∧
    (∀ reply rest, Turn.replies turns = reply :: rest → reply ≠ Reply.acknowledge →
      rest = [] ∧ Turn.Moved turns ∧ wrap result = device.refused reply) ∧
    ∀ rest, Turn.replies turns = Reply.acknowledge :: rest → rest.length ≤ device.sequel ∧
      (rest.length = device.sequel ↔ Turn.Moved turns) ∧
      (rest.length < device.sequel → ∃ stall, Turn.Cut turns .byte stall ∧
        wrap result = device.reset.failure (.stalled stall)) ∧
      (rest.length = device.sequel → device.Judged rest (wrap result)) := by
  obtain ⟨hnone, hrefused, haccepted⟩ := h.of_replies
  refine ⟨fun hreplies => ?_, fun reply rest hreplies hreply => ?_, fun rest hreplies => ?_⟩
  · obtain ⟨need, stall, hcut, rfl⟩ := hnone hreplies
    exact ⟨need, stall, hcut, hstall stall⟩
  · obtain ⟨hrest, hmoved, rfl⟩ := hrefused reply rest hreplies hreply
    exact ⟨hrest, hmoved, hrefuse reply⟩
  · obtain ⟨hlength, hmoved, hshort, hfull⟩ := haccepted rest hreplies
    refine ⟨hlength, hmoved, fun hless => ?_, hfull⟩
    obtain ⟨stall, hcut, rfl⟩ := hshort hless
    exact ⟨stall, hcut, hstall stall⟩

variable {σ : Type} [Chip σ]

/-- Nothing is written to reset a device but its command, and that before anything is read. The
replies to it say how the reset ends. Without one, a wait failed. A first reply that is no
acknowledgement is the last, and is the outcome. After an acknowledgement the host waits for as many
bytes as the device sends, and for no more; it gets all of them if and only if no wait fails. If one
does, that is the outcome; if none does, the verdict is, which is the first of the bytes. -/
theorem perform_reset (device : Device) {c : Controller} (hfree : c.leased = false) (chip : σ) :
    let performed := (device.reset.perform c chip).1
    let turns := device.reset.turns c chip
    let replies := performed.trace.replies
    performed.trace = turns.flatMap Turn.trace ∧
    (performed.trace.writes <+: device.frame ∧
      (replies ≠ [] → performed.trace.moves = device.frame ++ replies.map .read)) ∧
    (replies = [] → ∃ need stall, Turn.Cut turns need stall ∧
      performed.result = device.reset.failure (.stalled stall)) ∧
    (∀ reply rest, replies = reply :: rest → reply ≠ 0xFA →
      rest = [] ∧ Turn.Moved turns ∧ performed.result = device.refused reply) ∧
    ∀ rest, replies = 0xFA :: rest → rest.length ≤ device.sequel ∧
      (rest.length = device.sequel ↔ Turn.Moved turns) ∧
      (rest.length < device.sequel → ∃ stall, Turn.Cut turns .byte stall ∧
        performed.result = device.reset.failure (.stalled stall)) ∧
      (rest.length = device.sequel → device.Judged rest performed.result) := by
  intro performed turns replies
  cases device with
  | keyboard =>
    obtain ⟨hasked, result, hconcluded, hresult⟩ := c.concluded_carryOut hfree
      (Keyboard.asks_command .reset) collects_judge
      (Keyboard.paced_command .reset (.of_collects collects_judge)) keyboard.isWrite_frame
      Keyboard.Request.reset.plan rfl chip
    have hreplies : replies = Turn.replies turns :=
      c.replies_carryOut Keyboard.Request.reset.plan chip
    have houtcome : performed.result = .keyboard (result.map fun _ => .done) :=
      congrArg Outcome.keyboard hresult
    refine ⟨c.trace_carryOut Keyboard.Request.reset.plan chip, hasked, ?_⟩
    rw [hreplies, houtcome]
    exact keyboard.of_concluded (fun _ => rfl) (fun _ => rfl) hconcluded
  | mouse =>
    obtain ⟨hasked, result, hconcluded, hresult⟩ := c.concluded_carryOut hfree
      (Mouse.asks_command .reset) collects_verdict
      (Mouse.paced_command .reset (.of_collects collects_verdict)) mouse.isWrite_frame
      Mouse.Request.reset.plan rfl chip
    have hreplies : replies = Turn.replies turns :=
      c.replies_carryOut Mouse.Request.reset.plan chip
    have houtcome : performed.result = .mouse (result.map fun _ => .done) :=
      congrArg Outcome.mouse hresult
    refine ⟨c.trace_carryOut Mouse.Request.reset.plan chip, hasked, ?_⟩
    rw [hreplies, houtcome]
    exact mouse.of_concluded (fun _ => rfl) (fun _ => rfl) hconcluded

/-- A mouse whose self-test failed and that then sends nothing, and one that sends what it is: the
first is a wait that failed, the second the verdict. -/
theorem perform_reset_failed :
    let c : Controller := { patience := { limit := 3 } }
    let chip (more : List ScriptedChip.Entry) : ScriptedChip :=
      { rules := [(⟨.mouse, some 0xFF⟩, [⟨0, 0xFA⟩, ⟨1, 0xFC⟩] ++ more)] }
    let performed (more : List ScriptedChip.Entry) := (mouse.reset.perform c (chip more)).1
    c.leased = false ∧
    (performed []).trace.replies = [0xFA, 0xFC] ∧
    (∃ stall, Turn.Cut (mouse.reset.turns c (chip [])) .byte stall ∧
      (performed []).result = mouse.reset.failure (.stalled stall)) ∧
    (performed [⟨2, 0xAA⟩]).trace.replies = [0xFA, 0xFC, 0xAA] ∧
    mouse.Verdict 0xFC (performed [⟨2, 0xAA⟩]).result := by
  intro c chip performed
  have hfree : c.leased = false := rfl
  have hsilent : (performed []).trace.replies = [0xFA, 0xFC] := by decide +kernel
  have hcomplete : (performed [⟨2, 0xAA⟩]).trace.replies = [0xFA, 0xFC, 0xAA] := by decide +kernel
  obtain ⟨-, -, -, -, hcut⟩ := perform_reset mouse hfree (chip [])
  obtain ⟨-, -, -, -, hfull⟩ := perform_reset mouse hfree (chip [⟨2, 0xAA⟩])
  obtain ⟨-, -, hshort, -⟩ := hcut [0xFC] hsilent
  obtain ⟨-, -, -, hjudged⟩ := hfull [0xFC, 0xAA] hcomplete
  exact ⟨hfree, hsilent, hshort (by decide), hcomplete, hjudged rfl 0xFC [0xAA] rfl⟩

end Device

end Ps2Host
