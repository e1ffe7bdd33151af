import Ps2Host.Proofs.Failures
import Ps2Host.Proofs.Truncation

/-!
# What is logged

The driver never looks at the logger: whatever is delivered, it does the same. Without debugging the
only lines are those of self-tests that failed, one for each operation that learned of it.

## Main definitions

* `Session.withLogger` — a session with another logger.
* `Session.Step.OfDriver` — the steps that have nothing to do with the logger itself.
* `Operation.complaint?` — the message of an operation that learned of a failed self-test.

## Main results

* `Session.run_withLogger_eq` — another logger changes the lines on record and nothing else.
* `Operation.alarms_perform` — an operation raises an alarm if and only if it has a complaint.
* `Session.run_withLogger` — both, for the runs of a session with different loggers.
-/
namespace Ps2Host

/-! ## Other loggers -/

namespace Session

variable {σ : Type}

def withLogger (s : Session σ) (logger : Logger) : Session σ := { s with logger }

/-- The step neither gives the logger a command nor asks for its settings. -/
def Step.OfDriver : Step → Prop
  | operation _ | lease _ | setting _ => True
  | log _ | isDebug => False

def Record.withLogger (record : Record) (logger : Logger) : Record :=
  { record with lines := logger.deliver record.notices }

theorem dropLease_withLogger (s : Session σ) (logger : Logger) (name : Int) :
    (s.withLogger logger).dropLease name = (s.dropLease name).withLogger logger := by
  cases hlookup : s.leases.lookup name <;> simp [dropLease, withLogger, hlookup]

theorem stepLease_withLogger (s : Session σ) (logger : Logger) (step : LeaseStep) :
    (s.withLogger logger).stepLease step =
      ((s.stepLease step).1.withLogger logger, (s.stepLease step).2) := by
  cases step with
  | take name =>
    simp only [stepLease, dropLease_withLogger]
    rfl
  | query name => rfl
  | drop name => simp only [stepLease, dropLease_withLogger]

variable [Chip σ]

theorem step_withLogger {step : Step} (h : step.OfDriver) (s : Session σ) (logger : Logger) :
    (s.withLogger logger).step step =
      ((s.step step).1.withLogger logger, (s.step step).2.withLogger logger) := by
  cases step with
  | operation operation => rfl
  | lease step =>
    simp only [Session.step, stepLease_withLogger]
    rfl
  | setting setting => cases setting <;> rfl
  | log | isDebug => exact absurd h id

/-- Another logger changes the lines on record and nothing else. -/
theorem run_withLogger_eq {steps : List Step} (h : ∀ step ∈ steps, step.OfDriver) (s : Session σ)
    (logger : Logger) :
    (s.withLogger logger).run steps =
      ((s.run steps).1.withLogger logger,
        (s.run steps).2.map fun record => record.withLogger logger) := by
  induction steps generalizing s with
  | nil => rfl
  | cons first rest ih =>
    obtain ⟨hfirst, hrest⟩ := List.forall_mem_cons.1 h
    simp only [run, step_withLogger hfirst, ih hrest, List.map_cons]

end Session

/-! ## Complaints -/

namespace Operation

/-- The message of an operation that learned of a failed self-test, from its outcome or from the
verdict that it received after an acknowledgement. -/
def complaint? : Operation → Outcome → List UInt8 → Option Message
  | controller request, .controller result, _ => request.complaint? result
  | keyboard request, _, received => request.complaint? received
  | mouse request, _, received => request.complaint? received
  | _, _, _ => none

theorem bytes_complaint {operation : Operation} {outcome : Outcome} {received : List UInt8}
    {message : Message} (h : operation.complaint? outcome received = some message) :
    message.line.bytes = message.unbounded := by
  suffices hlength : message.unbounded.length ≤ Line.capacity by
    rw [Message.bytes_line, List.take_of_length_le hlength]
  cases operation with
  | probe => cases h
  | controller request =>
    cases outcome with
    | keyboard | mouse => cases h
    | controller result =>
      simp only [complaint?, Controller.Request.complaint?] at h
      split at h <;> cases h
      rename_i test verdict
      have hcomplaint : test.complaint.length ≤ 40 := by cases test <;> decide
      have hmark : (Text.ofString ": 0x").length = 4 := by decide
      simp only [Message.unbounded, List.length_append, hmark, List.length_cons, List.length_nil,
        Line.capacity]
      omega
  | keyboard | mouse =>
    obtain rfl := eq_of_failedVerdict? h
    decide

variable {σ : Type} [Chip σ]

/-- An operation raises an alarm if and only if it has a complaint, which then is the alarm. -/
theorem alarms_perform (operation : Operation) (c : Controller) (chip : σ) :
    let performed := (operation.perform c chip).1
    alarms performed.notices =
      (operation.complaint? performed.result performed.trace.replies).toList.map .normal := by
  intro performed
  cases operation with
  | probe p => exact (p.calm_perform c.patience chip).alarms
  | controller request => exact (request.ends_perform c.patience chip).alarms
  | keyboard request => exact (request.accords_plan.carryOut c chip).alarms
  | mouse request => exact (request.accords_plan.carryOut c chip).alarms

end Operation

/-! ## Lines -/

namespace Logger

def lineOf (notice : Notice) : Text := notice.message.line.bytes

theorem deliver_of_no_sink (debug : Bool) (notices : List Notice) :
    deliver { debug, sink := false } notices = [] := by
  have hpasses (level : Level) : passes { debug, sink := false } level = false := by
    cases level <;> rfl
  simp [deliver, hpasses]

theorem deliver_of_debug (notices : List Notice) :
    deliver { debug := true, sink := true } notices = notices.map lineOf := by
  have hpasses (level : Level) : passes { debug := true, sink := true } level = true := by
    cases level <;> rfl
  rw [deliver, List.filter_eq_self.2 fun notice _ => hpasses notice.level]
  rfl

theorem deliver_of_no_debug (notices : List Notice) :
    deliver { debug := false, sink := true } notices = (alarms notices).map lineOf := by
  have hpasses (level : Level) :
      passes { debug := false, sink := true } level = decide (level = .normal) := by
    cases level <;> rfl
  simp only [deliver, hpasses]
  rfl

end Logger

/-- The alarms of an operation are delivered as its complaint, if it has one. -/
theorem Operation.lines_perform {σ : Type} [Chip σ] (operation : Operation) (c : Controller)
    (chip : σ) :
    let performed := (operation.perform c chip).1
    (alarms performed.notices).map Logger.lineOf =
      (operation.complaint? performed.result performed.trace.replies).toList.map
        Message.unbounded := by
  intro performed
  have halarms : alarms performed.notices = _ := operation.alarms_perform c chip
  rw [halarms]
  cases hcomplaint : operation.complaint? performed.result performed.trace.replies with
  | none => rfl
  | some message => exact congrArg (fun line => [line]) (bytes_complaint hcomplaint)

namespace Session

variable {σ : Type} [Chip σ]

def Step.complaint? (step : Step) (record : Record) : Option Message :=
  match step, record.outcome with
  | .operation asked, .operation outcome => asked.complaint? outcome record.trace.replies
  | _, _ => none

/-- The complaint of a step is the only line on record of it. A reset of the mouse has one even if
the wait for the identification fails and is the outcome. -/
structure Step.Accounted (step : Step) (record : Record) : Prop where
  lines : record.lines = (step.complaint? record).toList.map Message.unbounded
  hidden : step = .operation (.mouse .reset) → record.trace.replies = [0xFA, 0xFC] →
    ∃ stall : Stall, record.outcome = .operation (.mouse (.error stall.fault))

theorem accounted_step {step : Step} (h : step.OfDriver) (s : Session σ) :
    step.Accounted ((s.withLogger { debug := false, sink := true }).step step).2 := by
  cases step with
  | log | isDebug => exact absurd h id
  | lease step => exact ⟨rfl, nofun⟩
  | setting setting => exact ⟨rfl, nofun⟩
  | operation asked =>
    have hlines := (Logger.deliver_of_no_debug _).trans (asked.lines_perform s.controller s.chip)
    refine ⟨hlines, ?_⟩
    rintro ⟨⟩ hreceived
    obtain ⟨stall, hstall⟩ := Mouse.Request.cut_reset s.controller s.chip hreceived
    exact ⟨stall, congrArg (Outcome.operation ∘ Operation.Outcome.mouse) hstall⟩

theorem accounted_run {steps : List Step} (h : ∀ step ∈ steps, step.OfDriver) (s : Session σ) :
    List.Forall₂ Step.Accounted steps
      ((s.withLogger { debug := false, sink := true }).run steps).2 := by
  induction steps generalizing s with
  | nil => exact .nil
  | cons first rest ih =>
    obtain ⟨hfirst, hrest⟩ := List.forall_mem_cons.1 h
    refine .cons (accounted_step hfirst s) ?_
    rw [step_withLogger hfirst]
    exact ih hrest _

/-- Whatever is delivered of it, a run of the driver goes the same way: its records differ in their
lines only. Without a sink there are none; without debugging they are those of the notices that are
not for debugging, and each step has the one line of its complaint, if it has one. -/
theorem run_withLogger {steps : List Step} (h : ∀ step ∈ steps, step.OfDriver) (s : Session σ) :
    let ran (debug sink : Bool) := (s.withLogger { debug, sink }).run steps
    (∀ debug sink,
      (ran debug sink).1 = (s.run steps).1.withLogger { debug, sink } ∧
      (ran debug sink).2.map Record.outcome = (s.run steps).2.map Record.outcome ∧
      (ran debug sink).2.map Record.trace = (s.run steps).2.map Record.trace ∧
      (ran debug sink).2.map Record.notices = (s.run steps).2.map Record.notices) ∧
    (∀ debug, ∀ record ∈ (ran debug false).2, record.lines = []) ∧
    (∀ record ∈ (ran true true).2, record.lines = record.notices.map Logger.lineOf) ∧
    (∀ record ∈ (ran false true).2, record.lines =
      (record.notices.filter fun notice => notice.level = .normal).map Logger.lineOf) ∧
    List.Forall₂ Step.Accounted steps (ran false true).2 := by
  intro ran
  have hran (debug sink : Bool) : ran debug sink =
      ((s.run steps).1.withLogger { debug, sink },
        (s.run steps).2.map fun record => record.withLogger { debug, sink }) :=
    run_withLogger_eq h s { debug, sink }
  have hlines (debug sink : Bool) : ∀ record ∈ (ran debug sink).2,
      record.lines = Logger.deliver { debug, sink } record.notices := by
    intro record hrecord
    rw [hran] at hrecord
    obtain ⟨old, -, rfl⟩ := List.mem_map.1 hrecord
    rfl
  refine ⟨fun debug sink => ?_, fun debug record hrecord => ?_, fun record hrecord => ?_,
    fun record hrecord => ?_, accounted_run h s⟩
  · rw [hran]
    simp [Record.withLogger, Function.comp_def]
  · rw [hlines _ _ record hrecord, Logger.deliver_of_no_sink]
  · rw [hlines _ _ record hrecord, Logger.deliver_of_debug]
  · exact (hlines _ _ record hrecord).trans (Logger.deliver_of_no_debug _)

/-- A mouse that says that its self-test failed, and then not what it is: there is a line, but the
outcome is that the host waited in vain. -/
theorem run_withLogger_hidden :
    let s : Session ScriptedChip :=
      { controller := { patience := { limit := 3 } }
        chip := { rules := [(⟨.mouse, some 0xFF⟩, [⟨0, 0xFA⟩, ⟨1, 0xFC⟩])] } }
    let steps : List Step := [.lease (.query 1), .operation (.mouse .reset)]
    let ran := (s.withLogger { debug := false, sink := true }).run steps
    (∀ step ∈ steps, step.OfDriver) ∧
    ran.2.map Record.lines =
      [[], [(Message.verdict (.ofString "[MOUSE] mouse self-test") false).unbounded]] ∧
    List.Forall₂ Step.Accounted steps ran.2 := by
  intro s steps ran
  have hsteps : ∀ step ∈ steps, step.OfDriver := by simp [steps, Step.OfDriver]
  obtain ⟨-, -, -, -, haccounted⟩ := run_withLogger hsteps s
  exact ⟨hsteps, by decide +kernel, haccounted⟩

end Session

end Ps2Host
