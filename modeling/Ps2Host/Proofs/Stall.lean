import Ps2Host.Keyboard.Report
import Ps2Host.Mouse.Report
import Ps2Host.Proofs.Discipline

/-!
# Waits that fail

A wait that fails is the last thing that an operation does on the bus, and its outcome; nothing else
has such an outcome. The one exception is a keyboard that acknowledges the question what it is and
then stays silent, which is an answer.

## Main definitions

* `Operation.Outcome.cause?` — the controller error of an outcome, plain or inside a device's.
* `Operation.failure` — the outcome of an operation that fails with a controller error.
* `Operation.Account` — how the turns of an operation and its outcome belong together.

## Main results

* `Operation.outcome_of_stall` — failed waits and outcomes that report them, one for one.
-/
namespace Ps2Host

open Controller.Fault (Own)

theorem Controller.Probe.result_reportFlush {σ : Type} (count : Nat) (chip : σ) :
    (reportFlush count chip).result = .ok (.dropped count) := by
  unfold reportFlush
  split
  · rename_i h
    rw [h]
    rfl
  · rfl

namespace Operation

/-- The controller error of an outcome, plain or as the cause of an error of a device. -/
def Outcome.cause? : Outcome → Option Controller.Error
  | .controller (.error cause) => some cause
  | .keyboard (.error (.controller cause)) => some cause
  | .mouse (.error (.controller cause)) => some cause
  | _ => none

def Outcome.controllerReport : Outcome → Controller.Report
  | .controller (.error e) => e.report
  | .keyboard (.error e) => e.report.controller
  | .mouse (.error e) => e.report.controller
  | _ => .ok

def failure (operation : Operation) (cause : Controller.Error) : Outcome :=
  match operation with
  | probe _ | controller _ => .controller (.error cause)
  | keyboard _ => .keyboard (.error (.controller cause))
  | mouse _ => .mouse (.error (.controller cause))

@[simp] theorem controllerReport_failure (operation : Operation) (cause : Controller.Error) :
    (operation.failure cause).controllerReport = cause.report := by
  rcases cause with (_ | _) | _ | _ <;> cases operation <;> rfl

@[simp] theorem cause?_failure (operation : Operation) (cause : Controller.Error) :
    (operation.failure cause).cause? = some cause := by
  cases operation <;> rfl

/-- The operation asks the keyboard what it is, and there is an acknowledgement and no more. -/
def Excused (operation : Operation) (turns : List Turn) : Prop :=
  operation = .keyboard .identify ∧ Keyboard.Silent turns

/-- How the turns of an operation and its outcome belong together. -/
inductive Account (operation : Operation) : List Turn → Outcome → Prop
  | moved {turns outcome} (hturns : ∀ turn ∈ turns, turn.isTransfer = true)
      (houtcome : ∀ stall, outcome.cause? ≠ some (.stalled stall)) :
      Account operation turns outcome
  | stalled (before : List Turn) (wait : Trace) (need : Need) (stall : Stall)
      (hbefore : ∀ turn ∈ before, turn.isTransfer = true)
      (hexcused : ¬ operation.Excused (before ++ [.stalled wait need stall])) :
      Account operation (before ++ [.stalled wait need stall]) (operation.failure (.stalled stall))
  | excused {turns} (hexcused : operation.Excused turns) :
      Account operation turns (.keyboard (.ok (.model ⟨.atTranslated, 0, 0⟩)))

theorem Account.of_stall {operation : Operation} {turns : List Turn} {outcome : Outcome}
    (h : Account operation turns outcome) {before : List Turn} {wait : Trace} {need : Need}
    {stall : Stall} {after : List Turn}
    (hturns : turns = before ++ .stalled wait need stall :: after) :
    after = [] ∧
      (operation.Excused turns → outcome = .keyboard (.ok (.model ⟨.atTranslated, 0, 0⟩))) ∧
      (¬ operation.Excused turns → outcome = operation.failure (.stalled stall)) := by
  cases h with
  | moved hmoved =>
    have hstalled := hmoved (.stalled wait need stall) (by simp [hturns])
    cases hstalled
  | stalled _ _ _ _ hbefore hexcused =>
    obtain ⟨rfl, heq, rfl⟩ | hmem := eq_or_mem_of_append_singleton_eq hturns
    · cases heq
      exact ⟨rfl, fun h => absurd h hexcused, fun _ => rfl⟩
    · cases hbefore _ hmem
  | excused hexcused =>
    refine ⟨?_, fun _ => rfl, fun h => absurd hexcused h⟩
    obtain ⟨-, room, reply, silence, rfl⟩ := hexcused
    have hsplit : [Turn.sent room .data Keyboard.Command.identify.code,
        .received reply Reply.acknowledge] ++ [.stalled silence .byte .timeout] = _ := hturns
    obtain ⟨-, -, rfl⟩ | hmem := eq_or_mem_of_append_singleton_eq hsplit
    · rfl
    · simp at hmem

theorem Account.exists_stall {operation : Operation} {turns : List Turn} {outcome : Outcome}
    (h : Account operation turns outcome) {stall : Stall}
    (hcause : outcome.cause? = some (.stalled stall)) :
    ∃ before wait need, turns = before ++ [.stalled wait need stall] ∧
      outcome = operation.failure (.stalled stall) := by
  cases h with
  | moved _ houtcome => exact absurd hcause (houtcome stall)
  | stalled before wait need stall' =>
    rw [cause?_failure] at hcause
    cases hcause
    exact ⟨before, wait, need, rfl, rfl⟩
  | excused => cases hcause

/-- The results of an operation become its outcomes by `wrap`, which shows controller errors. -/
structure Wraps {ε α : Type} [Controller.Fault ε] (operation : Operation)
    (wrap : Except ε α → Outcome) : Prop where
  failure (cause : Controller.Error) :
    wrap (.error (Controller.Fault.ofController cause)) = operation.failure cause
  cause_iff (result : Except ε α) (cause : Controller.Error) :
    (wrap result).cause? = some cause ↔ result = .error (Controller.Fault.ofController cause)

theorem wraps_controller {operation : Operation}
    (h : ∀ cause, operation.failure cause = .controller (.error cause)) :
    Wraps operation Outcome.controller where
  failure cause := (h cause).symm
  cause_iff result cause := by
    cases result <;> simp [Outcome.cause?, Controller.Fault.ofController]

theorem wraps_keyboard (request : Keyboard.Request) :
    Wraps (.keyboard request) Outcome.keyboard where
  failure _ := rfl
  cause_iff result cause := by
    rcases result with (_ | _ | _ | _ | _ | _ | _ | _) | _ <;>
      simp [Outcome.cause?, Controller.Fault.ofController]

theorem wraps_mouse (request : Mouse.Request) : Wraps (.mouse request) Outcome.mouse where
  failure _ := rfl
  cause_iff result cause := by
    rcases result with (_ | _ | _ | _ | _ | _) | _ <;>
      simp [Outcome.cause?, Controller.Fault.ofController]

/-- What is faithful to its waits accounts for them, whatever its errors are called. -/
theorem Account.of_faithful {ε α : Type} [Controller.Fault ε] {operation : Operation}
    {wrap : Except ε α → Outcome} (hwrap : operation.Wraps wrap) {turns : List Turn}
    {result : Except ε α} (hexcused : ¬ operation.Excused turns)
    (h : Turn.Faithful turns result) : Account operation turns (wrap result) := by
  cases h with
  | moved hturns hresult =>
    refine .moved hturns fun stall hstall => ?_
    exact (hresult _ ((hwrap.cause_iff _ _).1 hstall)).2 stall rfl
  | stalled before hbefore wait need stall =>
    rw [Stall.fault, hwrap.failure]
    exact .stalled before wait need stall hbefore hexcused

variable {σ : Type} [Chip σ]

theorem account_probe (p : Controller.Probe) (c : Controller) (chip : σ) :
    Account (.probe p) ((probe p).turns c chip) ((probe p).perform c chip).1.result := by
  have waited (need : Need) (wait : Run σ (Except Stall Unit)) :
      Account (.probe p) (Controller.Probe.turns.stalled need wait)
        (.controller (Controller.Probe.outcome wait.result)) := by
    cases hwait : wait.result with
    | ok => simpa [Controller.Probe.turns.stalled, hwait] using .moved nofun nofun
    | error stall =>
      simp only [Controller.Probe.turns.stalled, hwait]
      exact .stalled [] _ need stall nofun (fun h => nomatch h.1)
  cases p with
  | status => exact .moved nofun nofun
  | awaitByte => exact waited .byte _
  | awaitRoom => exact waited .room _
  | flush =>
    refine .moved nofun fun stall hstall => ?_
    simp [perform, Controller.Probe.perform, Run.map, Run.andThen,
      Controller.Probe.result_reportFlush, Outcome.cause?] at hstall

/-- A device operation accounts for its waits if what it plans does. -/
theorem account_carryOut {ε α : Type} [Controller.Fault ε] {operation : Operation}
    {wrap : Except ε α → Outcome} (hwrap : operation.Wraps wrap)
    {plan : Except ε (Exchange ε α)} (hown : ∀ e, plan = .error e → Own e)
    (hplan : ∀ x turns result, plan = .ok x → Exchange.Course x turns result →
      Account operation turns (wrap result)) (c : Controller) (chip : σ) :
    Account operation (c.turns plan chip) (wrap (c.carryOut plan chip).1.result) := by
  cases plan with
  | error e =>
    refine .moved (by simp [Controller.turns]) fun stall hstall => ?_
    cases (hwrap.cause_iff _ _).1 hstall
    exact (hown _ rfl).2 stall rfl
  | ok x =>
    rw [Controller.carryOut, Controller.hold_eq, Controller.turns]
    cases c.leased with
    | false => exact hplan x _ _ rfl (Exchange.course_turns c.patience x chip)
    | true =>
      refine .moved (by simp) fun stall hstall => ?_
      have hbusy : (wrap (.error (Controller.Fault.ofController .busy))).cause? = some .busy :=
        (hwrap.cause_iff _ _).2 rfl
      cases hbusy.symm.trans hstall

/-- On any chip the turns of an operation and its outcome belong together. -/
theorem account_perform (operation : Operation) (c : Controller) (chip : σ) :
    Account operation (operation.turns c chip) (operation.perform c chip).1.result := by
  cases operation with
  | probe p => exact account_probe p c chip
  | controller request =>
    have hcourse := Exchange.course_turns c.patience request.exchange chip
    exact .of_faithful (wraps_controller fun _ => rfl) (fun h => nomatch h.1)
      (request.within_exchange.of_course hcourse).2
  | keyboard request =>
    refine account_carryOut (wraps_keyboard request) (fun _ => Keyboard.Request.own_of_plan)
      (fun x turns result hplan hcourse => ?_) c chip
    obtain ⟨-, ⟨hnot, hfaithful⟩ | ⟨rfl, hsilent, rfl⟩⟩ :=
      Keyboard.Request.course_plan hplan hcourse
    · refine .of_faithful (wraps_keyboard request) (fun h => hnot ⟨?_, h.2⟩) hfaithful
      exact Operation.keyboard.inj h.1
    · exact .excused ⟨rfl, hsilent⟩
  | mouse request =>
    refine account_carryOut (wraps_mouse request) (fun _ => Mouse.Request.own_of_plan)
      (fun x turns result hplan hcourse => ?_) c chip
    exact .of_faithful (wraps_mouse request) (fun h => nomatch h.1)
      ((Mouse.Request.within_plan hplan).of_course hcourse).2

/-- Wherever a wait fails, all accesses are those of turns. -/
theorem trace_of_turns (operation : Operation) (c : Controller) (chip : σ)
    (h : operation.turns c chip ≠ []) :
    (operation.perform c chip).1.trace = (operation.turns c chip).flatMap Turn.trace ∧
      ∀ turn ∈ operation.turns c chip, turn.Regular c.patience := by
  have waited (need : Need)
      (h : Controller.Probe.turns.stalled need (c.patience.await need chip) ≠ []) :
      (c.patience.await need chip).trace =
        (Controller.Probe.turns.stalled need (c.patience.await need chip)).flatMap Turn.trace ∧
      ∀ turn ∈ Controller.Probe.turns.stalled need (c.patience.await need chip),
        turn.Regular c.patience := by
    obtain ⟨hwait, -⟩ | ⟨hwait, hmissed⟩ := c.patience.await_cases need chip
    · simp [Controller.Probe.turns.stalled, hwait] at h
    · simpa [Controller.Probe.turns.stalled, hwait, Turn.trace] using ⟨hmissed, rfl⟩
  have moved (hprobe : ∀ probe, operation ≠ .probe probe) :
      (operation.perform c chip).1.trace = (operation.turns c chip).flatMap Turn.trace ∧
        ∀ turn ∈ operation.turns c chip, turn.Regular c.patience := by
    obtain ⟨htrace, hregular, -⟩ := turns_orderly operation hprobe c chip
    exact ⟨htrace, hregular⟩
  cases operation with
  | controller | keyboard | mouse => exact moved (by simp)
  | probe p =>
    cases p with
    | status | flush => exact absurd rfl h
    | awaitByte => exact waited .byte h
    | awaitRoom => exact waited .room h

/-- A wait that fails is the last thing an operation does on the bus, with all the looks that the
host's patience allows. It is the outcome, unless it is the silence of an old keyboard, and there is
no such outcome without it. -/
theorem outcome_of_stall (operation : Operation) (c : Controller) (chip : σ) :
    let turns := operation.turns c chip
    let performed := (operation.perform c chip).1
    (∀ before wait need stall after, turns = before ++ .stalled wait need stall :: after →
      after = [] ∧ performed.trace = before.flatMap Turn.trace ++ wait ∧
      c.patience.Missed need wait ∧ stall = c.patience.stall need ∧
      (operation.Excused turns →
        performed.result = .keyboard (.ok (.model ⟨.atTranslated, 0, 0⟩))) ∧
      (¬ operation.Excused turns → performed.result = operation.failure (.stalled stall) ∧
        performed.result.controllerReport = { kind := .ofStall stall, response := 0 })) ∧
    (∀ stall, performed.result.cause? = some (.stalled stall) →
      ∃ before wait need, turns = before ++ [.stalled wait need stall] ∧
        performed.result = operation.failure (.stalled stall) ∧
        (stall = .wouldBlock → need = .byte ∧ c.patience.blocking = false) ∧
        (stall = .timeout → c.patience.blocking = false → need = .room)) := by
  intro turns performed
  have haccount : Account operation turns performed.result := account_perform operation c chip
  constructor
  · intro before wait need stall after hturns
    obtain ⟨htrace, hregular⟩ := trace_of_turns operation c chip
      (by show turns ≠ []; simp [hturns])
    obtain ⟨rfl, hexcused, hfailure⟩ := haccount.of_stall hturns
    obtain ⟨hmissed, hstall⟩ := hregular (.stalled wait need stall)
      (by show _ ∈ turns; simp [hturns])
    refine ⟨rfl, ?_, hmissed, hstall, hexcused, fun hnot => ⟨hfailure hnot, ?_⟩⟩
    · rw [htrace]
      show turns.flatMap Turn.trace = _
      simp [hturns, Turn.trace]
    · rw [hfailure hnot, controllerReport_failure, Controller.Error.report]
  · intro stall hcause
    obtain ⟨before, wait, need, hturns, hfailure⟩ := haccount.exists_stall hcause
    obtain ⟨-, hregular⟩ := trace_of_turns operation c chip
      (by show turns ≠ []; simp [hturns])
    obtain ⟨-, rfl⟩ := hregular (.stalled wait need stall) (by show _ ∈ turns; simp [hturns])
    refine ⟨before, wait, need, hturns, hfailure, fun hblock => ?_, fun htimeout hblocking => ?_⟩
    · cases need <;> simp_all [Patience.stall]
    · cases need <;> simp_all [Patience.stall]

end Operation

end Ps2Host
